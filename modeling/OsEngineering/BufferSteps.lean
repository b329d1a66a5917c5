import OsEngineering.BufferCoherence

/-! Every event of the buffer cache keeps the list, the references, the locks and the
contents. -/
set_option linter.unusedSectionVars false

namespace BufferSteps

open CircularList FiniteTally KernelParams TransitionSystem BufferCache BufferCoherence

variable {η D : Type*} [DecidableEq η]

/-! Contents. -/

/-- Clean blocks were clean before, where nothing was pinned or changed by `h`. -/
theorem clean_before {s t : State η D} {h : η} {b : BufNo} {x : Buf D} {u : Use}
    (hbuf : t.buf = Function.update s.buf b x) (huse : t.use = Function.update s.use h u)
    (hdev : x.dev = (s.buf b).dev) (hno : x.blockno = (s.buf b).blockno)
    (hdirty : x.dirty = (s.buf b).dirty) (hh : ∀ dev blockno c, s.use h ≠ .holding dev blockno c true)
    {dev : Dev} {blockno : BlockNo} (hc : Clean t dev blockno) : Clean s dev blockno := by
  intro d hd
  have ht : Holds t d dev blockno ∧ (t.buf d).dirty = (s.buf d).dirty := by
    by_cases hdb : d = b
    · subst hdb
      rw [Holds, hbuf, Function.update_self, hdev, hno]
      exact ⟨hd, hdirty⟩
    · rw [Holds, hbuf, Function.update_of_ne hdb]
      exact ⟨hd, rfl⟩
  obtain ⟨h1, h2⟩ := hc d ht.1
  refine ⟨ht.2 ▸ h1, fun g hg => ?_⟩
  by_cases hgh : g = h
  · exact hh dev blockno d (hgh ▸ hg)
  · refine h2 g ?_
    rw [huse, Function.update_of_ne hgh]
    exact hg

theorem given_waiting {dev v : Dev} {blockno n : BlockNo} {b c : BufNo}
    (h : Given (.waiting dev blockno b) v n c) : v = dev ∧ n = blockno ∧ c = b := by
  rcases h with h | h | ⟨m, h⟩ | h
  · injection h with h1 h2 h3
    exact ⟨h1.symm, h2.symm, h3.symm⟩
  all_goals exact absurd h nofun

theorem given_reading {dev v : Dev} {blockno n : BlockNo} {b c : BufNo}
    (h : Given (.reading dev blockno b) v n c) : v = dev ∧ n = blockno ∧ c = b := by
  rcases h with h | h | ⟨m, h⟩ | h
  · exact absurd h nofun
  · injection h with h1 h2 h3
    exact ⟨h1.symm, h2.symm, h3.symm⟩
  all_goals exact absurd h nofun

theorem given_holding {dev v : Dev} {blockno n : BlockNo} {b c : BufNo} {m : Bool}
    (h : Given (.holding dev blockno b m) v n c) : v = dev ∧ n = blockno ∧ c = b := by
  rcases h with h | h | ⟨m', h⟩ | h
  · exact absurd h nofun
  · exact absurd h nofun
  · injection h with h1 h2 h3
    exact ⟨h1.symm, h2.symm, h3.symm⟩
  · exact absurd h nofun

theorem given_writing {dev v : Dev} {blockno n : BlockNo} {b c : BufNo}
    (h : Given (.writing dev blockno b) v n c) : v = dev ∧ n = blockno ∧ c = b := by
  rcases h with h | h | ⟨m, h⟩ | h
  · exact absurd h nofun
  · exact absurd h nofun
  · exact absurd h nofun
  · injection h with h1 h2 h3
    exact ⟨h1.symm, h2.symm, h3.symm⟩

theorem sole_locker {s : State η D} (hl : Locks s) {h g : η} {b : BufNo}
    (hh : locked (s.use h) = some b) (hg : g ≠ h) : locked (s.use g) ≠ some b := by
  intro hb
  have h1 := (hl h b).mp hh
  have h2 := (hl g b).mp hb
  rw [h1] at h2
  exact hg (Option.some.inj h2).symm

section Events

variable {s : State η D} {h : η} {dev : Dev} {blockno : BlockNo} {b : BufNo}

theorem hit_contents (k : Contents s) (ha : Alone s b) (hidle : s.use h = .idle)
    (hb : Holds s b dev blockno) :
    Contents ((s.setBuf b { s.buf b with refcnt := (s.buf b).refcnt + 1 }).setUse h
      (.waiting dev blockno b)) := by
  refine k.change (h := h) (b := b) (x := { s.buf b with refcnt := (s.buf b).refcnt + 1 })
    (u := .waiting dev blockno b) ⟨rfl, rfl, rfl, rfl, ?_, ?_, ?_, ?_, ?_, Or.inl ⟨rfl, rfl⟩, ?_, ?_,
      ?_, ?_, ha⟩
  · rw [hidle]
    exact nofun
  · intro v n c hc
    obtain ⟨rfl, rfl, rfl⟩ := given_waiting hc
    exact ⟨rfl, hb⟩
  · exact nofun
  · exact nofun
  · exact nofun
  · exact k.dirty_valid b
  · exact fun _ _ _ => ⟨rfl, rfl⟩
  · exact fun v n => k.data b v n
  · intro v n _ hc
    refine k.disk v n (clean_before (h := h) (b := b)
      (x := { s.buf b with refcnt := (s.buf b).refcnt + 1 }) (u := .waiting dev blockno b)
      rfl rfl rfl rfl rfl ?_ hc)
    rw [hidle]
    exact nofun

/-- An unused and clean buffer gets another block, which is in no other buffer. -/
theorem recycle_contents [Fintype η] (k : Contents s) (hr : Refs s) (hidle : s.use h = .idle)
    (hfree : (s.buf b).refcnt = 0 ∧ (s.buf b).dirty = false)
    (hnone : ∀ c, ¬ Holds s c dev blockno) :
    Contents ((s.setBuf b { s.buf b with
      dev := dev
      blockno := blockno
      valid := false
      dirty := false
      refcnt := 1 }).setUse h (.waiting dev blockno b)) := by
  have hoff := not_on_of_unused hr hfree.1
  generalize hx : ({ s.buf b with
      dev := dev
      blockno := blockno
      valid := false
      dirty := false
      refcnt := 1 } : Buf D) = x
  have hkey : x.dev = dev ∧ x.blockno = blockno ∧ x.valid = false ∧ x.dirty = false := by
    rw [← hx]
    exact ⟨rfl, rfl, rfl, rfl⟩
  have hother : ∀ {c}, c ≠ b → ((s.setBuf b x).setUse h (.waiting dev blockno b)).buf c =
      s.buf c := fun hc => setBuf_of_ne s x hc
  have hself : ((s.setBuf b x).setUse h (.waiting dev blockno b)).buf b = x := setBuf_self s b x
  have huse : ∀ {g c}, on (((s.setBuf b x).setUse h (.waiting dev blockno b)).use g) = some c →
      g ≠ h → s.use g = ((s.setBuf b x).setUse h (.waiting dev blockno b)).use g ∧ c ≠ b := by
    intro g c hg hgh
    rw [setUse_of_ne _ _ hgh] at hg ⊢
    refine ⟨rfl, ?_⟩
    rintro rfl
    exact hoff g hg
  have hown : ((s.setBuf b x).setUse h (.waiting dev blockno b)).use h = .waiting dev blockno b :=
    setUse_self ..
  constructor
  · intro c d v n hc hd hne
    by_cases hcb : c = b
    · by_cases hdb : d = b
      · rw [hcb, hdb]
      · subst hcb
        rw [Holds, hself, hkey.1, hkey.2.1] at hc
        obtain ⟨rfl, rfl⟩ := hc
        rw [Holds, hother hdb] at hd
        exact absurd hd (hnone d)
    · rw [Holds, hother hcb] at hc
      by_cases hdb : d = b
      · subst hdb
        rw [Holds, hself, hkey.1, hkey.2.1] at hd
        obtain ⟨rfl, rfl⟩ := hd
        exact absurd hc (hnone c)
      · rw [Holds, hother hdb] at hd
        exact k.unique c d v n hc hd hne
  · intro g v n c hg
    by_cases hgh : g = h
    · rw [hgh, hown] at hg
      obtain ⟨rfl, rfl, rfl⟩ := given_waiting hg
      rw [Holds, hself]
      exact ⟨hkey.1, hkey.2.1⟩
    · obtain ⟨he, hcb⟩ := huse hg.on hgh
      rw [← he] at hg
      rw [Holds, hother hcb]
      exact k.given g v n c hg
  · intro g v n c hg
    have hgh : g ≠ h := by
      rintro rfl
      rw [hown] at hg
      cases hg
    obtain ⟨he, hcb⟩ := huse (by rw [hg]; rfl) hgh
    rw [← he] at hg
    rw [hother hcb]
    exact k.reading g v n c hg
  · intro g c hg hnr
    have hgh : g ≠ h := by
      rintro rfl
      rw [hown] at hg
      cases hg
    obtain ⟨he, hcb⟩ := huse (on_of_locked hg) hgh
    rw [← he] at hg hnr
    rw [hother hcb]
    exact k.held g c hg hnr
  · intro g v n c hg
    have hgh : g ≠ h := by
      rintro rfl
      rw [hown] at hg
      cases hg
    obtain ⟨he, hcb⟩ := huse (by rw [hg]; rfl) hgh
    rw [← he] at hg
    rw [hother hcb]
    exact k.writing g v n c hg
  · intro c hd
    by_cases hcb : c = b
    · rw [hcb, hself, hkey.2.2.2] at hd
      cases hd
    · rw [hother hcb] at hd ⊢
      exact k.dirty_valid c hd
  · intro c v n hc hv
    by_cases hcb : c = b
    · rw [hcb, hself, hkey.2.2.1] at hv
      cases hv
    · rw [Holds, hother hcb] at hc
      rw [hother hcb] at hv ⊢
      exact k.data c v n hc hv
  · intro v n hclean
    refine k.disk v n ?_
    intro c hc
    by_cases hcb : c = b
    · subst hcb
      refine ⟨hfree.2, fun g hg => hoff g ?_⟩
      rw [hg]
      rfl
    · obtain ⟨h1, h2⟩ := hclean c (by rw [Holds, hother hcb]; exact hc)
      rw [hother hcb] at h1
      refine ⟨h1, fun g hg => ?_⟩
      by_cases hgh : g = h
      · rw [hgh, hidle] at hg
        cases hg
      · exact h2 g ((setUse_of_ne _ _ hgh).trans hg)

theorem acquiresleep_contents (k : Contents s) (ha : Alone s b) (hw : s.use h = .waiting dev blockno b) :
    Contents (acquiresleep s h dev blockno b) := by
  have hb := k.given h dev blockno b (Or.inl hw)
  refine k.change (h := h) (b := b) (x := s.buf b)
    (u := if (s.buf b).valid = true then .holding dev blockno b false
      else .reading dev blockno b)
    ⟨(Function.update_eq_self b s.buf).symm, rfl, rfl, rfl, ?_, ?_, ?_, ?_, ?_,
      Or.inl ⟨rfl, rfl⟩, k.dirty_valid b, fun _ _ _ => ⟨rfl, rfl⟩, fun v n => k.data b v n, ?_, ha⟩
  · rw [hw]
    exact fun c hc => (Option.some.inj hc).symm
  · intro v n c hc
    split at hc
    · obtain ⟨rfl, rfl, rfl⟩ := given_holding hc
      exact ⟨rfl, hb⟩
    · obtain ⟨rfl, rfl, rfl⟩ := given_reading hc
      exact ⟨rfl, hb⟩
  · intro v n c hc
    split at hc
    · exact absurd hc nofun
    · next hv =>
      refine ⟨by simpa using hv, ?_⟩
      by_contra hd
      exact hv (k.dirty_valid b (by simpa using hd))
  · intro c hc hnr
    split at hc
    · next hv => exact hv
    · next hv =>
      rw [if_neg hv] at hnr
      exact absurd (by rw [Option.some.inj hc]) (hnr dev blockno)
  · intro v n c hc
    split at hc <;> exact absurd hc nofun
  · intro v n _ hc
    refine k.disk v n (clean_before (t := acquiresleep s h dev blockno b) (h := h) (b := b)
      (x := s.buf b) (Function.update_eq_self b s.buf).symm rfl rfl rfl rfl ?_ hc)
    rw [hw]
    exact nofun

/-- The buffer being read is the only one of its block, and nobody has changed it. -/
theorem clean_reading (k : Contents s) (ha : Alone s b) (hl : Locks s)
    (hw : s.use h = .reading dev blockno b) {v : Dev} {n : BlockNo} (hb : Holds s b v n) :
    Clean s v n := by
  intro c hc
  by_cases hcb : c ≠ b
  · obtain ⟨-, hdirty, hoff⟩ := ha c v n hcb hb hc
    refine ⟨hdirty, fun g hg => hoff g ?_⟩
    rw [hg]
    rfl
  obtain rfl := not_not.mp hcb
  refine ⟨(k.reading h dev blockno c hw).2, fun g hg => ?_⟩
  have hgh : g ≠ h := by
    rintro rfl
    rw [hw] at hg
    exact absurd hg nofun
  exact sole_locker hl (h := h) (b := c) (by rw [hw]; rfl) hgh (by rw [hg]; rfl)

theorem readDone_contents (k : Contents s) (ha : Alone s b) (hl : Locks s)
    (hw : s.use h = .reading dev blockno b) :
    Contents ((ideintr s b).setUse h (.holding dev blockno b false)) := by
  have hb := k.given h dev blockno b (Or.inr (Or.inl hw))
  have hclean := (k.reading h dev blockno b hw).2
  have he : ideintr s b = s.setBuf b { s.buf b with
      valid := true
      data := s.disk (s.buf b).dev (s.buf b).blockno } := if_neg (by rw [hclean]; nofun)
  rw [he]
  refine k.change (h := h) (b := b) (x := { s.buf b with
      valid := true
      data := s.disk (s.buf b).dev (s.buf b).blockno }) (u := .holding dev blockno b false)
    ⟨rfl, rfl, rfl, rfl, ?_, ?_, nofun, fun _ _ _ => rfl, nofun, Or.inr ?_, fun _ => rfl,
      fun _ _ _ => ⟨rfl, rfl⟩, ?_, ?_, ha⟩
  · rw [hw]
    exact fun c hc => (Option.some.inj hc).symm
  · intro v n c hc
    obtain ⟨rfl, rfl, rfl⟩ := given_holding hc
    exact ⟨rfl, hb⟩
  · exact fun g hg => sole_locker hl (by rw [hw]; rfl) hg
  · rintro v n hvn -
    obtain ⟨rfl, rfl⟩ := hvn
    exact k.disk _ _ (clean_reading k ha hl hw ⟨rfl, rfl⟩)
  · intro v n hvn _
    exact k.disk v n (clean_reading k ha hl hw hvn)

theorem modify_contents (k : Contents s) (ha : Alone s b) {m : Bool}
    (hw : s.use h = .holding dev blockno b m) (d : D) : Contents (modify s h dev blockno b d) := by
  have hb := k.given h dev blockno b (Or.inr (Or.inr (Or.inl ⟨m, hw⟩)))
  refine k.change (h := h) (b := b) (x := { s.buf b with data := d })
    (u := .holding dev blockno b true)
    ⟨rfl, rfl, rfl, rfl, ?_, ?_, nofun, ?_, nofun, Or.inl ⟨rfl, rfl⟩, k.dirty_valid b, ?_, ?_, ?_,
      ha⟩
  · rw [hw]
    exact fun c hc => (Option.some.inj hc).symm
  · intro v n c hc
    obtain ⟨rfl, rfl, rfl⟩ := given_holding hc
    exact ⟨rfl, hb⟩
  · intro c _ _
    exact k.held h b (by rw [hw]; rfl) (by rw [hw]; nofun)
  · intro v n hvn
    refine ⟨if_neg ?_, rfl⟩
    rintro ⟨rfl, rfl⟩
    exact hvn hb
  · rintro v n hvn -
    obtain ⟨rfl, rfl⟩ := hb
    obtain ⟨rfl, rfl⟩ := hvn
    exact (if_pos ⟨rfl, rfl⟩).symm
  · intro v n hvn hc
    have hkey : v = dev ∧ n = blockno := by
      obtain ⟨rfl, rfl⟩ := hb
      exact ⟨hvn.1.symm, hvn.2.symm⟩
    have ht : Holds (modify s h dev blockno b d) b v n := by
      change Holds (s.setBuf b { s.buf b with data := d }) b v n
      simpa only [Holds, setBuf_self] using hvn
    refine absurd ?_ ((hc b ht).2 h)
    rw [hkey.1, hkey.2]
    exact Function.update_self ..

/-- The holder pins the buffer with B_DIRTY. -/
theorem pin_contents (k : Contents s) (ha : Alone s b) (hl : Locks s) {m : Bool}
    (hw : s.use h = .holding dev blockno b m) {u : Use}
    (hu : u = .holding dev blockno b false ∨ u = .writing dev blockno b) :
    Contents ((s.setBuf b { s.buf b with dirty := true }).setUse h u) := by
  have hb := k.given h dev blockno b (Or.inr (Or.inr (Or.inl ⟨m, hw⟩)))
  have hv : (s.buf b).valid = true := k.held h b (by rw [hw]; rfl) (by rw [hw]; rintro _ _ ⟨⟩)
  refine k.change (h := h) (b := b) (x := { s.buf b with dirty := true }) (u := u)
    ⟨rfl, rfl, rfl, rfl, ?_, ?_, ?_, fun _ _ _ => hv, fun _ _ _ _ => rfl, Or.inr ?_, fun _ => hv,
      fun _ _ _ => ⟨rfl, rfl⟩, fun v n => k.data b v n, ?_, ha⟩
  · rw [hw]
    exact fun c hc => (Option.some.inj hc).symm
  · intro v n c hc
    rcases hu with rfl | rfl
    · obtain ⟨rfl, rfl, rfl⟩ := given_holding hc
      exact ⟨rfl, hb⟩
    · obtain ⟨rfl, rfl, rfl⟩ := given_writing hc
      exact ⟨rfl, hb⟩
  · rintro v n c rfl
    rcases hu with hu | hu <;> cases hu
  · exact fun g hg => sole_locker hl (by rw [hw]; rfl) hg
  · intro v n hvn hc
    have ht : Holds ((s.setBuf b { s.buf b with dirty := true }).setUse h u) b v n := by
      change Holds (s.setBuf b { s.buf b with dirty := true }) b v n
      simpa only [Holds, setBuf_self] using hvn
    have hd := (hc b ht).1
    change ((s.setBuf b { s.buf b with dirty := true }).buf b).dirty = false at hd
    rw [setBuf_self] at hd
    cases hd

theorem writeDone_contents (k : Contents s) (ha : Alone s b) (hl : Locks s)
    (hw : s.use h = .writing dev blockno b) :
    Contents ((ideintr s b).setUse h (.holding dev blockno b false)) := by
  have hb := k.given h dev blockno b (Or.inr (Or.inr (Or.inr hw)))
  have hdirty := k.writing h dev blockno b hw
  have hv := k.dirty_valid b hdirty
  have he : ideintr s b = { s.setBuf b { s.buf b with valid := true, dirty := false } with
      disk := put s.disk (s.buf b).dev (s.buf b).blockno (s.buf b).data } := if_pos hdirty
  rw [he]
  refine k.change (h := h) (b := b) (x := { s.buf b with valid := true, dirty := false })
    (u := .holding dev blockno b false)
    ⟨rfl, rfl, rfl, rfl, ?_, ?_, nofun, fun _ _ _ => rfl, nofun, Or.inr ?_, fun _ => rfl,
      ?_, ?_, ?_, ha⟩
  · rw [hw]
    exact fun c hc => (Option.some.inj hc).symm
  · intro v n c hc
    obtain ⟨rfl, rfl, rfl⟩ := given_holding hc
    exact ⟨rfl, hb⟩
  · exact fun g hg => sole_locker hl (by rw [hw]; rfl) hg
  · intro v n hvn
    refine ⟨rfl, if_neg ?_⟩
    rintro ⟨rfl, rfl⟩
    exact hvn ⟨rfl, rfl⟩
  · intro v n hvn _
    exact k.data b v n hvn hv
  · intro v n hvn _
    obtain ⟨rfl, rfl⟩ := hvn
    exact (if_pos ⟨rfl, rfl⟩).trans (k.data b _ _ ⟨rfl, rfl⟩ hv)

/-- The handle leaves its buffer, whose reference count may change. -/
theorem leave_contents (k : Contents s) (ha : Alone s b) {t : State η D} {r : ℕ} {u : Use}
    (hu : u = .releasing b ∨ u = .idle) (hon : on (s.use h) = some b)
    (hh : ∀ v n c, s.use h ≠ .holding v n c true)
    (hbuf : t.buf = Function.update s.buf b { s.buf b with refcnt := r })
    (huse : t.use = Function.update s.use h u) (hdisk : t.disk = s.disk)
    (hcontent : t.content = s.content) : Contents t := by
  have hlock : locked u = none := by
    rcases hu with rfl | rfl <;> rfl
  have hgiven : ∀ v n c, ¬ Given u v n c := by
    rcases hu with rfl | rfl
    · rintro v n c (hc | hc | ⟨m, hc⟩ | hc) <;> exact absurd hc nofun
    · rintro v n c (hc | hc | ⟨m, hc⟩ | hc) <;> exact absurd hc nofun
  refine k.change (h := h) (b := b) (x := { s.buf b with refcnt := r }) (u := u)
    ⟨hbuf, huse, rfl, rfl, ?_, fun v n c hc => absurd hc (hgiven v n c), ?_, ?_, ?_,
      Or.inl ⟨rfl, rfl⟩, k.dirty_valid b, ?_, ?_, ?_, ha⟩
  · rw [hon]
    exact fun c hc => (Option.some.inj hc).symm
  · rintro v n c rfl
    exact absurd (Or.inr (Or.inl rfl)) (hgiven v n c)
  · intro c hc
    rw [hlock] at hc
    exact absurd hc nofun
  · rintro v n c rfl
    exact absurd (Or.inr (Or.inr (Or.inr rfl))) (hgiven v n c)
  · rw [hdisk, hcontent]
    exact fun _ _ _ => ⟨rfl, rfl⟩
  · rw [hcontent]
    exact fun v n => k.data b v n
  · intro v n _ hc
    rw [hdisk, hcontent]
    exact k.disk v n (clean_before hbuf huse rfl rfl rfl hh hc)

end Events

end BufferSteps
