import OsEngineering.BufferSteps

/-! The buffer cache over whole runs of any callers. -/
set_option linter.unusedSectionVars false

namespace BufferRuns

open CircularList FiniteTally KernelParams TransitionSystem BufferCache BufferCoherence
  BufferSteps

variable {η D : Type*} [Fintype η] [DecidableEq η]

structure Cache (s : State η D) : Prop where
  ring : Ring s
  refs : Refs s
  locks : Locks s
  contents : Contents s

section Changes

variable {s t : State η D} {h : η} {b : BufNo} {x : Buf D} {u : Use}

theorem holds_update (hbuf : t.buf = Function.update s.buf b x) (hdev : x.dev = (s.buf b).dev)
    (hno : x.blockno = (s.buf b).blockno) (c : BufNo) (dev : Dev) (blockno : BlockNo) :
    Holds t c dev blockno ↔ Holds s c dev blockno := by
  by_cases hc : c = b
  · subst hc
    rw [Holds, Holds, hbuf, Function.update_self, hdev, hno]
  · rw [Holds, Holds, hbuf, Function.update_of_ne hc]

theorem fresh_update (hbuf : t.buf = Function.update s.buf b x)
    (huse : t.use = Function.update s.use h u) (hon : ∀ c, on u = some c → c = b) {c : BufNo}
    (hc : c ≠ b) (hf : Fresh s c) : Fresh t c := by
  obtain ⟨hv, hd, hoff⟩ := hf
  refine ⟨?_, ?_, fun g hg => ?_⟩
  · rw [hbuf, Function.update_of_ne hc]
    exact hv
  · rw [hbuf, Function.update_of_ne hc]
    exact hd
  · by_cases hgh : g = h
    · rw [hgh, huse, Function.update_self] at hg
      exact hc (hon c hg)
    · rw [huse, Function.update_of_ne hgh] at hg
      exact hoff g hg

theorem refs_change (k : Refs s) (hbuf : t.buf = Function.update s.buf b x)
    (huse : t.use = Function.update s.use h u) (hbefore : ∀ c, on (s.use h) = some c → c = b)
    (hafter : ∀ c, on u = some c → c = b)
    (hcount : x.refcnt + (if on (s.use h) = some b then 1 else 0) =
      (s.buf b).refcnt + if on u = some b then 1 else 0) : Refs t := by
  intro c
  have ht := tally_setUse s h u c
  have huse' : (s.setUse h u).use = t.use := huse.symm
  rw [huse'] at ht
  by_cases hc : c = b
  · rw [hc, hbuf, Function.update_self]
    rw [hc, ← k b] at ht
    omega
  · have h1 : on (s.use h) ≠ some c := fun hb => hc (hbefore c hb)
    have h2 : on u ≠ some c := fun hb => hc (hafter c hb)
    rw [if_neg h1, if_neg h2, ← k c] at ht
    rw [hbuf, Function.update_of_ne hc]
    exact ht.symm

theorem locks_change (k : Locks s) (hlock : t.lock = s.lock)
    (huse : t.use = Function.update s.use h u) (hu : locked u = locked (s.use h)) : Locks t := by
  intro g c
  have hl := locks_setUse k h u hu g c
  have huse' : (s.setUse h u).use = t.use := huse.symm
  rw [huse'] at hl
  rw [hlock]
  exact hl

/-- The buffer a handle already refers to changes, and its block and place do not. -/
theorem ring_change (k : Ring s) (hbuf : t.buf = Function.update s.buf b x)
    (huse : t.use = Function.update s.use h u) (hdev : x.dev = (s.buf b).dev)
    (hno : x.blockno = (s.buf b).blockno) (hlinks : t.links = s.links)
    (hbefore : on (s.use h) = some b) (hafter : on u = some b) : Ring t := by
  refine k.keep hlinks ?_
  intro d c _ hdc dev blockno hd hc
  have hs := hdc dev blockno ((holds_update hbuf hdev hno d dev blockno).mp hd)
    ((holds_update hbuf hdev hno c dev blockno).mp hc)
  refine fresh_update hbuf huse ?_ ?_ hs
  · rw [hafter]
    exact fun e he => (Option.some.inj he).symm
  · rintro rfl
    exact hs.2.2 h hbefore

/-- What every event between bget() and brelse() keeps. -/
theorem keeps_reference (k : Cache s) (hbuf : t.buf = Function.update s.buf b x)
    (huse : t.use = Function.update s.use h u) (hdev : x.dev = (s.buf b).dev)
    (hno : x.blockno = (s.buf b).blockno) (href : x.refcnt = (s.buf b).refcnt)
    (hlinks : t.links = s.links) (hbefore : on (s.use h) = some b) (hafter : on u = some b) :
    Ring t ∧ Refs t := by
  refine ⟨ring_change k.ring hbuf huse hdev hno hlinks hbefore hafter, ?_⟩
  refine refs_change k.refs hbuf huse ?_ ?_ ?_
  · rw [hbefore]
    exact fun c hc => (Option.some.inj hc).symm
  · rw [hafter]
    exact fun c hc => (Option.some.inj hc).symm
  · rw [href, hbefore, hafter]

end Changes

/-! The events. -/

section Events

variable {s : State η D} {h : η} {dev : Dev} {blockno : BlockNo} {b : BufNo}

theorem hit_alone (k : Cache s) (hb : cached s dev blockno = some b) : Alone s b := by
  obtain ⟨hh, l, r, -, hall, hord, hl⟩ := cached_some k.ring hb
  intro c v n hcb hvn hc
  obtain ⟨rfl, rfl⟩ : v = dev ∧ n = blockno := ⟨hvn.1 ▸ hh.1, hvn.2 ▸ hh.2⟩
  rcases List.mem_append.mp (hall c) with hmem | hmem
  · exact absurd hc (hl c hmem)
  · rcases List.mem_cons.mp hmem with rfl | hmem
    · exact absurd rfl hcb
    · have hr := (List.pairwise_append.mp hord).2.1
      exact (List.pairwise_cons.mp hr).1 c hmem v n hvn hc

theorem bget_hit (k : Cache s) (hidle : s.use h = .idle) (hb : cached s dev blockno = some b) :
    Cache (bget s h dev blockno) := by
  have he : bget s h dev blockno =
      (s.setBuf b { s.buf b with refcnt := (s.buf b).refcnt + 1 }).setUse h
        (.waiting dev blockno b) := by
    simp only [bget, hb]
  obtain ⟨hh, l, r, hlinked, hall, hord, hl⟩ := cached_some k.ring hb
  rw [he]
  generalize ht : (s.setBuf b { s.buf b with refcnt := (s.buf b).refcnt + 1 }).setUse h
    (.waiting dev blockno b) = t
  have hbuf : t.buf = Function.update s.buf b { s.buf b with refcnt := (s.buf b).refcnt + 1 } := by
    rw [← ht]
    rfl
  have huse : t.use = Function.update s.use h (.waiting dev blockno b) := by
    rw [← ht]
    rfl
  have hself : on (.waiting dev blockno b) = some b := rfl
  have hon : ∀ c, on (.waiting dev blockno b) = some c → c = b :=
    fun c hc => (Option.some.inj hc).symm
  refine ⟨?_, ?_, ?_, ?_⟩
  · refine ⟨l ++ b :: r, ?_, hall, ?_⟩
    · rw [← ht]
      exact hlinked
    · -- nothing before `b` is of its block, and `b` is the only one that stops being fresh
      have hahead : ∀ d c, (c = b → ¬ Holds s d dev blockno) → Ahead s d c → Ahead t d c := by
        intro d c hcb hdc v n hd hc
        rw [holds_update hbuf rfl rfl] at hd hc
        refine fresh_update hbuf huse hon ?_ (hdc v n hd hc)
        rintro rfl
        refine hcb rfl ?_
        rw [Holds, ← hh.1, ← hh.2, hc.1, hc.2]
        exact hd
      obtain ⟨h1, h2, h3⟩ := List.pairwise_append.mp hord
      obtain ⟨hnotin, -⟩ := List.nodup_cons.mp (List.nodup_middle.mp hlinked.nodup)
      have hml : b ∉ l := fun hm => hnotin (List.mem_append_left r hm)
      have hmr : b ∉ r := fun hm => hnotin (List.mem_append_right l hm)
      obtain ⟨h4, h5⟩ := List.pairwise_cons.mp h2
      refine List.pairwise_append.mpr ⟨?_, List.pairwise_cons.mpr ⟨?_, ?_⟩, ?_⟩
      · refine h1.imp_of_mem fun {d c} hd hc hdc => hahead d c ?_ hdc
        exact fun heq => absurd (heq ▸ hc) hml
      · exact fun c hc => hahead b c (fun heq => absurd (heq ▸ hc) hmr) (h4 c hc)
      · refine h5.imp_of_mem fun {d c} hd hc hdc => hahead d c ?_ hdc
        exact fun heq => absurd (heq ▸ hc) hmr
      · exact fun d hd c hc => hahead d c (fun _ => hl d hd) (h3 d hd c hc)
  · refine refs_change k.refs hbuf huse ?_ hon ?_
    · rw [hidle]
      rintro c ⟨⟩
    · rw [hidle, if_neg (by rintro ⟨⟩), if_pos hself]
  · refine locks_change k.locks ?_ huse ?_
    · rw [← ht]
      rfl
    · rw [hidle]
      rfl
  · rw [← ht]
    exact hit_contents k.contents (hit_alone k hb) hidle hh

theorem bget_recycle (k : Cache s) (hidle : s.use h = .idle) (hn : cached s dev blockno = none)
    (hb : unused s = some b) : Cache (bget s h dev blockno) := by
  have he : bget s h dev blockno = (s.setBuf b { s.buf b with
      dev := dev
      blockno := blockno
      valid := false
      dirty := false
      refcnt := 1 }).setUse h (.waiting dev blockno b) := by
    simp only [bget, hn, hb]
  have hnone := cached_none k.ring hn
  have hfree := unused_some k.ring hb
  have hcontents := recycle_contents k.contents k.refs hidle hfree hnone
  rw [← he] at hcontents
  generalize ht : bget s h dev blockno = t at he hcontents
  generalize hx : ({ s.buf b with
      dev := dev
      blockno := blockno
      valid := false
      dirty := false
      refcnt := 1 } : Buf D) = x at he
  have hkey : x.dev = dev ∧ x.blockno = blockno ∧ x.refcnt = 1 := by
    rw [← hx]
    exact ⟨rfl, rfl, rfl⟩
  have hbuf : t.buf = Function.update s.buf b x := by
    rw [he]
    rfl
  have huse : t.use = Function.update s.use h (.waiting dev blockno b) := by
    rw [he]
    rfl
  have hself : on (.waiting dev blockno b) = some b := rfl
  have hon : ∀ c, on (.waiting dev blockno b) = some c → c = b :=
    fun c hc => (Option.some.inj hc).symm
  have hoff : ∀ c, on (s.use h) = some c → c = b := by
    rw [hidle]
    rintro c ⟨⟩
  -- no other buffer is of the new block
  have hnot : ∀ c v n, c ≠ b → Holds t c v n → ¬ Holds t b v n := by
    intro c v n hc hcv hbv
    rw [Holds, hbuf, Function.update_self, hkey.1, hkey.2.1] at hbv
    rw [Holds, hbuf, Function.update_of_ne hc, ← hbv.1, ← hbv.2] at hcv
    exact hnone c hcv
  refine ⟨?_, ?_, ?_, hcontents⟩
  · refine k.ring.keep (by rw [he]; rfl) ?_
    intro d c hdc ha v n hd hc
    by_cases hcb : c = b
    · subst hcb
      exact absurd hc (hnot d v n hdc hd)
    · by_cases hdb : d = b
      · subst hdb
        exact absurd hd (hnot c v n hcb hc)
      · rw [Holds, hbuf, Function.update_of_ne hcb] at hc
        rw [Holds, hbuf, Function.update_of_ne hdb] at hd
        exact fresh_update hbuf huse hon hcb (ha v n hd hc)
  · refine refs_change k.refs hbuf huse hoff hon ?_
    rw [hidle, if_neg (by rintro ⟨⟩), if_pos hself, hkey.2.2, hfree.1]
  · refine locks_change k.locks (by rw [he]; rfl) huse ?_
    rw [hidle]
    rfl

theorem bget_cache (k : Cache s) (hidle : s.use h = .idle) : Cache (bget s h dev blockno) := by
  cases hn : cached s dev blockno with
  | some b => exact bget_hit k hidle hn
  | none =>
    cases hu : unused s with
    | some b => exact bget_recycle k hidle hn hu
    | none =>
      have he : bget s h dev blockno = { s with halted := some "bget: no buffers" } := by
        simp only [bget, hn, hu]
      obtain ⟨h1, h2, h3, h4⟩ := k
      rw [he]
      exact ⟨h1, h2, h3, ⟨h4.1, h4.2, h4.3, h4.4, h4.5, h4.6, h4.7, h4.8⟩⟩

theorem acquiresleep_cache (k : Cache s) (hw : s.use h = .waiting dev blockno b)
    (hlock : s.lock b = none) : Cache (acquiresleep s h dev blockno b) := by
  have hbefore : on (s.use h) = some b := by
    rw [hw]
    rfl
  generalize hu : (if (s.buf b).valid = true then .holding dev blockno b false
    else .reading dev blockno b : Use) = u
  have huse : (acquiresleep s h dev blockno b).use = Function.update s.use h u := by
    rw [← hu]
    rfl
  have hafter : on u = some b ∧ locked u = some b := by
    rw [← hu]
    split <;> exact ⟨rfl, rfl⟩
  obtain ⟨hring, hrefs⟩ := keeps_reference (t := acquiresleep s h dev blockno b) k
    (Function.update_eq_self b s.buf).symm huse rfl rfl rfl rfl hbefore hafter.1
  refine ⟨hring, hrefs, ?_, acquiresleep_contents k.contents (k.ring.alone hbefore) hw⟩
  intro g c
  change _ ↔ Function.update s.lock b (some h) c = some g
  rw [huse]
  by_cases hg : g = h
  · rw [hg, Function.update_self, hafter.2]
    by_cases hc : c = b
    · rw [hc, Function.update_self]
      exact iff_of_true rfl rfl
    · rw [Function.update_of_ne hc]
      refine iff_of_false (fun heq => hc (Option.some.inj heq).symm) (fun heq => ?_)
      have hbad := (k.locks h c).mpr heq
      rw [hw] at hbad
      exact absurd hbad nofun
  · rw [Function.update_of_ne hg, k.locks g c]
    by_cases hc : c = b
    · rw [hc, Function.update_self, hlock]
      exact iff_of_false nofun (fun heq => hg (Option.some.inj heq).symm)
    · rw [Function.update_of_ne hc]

/-- The events of a handle that has the lock and keeps it. -/
theorem holder_cache (k : Cache s) {t : State η D} {x : Buf D} {u : Use}
    (hbefore : locked (s.use h) = some b) (hafter : locked u = some b)
    (hbuf : t.buf = Function.update s.buf b x) (huse : t.use = Function.update s.use h u)
    (hdev : x.dev = (s.buf b).dev) (hno : x.blockno = (s.buf b).blockno)
    (href : x.refcnt = (s.buf b).refcnt) (hlinks : t.links = s.links) (hlock : t.lock = s.lock)
    (hcontents : Contents t) : Cache t := by
  obtain ⟨hring, hrefs⟩ := keeps_reference k hbuf huse hdev hno href hlinks
    (on_of_locked hbefore) (on_of_locked hafter)
  have hlocks := locks_change k.locks hlock huse (hafter.trans hbefore.symm)
  exact ⟨hring, hrefs, hlocks, hcontents⟩

theorem releasesleep_cache (k : Cache s) (hw : s.use h = .holding dev blockno b false) :
    Cache (releasesleep s h b) := by
  have hbefore : on (s.use h) = some b := by
    rw [hw]
    rfl
  have hmine : s.lock b = some h := by
    refine (k.locks h b).mp ?_
    rw [hw]
    rfl
  obtain ⟨hring, hrefs⟩ := keeps_reference (t := releasesleep s h b) (x := s.buf b)
    (u := .releasing b) k (Function.update_eq_self b s.buf).symm rfl rfl rfl rfl rfl hbefore rfl
  refine ⟨hring, hrefs, ?_, ?_⟩
  · intro g c
    change locked (Function.update s.use h (.releasing b) g) = some c ↔
      Function.update s.lock b none c = some g
    by_cases hg : g = h
    · rw [hg, Function.update_self]
      refine iff_of_false nofun (fun heq => ?_)
      by_cases hc : c = b
      · rw [hc, Function.update_self] at heq
        exact absurd heq nofun
      · rw [Function.update_of_ne hc, ← k.locks h c, hw] at heq
        exact hc (Option.some.inj heq).symm
    · rw [Function.update_of_ne hg, k.locks g c]
      by_cases hc : c = b
      · rw [hc, Function.update_self, hmine]
        exact iff_of_false (fun heq => hg (Option.some.inj heq).symm) nofun
      · rw [Function.update_of_ne hc]
  · refine leave_contents (r := (s.buf b).refcnt) k.contents (k.ring.alone hbefore)
      (Or.inl rfl) hbefore ?_ ?_ rfl rfl rfl
    · rw [hw]
      exact nofun
    · exact (Function.update_eq_self b s.buf).symm

theorem brelse_fields (s : State η D) (h : η) (b : BufNo) :
    (brelse s h b).buf = Function.update s.buf b { s.buf b with refcnt := (s.buf b).refcnt - 1 } ∧
      (brelse s h b).use = Function.update s.use h .idle ∧ (brelse s h b).lock = s.lock ∧
      (brelse s h b).disk = s.disk ∧ (brelse s h b).content = s.content ∧
      ((brelse s h b).links = s.links ∨
        (brelse s h b).links = (s.links.unlink b).pushFront b) := by
  simp only [brelse]
  split
  · exact ⟨rfl, rfl, rfl, rfl, rfl, Or.inr rfl⟩
  · exact ⟨rfl, rfl, rfl, rfl, rfl, Or.inl rfl⟩

theorem brelse_cache (k : Cache s) (hw : s.use h = .releasing b) : Cache (brelse s h b) := by
  obtain ⟨hbuf, huse, hlock, hdisk, hcontent, hlinks⟩ := brelse_fields s h b
  have hbefore : on (s.use h) = some b := by
    rw [hw]
    rfl
  have halone := k.ring.alone hbefore
  have hpos : 0 < (s.buf b).refcnt := by
    rw [k.refs b]
    exact tally_pos hbefore
  have hfresh : ∀ {c}, c ≠ b → Fresh s c → Fresh (brelse s h b) c :=
    fun hc => fresh_update hbuf huse nofun hc
  have hkeep : ∀ c d, d ≠ b → Ahead s c d → Ahead (brelse s h b) c d := by
    intro c d hdb hcd v n hc hd
    rw [holds_update hbuf rfl rfl] at hc hd
    exact hfresh hdb (hcd v n hc hd)
  refine ⟨?_, ?_, ?_, ?_⟩
  · rcases hlinks with hlinks | hlinks
    · refine k.ring.keep hlinks ?_
      intro c d _ hcd v n hc hd
      rw [holds_update hbuf rfl rfl] at hc hd
      have hd' := hcd v n hc hd
      refine hfresh ?_ hd'
      rintro rfl
      exact hd'.2.2 h hbefore
    · refine k.ring.moved halone hlinks ?_ (fun c d _ hd => hkeep c d hd)
      intro c hcb ha v n hb hc
      rw [holds_update hbuf rfl rfl] at hb hc
      exact hfresh hcb (ha c v n hcb hb hc)
  · refine refs_change k.refs hbuf huse ?_ nofun ?_
    · rw [hbefore]
      exact fun c hc => (Option.some.inj hc).symm
    · rw [if_pos hbefore, if_neg nofun]
      exact Nat.sub_add_cancel hpos
  · refine locks_change k.locks hlock huse ?_
    rw [hw]
    rfl
  · refine leave_contents k.contents halone (Or.inr rfl) hbefore ?_ hbuf huse hdisk hcontent
    rw [hw]
    exact nofun

end Events

theorem locked_of_eq {u v : Use} {b : BufNo} (h : u = v) (hb : locked v = some b) :
    locked u = some b := by
  rw [h]
  exact hb

theorem next_cache {s : State η D} (k : Cache s) {e : Event η D} (he : Enabled s e) :
    Cache (next s e) := by
  obtain ⟨-, he⟩ := he
  cases e with
  | bget h dev blockno => exact bget_cache k he
  | acquiresleep h dev blockno b => exact acquiresleep_cache k he.1 he.2
  | readDone h dev blockno b =>
    have hlk := locked_of_eq he rfl
    have hd := (k.contents.reading h dev blockno b he).2
    have hc := readDone_contents k.contents (k.ring.alone (on_of_locked hlk)) k.locks he
    have hi : ideintr s b = s.setBuf b { s.buf b with
        valid := true
        data := s.disk (s.buf b).dev (s.buf b).blockno } := if_neg (by rw [hd]; nofun)
    change Cache ((ideintr s b).setUse h (.holding dev blockno b false))
    rw [hi] at hc ⊢
    exact holder_cache k hlk rfl rfl rfl rfl rfl rfl rfl rfl hc
  | modify h dev blockno b m d =>
    have hlk := locked_of_eq he rfl
    exact holder_cache k hlk rfl rfl rfl rfl rfl rfl rfl rfl
      (modify_contents k.contents (k.ring.alone (on_of_locked hlk)) he d)
  | logWrite h dev blockno b m =>
    have hlk := locked_of_eq he rfl
    exact holder_cache k hlk rfl rfl rfl rfl rfl rfl rfl rfl
      (pin_contents k.contents (k.ring.alone (on_of_locked hlk)) k.locks he (Or.inl rfl))
  | bwrite h dev blockno b m =>
    have hlk := locked_of_eq he rfl
    exact holder_cache k hlk rfl rfl rfl rfl rfl rfl rfl rfl
      (pin_contents k.contents (k.ring.alone (on_of_locked hlk)) k.locks he (Or.inr rfl))
  | writeDone h dev blockno b =>
    have hlk := locked_of_eq he rfl
    have hd := k.contents.writing h dev blockno b he
    have hc := writeDone_contents k.contents (k.ring.alone (on_of_locked hlk)) k.locks he
    have hi : ideintr s b = { s.setBuf b { s.buf b with valid := true, dirty := false } with
        disk := put s.disk (s.buf b).dev (s.buf b).blockno (s.buf b).data } := if_pos hd
    change Cache ((ideintr s b).setUse h (.holding dev blockno b false))
    rw [hi] at hc ⊢
    exact holder_cache k hlk rfl rfl rfl rfl rfl rfl rfl rfl hc
  | releasesleep h dev blockno b => exact releasesleep_cache k he
  | brelse h b => exact brelse_cache k he

theorem initial_cache (zero : D) (disk : Dev → BlockNo → D) :
    Cache (initial zero disk : State η D) := by
  refine ⟨initial_ring zero disk, ?_, ?_, ?_⟩
  · intro b
    simp [initial, tally, on]
  · intro h b
    exact iff_of_false (by rintro ⟨⟩) (by rintro ⟨⟩)
  · refine ⟨?_, ?_, by rintro h dev blockno b ⟨⟩, ?_, by rintro h dev blockno b ⟨⟩, by rintro b ⟨⟩,
      by rintro b dev blockno - ⟨⟩, fun _ _ _ => rfl⟩
    · rintro b c dev blockno ⟨rfl, rfl⟩ - hne
      exact absurd ⟨rfl, rfl⟩ hne
    · rintro h dev blockno b (hg | hg | ⟨m, hg⟩ | hg) <;> cases hg
    · rintro h b ⟨⟩

theorem cache {zero : D} {disk : Dev → BlockNo → D} {es : List (Event η D)} {s : State η D}
    (r : Reaches zero disk es s) : Cache s := by
  refine r.invariant (I := Cache) ?_ ?_
  · rintro s rfl
    exact initial_cache zero disk
  · rintro s e t k ⟨he, rfl⟩
    exact next_cache k he

theorem next_keeps {s : State η D} (k : Cache s) {e : Event η D} {b : BufNo}
    (hb : 0 < (s.buf b).refcnt ∨ (s.buf b).dirty = true) :
    ((next s e).buf b).dev = (s.buf b).dev ∧ ((next s e).buf b).blockno = (s.buf b).blockno := by
  have hset : ∀ (c : BufNo) (x : Buf D), x.dev = (s.buf c).dev → x.blockno = (s.buf c).blockno →
      (Function.update s.buf c x b).dev = (s.buf b).dev ∧
        (Function.update s.buf c x b).blockno = (s.buf b).blockno := by
    intro c x hdev hno
    by_cases hc : b = c
    · subst hc
      rw [Function.update_self]
      exact ⟨hdev, hno⟩
    · rw [Function.update_of_ne hc]
      exact ⟨rfl, rfl⟩
  have hdone : ∀ c, ((ideintr s c).buf b).dev = (s.buf b).dev ∧
      ((ideintr s c).buf b).blockno = (s.buf b).blockno := by
    intro c
    simp only [ideintr]
    split <;> exact hset c _ rfl rfl
  cases e with
  | bget h dev blockno =>
    change ((bget s h dev blockno).buf b).dev = _ ∧ ((bget s h dev blockno).buf b).blockno = _
    cases hn : cached s dev blockno with
    | some c =>
      simp only [bget, hn]
      exact hset c _ rfl rfl
    | none =>
      cases hu : unused s with
      | some c =>
        obtain ⟨hr, hd⟩ := unused_some k.ring hu
        have hc : b ≠ c := by
          rintro rfl
          rcases hb with hb | hb
          · omega
          · rw [hd] at hb
            exact absurd hb nofun
        have hsame : (bget s h dev blockno).buf b = s.buf b := by
          simp only [bget, hn, hu]
          exact Function.update_of_ne hc ..
        rw [hsame]
        exact ⟨rfl, rfl⟩
      | none =>
        have hsame : (bget s h dev blockno).buf = s.buf := by simp only [bget, hn, hu]
        rw [hsame]
        exact ⟨rfl, rfl⟩
  | acquiresleep => exact ⟨rfl, rfl⟩
  | readDone h dev blockno c => exact hdone c
  | modify h dev blockno c m d => exact hset c _ rfl rfl
  | logWrite h dev blockno c m => exact hset c _ rfl rfl
  | bwrite h dev blockno c m => exact hset c _ rfl rfl
  | writeDone h dev blockno c => exact hdone c
  | releasesleep => exact ⟨rfl, rfl⟩
  | brelse h c =>
    change ((brelse s h c).buf b).dev = _ ∧ ((brelse s h c).buf b).blockno = _
    rw [(brelse_fields s h c).1]
    exact hset c _ rfl rfl

/-- bread() returns to a handle by making it `holding`. -/
structure Coherent (s : State η D) : Prop where
  ring : ∃ l, Linked s.links l ∧ ∀ b, b ∈ l
  unique : ∀ b c dev blockno, dev ≠ 0 → Holds s b dev blockno → Holds s c dev blockno → b = c
  pinned : ∀ e t, machine.Step s e t → ∀ b,
    0 < (s.buf b).refcnt ∨ (s.buf b).dirty = true →
      (t.buf b).dev = (s.buf b).dev ∧ (t.buf b).blockno = (s.buf b).blockno
  current : ∀ h dev blockno b unlogged, s.use h = .holding dev blockno b unlogged →
    Holds s b dev blockno ∧ (s.buf b).data = s.content dev blockno

theorem cache_coherent {zero : D} {disk : Dev → BlockNo → D} {es : List (Event η D)}
    {s : State η D} (r : Reaches zero disk es s) : Coherent s := by
  have k := cache r
  constructor
  · obtain ⟨l, hl, hall, -⟩ := k.ring
    exact ⟨l, hl, hall⟩
  · intro b c dev blockno hdev hb hc
    exact k.contents.unique b c dev blockno hb hc fun hun => hdev hun.1
  · rintro e t ⟨-, rfl⟩ b hb
    exact next_keeps k hb
  · intro h dev blockno b m hw
    have hb := k.contents.given h dev blockno b (Or.inr (Or.inr (Or.inl ⟨m, hw⟩)))
    have hlk : locked (s.use h) = some b := locked_of_eq hw rfl
    have hv : (s.buf b).valid = true := k.contents.held h b hlk (by rw [hw]; nofun)
    exact ⟨hb, k.contents.data b dev blockno hb hv⟩

def tail : BufNo := ⟨0, by decide⟩

/-- Block 5 is changed and logged by one caller and read by another; commit() has yet to
write it. -/
def readLogged : List (Event (Fin 2) ℕ) :=
  [.bget p0 1 5, .acquiresleep p0 1 5 tail, .bget p1 1 5, .readDone p0 1 5 tail,
   .modify p0 1 5 tail false 9, .logWrite p0 1 5 tail true, .releasesleep p0 1 5 tail,
   .acquiresleep p1 1 5 tail, .brelse p0 tail, .bget p0 1 6]

theorem cache_coherent_logged :
    Coherent (machine.exec (initial 0 fun _ _ => 7) readLogged) ∧
      (machine.exec (initial 0 fun _ _ => 7) readLogged).use 1 = .holding 1 5 tail false ∧
      ((machine.exec (initial 0 fun _ _ => 7) readLogged).buf tail).data = 9 ∧
      (machine.exec (initial 0 fun _ _ => 7) readLogged).disk 1 5 = 7 :=
  ⟨cache_coherent (Machine.Valid.run (by decide +kernel)), by decide +kernel,
    by decide +kernel, by decide +kernel⟩

end BufferRuns
