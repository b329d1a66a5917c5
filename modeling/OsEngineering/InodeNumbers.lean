import OsEngineering.InodeReuse

/-! ialloc() and iput() at the granularity of their locks: an inode number in use is not
taken again, and ilock() reads what ialloc() has written. -/
set_option linter.unusedSectionVars false

namespace InodeNumbers

open BlockAllocation ByteBlock FiniteTally HeldLocks InodeAccounts InodeCache InodeReuse
  TransitionSystem

variable {η : Type*} [Fintype η] [DecidableEq η]

section Handles

variable {s : State η} {h : η} {j : Slot}

/-- A handle that is not leaving keeps the number from being free or new. -/
theorem not_free (r : Reuse s) (a : Accounts s) (hon : on (s.use h) = some j)
    (hu : ¬ Leaving (s.use h) j) :
    ¬ ((s.disk (s.icache j).dev (s.icache j).inum).type = 0 ∨
      ∃ g type, g ≠ h ∧ Newborn s g type (s.icache j).dev (s.icache j).inum) := by
  have hpos := a.refs.pos hon
  rintro (hz | ⟨g, ty, hg, hb⟩)
  · exact hu ((r.vacant _ _ hz j hpos ⟨rfl, rfl⟩).1 h id hon)
  · exact hu (((r.newborn g ty _ _ hb).2.2 j hpos ⟨rfl, rfl⟩).1 h (Ne.symm hg) hon)

theorem others_unlocked (a : Accounts s) (hl : locker (s.use h) = some j) {x : Entry} {g : η}
    (hg : g ≠ h) (hon : on (s.use g) = some j) : Fits x (s.use g) :=
  fits_of_unlocked hon (fun hgl => hg (a.locks.sole hl hgl)) x

theorem undisturbed (a : Accounts s) (hl : locker (s.use h) = some j) :
    Undisturbed s j (· ≠ h) := by
  intro g hg
  refine ⟨fun hu => hg (a.locks.sole hl (locker_of_eq hu rfl)), fun hu => hg ?_⟩
  exact a.locks.sole hl (locker_of_eq hu rfl)

theorem undisturbed_all (hun : Undisturbed s j (· ≠ h)) (hc : s.use h ≠ .changing j)
    (hi : s.use h ≠ .putting .invalidating j) : Undisturbed s j (fun _ => True) := by
  intro g _
  by_cases hg : g = h
  · rw [hg]
    exact ⟨hc, hi⟩
  · exact hun g hg

/-- No copy is invalidated under the lock of another handle. -/
theorem no_invalidating (a : Accounts s) (hl : locker (s.use h) = some j)
    (hi : s.use h ≠ .putting .invalidating j) (g : η) : s.use g ≠ .putting .invalidating j := by
  by_cases hg : g = h
  · rw [hg]
    exact hi
  · exact ((undisturbed a hl) g hg).2

theorem on_eq_of {u v : Use} {k : Slot} (hv : u = v) (hj : on v = some j) (hk : on u = some k) :
    k = j := by
  rw [hv, hj] at hk
  exact (Option.some.inj hk).symm

/-- The changes of a handle that is not leaving, neither before nor after. -/
theorem touch_holding (r : Reuse s) (a : Accounts s) {t : State η} {x : Entry} {u v : Use}
    {d : Dinode} (hu : s.use h = u) (hon : on u = some j) (hstay : ¬ Leaving u j)
    (hon' : on v = some j) (hicache : t.icache = Function.update s.icache j x)
    (huse : t.use = Function.update s.use h v)
    (hdisk : t.disk = put s.disk (s.icache j).dev (s.icache j).inum d)
    (hlive : t.live = s.live) (hkey : SameKey x (s.icache j))
    (hd : d.type ≠ 0)
    (hborn : ∀ type, v = .ref (some type) j ∨ v = .loading (some type) j →
      u = .ref (some type) j ∧ d = s.disk (s.icache j).dev (s.icache j).inum ∧
        x.valid = (s.icache j).valid)
    (hsync : x.valid = true → v ≠ .changing j → v ≠ .putting .invalidating j →
      Undisturbed s j (· ≠ h) → x.copy = d)
    (htyped : x.valid = true → v ≠ .putting .invalidating j →
      (∀ g, g ≠ h → s.use g ≠ .putting .invalidating j) → x.copy.type ≠ 0)
    (hfits : Fits x v)
    (hothers : ∀ g, g ≠ h → on (s.use g) = some j → Fits (s.icache j) (s.use g) →
      Fits x (s.use g)) : Reuse t := by
  have honh := on_of_eq hu hon
  have hnf := not_free r a honh (hu ▸ hstay)
  have hold : (s.disk (s.icache j).dev (s.icache j).inum).type ≠ 0 := fun hz => hnf (Or.inl hz)
  have hkj : ∀ {k}, on v = some k → k = j := by
    intro k hk
    rw [hon'] at hk
    exact (Option.some.inj hk).symm
  refine r.touch a (h := h) (j := j) (x := x) (u := v) (d := d) ⟨hicache, huse, hdisk, hkey,
    a.refs.pos honh, fun k => on_eq_of hu hon, fun k => hkj, fun hl => absurd hl hnf,
    fun hz => absurd hz hd, ?_, ?_, hsync, htyped, hfits, hothers, ?_⟩
  · intro ty v' n' hb
    have hself : t.use h = v := by rw [huse, Function.update_self]
    have hx : t.icache j = x := by rw [hicache, Function.update_self]
    rcases hb with hb | ⟨k, hb, hk⟩
    · rw [hself] at hb
      rw [hb] at hon'
      cases hon'
    · rw [hself] at hb
      obtain rfl : k = j := hkj (by rcases hb with hb | hb <;> rw [hb] <;> rfl)
      rw [hx, Key, hkey.1, hkey.2] at hk
      obtain ⟨h1, h2, h3⟩ := hborn ty hb
      obtain ⟨rfl, rfl⟩ := hk
      exact ⟨⟨rfl, rfl⟩, Or.inr ⟨k, Or.inl (hu.trans h1), ⟨rfl, rfl⟩⟩, h2,
        fun hv => h3.symm.trans hv⟩
  · rintro v' ty n rfl
    cases hon'
  · intro v' n
    rw [hlive, hdisk]
    by_cases hk : v' = (s.icache j).dev ∧ n = (s.icache j).inum
    · rw [hk.1, hk.2, put_self, r.live]
      exact iff_of_true hold hd
    · rw [put_of_not _ _ hk]
      exact r.live v' n

/-- The same where entry and disk stay as they are. -/
theorem move_holding (r : Reuse s) (a : Accounts s) {t : State η} {u v : Use}
    (hu : s.use h = u) (hon : on u = some j) (hstay : ¬ Leaving u j) (hchange : u ≠ .changing j)
    (hon' : on v = some j) (hicache : t.icache = s.icache)
    (huse : t.use = Function.update s.use h v) (hdisk : t.disk = s.disk)
    (hlive : t.live = s.live)
    (hborn : ∀ type, v = .ref (some type) j ∨ v = .loading (some type) j →
      u = .ref (some type) j)
    (hfits : Fits (s.icache j) v) : Reuse t := by
  have hnf := not_free r a (on_of_eq hu hon) (hu ▸ hstay)
  have hpos := a.refs.pos (on_of_eq hu hon)
  have hnot : s.use h ≠ .putting .invalidating j := by
    rintro heq
    exact hstay (Or.inl (hu.symm.trans heq))
  refine touch_holding r a (x := s.icache j) (d := s.disk (s.icache j).dev (s.icache j).inum)
    hu hon hstay hon' ?_ huse ?_ hlive ⟨rfl, rfl⟩ (fun hz => hnf (Or.inl hz))
    (fun ty hv => ⟨hborn ty hv, rfl, rfl⟩) ?_ ?_ hfits (fun g _ _ hf => hf)
  · rw [hicache, Function.update_eq_self]
  · rw [hdisk, put_same]
  · intro hv _ _ hun
    exact r.synced j hpos hv (undisturbed_all hun (hu ▸ hchange) hnot)
  · intro hv _ hun
    refine r.typed j hpos hv fun g => ?_
    by_cases hg : g = h
    · rw [hg]
      exact hnot
    · exact hun g hg

end Handles

section Events

variable {s : State η} {h : η} {j : Slot}

theorem stays {u : Use} (h1 : u ≠ .putting .invalidating j) (h2 : u ≠ .putting .releasing j)
    (h3 : u ≠ .putting .dropping j) : ¬ Leaving u j := by
  rintro (h | h | h)
  · exact h1 h
  · exact h2 h
  · exact h3 h

theorem new_invalid (r : Reuse s) (a : Accounts s) {type : Half} (hfree : s.lock j = none)
    (hu : s.use h = .ref (some type) j) : (s.icache j).valid = false := by
  have hb : Newborn s h type (s.icache j).dev (s.icache j).inum :=
    Or.inr ⟨j, Or.inl hu, rfl, rfl⟩
  have hpos := a.refs.pos (on_of_eq hu rfl)
  by_contra hv
  obtain ⟨g, hg⟩ := ((r.newborn h type _ _ hb).2.2 j hpos ⟨rfl, rfl⟩).2 (by simpa using hv)
  exact a.locks.not_held hfree g (locker_of_eq hg rfl)

theorem ilock_reuse (r : Reuse s) (a : Accounts s) {new : Option Half}
    (hu : s.use h = .ref new j) (hfree : s.lock j = none) : Reuse (ilock s h new j) := by
  refine move_holding (h := h) (v := if (s.icache j).valid = true then .locked new j
    else .loading new j) r a hu rfl (stays nofun nofun nofun) nofun ?_ rfl rfl rfl rfl ?_ ?_
  · split <;> rfl
  · intro ty hv
    split at hv
    · rcases hv with hv | hv <;> exact absurd hv nofun
    · rcases hv with hv | hv
      · exact absurd hv nofun
      · injection hv with hv
        rw [hv]
  · split
    · next hv =>
      cases new with
      | none => exact hv
      | some type =>
        rw [new_invalid r a hfree hu] at hv
        exact absurd hv nofun
    · next hv => exact Bool.eq_false_iff.mpr hv

theorem load_reuse (r : Reuse s) (a : Accounts s) {new : Option Half}
    (hu : s.use h = .loading new j) : Reuse (load s h new j) := by
  have hl := locker_of_eq hu rfl
  have hstays : ¬ Leaving (.loading new j) j :=
    stays (by rintro ⟨⟩) (by rintro ⟨⟩) (by rintro ⟨⟩)
  have hnf := not_free r a (on_of_eq hu rfl) (hu ▸ hstays)
  have hty : (s.disk (s.icache j).dev (s.icache j).inum).type ≠ 0 := fun hz => hnf (Or.inl hz)
  have he : load s h new j = (s.setEntry j { s.icache j with
      valid := true
      copy := s.disk (s.icache j).dev (s.icache j).inum }).setUse h (.locked new j) := by
    simp only [load]
    exact if_neg hty
  rw [he]
  refine touch_holding (d := s.disk (s.icache j).dev (s.icache j).inum) r a hu rfl
    hstays rfl rfl rfl (put_same ..).symm rfl ⟨rfl, rfl⟩ hty ?_
    (fun _ _ _ _ => rfl) (fun _ _ _ => hty) ?_ (fun g hg hon _ => others_unlocked a hl hg hon)
  · rintro ty (hv | hv) <;> cases hv
  · cases new with
    | none => rfl
    | some type =>
      have hb : Newborn s h type (s.icache j).dev (s.icache j).inum :=
        Or.inr ⟨j, Or.inr hu, rfl, rfl⟩
      exact ⟨rfl, (r.newborn h type _ _ hb).2.1⟩

theorem valid_of_locked (r : Reuse s) {new : Option Half} (hu : s.use h = .locked new j) :
    (s.icache j).valid = true := by
  have hf := r.fits h j (on_of_eq hu rfl)
  rw [hu] at hf
  cases new with
  | none => exact hf
  | some type => exact hf.1

theorem change_reuse (r : Reuse s) (a : Accounts s) {new : Option Half}
    (hu : s.use h = .locked new j) (x : Dinode) : Reuse (change s h j x) := by
  have hl := locker_of_eq hu rfl
  have hnf := not_free r a (on_of_eq hu rfl) (hu ▸ stays nofun nofun nofun)
  have hv := valid_of_locked r hu
  refine touch_holding (d := s.disk (s.icache j).dev (s.icache j).inum) r a hu rfl
    (stays nofun nofun nofun) rfl rfl rfl (put_same ..).symm rfl ⟨rfl, rfl⟩
    (fun hz => hnf (Or.inl hz)) ?_ (fun _ hc => absurd rfl hc) (fun _ _ _ => ?_) hv
    (fun g hg hon _ => others_unlocked a hl hg hon)
  · rintro ty (hv | hv) <;> exact absurd hv nofun
  · exact r.typed j (a.refs.pos (on_of_locker hl)) hv (no_invalidating a hl (by rw [hu]; nofun))

theorem iupdate_reuse (r : Reuse s) (a : Accounts s) (hu : s.use h = .changing j) :
    Reuse ((s.iupdate j).setUse h (.locked none j)) := by
  have hl := locker_of_eq hu rfl
  have hv : (s.icache j).valid = true := by
    have hf := r.fits h j (on_of_eq hu rfl)
    rw [hu] at hf
    exact hf
  have hty := r.typed j (a.refs.pos (on_of_locker hl)) hv
    (no_invalidating a hl (by rw [hu]; nofun))
  refine touch_holding (x := s.icache j) r a hu rfl (stays nofun nofun nofun) rfl
    (Function.update_eq_self j s.icache).symm rfl rfl rfl ⟨rfl, rfl⟩ hty ?_
    (fun _ _ _ _ => rfl) (fun _ _ _ => hty) hv (fun _ _ _ hf => hf)
  rintro ty (hv | hv) <;> exact absurd hv nofun

theorem iunlock_reuse (r : Reuse s) (a : Accounts s) {new : Option Half}
    (hu : s.use h = .locked new j) : Reuse ((s.setLock j none).setUse h (.ref none j)) := by
  refine move_holding (h := h) r a hu rfl (stays nofun nofun nofun) nofun rfl rfl rfl rfl rfl ?_
    trivial
  rintro ty (hv | hv) <;> exact absurd hv nofun

theorem iput_reuse (r : Reuse s) (a : Accounts s) (hu : s.use h = .ref none j) :
    Reuse (iput s h j) := by
  refine move_holding (h := h) (v := .putting (if (s.icache j).valid = true ∧
    (s.icache j).copy.nlink = 0 then .checking else .releasing) j) r a hu rfl
    (stays nofun nofun nofun) nofun rfl rfl rfl rfl rfl ?_ ?_
  · rintro ty (hv | hv) <;> exact absurd hv nofun
  · split
    · next hz => exact hz
    · trivial

theorem check_reuse (r : Reuse s) (a : Accounts s) (hu : s.use h = .putting .checking j) :
    Reuse (check s h j) := by
  have hf := r.fits h j (on_of_eq hu rfl)
  rw [hu] at hf
  refine move_holding (h := h) (v := .putting (if (s.icache j).ref = 1 then .truncating
    else .releasing) j) r a hu rfl (stays nofun nofun nofun) nofun rfl rfl rfl rfl rfl ?_ ?_
  · rintro ty (hv | hv) <;> exact absurd hv nofun
  · split
    · next hone => exact ⟨hf.1, hf.2, hone⟩
    · trivial

theorem itrunc_reuse (r : Reuse s) (a : Accounts s) (hu : s.use h = .putting .truncating j) :
    Reuse (itrunc s h j) := by
  have hl := locker_of_eq hu rfl
  have hf := r.fits h j (on_of_eq hu rfl)
  rw [hu] at hf
  have hty := r.typed j (a.refs.pos (on_of_locker hl)) hf.1
    (no_invalidating a hl (by rw [hu]; nofun))
  generalize hx : ({ s.icache j with
    copy := { (s.icache j).copy with
      size := 0
      addrs := Vector.replicate (NDIRECT + 1) 0 } } : Entry) = x
  have hsame : x.dev = (s.icache j).dev ∧ x.inum = (s.icache j).inum := by
    rw [← hx]
    exact ⟨rfl, rfl⟩
  have hxty : x.copy.type ≠ 0 := by
    rw [← hx]
    exact hty
  have hfits : Fits x (.putting .clearing j) := by
    rw [← hx]
    exact hf
  have he : itrunc s h j = ((s.setEntry j x).iupdate j).setUse h (.putting .clearing j) := by
    rw [← hx]
    rfl
  have hdisk : (itrunc s h j).disk = put s.disk (s.icache j).dev (s.icache j).inum x.copy := by
    rw [he]
    change put s.disk (Function.update s.icache j x j).dev (Function.update s.icache j x j).inum
      (Function.update s.icache j x j).copy = _
    rw [Function.update_self, hsame.1, hsame.2]
  refine touch_holding (x := x) (d := x.copy) r a hu rfl (stays nofun nofun nofun) rfl
    (by rw [he]; rfl) (by rw [he]; rfl) hdisk (by rw [he]; rfl) hsame hxty ?_
    (fun _ _ _ _ => rfl) (fun _ _ _ => hxty) hfits
    (fun g hg hon _ => others_unlocked a hl hg hon)
  rintro ty (hv | hv) <;> exact absurd hv nofun

theorem idup_reuse (r : Reuse s) (a : Accounts s) {g : η} (hu : s.use h = .idle)
    (hg : Source (s.use g) j) :
    Reuse ((s.setEntry j { s.icache j with ref := (s.icache j).ref + 1 }).setUse h
      (.ref none j)) := by
  have hon := source_on hg
  have hpos := a.refs.pos hon
  have hstay : ¬ Leaving (s.use g) j := by
    rintro (hl | hl | hl) <;>
    · rw [hl] at hg
      exact hg
  have hnf : ¬ ((s.disk (s.icache j).dev (s.icache j).inum).type = 0 ∨
      ∃ f type, f ≠ h ∧ Newborn s f type (s.icache j).dev (s.icache j).inum) := by
    rintro (hz | ⟨f, ty, -, hb⟩)
    · exact not_free r a hon hstay (Or.inl hz)
    · refine not_free r a hon hstay (Or.inr ⟨f, ty, ?_, hb⟩)
      rintro rfl
      rcases hb with hb | ⟨k, hb | hb, -⟩ <;>
      · rw [hb] at hg
        exact hg
  refine r.touch a (h := h) (j := j) (x := { s.icache j with ref := (s.icache j).ref + 1 })
    (u := .ref none j) (d := s.disk (s.icache j).dev (s.icache j).inum)
    ⟨rfl, rfl, (put_same ..).symm, ⟨rfl, rfl⟩, hpos, ?_, fun k hk => (Option.some.inj hk).symm,
      fun hl => absurd hl hnf, fun hz ho => absurd hz ho, ?_, nofun, ?_, ?_, trivial, ?_, r.live⟩
  · rw [hu]
    exact nofun
  · intro ty v n hb
    have hself : ((s.setEntry j { s.icache j with ref := (s.icache j).ref + 1 }).setUse h
      (.ref none j)).use h = .ref none j := Function.update_self ..
    rcases hb with hb | ⟨k, hb | hb, -⟩ <;>
    · rw [hself] at hb
      exact absurd hb nofun
  · intro hv _ _ hun
    exact r.synced j hpos hv (undisturbed_all hun (by rw [hu]; nofun) (by rw [hu]; nofun))
  · intro hv _ hun
    refine r.typed j hpos hv fun f => ?_
    by_cases hf : f = h
    · rw [hf, hu]
      nofun
    · exact hun f hf
  · intro f _ hfon hf
    refine fits_of_same hf hfon rfl rfl fun hlast => ?_
    -- a handle that has seen itself alone is the source itself
    have hone : (s.icache j).ref = 1 := by
      rcases hlast with hl | hl <;>
      · rw [hl] at hf
        exact hf.2.2
    obtain rfl := a.refs.sole hfon hon hone
    rcases hlast with hl | hl <;>
    · rw [hl] at hg
      exact hg.elim

/-- A handle that had no reference, or gives its back, on an entry whose copy stays. -/
theorem touch_count (r : Reuse s) (a : Accounts s) {n : ℤ} {u : Use}
    (hpos : 0 < (s.icache j).ref) (hbefore : ∀ k, on (s.use h) = some k → k = j)
    (hquiet : s.use h ≠ .changing j ∧ s.use h ≠ .putting .invalidating j)
    (hnew : (∃ new, u = .ref new j) ∨ u = .idle)
    (hleft : ((s.disk (s.icache j).dev (s.icache j).inum).type = 0 ∨
        ∃ g type, g ≠ h ∧ Newborn s g type (s.icache j).dev (s.icache j).inum) →
      u = .idle)
    (hborn : ∀ type, u = .ref (some type) j →
      Newborn s h type (s.icache j).dev (s.icache j).inum)
    (halone : ∀ g, g ≠ h → on (s.use g) = some j →
      s.use g = .putting .truncating j ∨ s.use g = .putting .clearing j →
        n = (s.icache j).ref) :
    Reuse ((s.setEntry j { s.icache j with ref := n }).setUse h u) := by
  generalize ht : (s.setEntry j { s.icache j with ref := n }).setUse h u = t
  have hicache : t.icache = Function.update s.icache j { s.icache j with ref := n } := by
    rw [← ht]
    rfl
  have huse : t.use = Function.update s.use h u := by
    rw [← ht]
    rfl
  have hdisk : t.disk = s.disk := by
    rw [← ht]
    rfl
  have hself : t.use h = u := by rw [huse, Function.update_self]
  have hun : Undisturbed s j (· ≠ h) → Undisturbed s j (fun _ => True) :=
    fun hun => undisturbed_all hun hquiet.1 hquiet.2
  refine r.touch a (h := h) (j := j) (x := { s.icache j with ref := n })
    (u := u) (d := s.disk (s.icache j).dev (s.icache j).inum)
    ⟨hicache, huse, ?_, ⟨rfl, rfl⟩, hpos, hbefore, ?_, ?_, fun hz ho => absurd hz ho,
      ?_, ?_, ?_, ?_, ?_, ?_, ?_⟩
  · rw [hdisk, put_same]
  · rcases hnew with ⟨new, rfl⟩ | rfl
    · exact fun k hk => (Option.some.inj hk).symm
    · exact nofun
  · intro hl
    have hidle := hleft hl
    refine ⟨fun hon => ?_, rfl, fun hv => ?_⟩
    · rw [hidle] at hon
      exact absurd hon nofun
    · have hex : ∃ g, s.use g = .putting .invalidating j := by
        rcases hl with hz | ⟨g, ty, -, hb⟩
        · exact (r.vacant _ _ hz j hpos ⟨rfl, rfl⟩).2 hv
        · exact ((r.newborn g ty _ _ hb).2.2 j hpos ⟨rfl, rfl⟩).2 hv
      obtain ⟨g, hg⟩ := hex
      refine ⟨g, ?_⟩
      rw [huse, Function.update_of_ne ?_]
      · exact hg
      · rintro rfl
        exact hquiet.2 hg
  · intro ty v m hb
    rcases hb with hb | ⟨k, hb, hk⟩
    · rw [hself] at hb
      rcases hnew with ⟨new, hu⟩ | hu <;>
      · rw [hb] at hu
        exact absurd hu nofun
    · rw [hself] at hb
      rcases hnew with ⟨new, hu⟩ | hu
      · obtain rfl : k = j := by
          rcases hb with hb | hb <;> rw [hu] at hb
          · injection hb with _ hkj
            exact hkj.symm
          · exact absurd hb nofun
        have hk' : Key (s.icache k) v m := by
          rw [hicache, Function.update_self] at hk
          exact hk
        obtain ⟨rfl, rfl⟩ := hk'
        refine ⟨⟨rfl, rfl⟩, hborn ty ?_, rfl, id⟩
        rcases hb with hb | hb
        · exact hb
        · rw [hu] at hb
          exact absurd hb nofun
      · rcases hb with hb | hb <;>
        · rw [hu] at hb
          exact absurd hb nofun
  · rcases hnew with ⟨new, rfl⟩ | rfl <;> exact nofun
  · exact fun hv _ _ hd => r.synced j hpos hv (hun hd)
  · intro hv _ hd
    refine r.typed j hpos hv fun g => ?_
    by_cases hg : g = h
    · rw [hg]
      exact hquiet.2
    · exact hd g hg
  · rcases hnew with ⟨new, rfl⟩ | rfl <;> trivial
  · exact fun g hg hon hf => fits_of_same hf hon rfl rfl fun hl => halone g hg hon hl
  · rw [hdisk, ← ht]
    exact r.live

/-- The disk inode of a number that is looked up, or was just claimed by the same call. -/
def Looked (s : State η) (h : η) (dev : Dev) (inum : ℕ) (new : Option Half) : Prop :=
  (s.use h = .idle ∧ new = none ∧ (s.disk dev inum).type ≠ 0 ∧ (s.disk dev inum).nlink ≠ 0) ∨
    ∃ type, new = some type ∧ s.use h = .claimed dev type inum

theorem Looked.not_on {dev : Dev} {inum : ℕ} {new : Option Half} (hk : Looked s h dev inum new) :
    on (s.use h) = none := by
  rcases hk with ⟨hu, -⟩ | ⟨ty, -, hu⟩ <;> rw [hu] <;> rfl

/-- The number is neither free nor new to another call. -/
theorem Looked.taken (r : Reuse s) {dev : Dev} {inum : ℕ} {new : Option Half}
    (hk : Looked s h dev inum new) : (s.disk dev inum).type ≠ 0 ∧
      ∀ g type, g ≠ h → ¬ Newborn s g type dev inum := by
  rcases hk with ⟨-, -, hty, hlink⟩ | ⟨ty, -, hu⟩
  · refine ⟨hty, fun g ty _ hb => ?_⟩
    rw [(r.newborn g ty dev inum hb).2.1] at hlink
    exact hlink rfl
  · obtain ⟨hty, hfresh, -⟩ := r.newborn h ty dev inum (Or.inl hu)
    refine ⟨?_, fun g ty' hg hb => hg (r.one h g ty ty' dev inum (Or.inl hu) hb)⟩
    rw [hfresh]
    exact hty

theorem hit_reuse (r : Reuse s) (a : Accounts s) {dev : Dev} {inum : ℕ} {new : Option Half}
    (hk : Looked s h dev inum new) (hj : find s dev inum = some j) :
    Reuse (igetFor s h dev inum new) := by
  obtain ⟨hpos, rfl, rfl⟩ := find_some hj
  obtain ⟨hty, hnone⟩ := hk.taken r
  rw [igetFor_hit hj]
  have hne : s.use h ≠ .changing j ∧ s.use h ≠ .putting .invalidating j := by
    rcases hk with ⟨hu, -⟩ | ⟨ty, -, hu⟩ <;>
    · rw [hu]
      exact ⟨nofun, nofun⟩
  refine touch_count r a hpos ?_ hne (Or.inl ⟨new, rfl⟩) ?_ ?_ ?_
  · rw [hk.not_on]
    exact nofun
  · rintro (hz | ⟨g, ty, hg, hb⟩)
    · exact absurd hz hty
    · exact absurd hb (hnone g ty hg)
  · intro ty hu
    rcases hk with ⟨-, rfl, -⟩ | ⟨ty', rfl, hc⟩
    · injection hu with hu
      exact absurd hu nofun
    · injection hu with hu
      exact Or.inl (Option.some.inj hu ▸ hc)
  · -- the entry of an iput() that frees is not looked up: no name is left, nor is it claimed
    intro g hg hon hl
    have hlk : locker (s.use g) = some j := by
      rcases hl with hl | hl <;> exact locker_of_eq hl rfl
    have hfit := r.fits g j hon
    have hfree : (s.icache j).valid = true ∧ (s.icache j).copy.nlink = 0 := by
      rcases hl with hl | hl <;>
      · rw [hl] at hfit
        exact ⟨hfit.1, hfit.2.1⟩
    have hgi : s.use g ≠ .changing j ∧ s.use g ≠ .putting .invalidating j := by
      rcases hl with hl | hl <;>
      · rw [hl]
        exact ⟨nofun, nofun⟩
    rcases hk with ⟨-, -, -, hlink⟩ | ⟨ty, -, hc⟩
    · have hs := r.synced j hpos hfree.1
        (undisturbed_all (undisturbed a hlk) hgi.1 hgi.2)
      rw [hs] at hfree
      exact absurd hfree.2 hlink
    · obtain ⟨-, -, hleft⟩ := r.newborn h ty _ _ (Or.inl hc)
      obtain ⟨f, hf⟩ := (hleft j hpos ⟨rfl, rfl⟩).2 hfree.1
      exact absurd hf (no_invalidating a hlk hgi.2 f)

theorem decrement_reuse (r : Reuse s) (a : Accounts s) (hu : s.use h = .putting .dropping j) :
    Reuse ((s.setEntry j { s.icache j with ref := (s.icache j).ref - 1 }).setUse h .idle) := by
  have hon := on_of_eq hu rfl
  refine touch_count r a (a.refs.pos hon) (fun k => on_eq_of hu rfl) ?_ (Or.inr rfl)
    (fun _ => rfl) (fun _ => nofun) ?_
  · rw [hu]
    exact ⟨nofun, nofun⟩
  · intro g hg hgon hl
    have hf := r.fits g j hgon
    have hone : (s.icache j).ref = 1 := by
      rcases hl with hl | hl <;>
      · rw [hl] at hf
        exact hf.2.2
    exact absurd (a.refs.sole hon hgon hone) hg

theorem recycle_reuse (r : Reuse s) (a : Accounts s) {dev : Dev} {inum : ℕ} {new : Option Half}
    (hk : Looked s h dev inum new) (hn : find s dev inum = none) (hj : empty s = some j) :
    Reuse (igetFor s h dev inum new) := by
  have hzero := empty_some hj
  have hnobody : ∀ g, on (s.use g) ≠ some j := by
    intro g hg
    have hpos := a.refs.pos hg
    rw [hzero] at hpos
    exact absurd hpos (lt_irrefl 0)
  obtain ⟨hty, hnone⟩ := hk.taken r
  rw [igetFor_recycle hn hj]
  generalize ht : (s.setEntry j { s.icache j with
    dev := dev
    inum := inum
    ref := 1
    valid := false }).setUse h (.ref new j) = t
  have hself : (t.icache j).valid = false ∧ Key (t.icache j) dev inum := by
    rw [← ht]
    change (Function.update s.icache j _ j).valid = false ∧
      Key (Function.update s.icache j _ j) dev inum
    rw [Function.update_self]
    exact ⟨rfl, rfl, rfl⟩
  have hother : ∀ {k}, k ≠ j → t.icache k = s.icache k := by
    intro k hkj
    rw [← ht]
    exact Function.update_of_ne hkj ..
  have huse : ∀ {g}, g ≠ h → t.use g = s.use g := by
    intro g hg
    rw [← ht]
    exact Function.update_of_ne hg ..
  have hown : t.use h = .ref new j := by
    rw [← ht]
    exact Function.update_self ..
  have hdisk : t.disk = s.disk ∧ t.live = s.live := by
    rw [← ht]
    exact ⟨rfl, rfl⟩
  -- the handles on the other entries are those from before
  have hon : ∀ {g k}, k ≠ j → on (t.use g) = some k → g ≠ h := by
    rintro g k hkj hg rfl
    rw [hown] at hg
    exact hkj (Option.some.inj hg).symm
  have hon' : ∀ {g k}, on (s.use g) = some k → g ≠ h := by
    rintro g k hg rfl
    rw [hk.not_on] at hg
    exact absurd hg nofun
  have hbirth : ∀ {g ty v n}, g ≠ h → Newborn t g ty v n → Newborn s g ty v n := by
    intro g ty v n hg hb
    rcases hb with hb | ⟨k, hb, hkey⟩
    · exact Or.inl (huse hg ▸ hb)
    · rw [huse hg] at hb
      have hkj : k ≠ j := by
        rintro rfl
        exact hnobody g (by rcases hb with hb | hb <;> rw [hb] <;> rfl)
      exact Or.inr ⟨k, hb, hother hkj ▸ hkey⟩
  have hbirth_own : ∀ {ty v n}, Newborn t h ty v n → v = dev ∧ n = inum ∧ Newborn s h ty v n := by
    intro ty v n hb
    rcases hb with hb | ⟨k, hb, hkey⟩
    · rw [hown] at hb
      exact absurd hb nofun
    · rw [hown] at hb
      rcases hb with hb | hb
      · injection hb with hnew hkj
        rw [← hkj] at hkey
        obtain ⟨rfl, rfl⟩ : v = dev ∧ n = inum :=
          ⟨hkey.1.symm.trans hself.2.1, hkey.2.symm.trans hself.2.2⟩
        rcases hk with ⟨-, rfl, -⟩ | ⟨ty', rfl, hc⟩
        · exact absurd hnew nofun
        · exact ⟨rfl, rfl, Or.inl (Option.some.inj hnew ▸ hc)⟩
      · exact absurd hb nofun
  -- the other entries of a number
  have hleft : ∀ {v n who}, Left s v n who → (Key (t.icache j) v n →
      ∀ g, ¬ who g → on (t.use g) = some j → Leaving (t.use g) j) → Left t v n who := by
    intro v n who hl hjl k hpos hkey
    by_cases hkj : k = j
    · subst hkj
      refine ⟨hjl hkey, fun hv => ?_⟩
      rw [hself.1] at hv
      exact absurd hv nofun
    · rw [hother hkj] at hpos hkey ⊢
      obtain ⟨h1, h2⟩ := hl k hpos hkey
      refine ⟨fun g hg hgon => ?_, fun hv => ?_⟩
      · have hgh := hon hkj hgon
        rw [huse hgh] at hgon ⊢
        exact h1 g hg hgon
      · obtain ⟨g, hg⟩ := h2 hv
        have hgh : g ≠ h := hon' (by rw [hg]; rfl)
        exact ⟨g, (huse hgh).trans hg⟩
  constructor
  · intro v n hz
    rw [hdisk.1] at hz
    refine hleft (r.vacant v n hz) fun hkey => ?_
    obtain ⟨rfl, rfl⟩ : v = dev ∧ n = inum :=
      ⟨hkey.1.symm.trans hself.2.1, hkey.2.symm.trans hself.2.2⟩
    exact absurd hz hty
  · intro g ty v n hb
    rw [hdisk.1]
    by_cases hg : g = h
    · subst hg
      obtain ⟨rfl, rfl, hs⟩ := hbirth_own hb
      obtain ⟨h1, h2, h3⟩ := r.newborn g ty v n hs
      refine ⟨h1, h2, hleft h3 fun _ f hf hfon => ?_⟩
      rw [huse hf] at hfon
      exact absurd hfon (hnobody f)
    · have hs := hbirth hg hb
      obtain ⟨h1, h2, h3⟩ := r.newborn g ty v n hs
      refine ⟨h1, h2, hleft h3 fun hkey => ?_⟩
      obtain ⟨rfl, rfl⟩ : v = dev ∧ n = inum :=
        ⟨hkey.1.symm.trans hself.2.1, hkey.2.symm.trans hself.2.2⟩
      exact absurd hs (hnone g ty hg)
  · intro g f ty ty' v n hg hf
    have hs : ∀ {e ty}, Newborn t e ty v n → Newborn s e ty v n := by
      intro e ty hb
      by_cases he : e = h
      · exact he ▸ (hbirth_own (he ▸ hb)).2.2
      · exact hbirth he hb
    exact r.one g f ty ty' v n (hs hg) (hs hf)
  · intro k hpos hv hun
    have hkj : k ≠ j := by
      rintro rfl
      rw [hself.1] at hv
      exact absurd hv nofun
    rw [hother hkj] at hpos hv ⊢
    rw [hdisk.1]
    refine r.synced k hpos hv fun g _ => ?_
    have hgu := hun g trivial
    refine ⟨fun hg => hgu.1 ?_, fun hg => hgu.2 ?_⟩
    · rw [huse (hon' (by rw [hg]; rfl)), hg]
    · rw [huse (hon' (by rw [hg]; rfl)), hg]
  · intro k hpos hv hun
    have hkj : k ≠ j := by
      rintro rfl
      rw [hself.1] at hv
      exact absurd hv nofun
    rw [hother hkj] at hpos hv ⊢
    refine r.typed k hpos hv fun g hg => hun g ?_
    rw [huse (hon' (by rw [hg]; rfl)), hg]
  · intro g k hgon
    by_cases hg : g = h
    · rw [hg, hown]
      trivial
    · rw [huse hg] at hgon ⊢
      have hkj : k ≠ j := by
        rintro rfl
        exact hnobody g hgon
      rw [hother hkj]
      exact r.fits g k hgon
  · intro g v ty n hu
    by_cases hg : g = h
    · rw [hg, hown] at hu
      exact absurd hu nofun
    · rw [huse hg] at hu
      exact r.scanning g v ty n hu
  · rw [hdisk.1, hdisk.2]
    exact r.live

end Events

end InodeNumbers
