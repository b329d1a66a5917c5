import OsEngineering.InodeNumbers

/-! Freeing and claiming an inode number, and what holds over whole runs. -/
set_option linter.unusedSectionVars false

namespace FreshInodes

open BlockAllocation ByteBlock FiniteTally HeldLocks InodeAccounts InodeCache InodeReuse
  InodeNumbers TransitionSystem

variable {η : Type*} [Fintype η] [DecidableEq η]

section Freeing

variable {s : State η} {h : η} {j : Slot}

/-- The disk inode becomes free with the copy of it still valid, under the lock. -/
theorem clear_reuse (r : Reuse s) (a : Accounts s) (hu : s.use h = .putting .clearing j) :
    Reuse (clear s h j) := by
  have hl := locker_of_eq hu rfl
  have hon := on_of_locker hl
  have hf := r.fits h j hon
  rw [hu] at hf
  have hstay : ¬ Leaving (s.use h) j := hu ▸ stays nofun nofun nofun
  have hnf := not_free r a hon hstay
  generalize hx : ({ s.icache j with
    copy := { (s.icache j).copy with type := 0 } } : Entry) = x
  have hsame : x.dev = (s.icache j).dev ∧ x.inum = (s.icache j).inum ∧ x.copy.type = 0 := by
    rw [← hx]
    exact ⟨rfl, rfl, rfl⟩
  have he : clear s h j = { (s.setEntry j x).iupdate j with
      live := put s.live (s.icache j).dev (s.icache j).inum false }.setUse h
        (.putting .invalidating j) := by
    rw [← hx]
    rfl
  have hdisk : (clear s h j).disk = put s.disk (s.icache j).dev (s.icache j).inum x.copy := by
    rw [he]
    change put s.disk (Function.update s.icache j x j).dev (Function.update s.icache j x j).inum
      (Function.update s.icache j x j).copy = _
    rw [Function.update_self, hsame.1, hsame.2.1]
  have hlive : (clear s h j).live = put s.live (s.icache j).dev (s.icache j).inum false := by
    rw [he]
    rfl
  refine r.touch a (h := h) (j := j) (x := x) (u := .putting .invalidating j) (d := x.copy)
    ⟨by rw [he]; rfl, by rw [he]; rfl, hdisk, ⟨hsame.1, hsame.2.1⟩, a.refs.pos hon,
      fun k => on_eq_of hu rfl, fun k hk => (Option.some.inj hk).symm, fun hl => absurd hl hnf,
      fun _ _ => ⟨Or.inl rfl, ?_, fun _ => rfl⟩, ?_, nofun, fun _ _ hi => absurd rfl hi,
      fun _ hi => absurd rfl hi, trivial, fun g hg hgon _ => others_unlocked a hl hg hgon, ?_⟩
  · intro g hg hgon
    exact hg (a.refs.sole hon hgon hf.2.2)
  · intro ty v n hb
    have hself : (clear s h j).use h = .putting .invalidating j := by
      rw [he]
      exact Function.update_self ..
    rcases hb with hb | ⟨k, hb | hb, -⟩ <;>
    · rw [hself] at hb
      exact absurd hb nofun
  · intro v n
    rw [hlive, hdisk]
    by_cases hk : v = (s.icache j).dev ∧ n = (s.icache j).inum
    · rw [hk.1, hk.2, put_self, put_self, hsame.2.2]
      exact iff_of_false nofun (fun hne => hne rfl)
    · rw [put_of_not _ _ hk, put_of_not _ _ hk]
      exact r.live v n

/-- The steps of a leaving handle before its decrement. -/
theorem touch_leaving (r : Reuse s) (a : Accounts s) {b : Bool} {u v : Use} {l : Slot → Option η}
    (hu : s.use h = u) (hon : on u = some j) (hl : locker u = some j)
    (hv : v = .putting .releasing j ∨ v = .putting .dropping j)
    (hb : b = true → b = (s.icache j).valid ∧ u ≠ .putting .invalidating j)
    (hu' : u ≠ .changing j) :
    Reuse ({ s.setEntry j { s.icache j with valid := b } with lock := l }.setUse h v) := by
  have honh := on_of_eq hu hon
  have hpos := a.refs.pos honh
  have hlh := locker_of_eq hu hl
  refine r.touch a (h := h) (j := j) (x := { s.icache j with valid := b }) (u := v)
    (d := s.disk (s.icache j).dev (s.icache j).inum)
    ⟨rfl, rfl, (put_same ..).symm, ⟨rfl, rfl⟩, hpos, fun k => on_eq_of hu hon, ?_, ?_,
      fun hz ho => absurd hz ho, ?_, ?_, ?_, ?_, ?_, ?_, r.live⟩
  · rcases hv with rfl | rfl <;> exact fun k hk => (Option.some.inj hk).symm
  · intro hfree
    refine ⟨fun _ => Or.inr hv, rfl, fun hbt => ?_⟩
    -- a valid copy is invalidated by who has the lock, which is this handle
    obtain ⟨hbv, hni⟩ := hb hbt
    have hvalid : (s.icache j).valid = true := hbv ▸ hbt
    have hex : ∃ g, s.use g = .putting .invalidating j := by
      rcases hfree with hz | ⟨g, ty, -, hnew⟩
      · exact (r.vacant _ _ hz j hpos ⟨rfl, rfl⟩).2 hvalid
      · exact ((r.newborn g ty _ _ hnew).2.2 j hpos ⟨rfl, rfl⟩).2 hvalid
    obtain ⟨g, hg⟩ := hex
    obtain rfl := a.locks.sole hlh (locker_of_eq hg rfl)
    exact absurd (hu.symm.trans hg) hni
  · intro ty v' n hnew
    have hself : ({ s.setEntry j { s.icache j with valid := b } with lock := l }.setUse h v).use h
        = v := Function.update_self ..
    rcases hnew with hnew | ⟨k, hnew | hnew, -⟩ <;>
    · rw [hself] at hnew
      rcases hv with hv | hv <;>
      · rw [hv] at hnew
        exact absurd hnew nofun
  · rcases hv with rfl | rfl <;> exact nofun
  · intro hbt _ _ hun
    obtain ⟨hbv, hni⟩ := hb hbt
    exact r.synced j hpos (hbv ▸ hbt) (undisturbed_all hun (hu ▸ hu') (hu ▸ hni))
  · intro hbt _ hun
    obtain ⟨hbv, hni⟩ := hb hbt
    refine r.typed j hpos (hbv ▸ hbt) fun g => ?_
    by_cases hg : g = h
    · rw [hg, hu]
      exact hni
    · exact hun g hg
  · rcases hv with rfl | rfl <;> trivial
  · exact fun g hg hgon _ => others_unlocked a hlh hg hgon

theorem invalidate_reuse (r : Reuse s) (a : Accounts s)
    (hu : s.use h = .putting .invalidating j) :
    Reuse ((s.setEntry j { s.icache j with valid := false }).setUse h (.putting .releasing j)) :=
  touch_leaving (b := false) (l := s.lock) r a hu rfl rfl (Or.inl rfl) nofun nofun

theorem releasesleep_reuse (r : Reuse s) (a : Accounts s)
    (hu : s.use h = .putting .releasing j) :
    Reuse ((s.setLock j none).setUse h (.putting .dropping j)) := by
  have ht := touch_leaving (b := (s.icache j).valid) (l := Function.update s.lock j none) r a hu
    rfl rfl (Or.inr rfl) (fun _ => ⟨rfl, nofun⟩) nofun
  have he : Function.update s.icache j { s.icache j with valid := (s.icache j).valid } =
      s.icache := Function.update_eq_self j s.icache
  have hs : s.setEntry j { s.icache j with valid := (s.icache j).valid } = s := by
    change { s with icache := Function.update s.icache j _ } = s
    rw [he]
  rw [hs] at ht
  exact ht

end Freeing

section Claiming

variable {s : State η} {h : η}

/-- A handle without reference gets another use without one. -/
theorem offEntry_reuse (r : Reuse s) {u : Use} (hbefore : on (s.use h) = none)
    (hu : (∃ dev type inum, u = .scanning dev type inum ∧ type ≠ 0)) :
    Reuse (s.setUse h u) := by
  obtain ⟨dev, type, inum, rfl, hty⟩ := hu
  have hself : (s.setUse h (.scanning dev type inum)).use h = .scanning dev type inum :=
    Function.update_self ..
  have huse : ∀ {g}, g ≠ h → (s.setUse h (.scanning dev type inum)).use g = s.use g :=
    fun hg => Function.update_of_ne hg ..
  have hne : ∀ {g k}, on ((s.setUse h (.scanning dev type inum)).use g) = some k → g ≠ h := by
    rintro g k hg rfl
    rw [hself] at hg
    exact absurd hg nofun
  have hne' : ∀ {g k}, on (s.use g) = some k → g ≠ h := by
    rintro g k hg rfl
    rw [hbefore] at hg
    exact absurd hg nofun
  have hbirth : ∀ {g ty v n}, Newborn (s.setUse h (.scanning dev type inum)) g ty v n →
      Newborn s g ty v n := by
    intro g ty v n hb
    have hg : g ≠ h := by
      rintro rfl
      rcases hb with hb | ⟨k, hb | hb, -⟩ <;>
      · rw [hself] at hb
        exact absurd hb nofun
    rw [Newborn, huse hg] at hb
    exact hb
  have hleft : ∀ {v n who}, Left s v n who → Left (s.setUse h (.scanning dev type inum)) v n who := by
    intro v n who hl k hpos hk
    obtain ⟨h1, h2⟩ := hl k hpos hk
    refine ⟨fun g hg hon => ?_, fun hv => ?_⟩
    · have hgh := hne hon
      rw [huse hgh] at hon ⊢
      exact h1 g hg hon
    · obtain ⟨g, hg⟩ := h2 hv
      exact ⟨g, (huse (hne' (by rw [hg]; rfl))).trans hg⟩
  constructor
  · exact fun v n hz => hleft (r.vacant v n hz)
  · intro g ty v n hb
    obtain ⟨h1, h2, h3⟩ := r.newborn g ty v n (hbirth hb)
    exact ⟨h1, h2, hleft h3⟩
  · exact fun g f ty ty' v n hg hf => r.one g f ty ty' v n (hbirth hg) (hbirth hf)
  · intro k hpos hv hun
    refine r.synced k hpos hv fun g _ => ?_
    have hgu := hun g trivial
    refine ⟨fun hg => hgu.1 ?_, fun hg => hgu.2 ?_⟩
    · rw [huse (hne' (by rw [hg]; rfl)), hg]
    · rw [huse (hne' (by rw [hg]; rfl)), hg]
  · intro k hpos hv hun
    refine r.typed k hpos hv fun g hg => hun g ?_
    rw [huse (hne' (by rw [hg]; rfl)), hg]
  · intro g k hon
    have hg := hne hon
    rw [huse hg] at hon ⊢
    exact r.fits g k hon
  · intro g v ty n hu
    by_cases hg : g = h
    · rw [hg, hself] at hu
      injection hu with _ hu' _
      exact hu' ▸ hty
    · rw [huse hg] at hu
      exact r.scanning g v ty n hu
  · exact r.live

/-- A free number is claimed; who still refers to it is leaving. -/
theorem claim_reuse (r : Reuse s) {dev : Dev} {type : Half} {inum : ℕ}
    (hu : s.use h = .scanning dev type inum) (hfree : (s.disk dev inum).type = 0) :
    Reuse ({ s with
      disk := put s.disk dev inum (fresh type)
      live := put s.live dev inum true }.setUse h (.claimed dev type inum)) := by
  have hty := r.scanning h dev type inum hu
  generalize ht : ({ s with
      disk := put s.disk dev inum (fresh type)
      live := put s.live dev inum true } : State η).setUse h (.claimed dev type inum) = t
  have hself : t.use h = .claimed dev type inum := by
    rw [← ht]
    exact Function.update_self ..
  have huse : ∀ {g}, g ≠ h → t.use g = s.use g := by
    intro g hg
    rw [← ht]
    exact Function.update_of_ne hg ..
  have hicache : t.icache = s.icache := by
    rw [← ht]
    rfl
  have hdisk : t.disk = put s.disk dev inum (fresh type) := by
    rw [← ht]
    rfl
  have hlive : t.live = put s.live dev inum true := by
    rw [← ht]
    rfl
  have hne : ∀ {g k}, on (t.use g) = some k → g ≠ h := by
    rintro g k hg rfl
    rw [hself] at hg
    exact absurd hg nofun
  have hne' : ∀ {g k}, on (s.use g) = some k → g ≠ h := by
    rintro g k hg rfl
    rw [hu] at hg
    exact absurd hg nofun
  have hleft : ∀ {v n who}, Left s v n who → Left t v n who := by
    intro v n who hl k hpos hk
    rw [hicache] at hpos hk ⊢
    obtain ⟨h1, h2⟩ := hl k hpos hk
    refine ⟨fun g hg hon => ?_, fun hv => ?_⟩
    · have hgh := hne hon
      rw [huse hgh] at hon ⊢
      exact h1 g hg hon
    · obtain ⟨g, hg⟩ := h2 hv
      exact ⟨g, (huse (hne' (by rw [hg]; rfl))).trans hg⟩
  have hbirth : ∀ {g ty v n}, g ≠ h → Newborn t g ty v n → Newborn s g ty v n := by
    intro g ty v n hg hb
    rw [Newborn, huse hg, hicache] at hb
    exact hb
  have hbirth_own : ∀ {ty v n}, Newborn t h ty v n → ty = type ∧ v = dev ∧ n = inum := by
    intro ty v n hb
    rcases hb with hb | ⟨k, hb | hb, -⟩ <;> rw [hself] at hb
    · injection hb with h1 h2 h3
      exact ⟨h2.symm, h1.symm, h3.symm⟩
    · exact absurd hb nofun
    · exact absurd hb nofun
  -- a number that is new to a handle was not free
  have hother : ∀ {g ty v n}, Newborn s g ty v n → ¬ (v = dev ∧ n = inum) := by
    rintro g ty v n hb ⟨rfl, rfl⟩
    obtain ⟨h1, h2, -⟩ := r.newborn g ty v n hb
    rw [h2] at hfree
    exact h1 hfree
  constructor
  · intro v n hz
    rw [hdisk] at hz
    by_cases hk : v = dev ∧ n = inum
    · rw [hk.1, hk.2, put_self] at hz
      exact absurd hz hty
    · rw [put_of_not _ _ hk] at hz
      exact hleft (r.vacant v n hz)
  · intro g ty v n hb
    rw [hdisk]
    by_cases hg : g = h
    · subst hg
      obtain ⟨rfl, rfl, rfl⟩ := hbirth_own hb
      refine ⟨hty, put_self .., hleft ?_⟩
      intro k hpos hk
      obtain ⟨h1, h2⟩ := r.vacant v n hfree k hpos hk
      exact ⟨fun f _ hf => h1 f id hf, h2⟩
    · have hs := hbirth hg hb
      obtain ⟨h1, h2, h3⟩ := r.newborn g ty v n hs
      rw [put_of_not _ _ (hother hs)]
      exact ⟨h1, h2, hleft h3⟩
  · intro g f ty ty' v n hg hf
    by_cases hgh : g = h
    · by_cases hfh : f = h
      · rw [hgh, hfh]
      · rw [hgh] at hg
        exact absurd (hbirth_own hg).2 (hother (hbirth hfh hf))
    · by_cases hfh : f = h
      · rw [hfh] at hf
        exact absurd (hbirth_own hf).2 (hother (hbirth hgh hg))
      · exact r.one g f ty ty' v n (hbirth hgh hg) (hbirth hfh hf)
  · intro k hpos hv hun
    rw [hicache] at hpos hv ⊢
    have hun' : Undisturbed s k (fun _ => True) := by
      intro g _
      have hgu := hun g trivial
      refine ⟨fun hg => hgu.1 ?_, fun hg => hgu.2 ?_⟩
      · rw [huse (hne' (by rw [hg]; rfl)), hg]
      · rw [huse (hne' (by rw [hg]; rfl)), hg]
    have hk : ¬ ((s.icache k).dev = dev ∧ (s.icache k).inum = inum) := by
      intro hk
      obtain ⟨g, hg⟩ := (r.vacant dev inum hfree k hpos hk).2 hv
      exact (hun' g trivial).2 hg
    rw [hdisk, put_of_not _ _ hk]
    exact r.synced k hpos hv hun'
  · intro k hpos hv hun
    rw [hicache] at hpos hv ⊢
    refine r.typed k hpos hv fun g hg => hun g ?_
    rw [huse (hne' (by rw [hg]; rfl)), hg]
  · intro g k hon
    have hg := hne hon
    rw [huse hg] at hon ⊢
    rw [hicache]
    exact r.fits g k hon
  · intro g v ty n hgu
    by_cases hg : g = h
    · rw [hg, hself] at hgu
      exact absurd hgu nofun
    · rw [huse hg] at hgu
      exact r.scanning g v ty n hgu
  · intro v n
    rw [hlive, hdisk]
    by_cases hk : v = dev ∧ n = inum
    · rw [hk.1, hk.2, put_self, put_self]
      exact iff_of_true rfl hty
    · rw [put_of_not _ _ hk, put_of_not _ _ hk]
      exact r.live v n

end Claiming

theorem halt_reuse {s : State η} (r : Reuse s) (msg : String) :
    Reuse { s with halted := some msg } :=
  ⟨r.vacant, r.newborn, r.one, r.synced, r.typed, r.fits, r.scanning, r.live⟩

theorem igetFor_reuse {s : State η} (r : Reuse s) (a : Accounts s) {h : η} {dev : Dev} {inum : ℕ}
    {new : Option Half} (hk : Looked s h dev inum new) : Reuse (igetFor s h dev inum new) := by
  cases hn : find s dev inum with
  | some j => exact hit_reuse r a hk hn
  | none =>
    cases hj : empty s with
    | some j => exact recycle_reuse r a hk hn hj
    | none =>
      rw [igetFor_full hn hj]
      exact halt_reuse r _

theorem next_reuse {s : State η} (r : Reuse s) (a : Accounts s) (ninodes : ℕ) {e : Event η}
    (hl : Linked s e) (he : Enabled s e) : Reuse (next ninodes s e) := by
  obtain ⟨-, he⟩ := he
  cases e with
  | ialloc h dev type => exact offEntry_reuse r (by rw [he.1]; rfl) ⟨dev, type, 1, rfl, he.2⟩
  | scan h dev type inum =>
    change Reuse (scan ninodes s h dev type inum)
    simp only [scan]
    split
    · split
      · next hz => exact claim_reuse r he hz
      · refine offEntry_reuse r ?_ ⟨dev, type, inum + 1, rfl, r.scanning h dev type inum he⟩
        rw [he]
        rfl
    · exact halt_reuse r _
  | igetNew h dev type inum => exact igetFor_reuse r a (Or.inr ⟨type, rfl, he⟩)
  | iget h dev inum => exact igetFor_reuse r a (Or.inl ⟨he, rfl, hl.1, hl.2⟩)
  | idup h g j => exact idup_reuse r a he.1 he.2
  | ilock h new j => exact ilock_reuse r a he.1 he.2
  | load h new j => exact load_reuse r a he
  | change h new j x => exact change_reuse r a he x
  | iupdate h j => exact iupdate_reuse r a he
  | iunlock h new j => exact iunlock_reuse r a he
  | iput h j => exact iput_reuse r a he.1
  | check h j => exact check_reuse r a he
  | itrunc h j => exact itrunc_reuse r a he
  | clear h j => exact clear_reuse r a he
  | invalidate h j => exact invalidate_reuse r a he
  | releasesleep h j => exact releasesleep_reuse r a he
  | decrement h j => exact decrement_reuse r a he

theorem initial_reuse (disk : Dev → ℕ → Dinode) : Reuse (initial disk : State η) := by
  have hpos : ∀ {k}, ¬ 0 < ((initial disk : State η).icache k).ref := fun h => lt_irrefl 0 h
  refine ⟨fun v n _ k hk => absurd hk hpos, ?_, ?_, fun k hk => absurd hk hpos,
    fun k hk => absurd hk hpos, nofun, nofun, ?_⟩
  · rintro h ty v n (hb | ⟨k, hb | hb, -⟩) <;> exact absurd hb nofun
  · rintro h g ty ty' v n (hb | ⟨k, hb | hb, -⟩) <;> exact absurd hb nofun
  · exact fun v n => decide_eq_true_iff

/-- The runs in which directories name only inodes with links. -/
abbrev Reaches (ninodes : ℕ) (disk : Dev → ℕ → Dinode) (es : List (Event η)) (s : State η) : Prop :=
  Run (Guarded (machine ninodes).Step Linked) (· = initial disk) es s

theorem run_reuse {ninodes : ℕ} {disk : Dev → ℕ → Dinode} {es : List (Event η)} {s : State η}
    (r : Reaches ninodes disk es s) : Accounts s ∧ Reuse s := by
  refine r.invariant (I := fun s => Accounts s ∧ Reuse s) ?_ ?_
  · rintro s rfl
    exact ⟨initial_accounts disk, initial_reuse disk⟩
  · rintro s e t ⟨a, k⟩ ⟨hl, he, rfl⟩
    exact ⟨next_accounts a ninodes he, next_reuse k a ninodes hl he⟩

/-- ialloc() takes the number with the step to `claimed` and returns with the step to
`ref`; `live` says which numbers are allocated. -/
structure Separate (ninodes : ℕ) (s : State η) : Prop where
  taken : ∀ e t, (machine ninodes).Step s e t → ∀ h dev type inum,
    s.use h ≠ .claimed dev type inum → t.use h = .claimed dev type inum →
      s.live dev inum = false ∧ t.live dev inum = true
  freed : ∀ e t, (machine ninodes).Step s e t → ∀ dev inum,
    s.live dev inum = true → t.live dev inum = false →
      ∃ h j, e = .clear h j ∧ Key (s.icache j) dev inum
  returned : ∀ h type j, s.use h = .ref (some type) j →
    s.live (s.icache j).dev (s.icache j).inum = true ∧
      ∀ g type' k, s.use g = .ref (some type') k → SameKey (s.icache k) (s.icache j) → g = h
  stale : ∀ h type j, s.use h = .ref (some type) j → s.lock j = none →
    (s.icache j).valid = false
  reads : ∀ h type j, s.use h = .loading (some type) j →
    s.disk (s.icache j).dev (s.icache j).inum = fresh type
  loaded : ∀ h type j, s.use h = .locked (some type) j → (s.icache j).copy = fresh type

theorem use_cases {s : State η} {h g : η} {u : Use} (v : Use) (hv : Function.update s.use h u g = v) :
    s.use g = v ∨ u = v := by
  by_cases hg : g = h
  · rw [hg, Function.update_self] at hv
    exact Or.inr hv
  · rw [Function.update_of_ne hg] at hv
    exact Or.inl hv

/-- Only the claim makes a handle `claimed`, and it finds the disk inode free. -/
theorem next_claimed {ninodes : ℕ} {s : State η} {e : Event η} {h : η} {dev : Dev} {type : Half}
    {inum : ℕ} (hold : s.use h ≠ .claimed dev type inum)
    (hnew : (next ninodes s e).use h = .claimed dev type inum) :
    (s.disk dev inum).type = 0 ∧ (next ninodes s e).live dev inum = true := by
  have hput : ∀ {g u}, Function.update s.use g u h = .claimed dev type inum →
      u = .claimed dev type inum := by
    intro g u hg
    rcases use_cases _ hg with hg | hg
    · exact absurd hg hold
    · exact hg
  have hget : ∀ {g v n new}, (igetFor s g v n new).use h = .claimed dev type inum → False := by
    intro g v n new hg
    simp only [igetFor, iget] at hg
    cases hn : find s v n with
    | some j =>
      rw [hn] at hg
      cases hput hg
    | none =>
      rw [hn] at hg
      cases hj : empty s with
      | some j =>
        rw [hj] at hg
        cases hput hg
      | none =>
        rw [hj] at hg
        exact hold hg
  cases e with
  | scan g v ty n =>
    simp only [InodeCache.next, scan] at hnew ⊢
    split at hnew
    · next hn =>
      split at hnew
      · next hz =>
        have heq := hput hnew
        injection heq with h1 h2 h3
        subst h1 h3
        rw [if_pos hn, if_pos hz]
        exact ⟨hz, put_self ..⟩
      · cases hput hnew
    · exact absurd hnew hold
  | igetNew g v ty n => exact (hget hnew).elim
  | iget g v n => exact (hget hnew).elim
  | load g new j =>
    simp only [InodeCache.next, load] at hnew
    split at hnew
    · exact absurd hnew hold
    · cases hput hnew
  | ilock g new j =>
    have heq := hput hnew
    split at heq <;> cases heq
  | _ => cases hput hnew

/-- Only iput() ends the allocation of a number. -/
theorem next_live {ninodes : ℕ} {s : State η} {e : Event η} {dev : Dev} {inum : ℕ}
    (hold : s.live dev inum = true) (hnew : (next ninodes s e).live dev inum = false) :
    ∃ h j, e = .clear h j ∧ Key (s.icache j) dev inum := by
  have hsame : ∀ {t : State η}, t.live = s.live → t.live dev inum = false → False := by
    intro t ht hf
    rw [ht, hold] at hf
    exact absurd hf nofun
  have hget : ∀ g v n new, (igetFor s g v n new).live = s.live := by
    intro g v n new
    simp only [igetFor, iget]
    cases find s v n with
    | some j => rfl
    | none => cases empty s <;> rfl
  cases e with
  | clear g j =>
    refine ⟨g, j, rfl, ?_⟩
    by_contra hk
    have hput : put s.live (s.icache j).dev (s.icache j).inum false dev inum = s.live dev inum :=
      put_of_not _ _ fun hvn => hk ⟨hvn.1.symm, hvn.2.symm⟩
    have hf : put s.live (s.icache j).dev (s.icache j).inum false dev inum = false := hnew
    rw [hput, hold] at hf
    exact absurd hf nofun
  | scan g v ty n =>
    simp only [InodeCache.next, scan] at hnew
    split at hnew
    · split at hnew
      · have hf : put s.live v n true dev inum = false := hnew
        by_cases hk : dev = v ∧ inum = n
        · rw [hk.1, hk.2, put_self] at hf
          exact absurd hf nofun
        · rw [put_of_not _ _ hk, hold] at hf
          exact absurd hf nofun
      · exact (hsame rfl hnew).elim
    · exact (hsame rfl hnew).elim
  | igetNew g v ty n => exact (hsame (hget _ _ _ _) hnew).elim
  | iget g v n => exact (hsame (hget _ _ _ _) hnew).elim
  | load g new j =>
    simp only [InodeCache.next, load] at hnew
    split at hnew <;> exact (hsame rfl hnew).elim
  | _ => exact (hsame rfl hnew).elim

def slot0 : Slot := ⟨0, NINODE_pos⟩

def oneFile : Dev → ℕ → Dinode := fun _ n =>
  if n = 1 then ⟨2, 0, 0, 1, 600, Vector.replicate 13 59⟩ else fresh 0

/-- The last link of the only inode goes; another call takes its number before iput() has
marked its copy. -/
def takenEarly : List (Event (Fin 2)) :=
  [.iget p0 1 1, .ilock p0 none slot0, .load p0 none slot0,
   .change p0 none slot0 ⟨2, 0, 0, 0, 600, Vector.replicate 13 59⟩, .iupdate p0 slot0,
   .iunlock p0 none slot0, .iput p0 slot0, .check p0 slot0, .itrunc p0 slot0, .clear p0 slot0,
   .ialloc p1 1 3, .scan p1 1 3 1, .igetNew p1 1 3 1, .invalidate p0 slot0,
   .releasesleep p0 slot0, .ilock p1 (some 3) slot0, .decrement p0 slot0,
   .load p1 (some 3) slot0]

end FreshInodes
