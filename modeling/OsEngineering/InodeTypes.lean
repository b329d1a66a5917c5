import OsEngineering.FreshInodes

/-! The type of an inode stays as it is for whoever has had it locked and keeps the reference. -/
set_option linter.unusedSectionVars false

namespace InodeTypes

open BlockAllocation ByteBlock FiniteTally HeldLocks InodeAccounts InodeCache InodeReuse
  InodeNumbers TransitionSystem

variable {η : Type*}

/-- Where a handle can be after ilock() and before iput(). -/
def Stays (u : Use) (j : Slot) : Prop :=
  u = .ref none j ∨ (∃ new, u = .locked new j) ∨ u = .changing j

/-- Where an iput() can be that frees the inode. -/
def Freeing (u : Use) (j : Slot) : Prop :=
  u = .putting .truncating j ∨ u = .putting .clearing j ∨ u = .putting .invalidating j

structure Settled (s : State η) (h : η) (j : Slot) : Prop where
  stays : Stays (s.use h) j
  valid : (s.icache j).valid = true
  kept : ∀ g, ¬ Freeing (s.use g) j

theorem Stays.on {u : Use} {j : Slot} (h : Stays u j) : on u = some j := by
  rcases h with rfl | ⟨new, rfl⟩ | rfl <;> rfl

theorem not_stays {u : Use} {j : Slot} (h : on u = none) : ¬ Stays u j := by
  intro hs
  exact absurd (h.symm.trans hs.on) nofun

theorem not_stays_loading {new : Option Half} {j k : Slot} : ¬ Stays (.loading new k) j := by
  rintro (hs | ⟨_, hs⟩ | hs) <;> cases hs

theorem not_stays_putting {phase : Phase} {j k : Slot} : ¬ Stays (.putting phase k) j := by
  rintro (hs | ⟨_, hs⟩ | hs) <;> cases hs

theorem not_freeing_ne {u : Use} {j k : Slot} (hu : on u = some k) (hk : k ≠ j) :
    ¬ Freeing u j := by
  rintro (rfl | rfl | rfl) <;> exact hk (Option.some.inj hu).symm

theorem not_freeing_none {u : Use} {j : Slot} (hu : on u = none) : ¬ Freeing u j := by
  rintro (rfl | rfl | rfl) <;> exact absurd hu nofun

/-- The entry may be locked or counted, but keeps its type. -/
def SameType (s t : State η) (j : Slot) : Prop :=
  (t.icache j).valid = (s.icache j).valid ∧ (t.icache j).copy.type = (s.icache j).copy.type ∧
    (t.icache j).dev = (s.icache j).dev ∧ (t.icache j).inum = (s.icache j).inum

section Steps

variable [Fintype η] [DecidableEq η]

variable {s t : State η} {h g : η} {j k : Slot} {u : Use}

theorem Settled.pos (a : Accounts s) (hs : Settled s h j) : 0 < (s.icache j).ref :=
  a.refs.pos hs.stays.on

theorem Settled.slot (hs : Settled s h j) (hk : on (s.use h) = some k) : k = j :=
  Option.some.inj (hk.symm.trans hs.stays.on)

theorem Settled.move (hs : Settled s h j) (huse : t.use = Function.update s.use g u)
    (hown : g = h → Stays u j) (hu : ¬ Freeing u j) (htype : SameType s t j) :
    Settled t h j ∧ SameType s t j := by
  refine ⟨⟨?_, htype.1.trans hs.valid, ?_⟩, htype⟩
  · rw [huse]
    by_cases hg : h = g
    · rw [hg, Function.update_self]
      exact hown hg.symm
    · rw [Function.update_of_ne hg]
      exact hs.stays
  · intro i
    rw [huse]
    by_cases hi : i = g
    · rw [hi, Function.update_self]
      exact hu
    · rw [Function.update_of_ne hi]
      exact hs.kept i

theorem sameType_refl (hicache : t.icache = s.icache) (j : Slot) : SameType s t j := by
  rw [SameType, hicache]
  exact ⟨rfl, rfl, rfl, rfl⟩

theorem sameType_update {x : Entry} (hicache : t.icache = Function.update s.icache k x)
    (hx : k = j → x.valid = (s.icache j).valid ∧ x.copy.type = (s.icache j).copy.type ∧
      x.dev = (s.icache j).dev ∧ x.inum = (s.icache j).inum) : SameType s t j := by
  rw [SameType, hicache]
  by_cases hj : j = k
  · rw [hj, Function.update_self]
    exact hj ▸ hx hj.symm
  · rw [Function.update_of_ne hj]
    exact ⟨rfl, rfl, rfl, rfl⟩

/-- Someone who does not have the inode after ilock() is someone else. -/
theorem Settled.other (hs : Settled s h j) {v : Use} (hg : s.use g = v) (hv : ¬ Stays v j) :
    g ≠ h := by
  rintro rfl
  exact hv (hg ▸ hs.stays)

theorem igetFor_settled (a : Accounts s) (hs : Settled s h j) (hg : on (s.use g) = none)
    (dev : Dev) (inum : ℕ) (new : Option Half) :
    Settled (igetFor s g dev inum new) h j ∧ SameType s (igetFor s g dev inum new) j := by
  have hne : g ≠ h := hs.other rfl (not_stays hg)
  have hfree : ∀ i, ¬ Freeing (.ref new i) j := fun i => by rintro (hf | hf | hf) <;> cases hf
  cases hn : find s dev inum with
  | some i =>
    rw [igetFor_hit hn]
    exact hs.move rfl (fun heq => absurd heq hne) (hfree i)
      (sameType_update rfl fun hi => hi ▸ ⟨rfl, rfl, rfl, rfl⟩)
  | none =>
    cases hj : empty s with
    | none =>
      rw [igetFor_full hn hj]
      exact ⟨⟨hs.stays, hs.valid, hs.kept⟩, sameType_refl rfl j⟩
    | some i =>
      rw [igetFor_recycle hn hj]
      have hij : i ≠ j := by
        rintro rfl
        have hpos := hs.pos a
        rw [empty_some hj] at hpos
        exact absurd hpos (lt_irrefl 0)
      exact hs.move rfl (fun heq => absurd heq hne) (hfree i)
        (sameType_update rfl fun hi => absurd hi hij)

theorem next_settled (a : Accounts s) (r : Reuse s) (ninodes : ℕ) {e : Event η}
    (he : Enabled s e) (hs : Settled s h j) (hput : ∀ i, e ≠ .iput h i) :
    Settled (next ninodes s e) h j ∧ SameType s (next ninodes s e) j := by
  obtain ⟨-, he⟩ := he
  cases e with
  | ialloc g dev type =>
    refine hs.move rfl (fun heq => absurd heq (hs.other he.1 ?_)) ?_ (sameType_refl rfl j)
    · exact not_stays rfl
    · exact not_freeing_none rfl
  | scan g dev type inum =>
    have hne : g ≠ h := hs.other he (not_stays rfl)
    change Settled (scan ninodes s g dev type inum) h j ∧ SameType s (scan ninodes s g dev type inum) j
    simp only [scan]
    split
    · split
      · exact hs.move rfl (fun heq => absurd heq hne) (not_freeing_none rfl) (sameType_refl rfl j)
      · exact hs.move rfl (fun heq => absurd heq hne) (not_freeing_none rfl) (sameType_refl rfl j)
    · exact ⟨⟨hs.stays, hs.valid, hs.kept⟩, sameType_refl rfl j⟩
  | igetNew g dev type inum =>
    exact igetFor_settled a hs (by rw [show s.use g = _ from he]; rfl) dev inum (some type)
  | iget g dev inum =>
    exact igetFor_settled a hs (by rw [show s.use g = _ from he]; rfl) dev inum none
  | idup g i k =>
    refine hs.move rfl (fun heq => absurd heq (hs.other he.1 (not_stays rfl))) ?_ ?_
    · rintro (hf | hf | hf) <;> cases hf
    · exact sameType_update rfl fun hi => hi ▸ ⟨rfl, rfl, rfl, rfl⟩
  | ilock g new k =>
    refine hs.move rfl ?_ ?_ (sameType_refl rfl j)
    · rintro rfl
      have hk := hs.slot (on_of_eq he.1 rfl)
      rw [hk, if_pos hs.valid]
      exact Or.inr (Or.inl ⟨new, rfl⟩)
    · split <;> rintro (hf | hf | hf) <;> cases hf
  | load g new k =>
    have hne : g ≠ h := hs.other he not_stays_loading
    have hkj : k ≠ j := by
      rintro rfl
      have hf := r.fits g k (on_of_eq he rfl)
      rw [show s.use g = _ from he] at hf
      cases hf.symm.trans hs.valid
    change Settled (load s g new k) h j ∧ SameType s (load s g new k) j
    simp only [load]
    split
    · refine ⟨⟨hs.stays, ?_, hs.kept⟩, ?_⟩
      · exact (congrArg Entry.valid (Function.update_of_ne hkj.symm _ _)).trans hs.valid
      · exact sameType_update rfl fun hi => absurd hi hkj
    · refine hs.move rfl (fun heq => absurd heq hne) ?_ (sameType_update rfl fun hi => absurd hi hkj)
      rintro (hf | hf | hf) <;> cases hf
  | change g new k x =>
    refine hs.move rfl ?_ ?_ ?_
    · rintro rfl
      have hk := hs.slot (on_of_eq he rfl)
      exact hk ▸ Or.inr (Or.inr rfl)
    · rintro (hf | hf | hf) <;> cases hf
    · exact sameType_update rfl fun hi => hi ▸ ⟨rfl, rfl, rfl, rfl⟩
  | iupdate g k =>
    refine hs.move rfl ?_ ?_ (sameType_refl rfl j)
    · rintro rfl
      have hk := hs.slot (on_of_eq he rfl)
      exact hk ▸ Or.inr (Or.inl ⟨none, rfl⟩)
    · rintro (hf | hf | hf) <;> cases hf
  | iunlock g new k =>
    refine hs.move rfl ?_ ?_ (sameType_refl rfl j)
    · rintro rfl
      have hk := hs.slot (on_of_eq he rfl)
      exact hk ▸ Or.inl rfl
    · rintro (hf | hf | hf) <;> cases hf
  | iput g k =>
    have hne : g ≠ h := by
      rintro rfl
      exact hput k rfl
    refine hs.move rfl (fun heq => absurd heq hne) ?_ (sameType_refl rfl j)
    split <;> rintro (hf | hf | hf) <;> cases hf
  | check g k =>
    have hne : g ≠ h := hs.other he not_stays_putting
    refine hs.move rfl (fun heq => absurd heq hne) ?_ (sameType_refl rfl j)
    by_cases hkj : k = j
    · -- the reference of `h` is one more than that of `g`
      have hmany : (s.icache k).ref ≠ 1 := by
        intro hone
        have hon := hs.stays.on
        rw [← hkj] at hon
        exact hne (a.refs.sole hon (on_of_eq he rfl) hone)
      rw [if_neg hmany]
      rintro (hf | hf | hf) <;> cases hf
    · split <;> exact not_freeing_ne rfl hkj
  | itrunc g k =>
    have hne : g ≠ h := hs.other he not_stays_putting
    have hkj : k ≠ j := by
      rintro rfl
      exact hs.kept g (Or.inl he)
    exact hs.move rfl (fun heq => absurd heq hne) (not_freeing_ne rfl hkj)
      (sameType_update rfl fun hi => absurd hi hkj)
  | clear g k =>
    have hne : g ≠ h := hs.other he not_stays_putting
    have hkj : k ≠ j := by
      rintro rfl
      exact hs.kept g (Or.inr (Or.inl he))
    exact hs.move rfl (fun heq => absurd heq hne) (not_freeing_ne rfl hkj)
      (sameType_update rfl fun hi => absurd hi hkj)
  | invalidate g k =>
    have hne : g ≠ h := hs.other he not_stays_putting
    have hkj : k ≠ j := by
      rintro rfl
      exact hs.kept g (Or.inr (Or.inr he))
    exact hs.move rfl (fun heq => absurd heq hne) (not_freeing_ne rfl hkj)
      (sameType_update rfl fun hi => absurd hi hkj)
  | releasesleep g k =>
    refine hs.move rfl (fun heq => absurd heq (hs.other he not_stays_putting)) ?_
      (sameType_refl rfl j)
    rintro (hf | hf | hf) <;> cases hf
  | decrement g k =>
    refine hs.move rfl (fun heq => absurd heq (hs.other he not_stays_putting)) ?_ ?_
    · exact not_freeing_none rfl
    · exact sameType_update rfl fun hi => hi ▸ ⟨rfl, rfl, rfl, rfl⟩

/-! The types there are. -/

structure Typed (P : Half → Prop) (s : State η) : Prop where
  disk : ∀ dev inum, P (s.disk dev inum).type
  copy : ∀ j, (s.icache j).valid = true → P (s.icache j).copy.type
  scanning : ∀ h dev type inum, s.use h = .scanning dev type inum → P type

variable {P : Half → Prop}

theorem Typed.put (k : Typed P s) {d : Dinode} (hd : P d.type) (v : Dev) (n : ℕ) (dev : Dev)
    (inum : ℕ) : P (put s.disk v n d dev inum).type := by
  simp only [InodeCache.put]
  split
  · exact hd
  · exact k.disk dev inum

theorem Typed.update (k : Typed P s) {i : Slot} {x : Entry} (hx : x.valid = true → P x.copy.type)
    (j : Slot) (hj : (Function.update s.icache i x j).valid = true) :
    P (Function.update s.icache i x j).copy.type := by
  by_cases hji : j = i
  · rw [hji, Function.update_self] at hj ⊢
    exact hx hj
  · rw [Function.update_of_ne hji] at hj ⊢
    exact k.copy j hj

theorem Typed.use (k : Typed P s) (huse : t.use = Function.update s.use g u)
    (hu : ∀ dev type inum, u = .scanning dev type inum → P type) (h : η) (dev : Dev) (type : Half)
    (inum : ℕ) (hh : t.use h = .scanning dev type inum) : P type := by
  rw [huse] at hh
  by_cases hg : h = g
  · rw [hg, Function.update_self] at hh
    exact hu dev type inum hh
  · rw [Function.update_of_ne hg] at hh
    exact k.scanning h dev type inum hh

theorem igetFor_typed (k : Typed P s) (dev : Dev) (inum : ℕ) (new : Option Half) :
    Typed P (igetFor s g dev inum new) := by
  cases hn : find s dev inum with
  | some i =>
    rw [igetFor_hit hn]
    exact ⟨k.disk, k.update (k.copy i), k.use rfl nofun⟩
  | none =>
    cases hj : empty s with
    | none =>
      rw [igetFor_full hn hj]
      exact ⟨k.disk, k.copy, k.scanning⟩
    | some i =>
      rw [igetFor_recycle hn hj]
      exact ⟨k.disk, k.update nofun, k.use rfl nofun⟩

theorem next_typed (h0 : P 0) (r : Reuse s) (k : Typed P s) {ninodes : ℕ} {e : Event η}
    (he : Enabled s e) (htype : ∀ g dev type, e = .ialloc g dev type → P type) :
    Typed P (next ninodes s e) := by
  obtain ⟨-, he⟩ := he
  have hvalid : ∀ {g i v}, s.use g = v → on v = some i → Fits (s.icache i) v := by
    intro g i v hv hon
    exact hv ▸ r.fits g i (on_of_eq hv hon)
  cases e with
  | ialloc g dev type =>
    refine ⟨k.disk, k.copy, k.use rfl ?_⟩
    rintro v ty n hu
    cases hu
    exact htype g dev type rfl
  | scan g dev type inum =>
    have hty := k.scanning g dev type inum he
    change Typed P (scan ninodes s g dev type inum)
    simp only [scan]
    split
    · split
      · exact ⟨k.put hty dev inum, k.copy, k.use rfl (by rintro _ _ _ ⟨⟩)⟩
      · refine ⟨k.disk, k.copy, k.use rfl ?_⟩
        rintro v ty n hu
        cases hu
        exact hty
    · exact ⟨k.disk, k.copy, k.scanning⟩
  | igetNew g dev type inum => exact igetFor_typed k dev inum (some type)
  | iget g dev inum => exact igetFor_typed k dev inum none
  | idup g i j => exact ⟨k.disk, k.update (k.copy j), k.use rfl (by rintro _ _ _ ⟨⟩)⟩
  | ilock g new j =>
    refine ⟨k.disk, k.copy, k.use rfl ?_⟩
    intro v ty n hu
    split at hu <;> cases hu
  | load g new j =>
    change Typed P (load s g new j)
    simp only [load]
    split
    · exact ⟨k.disk, k.update fun _ => k.disk _ _, k.scanning⟩
    · exact ⟨k.disk, k.update fun _ => k.disk _ _, k.use rfl (by rintro _ _ _ ⟨⟩)⟩
  | change g new j x => exact ⟨k.disk, k.update (k.copy j), k.use rfl (by rintro _ _ _ ⟨⟩)⟩
  | iupdate g j =>
    exact ⟨k.put (k.copy j (hvalid he rfl)) _ _, k.copy, k.use rfl (by rintro _ _ _ ⟨⟩)⟩
  | iunlock g new j => exact ⟨k.disk, k.copy, k.use rfl (by rintro _ _ _ ⟨⟩)⟩
  | iput g j =>
    refine ⟨k.disk, k.copy, k.use rfl ?_⟩
    intro v ty n hu
    cases hu
  | check g j =>
    refine ⟨k.disk, k.copy, k.use rfl ?_⟩
    intro v ty n hu
    cases hu
  | itrunc g j =>
    have hty := k.copy j (hvalid he rfl).1
    refine ⟨k.put ?_ _ _, k.update fun _ => hty, k.use rfl (by rintro _ _ _ ⟨⟩)⟩
    change P (Function.update s.icache j _ j).copy.type
    rw [Function.update_self]
    exact hty
  | clear g j =>
    refine ⟨k.put ?_ _ _, k.update fun _ => h0, k.use rfl (by rintro _ _ _ ⟨⟩)⟩
    change P (Function.update s.icache j _ j).copy.type
    rw [Function.update_self]
    exact h0
  | invalidate g j => exact ⟨k.disk, k.update (by rintro ⟨⟩), k.use rfl (by rintro _ _ _ ⟨⟩)⟩
  | releasesleep g j => exact ⟨k.disk, k.copy, k.use rfl (by rintro _ _ _ ⟨⟩)⟩
  | decrement g j => exact ⟨k.disk, k.update (k.copy j), k.use rfl (by rintro _ _ _ ⟨⟩)⟩

end Steps

end InodeTypes
