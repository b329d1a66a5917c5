import OsEngineering.InodeAccounts

/-! Numbers freed by iput() and taken again by ialloc(), where directories name inodes with
links. -/
set_option linter.unusedSectionVars false

namespace InodeReuse

open BlockAllocation ByteBlock FiniteTally HeldLocks InodeAccounts InodeCache TransitionSystem

/-- The inode is freed, or nothing more will be done with it. -/
def Leaving (u : Use) (j : Slot) : Prop :=
  u = .putting .invalidating j ∨ u = .putting .releasing j ∨ u = .putting .dropping j

def Key (x : Entry) (dev : Dev) (inum : ℕ) : Prop := x.dev = dev ∧ x.inum = inum

/-- What the use of a handle says of its entry. -/
def Fits (x : Entry) : Use → Prop
  | .loading _ _ => x.valid = false
  | .locked (some type) _ => x.valid = true ∧ x.copy = fresh type
  | .locked none _ | .changing _ => x.valid = true
  | .putting .checking _ => x.valid = true ∧ x.copy.nlink = 0
  | .putting .truncating _ | .putting .clearing _ =>
    x.valid = true ∧ x.copy.nlink = 0 ∧ x.ref = 1
  | _ => True

variable {η : Type*}

/-- Handles on the number, those in `who` apart, are leaving, and no copy of it will be
used again. -/
def Left (s : State η) (dev : Dev) (inum : ℕ) (who : η → Prop) : Prop :=
  ∀ k, 0 < (s.icache k).ref → Key (s.icache k) dev inum →
    (∀ g, ¬ who g → on (s.use g) = some k → Leaving (s.use g) k) ∧
      ((s.icache k).valid = true → ∃ g, s.use g = .putting .invalidating k)

/-- From the claim by ialloc() until ilock() has read the inode. -/
def Newborn (s : State η) (h : η) (type : Half) (dev : Dev) (inum : ℕ) : Prop :=
  s.use h = .claimed dev type inum ∨
    ∃ j, (s.use h = .ref (some type) j ∨ s.use h = .loading (some type) j) ∧
      Key (s.icache j) dev inum

def Undisturbed (s : State η) (j : Slot) (who : η → Prop) : Prop :=
  ∀ g, who g → s.use g ≠ .changing j ∧ s.use g ≠ .putting .invalidating j

structure Reuse (s : State η) : Prop where
  vacant : ∀ dev inum, (s.disk dev inum).type = 0 → Left s dev inum fun _ => False
  newborn : ∀ h type dev inum, Newborn s h type dev inum →
    type ≠ 0 ∧ s.disk dev inum = fresh type ∧ Left s dev inum (· = h)
  one : ∀ h g type type' dev inum, Newborn s h type dev inum → Newborn s g type' dev inum → g = h
  synced : ∀ j, 0 < (s.icache j).ref → (s.icache j).valid = true →
    Undisturbed s j (fun _ => True) →
      (s.icache j).copy = s.disk (s.icache j).dev (s.icache j).inum
  typed : ∀ j, 0 < (s.icache j).ref → (s.icache j).valid = true →
    (∀ g, s.use g ≠ .putting .invalidating j) → (s.icache j).copy.type ≠ 0
  fits : ∀ h j, on (s.use h) = some j → Fits (s.icache j) (s.use h)
  scanning : ∀ h dev type inum, s.use h = .scanning dev type inum → type ≠ 0
  live : ∀ dev inum, s.live dev inum = true ↔ (s.disk dev inum).type ≠ 0

theorem fits_of_unlocked {u : Use} {j : Slot} (hon : on u = some j) (hl : locker u ≠ some j)
    (x : Entry) : Fits x u := by
  cases u with
  | idle => trivial
  | scanning => trivial
  | claimed => trivial
  | ref => trivial
  | loading => exact absurd hon hl
  | locked => exact absurd hon hl
  | changing => exact absurd hon hl
  | putting phase k =>
    cases phase with
    | dropping => trivial
    | _ => exact absurd hon hl

/-- Only a handle that has seen itself alone depends on the count. -/
theorem fits_of_same {u : Use} {j : Slot} {x y : Entry} (hf : Fits x u) (hon : on u = some j)
    (hv : y.valid = x.valid) (hc : y.copy = x.copy)
    (hr : (u = .putting .truncating j ∨ u = .putting .clearing j) → y.ref = x.ref) :
    Fits y u := by
  have halone : ∀ {k}, on (.putting .truncating k) = some j → k = j := Option.some.inj
  cases u with
  | idle => trivial
  | scanning => trivial
  | claimed => trivial
  | ref => trivial
  | loading => exact hv.trans hf
  | locked new k =>
    cases new with
    | none => exact hv.trans hf
    | some type => exact ⟨hv.trans hf.1, hc.trans hf.2⟩
  | changing => exact hv.trans hf
  | putting phase k =>
    cases phase with
    | checking => exact ⟨hv.trans hf.1, hc ▸ hf.2⟩
    | truncating =>
      obtain rfl := halone hon
      exact ⟨hv.trans hf.1, hc ▸ hf.2.1, (hr (Or.inl rfl)).trans hf.2.2⟩
    | clearing =>
      obtain rfl := halone hon
      exact ⟨hv.trans hf.1, hc ▸ hf.2.1, (hr (Or.inr rfl)).trans hf.2.2⟩
    | _ => trivial

section Steps

variable [Fintype η] [DecidableEq η]

theorem put_self {α : Type*} (f : Dev → ℕ → α) (dev : Dev) (inum : ℕ) (x : α) :
    put f dev inum x dev inum = x := if_pos ⟨rfl, rfl⟩

theorem put_of_not {α : Type*} (f : Dev → ℕ → α) {dev v : Dev} {inum n : ℕ} (x : α)
    (h : ¬ (v = dev ∧ n = inum)) : put f dev inum x v n = f v n := if_neg h

theorem put_same {α : Type*} (f : Dev → ℕ → α) (dev : Dev) (inum : ℕ) :
    put f dev inum (f dev inum) = f := by
  funext v n
  by_cases h : v = dev ∧ n = inum
  · rw [h.1, h.2, put_self]
  · rw [put_of_not f _ h]

/-- What the new entry `x`, the new use `u` of the handle and the new dinode `d` owe. -/
structure Touch (s t : State η) (h : η) (j : Slot) (x : Entry) (u : Use) (d : Dinode) :
    Prop where
  icache : t.icache = Function.update s.icache j x
  use : t.use = Function.update s.use h u
  disk : t.disk = put s.disk (s.icache j).dev (s.icache j).inum d
  key : SameKey x (s.icache j)
  pos : 0 < (s.icache j).ref
  before : ∀ k, on (s.use h) = some k → k = j
  after : ∀ k, on u = some k → k = j
  left : ((s.disk (s.icache j).dev (s.icache j).inum).type = 0 ∨
      ∃ g type, g ≠ h ∧ Newborn s g type (s.icache j).dev (s.icache j).inum) →
    (on u = some j → Leaving u j) ∧ d = s.disk (s.icache j).dev (s.icache j).inum ∧
      (x.valid = true → ∃ g, t.use g = .putting .invalidating j)
  freed : d.type = 0 → (s.disk (s.icache j).dev (s.icache j).inum).type ≠ 0 →
    Leaving u j ∧ (∀ g, g ≠ h → on (s.use g) ≠ some j) ∧
      (x.valid = true → u = .putting .invalidating j)
  born : ∀ type dev inum, Newborn t h type dev inum → Key (s.icache j) dev inum ∧
    Newborn s h type dev inum ∧ d = s.disk dev inum ∧
      (x.valid = true → (s.icache j).valid = true)
  scanning : ∀ dev type inum, u ≠ .scanning dev type inum
  sync : x.valid = true → u ≠ .changing j → u ≠ .putting .invalidating j →
    Undisturbed s j (· ≠ h) → x.copy = d
  typed : x.valid = true → u ≠ .putting .invalidating j →
    (∀ g, g ≠ h → s.use g ≠ .putting .invalidating j) → x.copy.type ≠ 0
  fits : Fits x u
  others : ∀ g, g ≠ h → on (s.use g) = some j → Fits (s.icache j) (s.use g) → Fits x (s.use g)
  live : ∀ dev inum, t.live dev inum = true ↔ (t.disk dev inum).type ≠ 0

variable {s t : State η} {h : η} {j : Slot} {x : Entry} {u : Use} {d : Dinode}

theorem newborn_not_on {g : η} {type : Half} {dev : Dev} {inum : ℕ}
    (hb : Newborn s g type dev inum) (k : Slot) : s.use g ≠ .putting .invalidating k := by
  intro heq
  rcases hb with hb | ⟨i, hb | hb, -⟩ <;>
  · rw [heq] at hb
    exact absurd hb nofun

namespace Touch

variable (c : Touch s t h j x u d)

include c

theorem icache_ne {k : Slot} (hk : k ≠ j) : t.icache k = s.icache k := by
  rw [c.icache, Function.update_of_ne hk]

theorem icache_self : t.icache j = x := by rw [c.icache, Function.update_self]

theorem use_ne {g : η} (hg : g ≠ h) : t.use g = s.use g := by
  rw [c.use, Function.update_of_ne hg]

theorem use_self : t.use h = u := by rw [c.use, Function.update_self]

theorem key_iff (k : Slot) (dev : Dev) (inum : ℕ) :
    Key (t.icache k) dev inum ↔ Key (s.icache k) dev inum := by
  by_cases hk : k = j
  · rw [hk, c.icache_self, Key, Key, c.key.1, c.key.2]
  · rw [c.icache_ne hk]

theorem pos_of {k : Slot} (hk : 0 < (t.icache k).ref) : 0 < (s.icache k).ref := by
  by_cases hkj : k = j
  · rw [hkj]
    exact c.pos
  · rw [← c.icache_ne hkj]
    exact hk

/-- On another entry the handles are as before. -/
theorem same_on {k : Slot} (hk : k ≠ j) (g : η) :
    on (t.use g) = some k ∨ on (s.use g) = some k → t.use g = s.use g := by
  intro hg
  refine c.use_ne ?_
  rintro rfl
  rcases hg with hg | hg
  · rw [c.use_self] at hg
    exact hk (c.after k hg)
  · exact hk (c.before k hg)

theorem newborn_of {g : η} {type : Half} {dev : Dev} {inum : ℕ}
    (hb : Newborn t g type dev inum) : Newborn s g type dev inum := by
  by_cases hg : g = h
  · exact hg ▸ (c.born type dev inum (hg ▸ hb)).2.1
  · rcases hb with hb | ⟨k, hb, hk⟩
    · exact Or.inl (c.use_ne hg ▸ hb)
    · rw [c.use_ne hg] at hb
      exact Or.inr ⟨k, hb, (c.key_iff k dev inum).mp hk⟩

theorem left_other {dev : Dev} {inum : ℕ} {who : η → Prop} (hl : Left s dev inum who)
    (hj : ¬ Key (s.icache j) dev inum) : Left t dev inum who := by
  intro k hpos hk
  rw [c.key_iff] at hk
  have hkj : k ≠ j := by
    rintro rfl
    exact hj hk
  obtain ⟨h1, h2⟩ := hl k (c.pos_of hpos) hk
  rw [c.icache_ne hkj]
  refine ⟨fun g hg hon => ?_, fun hv => ?_⟩
  · have hsame := c.same_on hkj g (Or.inl hon)
    rw [hsame] at hon ⊢
    exact h1 g hg hon
  · obtain ⟨g, hg⟩ := h2 hv
    have hsame := c.same_on hkj g (Or.inr (by rw [hg]; rfl))
    exact ⟨g, hsame.trans hg⟩

theorem left_self (a : Accounts s) {dev : Dev} {inum : ℕ} {who : η → Prop}
    (hj : Key (s.icache j) dev inum)
    (hwho : ∀ g, ¬ who g → on (t.use g) = some j → Leaving (t.use g) j)
    (hvalid : x.valid = true → ∃ g, t.use g = .putting .invalidating j) :
    Left t dev inum who := by
  intro k hpos hk
  rw [c.key_iff] at hk
  obtain rfl := a.unique k j (c.pos_of hpos) c.pos
    ⟨hk.1.trans hj.1.symm, hk.2.trans hj.2.symm⟩
  rw [c.icache_self]
  exact ⟨hwho, hvalid⟩

end Touch

theorem Reuse.touch (r : Reuse s) (a : Accounts s) (c : Touch s t h j x u d) : Reuse t := by
  have hdisk : ∀ {v n}, ¬ Key (s.icache j) v n → t.disk v n = s.disk v n := by
    intro v n hk
    rw [c.disk]
    exact put_of_not _ _ fun hvn => hk ⟨hvn.1.symm, hvn.2.symm⟩
  have hdisk_self : t.disk (s.icache j).dev (s.icache j).inum = d := by
    rw [c.disk]
    exact put_self ..
  constructor
  · intro v n hz
    by_cases hj : Key (s.icache j) v n
    · obtain ⟨rfl, rfl⟩ := hj
      rw [hdisk_self] at hz
      by_cases hold : (s.disk (s.icache j).dev (s.icache j).inum).type = 0
      · obtain ⟨hu, -, hv⟩ := c.left (Or.inl hold)
        refine c.left_self a ⟨rfl, rfl⟩ (fun g _ hg => ?_) hv
        by_cases hgh : g = h
        · rw [hgh, c.use_self] at hg ⊢
          exact hu hg
        · rw [c.use_ne hgh] at hg ⊢
          exact (r.vacant _ _ hold j c.pos ⟨rfl, rfl⟩).1 g id hg
      · obtain ⟨hu, hno, hv⟩ := c.freed hz hold
        refine c.left_self a ⟨rfl, rfl⟩ (fun g _ hg => ?_) (fun hx => ⟨h, ?_⟩)
        · by_cases hgh : g = h
          · rw [hgh, c.use_self]
            exact hu
          · rw [c.use_ne hgh] at hg
            exact absurd hg (hno g hgh)
        · exact c.use_self.trans (hv hx)
    · rw [hdisk hj] at hz
      exact c.left_other (r.vacant v n hz) hj
  · intro g ty v n hb
    have hs := c.newborn_of hb
    obtain ⟨hty, hfresh, hl⟩ := r.newborn g ty v n hs
    refine ⟨hty, ?_⟩
    by_cases hj : Key (s.icache j) v n
    · by_cases hg : g = h
      · obtain ⟨-, hs', hd, hv⟩ := c.born ty v n (hg ▸ hb)
        obtain ⟨h1, h2⟩ := hl j c.pos hj
        obtain ⟨rfl, rfl⟩ := hj
        refine ⟨hdisk_self.trans (hd.trans hfresh), ?_⟩
        refine c.left_self a ⟨rfl, rfl⟩ (fun f hf hon => ?_) (fun hx => ?_)
        · have hfh : f ≠ h := fun heq => hf (heq.trans hg.symm)
          rw [c.use_ne hfh] at hon ⊢
          exact h1 f hf hon
        · obtain ⟨f, hf⟩ := h2 (hv hx)
          have hfh : f ≠ h := by
            rintro rfl
            exact newborn_not_on hs' j hf
          exact ⟨f, (c.use_ne hfh).trans hf⟩
      · obtain ⟨h1, -⟩ := hl j c.pos hj
        obtain ⟨rfl, rfl⟩ := hj
        obtain ⟨hu, hd, hv⟩ := c.left (Or.inr ⟨g, ty, hg, hs⟩)
        refine ⟨hdisk_self.trans (hd.trans hfresh), ?_⟩
        refine c.left_self a ⟨rfl, rfl⟩ (fun f hf hon => ?_) hv
        by_cases hfh : f = h
        · rw [hfh, c.use_self] at hon ⊢
          exact hu hon
        · rw [c.use_ne hfh] at hon ⊢
          exact h1 f hf hon
    · exact ⟨(hdisk hj).trans hfresh, c.left_other hl hj⟩
  · intro g f ty ty' v n hg hf
    exact r.one g f ty ty' v n (c.newborn_of hg) (c.newborn_of hf)
  · intro k hpos hv hun
    by_cases hk : k = j
    · rw [hk, c.icache_self] at hv ⊢
      rw [hk] at hun
      rw [c.key.1, c.key.2, hdisk_self]
      have hu := hun h trivial
      rw [c.use_self] at hu
      refine c.sync hv hu.1 hu.2 fun g hg => ?_
      have hgu := hun g trivial
      rw [c.use_ne hg] at hgu
      exact hgu
    · have hs := c.pos_of hpos
      rw [c.icache_ne hk] at hv ⊢
      have hother : ¬ Key (s.icache j) (s.icache k).dev (s.icache k).inum :=
        fun hkey => hk (a.unique j k c.pos hs hkey).symm
      rw [hdisk hother]
      refine r.synced k hs hv fun g _ => ?_
      have hgu := hun g trivial
      refine ⟨fun hg => hgu.1 ?_, fun hg => hgu.2 ?_⟩
      · rw [c.same_on hk g (Or.inr (by rw [hg]; rfl)), hg]
      · rw [c.same_on hk g (Or.inr (by rw [hg]; rfl)), hg]
  · intro k hpos hv hun
    by_cases hk : k = j
    · rw [hk, c.icache_self] at hv ⊢
      rw [hk] at hun
      have hu := hun h
      rw [c.use_self] at hu
      refine c.typed hv hu fun g hg => ?_
      have hgu := hun g
      rw [c.use_ne hg] at hgu
      exact hgu
    · rw [c.icache_ne hk] at hv ⊢
      refine r.typed k (c.pos_of hpos) hv fun g hg => hun g ?_
      rw [c.same_on hk g (Or.inr (by rw [hg]; rfl)), hg]
  · intro g k hon
    by_cases hg : g = h
    · rw [hg, c.use_self] at hon ⊢
      rw [c.after k hon, c.icache_self]
      exact c.fits
    · rw [c.use_ne hg] at hon ⊢
      by_cases hk : k = j
      · rw [hk] at hon ⊢
        rw [c.icache_self]
        exact c.others g hg hon (r.fits g j hon)
      · rw [c.icache_ne hk]
        exact r.fits g k hon
  · intro g v ty n hu
    by_cases hg : g = h
    · rw [hg, c.use_self] at hu
      exact absurd hu (c.scanning v ty n)
    · rw [c.use_ne hg] at hu
      exact r.scanning g v ty n hu
  · exact c.live

end Steps

end InodeReuse
