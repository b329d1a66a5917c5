import Mathlib.Algebra.BigOperators.Group.Finset.Basic
import Mathlib.Data.Fintype.Basic

/-! Counting over a finite index set when the value at one index changes. -/
namespace FiniteTally

open Finset

theorem sum_change {ι M : Type*} [DecidableEq ι] [AddCommMonoid M] {S : Finset ι} {f g : ι → M}
    {a : ι} (ha : a ∈ S) (h : ∀ x ∈ S, x ≠ a → g x = f x) :
    ∑ x ∈ S, g x + f a = ∑ x ∈ S, f x + g a := by
  have hrest : ∑ x ∈ S.erase a, g x = ∑ x ∈ S.erase a, f x := by
    apply sum_congr rfl
    intro x hx
    exact h x (mem_of_mem_erase hx) (ne_of_mem_erase hx)
  rw [← add_sum_erase S f ha, ← add_sum_erase S g ha, hrest,
    add_right_comm (g a), add_comm (g a) (f a), add_right_comm]

theorem le_sum {ι : Type*} [DecidableEq ι] {S : Finset ι} (f : ι → ℕ) {a : ι} (ha : a ∈ S) :
    f a ≤ ∑ x ∈ S, f x := by
  rw [← add_sum_erase S f ha]
  exact Nat.le_add_right _ _

variable {ι α : Type*} [Fintype ι] [DecidableEq α]

/-- How many indices map to `a`. -/
def tally (f : ι → Option α) (a : α) : ℕ := ∑ x, if f x = some a then 1 else 0

variable [DecidableEq ι]

theorem tally_update (f : ι → Option α) (x : ι) (y : Option α) (a : α) :
    tally (Function.update f x y) a + (if f x = some a then 1 else 0) =
      tally f a + if y = some a then 1 else 0 := by
  have h := sum_change (S := univ) (f := fun z => if f z = some a then 1 else 0)
    (g := fun z => if Function.update f x y z = some a then 1 else 0) (mem_univ x) (by
      intro z _ hz
      rw [Function.update_of_ne hz])
  rw [Function.update_self] at h
  exact h

theorem tally_pos {f : ι → Option α} {x : ι} {a : α} (h : f x = some a) : 0 < tally f a := by
  have hle := le_sum (fun z => if f z = some a then 1 else 0) (mem_univ x)
  rw [if_pos h] at hle
  exact hle

omit [DecidableEq ι] in
theorem exists_of_tally {f : ι → Option α} {a : α} (h : tally f a ≠ 0) : ∃ x, f x = some a := by
  obtain ⟨x, -, hx⟩ := exists_ne_zero_of_sum_ne_zero h
  exact ⟨x, by_contra fun hne => hx (if_neg hne)⟩

/-- Reference counts that say how many holders each thing has. -/
def Counts (ref : α → ℤ) (held : ι → Option α) : Prop := ∀ a, ref a = tally held a

variable {ref : α → ℤ} {held : ι → Option α}

theorem Counts.pos (c : Counts ref held) {x : ι} {a : α} (h : held x = some a) : 0 < ref a := by
  rw [c a]
  exact Int.natCast_pos.mpr (tally_pos h)

theorem Counts.keep (c : Counts ref held) {x : ι} {y : Option α} (hy : y = held x) :
    Counts ref (Function.update held x y) := by
  rw [hy, Function.update_eq_self]
  exact c

/-- A holder of nothing takes one more reference. -/
theorem Counts.take (c : Counts ref held) {x : ι} {a : α} (hx : held x = none) :
    Counts (Function.update ref a (ref a + 1)) (Function.update held x (some a)) := by
  intro b
  have ht := tally_update held x (some a) b
  rw [hx, if_neg nofun] at ht
  by_cases hb : b = a
  · rw [hb, if_pos rfl] at ht
    rw [hb, Function.update_self, c a]
    omega
  · rw [if_neg fun heq => hb (Option.some.inj heq).symm] at ht
    rw [Function.update_of_ne hb, c b]
    omega

theorem Counts.give (c : Counts ref held) {x : ι} {a : α} (hx : held x = some a) :
    Counts (Function.update ref a (ref a - 1)) (Function.update held x none) := by
  intro b
  have ht := tally_update held x none b
  have hnone : (none : Option α) ≠ some b := nofun
  rw [if_neg hnone] at ht
  by_cases hb : b = a
  · rw [hb, if_pos hx] at ht
    rw [hb, Function.update_self, c a]
    omega
  · rw [hx, if_neg fun heq => hb (Option.some.inj heq).symm] at ht
    rw [Function.update_of_ne hb, c b]
    omega

/-- A reference goes from one holder to another. -/
theorem Counts.move (c : Counts ref held) {x y : ι} {a : α} (hx : held x = some a)
    (hy : held y = none) :
    Counts ref (Function.update (Function.update held y (some a)) x none) := by
  have hne : x ≠ y := by
    rintro rfl
    rw [hx] at hy
    cases hy
  have hx' : Function.update held y (some a) x = some a := by
    rw [Function.update_of_ne hne]
    exact hx
  have hg := (c.take (a := a) hy).give hx'
  rw [Function.update_self, Function.update_idem, add_sub_cancel_right,
    Function.update_eq_self] at hg
  exact hg

/-- The only holder of what is referred to once. -/
theorem Counts.sole (c : Counts ref held) {x y : ι} {a : α} (hx : held x = some a)
    (hy : held y = some a) (h : ref a = 1) : y = x := by
  by_contra hne
  have hg := c.give hx
  have hy' : Function.update held x none y = some a := by
    rw [Function.update_of_ne hne]
    exact hy
  have hpos := hg.pos hy'
  rw [Function.update_self, h] at hpos
  exact absurd hpos (lt_irrefl 0)

end FiniteTally
