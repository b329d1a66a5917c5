import Mathlib.Data.Nat.Find
import Mathlib.Logic.Function.Basic

/-! Descriptor tables: numbers that stand for open objects, with the lowest free number given
out first. -/
namespace DescriptorTable

structure Table (α : Type) where
  object : ℕ → Option α
  top : ℕ
  free : ∀ fd, top ≤ fd → object fd = none

variable {α : Type} {t : Table α} {fd n : ℕ} {x : α}

def lowest (t : Table α) : ℕ := Nat.find (p := fun fd => t.object fd = none) ⟨t.top, t.free t.top (le_refl _)⟩

def close (t : Table α) (fd : ℕ) : Table α where
  object := Function.update t.object fd none
  top := t.top
  free := by
    intro n hn
    by_cases h : n = fd
    · rw [h, Function.update_self]
    · rw [Function.update_of_ne h]
      exact t.free n hn

def install (t : Table α) (fd : ℕ) (x : α) : Table α where
  object := Function.update t.object fd (some x)
  top := max t.top (fd + 1)
  free := by
    intro n hn
    rw [Function.update_of_ne (by omega)]
    exact t.free n (by omega)

/-- A new object under the lowest free number. -/
def alloc (t : Table α) (x : α) : ℕ × Table α := (lowest t, install t (lowest t) x)

/-- Without an object under `old` nothing happens. -/
def dup2 (t : Table α) (old new : ℕ) : Table α :=
  match t.object old with
  | none => t
  | some x => install t new x

theorem lowest_free (t : Table α) : t.object (lowest t) = none :=
  Nat.find_spec (p := fun fd => t.object fd = none) _

theorem lowest_le (h : t.object fd = none) : lowest t ≤ fd := Nat.find_min' _ h

/-- The lowest free number where all below it are in use. -/
theorem lowest_eq (hfree : t.object fd = none) (hused : ∀ n < fd, t.object n ≠ none) :
    lowest t = fd := by
  apply le_antisymm (lowest_le hfree)
  by_contra hlt
  exact hused (lowest t) (by omega) (lowest_free t)

theorem close_self (t : Table α) (fd : ℕ) : (close t fd).object fd = none :=
  Function.update_self ..

theorem close_of_ne (t : Table α) (h : n ≠ fd) : (close t fd).object n = t.object n :=
  Function.update_of_ne h ..

theorem install_self (t : Table α) (fd : ℕ) (x : α) : (install t fd x).object fd = some x :=
  Function.update_self ..

theorem install_of_ne (t : Table α) (x : α) (h : n ≠ fd) :
    (install t fd x).object n = t.object n := Function.update_of_ne h ..

theorem dup2_eq {old : ℕ} (h : t.object old = some x) (new : ℕ) :
    dup2 t old new = install t new x := by
  rw [dup2, h]

end DescriptorTable
