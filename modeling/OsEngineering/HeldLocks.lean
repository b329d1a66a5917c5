import Mathlib.Logic.Function.Basic

/-! Locks and their holders, where a holder has at most one lock: the two tables say the
same, also after a lock is taken or given back. -/
namespace HeldLocks

variable {η κ : Type*}

def Agree (held : η → Option κ) (lock : κ → Option η) : Prop :=
  ∀ h k, held h = some k ↔ lock k = some h

variable {held : η → Option κ} {lock : κ → Option η}

theorem Agree.sole (a : Agree held lock) {h g : η} {k : κ} (hh : held h = some k)
    (hg : held g = some k) : g = h := by
  have h1 := (a h k).mp hh
  have h2 := (a g k).mp hg
  exact Option.some.inj (h2.symm.trans h1)

theorem Agree.not_held (a : Agree held lock) {k : κ} (hk : lock k = none) (h : η) :
    held h ≠ some k := by
  intro hh
  have h1 := (a h k).mp hh
  rw [hk] at h1
  exact absurd h1 nofun

variable [DecidableEq η]

theorem Agree.keep (a : Agree held lock) {h : η} {x : Option κ} (hx : x = held h) :
    Agree (Function.update held h x) lock := by
  rw [hx, Function.update_eq_self]
  exact a

variable [DecidableEq κ]

theorem Agree.acquire (a : Agree held lock) {h : η} {k : κ} (hh : held h = none)
    (hk : lock k = none) :
    Agree (Function.update held h (some k)) (Function.update lock k (some h)) := by
  intro g j
  by_cases hg : g = h
  · rw [hg, Function.update_self]
    by_cases hj : j = k
    · rw [hj, Function.update_self]
      exact iff_of_true rfl rfl
    · rw [Function.update_of_ne hj, ← a h j, hh]
      exact iff_of_false (fun heq => hj (Option.some.inj heq).symm) nofun
  · rw [Function.update_of_ne hg, a g j]
    by_cases hj : j = k
    · rw [hj, Function.update_self, hk]
      exact iff_of_false nofun (fun heq => hg (Option.some.inj heq).symm)
    · rw [Function.update_of_ne hj]

theorem Agree.release (a : Agree held lock) {h : η} {k : κ} (hh : held h = some k) :
    Agree (Function.update held h none) (Function.update lock k none) := by
  intro g j
  by_cases hg : g = h
  · rw [hg, Function.update_self]
    by_cases hj : j = k
    · rw [hj, Function.update_self]
      exact iff_of_false nofun nofun
    · rw [Function.update_of_ne hj, ← a h j, hh]
      exact iff_of_false nofun (fun heq => hj (Option.some.inj heq).symm)
  · rw [Function.update_of_ne hg]
    by_cases hj : j = k
    · rw [hj, Function.update_self]
      exact iff_of_false (fun heq => hg (a.sole hh heq)) nofun
    · rw [Function.update_of_ne hj]
      exact a g j

end HeldLocks
