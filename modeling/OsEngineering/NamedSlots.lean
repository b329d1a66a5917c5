import Mathlib.Logic.Function.Basic
import Mathlib.Data.Nat.Notation

/-! Tables of numbered slots, free or bound to a key and a value. While the keys are distinct a
table is a finite map, and filling and clearing a slot are insertion and deletion. -/
namespace NamedSlots

variable {κ ν : Type*}

/-- Slot `n` binds `k` to `v`. -/
def Binds (slot : ℕ → Option (κ × ν)) (k : κ) (v : ν) (n : ℕ) : Prop := slot n = some (k, v)

def Absent (slot : ℕ → Option (κ × ν)) (k : κ) : Prop := ∀ v n, ¬ Binds slot k v n

def Distinct (slot : ℕ → Option (κ × ν)) : Prop :=
  ∀ k v w m n, Binds slot k v m → Binds slot k w n → m = n

/-- The table is the map `f`. -/
structure Denotes (slot : ℕ → Option (κ × ν)) (f : κ → Option ν) : Prop where
  distinct : Distinct slot
  value : ∀ k v, f k = some v ↔ ∃ n, Binds slot k v n

variable {slot : ℕ → Option (κ × ν)} {f : κ → Option ν} {k k' : κ} {v v' : ν} {m n : ℕ}

theorem Distinct.value (h : Distinct slot) (hm : Binds slot k v m) (hn : Binds slot k v' n) :
    v = v' := by
  have hsame := h k v v' m n hm hn
  subst hsame
  have heq : some (k, v) = some (k, v') := hm.symm.trans hn
  cases heq
  rfl

theorem Absent.free (h : Absent slot k) (hn : Binds slot k' v n) : k' ≠ k := by
  rintro rfl
  exact h v n hn

/-- A free slot is filled. -/
theorem binds_fill (hfree : slot n = none) :
    Binds (Function.update slot n (some (k, v))) k' v' m ↔
      (k' = k ∧ v' = v ∧ m = n) ∨ Binds slot k' v' m := by
  unfold Binds
  by_cases hm : m = n
  · subst hm
    rw [Function.update_self, hfree, Option.some.injEq, Prod.mk.injEq]
    constructor
    · rintro ⟨rfl, rfl⟩
      exact Or.inl ⟨rfl, rfl, rfl⟩
    · rintro (⟨rfl, rfl, -⟩ | h)
      · exact ⟨rfl, rfl⟩
      · cases h
  · rw [Function.update_of_ne hm]
    constructor
    · exact Or.inr
    · rintro (⟨-, -, h⟩ | h)
      · exact absurd h hm
      · exact h

theorem binds_clear (hn : Binds slot k v n) :
    Binds (Function.update slot n none) k' v' m ↔ Binds slot k' v' m ∧ m ≠ n := by
  unfold Binds
  by_cases hm : m = n
  · subst hm
    rw [Function.update_self]
    constructor
    · intro h
      cases h
    · rintro ⟨-, h⟩
      exact absurd rfl h
  · rw [Function.update_of_ne hm]
    exact (and_iff_left hm).symm

theorem Distinct.fill (h : Distinct slot) (hfree : slot n = none) (hnew : Absent slot k) (v : ν) :
    Distinct (Function.update slot n (some (k, v))) := by
  intro j u w a b ha hb
  rw [binds_fill hfree] at ha hb
  obtain ⟨hja, -, rfl⟩ | ha := ha
  · obtain ⟨-, -, rfl⟩ | hb := hb
    · rfl
    · exact absurd hja (hnew.free hb)
  · obtain ⟨hjb, -, rfl⟩ | hb := hb
    · exact absurd hjb (hnew.free ha)
    · exact h j u w a b ha hb

theorem Distinct.clear (h : Distinct slot) (hn : Binds slot k v n) :
    Distinct (Function.update slot n none) := by
  intro j u w a b ha hb
  rw [binds_clear hn] at ha hb
  exact h j u w a b ha.1 hb.1

theorem Denotes.absent_iff (h : Denotes slot f) : f k = none ↔ Absent slot k := by
  constructor
  · intro hnone v n hb
    have hsome := (h.value k v).mpr ⟨n, hb⟩
    rw [hnone] at hsome
    cases hsome
  · intro habs
    cases hk : f k with
    | none => rfl
    | some v =>
      obtain ⟨n, hb⟩ := (h.value k v).mp hk
      exact absurd hb (habs v n)

variable [DecidableEq κ]

theorem Denotes.insert (h : Denotes slot f) (hfree : slot n = none) (hnew : Absent slot k)
    (v : ν) :
    Denotes (Function.update slot n (some (k, v))) (Function.update f k (some v)) := by
  refine ⟨h.distinct.fill hfree hnew v, fun j w => ?_⟩
  by_cases hj : j = k
  · subst hj
    rw [Function.update_self, Option.some.injEq]
    constructor
    · rintro rfl
      exact ⟨n, (binds_fill hfree).mpr (Or.inl ⟨rfl, rfl, rfl⟩)⟩
    · rintro ⟨a, ha⟩
      obtain ⟨-, rfl, -⟩ | ha := (binds_fill hfree).mp ha
      · rfl
      · exact absurd ha (hnew w a)
  · rw [Function.update_of_ne hj, h.value]
    refine exists_congr fun a => ?_
    rw [binds_fill hfree]
    exact (or_iff_right fun hin => hj hin.1).symm

theorem Denotes.delete (h : Denotes slot f) (hn : Binds slot k v n) :
    Denotes (Function.update slot n none) (Function.update f k none) := by
  refine ⟨h.distinct.clear hn, fun j w => ?_⟩
  by_cases hj : j = k
  · subst hj
    rw [Function.update_self]
    refine iff_of_false nofun ?_
    rintro ⟨a, ha⟩
    obtain ⟨ha, hne⟩ := (binds_clear hn).mp ha
    exact hne (h.distinct _ _ _ _ _ ha hn)
  · rw [Function.update_of_ne hj, h.value]
    refine exists_congr fun a => ?_
    rw [binds_clear hn]
    refine (and_iff_left_of_imp fun ha => ?_).symm
    rintro rfl
    have heq : some (k, v) = some (j, w) := hn.symm.trans ha
    cases heq
    exact hj rfl

end NamedSlots
