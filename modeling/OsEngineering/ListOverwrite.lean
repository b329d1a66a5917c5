import Mathlib.Data.List.Basic

/-! Lists written over from a position on, as a file is. -/
namespace ListOverwrite

variable {α : Type*} {xs d : List α} {off k : ℕ} {src a b : List α}

/-- `xs` with `src` from position `off` on. -/
def overwrite (xs : List α) (off : ℕ) (src : List α) : List α :=
  xs.take off ++ src ++ xs.drop (off + src.length)

theorem length_overwrite (h : off ≤ xs.length) (src : List α) :
    (overwrite xs off src).length = max xs.length (off + src.length) := by
  unfold overwrite
  rw [List.length_append, List.length_append, List.length_take, List.length_drop]
  omega

theorem getElem?_overwrite (h : off ≤ xs.length) (src : List α) (k : ℕ) :
    (overwrite xs off src)[k]? =
      if off ≤ k ∧ k < off + src.length then src[k - off]? else xs[k]? := by
  have htake : (xs.take off).length = off := by
    rw [List.length_take]
    omega
  unfold overwrite
  rw [List.append_assoc]
  by_cases hlow : k < off
  · rw [List.getElem?_append_left (by omega), List.getElem?_take_of_lt hlow, if_neg (by omega)]
  · rw [List.getElem?_append_right (by omega), htake]
    by_cases hin : k < off + src.length
    · rw [List.getElem?_append_left (by omega), if_pos (by omega)]
    · rw [List.getElem?_append_right (by omega), List.getElem?_drop, if_neg (by omega)]
      congr 1
      omega

/-- What says that `d` is `xs` written over. -/
theorem eq_overwrite (h : off ≤ xs.length)
    (hin : ∀ k < src.length, d[off + k]? = src[k]?)
    (hout : ∀ k, k < off ∨ off + src.length ≤ k → d[k]? = xs[k]?) : d = overwrite xs off src := by
  apply List.ext_getElem?
  intro k
  rw [getElem?_overwrite h]
  split
  next hk =>
    have := hin (k - off) (by omega)
    rwa [Nat.add_sub_cancel' hk.1] at this
  next hk => exact hout k (by omega)

theorem overwrite_nil (xs : List α) (off : ℕ) : overwrite xs off [] = xs := by
  rw [overwrite, List.append_nil, List.length_nil, Nat.add_zero, List.take_append_drop]

/-- Writing at the end appends. -/
theorem overwrite_end (xs src : List α) : overwrite xs xs.length src = xs ++ src := by
  unfold overwrite
  rw [List.take_length, List.drop_eq_nil_of_le (Nat.le_add_right _ _), List.append_nil]

/-- Two writes one after the other are one. -/
theorem overwrite_append (h : off ≤ xs.length) (a b : List α) :
    overwrite (overwrite xs off a) (off + a.length) b = overwrite xs off (a ++ b) := by
  have hmid : off + a.length ≤ (overwrite xs off a).length := by
    rw [length_overwrite h]
    omega
  apply eq_overwrite h
  · intro k hk
    rw [List.length_append] at hk
    rw [getElem?_overwrite hmid, getElem?_overwrite h]
    by_cases hka : k < a.length
    · rw [if_neg (by omega), if_pos (by omega), List.getElem?_append_left hka]
      congr 1
      omega
    · rw [if_pos (by omega), List.getElem?_append_right (by omega)]
      congr 1
      omega
  · intro k hk
    rw [List.length_append] at hk
    rw [getElem?_overwrite hmid, getElem?_overwrite h, if_neg (by omega), if_neg (by omega)]

end ListOverwrite
