import Mathlib.Data.Nat.Digits.Lemmas

/-! Positional notation, with the most significant digit first and at least one digit. -/
namespace Numerals

variable {b n : ℕ} {ds : List ℕ}

/-- What the digits say, read from the left. -/
def reading (b : ℕ) (ds : List ℕ) : ℕ := ds.foldl (fun v d => v * b + d) 0

/-- `ds` is `n` in base `b`, without leading zeros. -/
structure IsNumeral (b n : ℕ) (ds : List ℕ) : Prop where
  digits : ∀ d ∈ ds, d < b
  reads : reading b ds = n
  ne_nil : ds ≠ []
  leading : 1 < ds.length → ds.head? ≠ some 0

def numeral (b n : ℕ) : List ℕ := if n = 0 then [0] else (Nat.digits b n).reverse

theorem reading_append (b : ℕ) (ds : List ℕ) (d : ℕ) :
    reading b (ds ++ [d]) = reading b ds * b + d := by
  rw [reading, List.foldl_append]
  rfl

theorem reading_reverse (b : ℕ) (ds : List ℕ) : reading b ds.reverse = Nat.ofDigits b ds := by
  induction ds with
  | nil => rfl
  | cons d ds ih =>
    rw [List.reverse_cons, reading_append, ih, Nat.ofDigits_cons]
    ring

theorem numeral_of_lt (h : n < b) : numeral b n = [n] := by
  unfold numeral
  by_cases hn : n = 0
  · rw [if_pos hn, hn]
  · rw [if_neg hn, Nat.digits_of_lt b n hn h]
    rfl

theorem numeral_of_le (hb : 1 < b) (h : b ≤ n) :
    numeral b n = numeral b (n / b) ++ [n % b] := by
  have hn : n ≠ 0 := by omega
  have hdiv : n / b ≠ 0 := Nat.div_ne_zero_iff.mpr ⟨by omega, h⟩
  rw [numeral, if_neg hn, numeral, if_neg hdiv, Nat.digits_eq_cons_digits_div hb hn,
    List.reverse_cons]

theorem numeral_ne_nil (hb : 1 < b) (n : ℕ) : numeral b n ≠ [] := by
  by_cases h : n < b
  · rw [numeral_of_lt h]
    exact List.cons_ne_nil n []
  · rw [numeral_of_le hb (Nat.le_of_not_lt h)]
    exact List.append_ne_nil_of_right_ne_nil _ (List.cons_ne_nil _ [])

theorem length_numeral_pos (hb : 1 < b) (n : ℕ) : 0 < (numeral b n).length :=
  List.length_pos_of_ne_nil (numeral_ne_nil hb n)

theorem length_numeral_le (hb : 1 < b) {k : ℕ} (hk : 0 < k) (h : n < b ^ k) :
    (numeral b n).length ≤ k := by
  unfold numeral
  split
  · exact hk
  · rw [List.length_reverse]
    exact (Nat.digits_length_le_iff hb n).mpr h

theorem head_numeral (hn : n ≠ 0) : (numeral b n).head? ≠ some 0 := by
  have hne : Nat.digits b n ≠ [] := Nat.digits_ne_nil_iff_ne_zero.mpr hn
  rw [numeral, if_neg hn, List.head?_reverse, List.getLast?_eq_some_getLast hne, ne_eq,
    Option.some.injEq]
  exact Nat.getLast_digit_ne_zero b hn

theorem isNumeral (hb : 1 < b) (n : ℕ) : IsNumeral b n (numeral b n) where
  digits := by
    intro d hd
    unfold numeral at hd
    split at hd
    · rw [List.mem_singleton] at hd
      omega
    · exact Nat.digits_lt_base hb (List.mem_reverse.mp hd)
  reads := by
    unfold numeral
    split
    next h => rw [reading, List.foldl_cons, List.foldl_nil, Nat.zero_mul, h]
    next => rw [reading_reverse, Nat.ofDigits_digits]
  ne_nil := numeral_ne_nil hb n
  leading := by
    intro hlen
    apply head_numeral
    rintro rfl
    exact absurd hlen (lt_irrefl 1)

/-- There is no other way to write a number. -/
theorem IsNumeral.eq_numeral (hb : 1 < b) (h : IsNumeral b n ds) : ds = numeral b n := by
  by_cases hlong : 1 < ds.length
  · have hreads := h.reads
    rw [← List.reverse_reverse ds, reading_reverse] at hreads
    have hne : ds.reverse ≠ [] := fun hnil => h.ne_nil (List.reverse_eq_nil_iff.mp hnil)
    have hdigits := Nat.digits_ofDigits b hb ds.reverse
      (fun d hd => h.digits d (List.mem_reverse.mp hd)) (by
        intro hne'
        have hlead := h.leading hlong
        rwa [← List.getLast?_reverse, List.getLast?_eq_some_getLast hne', ne_eq,
          Option.some.injEq] at hlead)
    have hpos : n ≠ 0 := by
      intro hzero
      rw [hreads, hzero, Nat.digits_zero] at hdigits
      exact hne hdigits.symm
    rw [numeral, if_neg hpos, ← hreads, hdigits, List.reverse_reverse]
  · cases ds with
    | nil => exact absurd rfl h.ne_nil
    | cons d ds =>
      obtain rfl : ds = [] := by
        apply List.eq_nil_of_length_eq_zero
        rw [List.length_cons] at hlong
        omega
      have hreads : reading b [d] = n := h.reads
      rw [reading, List.foldl_cons, List.foldl_nil, Nat.zero_mul, Nat.zero_add] at hreads
      have hd : d < b := h.digits d List.mem_cons_self
      rw [← hreads, numeral_of_lt hd]

end Numerals
