import OsEngineering.ByteBlock
import OsEngineering.OutputPrograms
import OsEngineering.Numerals

/-! printnum() of lab01's lib/printfmt.c, for any putch(). -/
namespace PrintNumber

open ByteBlock OutputPrograms Numerals

/-- Why a run of the model stops before its end. -/
inductive Stop where
  | fuel
  /-- A read outside of an array or a string. -/
  | outside
  /-- va_arg() after the last argument. -/
  | argument

def hexDigits : List Char :=
  ['0', '1', '2', '3', '4', '5', '6', '7', '8', '9', 'a', 'b', 'c', 'd', 'e', 'f']

/-- A character as the int that putch() gets. -/
def int (c : Char) : Word := BitVec.ofNat 32 c.toNat

section Code

variable {σ : Type} (putch : Word → σ → σ)

def putTimes (c : Word) : ℕ → StateT σ (Except Stop) Unit
  | 0 => pure ()
  | n + 1 => do
    modify (putch c)
    putTimes c n

/-- "0123456789abcdef"[d] -/
def putDigit (d : ℕ) : StateT σ (Except Stop) Unit :=
  match hexDigits[d]? with
  | some c => modify (putch (int c))
  | none => throw .outside

/-- Where the recursion ends, width is decremented until it is no longer positive. -/
def printnum (base padc : Word) : ℕ → BitVec 64 → Word → StateT σ (Except Stop) Unit
  | 0, _, _ => throw .fuel
  | k + 1, num, width => do
    (if base.setWidth 64 ≤ num then printnum base padc k (num / base.setWidth 64) (width - 1)
      else putTimes putch padc (width - 1).toInt.toNat)
    putDigit putch (num % base.setWidth 64).toNat

end Code

/-- The character of a digit. -/
def digit (d : ℕ) : Word := int (hexDigits.getD d '0')

theorem putTimes_prints (c : Word) (n : ℕ) :
    Prints (fun _ putch => putTimes putch c n) () (List.replicate n c) := by
  induction n with
  | zero => exact .pure ()
  | succ n ih => exact (Prints.putch c).bind ih

theorem putDigit_prints {d : ℕ} (h : d < 16) : Prints (fun _ putch => putDigit putch d) () [digit d] := by
  have hget : hexDigits[d]? = some (hexDigits.getD d '0') := by
    rw [List.getD_eq_getElem?_getD, List.getElem?_eq_getElem (by exact h), Option.getD_some]
  unfold putDigit digit
  rw [hget]
  exact .putch _

variable {base padc : Word}

theorem base_toNat (base : Word) : (base.setWidth 64).toNat = base.toNat := by
  rw [BitVec.toNat_setWidth]
  exact Nat.mod_eq_of_lt (by omega)

/-- The digits printed on the way back; width has lost one for each of them. -/
theorem printnum_prints (hlow : 1 < base.toNat) (hhigh : base.toNat ≤ 16) (padc : Word) {k : ℕ}
    {num : BitVec 64} (hk : (numeral base.toNat num.toNat).length ≤ k) (width : Word) :
    Prints (fun _ putch => printnum putch base padc k num width) ()
      (List.replicate (width - BitVec.ofNat 32 (numeral base.toNat num.toNat).length).toInt.toNat
        padc ++ (numeral base.toNat num.toNat).map digit) := by
  induction k generalizing num width with
  | zero =>
    have := length_numeral_pos hlow num.toNat
    omega
  | succ k ih =>
    have hmod : (num % base.setWidth 64).toNat = num.toNat % base.toNat := by
      rw [BitVec.toNat_umod, base_toNat]
    have hdigit : num.toNat % base.toNat < 16 :=
      Nat.lt_of_lt_of_le (Nat.mod_lt _ (by omega)) hhigh
    unfold printnum
    rw [hmod]
    by_cases hle : base.setWidth 64 ≤ num
    · have hle' : base.toNat ≤ num.toNat := by
        rwa [BitVec.le_def, base_toNat] at hle
      have hdiv : (num / base.setWidth 64).toNat = num.toNat / base.toNat := by
        rw [BitVec.toNat_udiv, base_toNat]
      have hnum := numeral_of_le hlow hle'
      have hlen : (numeral base.toNat num.toNat).length =
          (numeral base.toNat (num.toNat / base.toNat)).length + 1 := by
        rw [hnum, List.length_append, List.length_singleton]
      have hfuel : (numeral base.toNat (num / base.setWidth 64).toNat).length ≤ k := by
        rw [hdiv]
        omega
      have hmore := ih hfuel (width - 1)
      rw [hdiv] at hmore
      simp only [if_pos hle]
      refine (hmore.bind (putDigit_prints hdigit)).congr ?_
      have hwidth : ∀ d, width - 1 - BitVec.ofNat 32 d = width - BitVec.ofNat 32 (d + 1) := by
        intro d
        rw [BitVec.ofNat_add]
        bv_omega
      rw [hwidth, hlen, hnum, List.map_append, List.append_assoc]
      rfl
    · have hlt : num.toNat < base.toNat := by
        rw [BitVec.le_def, base_toNat] at hle
        omega
      simp only [if_neg hle]
      refine ((putTimes_prints padc _).bind (putDigit_prints hdigit)).congr ?_
      rw [numeral_of_lt hlt, Nat.mod_eq_of_lt hlt]
      rfl

/-- A width that goes through zero to the largest int prints as many characters. -/
theorem width_sub (width : Word) {d : ℕ} (hd : d < 2 ^ 31) :
    (width - BitVec.ofNat 32 d).toInt =
      if -2 ^ 31 + (d : ℤ) ≤ width.toInt then width.toInt - d else width.toInt - d + 2 ^ 32 := by
  have hlow := BitVec.le_toInt width
  have hhigh := BitVec.toInt_lt (x := width)
  have hd' : (BitVec.ofNat 32 d).toInt = d := by
    rw [BitVec.toInt_eq_toNat_of_lt] <;> rw [BitVec.toNat_ofNat, Nat.mod_eq_of_lt (by omega)]
    omega
  rw [BitVec.toInt_sub, hd', Int.bmod_def]
  split <;> omega

/-- What printnum() is for: `num` in base `base`, after as many `padc` as the width asks for. -/
def Positional (num : BitVec 64) (base width padc : Word) : Prop :=
  ∃ ds, IsNumeral base.toNat num.toNat ds ∧ ∀ k, 64 ≤ k →
    Prints (fun _ putch => printnum putch base padc k num width) ()
      (List.replicate (width.toInt - ds.length).toNat padc ++ ds.map digit)

theorem digits_le (hlow : 1 < base.toNat) (num : BitVec 64) :
    (numeral base.toNat num.toNat).length ≤ 64 := by
  apply length_numeral_le hlow (by decide)
  exact Nat.lt_of_lt_of_le num.isLt (Nat.pow_le_pow_left hlow 64)

theorem positional_of_width (hlow : 1 < base.toNat) (hhigh : base.toNat ≤ 16) {num : BitVec 64}
    {width : Word} (padc : Word)
    (h : -2 ^ 31 + ((numeral base.toNat num.toNat).length : ℤ) ≤ width.toInt) :
    Positional num base width padc := by
  have hlen := digits_le hlow num
  refine ⟨numeral base.toNat num.toNat, isNumeral hlow num.toNat, fun k hk => ?_⟩
  have hprints := printnum_prints hlow hhigh padc (Nat.le_trans hlen hk) width
  rwa [width_sub width (by omega), if_pos h] at hprints

theorem width_of_positional (hlow : 1 < base.toNat) (hhigh : base.toNat ≤ 16) {num : BitVec 64}
    {width padc : Word} (h : Positional num base width padc) :
    -2 ^ 31 + ((numeral base.toNat num.toNat).length : ℤ) ≤ width.toInt := by
  have hlen := digits_le hlow num
  have hmin := BitVec.le_toInt width
  obtain ⟨ds, hds, hprints⟩ := h
  rw [hds.eq_numeral hlow] at hprints
  by_contra hover
  have hcode := printnum_prints hlow hhigh padc hlen width
  rw [width_sub width (by omega), if_neg hover] at hcode
  have heq := congrArg List.length (hcode.unique (hprints 64 (le_refl 64))).2
  rw [List.length_append, List.length_append, List.length_replicate, List.length_replicate] at heq
  omega

/-- printnum() prints a number as it should for each width from which it can take one for each
digit. -/
theorem printnum_positional_iff (hlow : 1 < base.toNat) (hhigh : base.toNat ≤ 16)
    (num : BitVec 64) (width padc : Word) : Positional num base width padc ↔
      -2 ^ 31 + ((numeral base.toNat num.toNat).length : ℤ) ≤ width.toInt :=
  ⟨width_of_positional hlow hhigh, positional_of_width hlow hhigh padc⟩

theorem printnum_positional_iff_hex : Positional 255 16 8 (int '0') ↔
    -2 ^ 31 + ((numeral (16 : Word).toNat (255 : BitVec 64).toNat).length : ℤ) ≤
      (8 : Word).toInt :=
  printnum_positional_iff (by decide) (by decide) 255 8 (int '0')

/-- Zero, with the smallest width that an argument for `*` can give. -/
theorem least_width_overflows : ¬ Positional 0 10 (BitVec.intMin 32) (int ' ') := by
  intro h
  have hwidth := width_of_positional (by decide) (by decide) h
  have hlen := length_numeral_pos (b := (10 : Word).toNat) (by decide) (0 : BitVec 64).toNat
  have hmin : (BitVec.intMin 32).toInt = -2 ^ 31 := by decide
  rw [hmin] at hwidth
  omega

end PrintNumber
