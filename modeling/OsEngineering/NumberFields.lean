import OsEngineering.FormatScan
import Mathlib.Data.List.GetD
import Mathlib.Tactic.IntervalCases

/-! The numeric formats of vprintfmt() with a flag and a field width: the sign does not count, and
padding is always on the left. -/
namespace NumberFields

open ByteBlock Console OutputPrograms Numerals PrintNumber PrintFormat FormatScan

/-! What a numeric format is to print -/

inductive Flag where
  | none
  | zero
  | minus
  deriving DecidableEq

def Flag.chars : Flag → List Byte
  | .none => []
  | .zero => [chr '0']
  | .minus => [chr '-']

/-- The value that a format takes, by its size. -/
inductive Number where
  | int (v : Word)
  | long (v : Word)
  | longlong (v : BitVec 64)

def Number.chars : Number → List Byte
  | .int _ => []
  | .long _ => [chr 'l']
  | .longlong _ => [chr 'l', chr 'l']

def Number.args : Number → List Word
  | .int v => [v]
  | .long v => [v]
  | .longlong v => [v.setWidth 32, v.extractLsb' 32 32]

inductive Conv where
  | d
  | u
  | o
  | x

def Conv.char : Conv → Byte
  | .d => chr 'd'
  | .u => chr 'u'
  | .o => chr 'o'
  | .x => chr 'x'

def Conv.base : Conv → Word
  | .d => 10
  | .u => 10
  | .o => 8
  | .x => 16

/-- The number that is meant. -/
def Conv.value : Conv → Number → ℤ
  | .d, .int v => v.toInt
  | .d, .long v => v.toInt
  | .d, .longlong v => v.toInt
  | _, .int v => v.toNat
  | _, .long v => v.toNat
  | _, .longlong v => v.toNat

def signText (z : ℤ) : List Word := if z < 0 then [int '-'] else []

def digitsText (base : Word) (z : ℤ) : List Word := (numeral base.toNat z.natAbs).map digit

/-- A number in a field of `w` characters. -/
def field (flag : Flag) (w : ℕ) (sign digits : List Word) : List Word :=
  let pad := w - (sign ++ digits).length
  match flag with
  | .none => List.replicate pad (int ' ') ++ (sign ++ digits)
  | .zero => sign ++ (List.replicate pad (int '0') ++ digits)
  | .minus => sign ++ (digits ++ List.replicate pad (int ' '))

/-- How a format gives the width: not at all, with digits, or with an argument. -/
inductive Gives : List Byte → List Word → ℕ → Prop where
  | absent : Gives [] [] 0
  | digits {w : ℕ} : 0 < w → w < 2 ^ 31 →
      Gives ((numeral 10 w).map fun d => BitVec.ofNat 8 (48 + d)) [] w
  | star {w : ℕ} : w < 2 ^ 31 → Gives [chr '*'] [BitVec.ofNat 32 w] w

theorem length_field (flag : Flag) (w : ℕ) (sign digits : List Word) :
    (field flag w sign digits).length = max w (sign ++ digits).length := by
  cases flag <;> simp only [field, List.length_append, List.length_replicate] <;> omega

/-! What the code prints -/

def Flag.padc : Flag → Word
  | .none => int ' '
  | .zero => int '0'
  | .minus => int '-'

/-- The sign first, then padding for the digits alone. -/
def printed (flag : Flag) (w : ℕ) (sign digits : List Word) : List Word :=
  sign ++ (List.replicate (w - digits.length) flag.padc ++ digits)

theorem digit_ne_minus (d : ℕ) : digit d ≠ int '-' := by
  unfold digit
  by_cases hd : d < 16
  · interval_cases d <;> decide
  · rw [List.getD_eq_default _ _ (Nat.le_of_not_lt hd)]
    decide

theorem printed_eq_field_iff (flag : Flag) (w : ℕ) (base : Word) (hbase : 1 < base.toNat) (z : ℤ) :
    printed flag w (signText z) (digitsText base z) =
        field flag w (signText z) (digitsText base z) ↔
      w ≤ (numeral base.toNat z.natAbs).length ∨ (0 ≤ z ∧ flag ≠ .minus) := by
  have hlen : (digitsText base z).length = (numeral base.toNat z.natAbs).length := List.length_map _
  have hpos := length_numeral_pos hbase z.natAbs
  constructor
  · intro heq
    by_contra hcond
    rw [not_or, not_and, not_not] at hcond
    obtain ⟨hwide, hflag⟩ := hcond
    by_cases hneg : z < 0
    · have hlength := congrArg List.length heq
      rw [length_field, printed, signText, if_pos hneg] at hlength
      simp only [List.length_append, List.length_replicate, List.length_cons, List.length_nil]
        at hlength
      omega
    · obtain rfl := hflag (Int.not_lt.mp hneg)
      have hsign : signText z = [] := if_neg hneg
      obtain ⟨pad, hpad⟩ : ∃ pad, w - (digitsText base z).length = pad + 1 :=
        ⟨w - (digitsText base z).length - 1, by omega⟩
      obtain ⟨e, ds, hds⟩ := List.exists_cons_of_length_pos hpos
      rw [printed, field, hsign, List.nil_append, List.nil_append, List.nil_append, hpad,
        List.replicate_succ, digitsText, hds, List.map_cons] at heq
      exact digit_ne_minus e (List.cons.inj heq).1.symm
  · rintro (hnarrow | ⟨hz, hflag⟩)
    · have hpad : w - (digitsText base z).length = 0 := by omega
      have hpad' : w - (signText z ++ digitsText base z).length = 0 := by
        rw [List.length_append]
        omega
      unfold printed field
      dsimp only
      rw [hpad, hpad']
      cases flag with
      | none => rfl
      | zero => rfl
      | minus =>
        rw [List.replicate_zero, List.replicate_zero, List.nil_append, List.append_nil]
    · have hsign : signText z = [] := if_neg (Int.not_lt.mpr hz)
      rw [hsign]
      cases flag with
      | none => rfl
      | zero => rfl
      | minus => exact absurd rfl hflag

/-! The flags that a format leaves -/

theorem decimal_numeral (ds : List ℕ) (hds : ∀ d ∈ ds, d < 10) :
    decimal 0 (ds.map fun d => BitVec.ofNat 8 (48 + d)) = BitVec.ofNat 32 (reading 10 ds) := by
  induction ds using List.reverseRecOn with
  | nil => rfl
  | append_singleton ds d ih =>
    have hd : d < 10 := hds d (List.mem_append_right ds (List.mem_singleton_self d))
    have hdigit : (BitVec.ofNat 8 (48 + d)).setWidth 32 = 48 + BitVec.ofNat 32 d := by
      interval_cases d <;> decide
    have hinit := ih fun e he => hds e (List.mem_append_left [d] he)
    rw [decimal] at hinit
    rw [decimal, List.map_append, List.foldl_append, hinit, reading_append]
    change BitVec.ofNat 32 (reading 10 ds) * 10 + (BitVec.ofNat 8 (48 + d)).setWidth 32 - 48 = _
    rw [hdigit, BitVec.ofNat_add, BitVec.ofNat_mul]
    have hten : BitVec.ofNat 32 10 = (10 : Word) := rfl
    rw [hten]
    generalize BitVec.ofNat 32 (reading 10 ds) * 10 = a
    bv_omega

variable {flag : Flag} {chars : List Byte} {args ap ap' : List Word} {w : ℕ} {mods : List Byte}
  {c d : Byte} {f f' : Flags}

theorem digit_byte {e : ℕ} (he : e < 10) : isDigit (BitVec.ofNat 8 (48 + e)) = true := by
  interval_cases e <;> decide

/-- What a width means to printnum(). -/
def Wide (width : Word) (w : ℕ) : Prop :=
  ∀ k ≤ 64, (width - BitVec.ofNat 32 k).toInt.toNat = w - k

theorem wide_ofNat (hw : w < 2 ^ 31) : Wide (BitVec.ofNat 32 w) w := by
  intro k hk
  have hint : (BitVec.ofNat 32 w).toInt = w := by
    rw [BitVec.toInt_eq_toNat_of_lt] <;> rw [BitVec.toNat_ofNat, Nat.mod_eq_of_lt (by omega)]
    omega
  rw [width_sub _ (by omega), hint, if_pos (by omega)]
  omega

theorem wide_absent : Wide (-1) 0 := by
  intro k hk
  have hint : (-1 : Word).toInt = -1 := by decide
  rw [width_sub _ (by omega), hint, if_pos (by omega)]
  omega

/-- A width that comes before `mods`. -/
theorem Gives.reads (h : Gives chars args w) (padc : Byte)
    (hmods : isDigit ((mods ++ [d]).headD 0) = false) : ∃ width, Wide width w ∧
      ∀ ap ap' f', Reads mods d ap ⟨padc, width, -1, 0, false⟩ ap' f' →
        Reads (chars ++ mods) d (args ++ ap) ⟨padc, -1, -1, 0, false⟩ ap' f' := by
  cases h with
  | absent => exact ⟨-1, wide_absent, fun ap ap' f' hreads => hreads⟩
  | digits hpos hw =>
    refine ⟨BitVec.ofNat 32 w, wide_ofNat hw, fun ap ap' f' hreads => ?_⟩
    have hnumeral := isNumeral (b := 10) (by decide) w
    obtain ⟨e, ds, hds⟩ := List.exists_cons_of_ne_nil hnumeral.ne_nil
    have hsmall := hnumeral.digits
    have hdecimal := decimal_numeral _ hsmall
    have hlead := head_numeral (b := 10) (Nat.ne_of_gt hpos)
    rw [hnumeral.reads] at hdecimal
    rw [hds] at hsmall hdecimal hlead
    have he : e < 10 := hsmall e List.mem_cons_self
    rw [hds, List.map_cons, List.cons_append]
    refine .digits (digit_byte he) ?_ ?_ hmods ?_
    · intro heq
      have hzero : e = 0 := by
        have htoNat := congrArg BitVec.toNat heq
        rw [BitVec.toNat_ofNat, Nat.mod_eq_of_lt (by omega)] at htoNat
        change 48 + e = 48 at htoNat
        omega
      exact hlead (by rw [hzero, List.head?_cons])
    · intro b hb
      obtain ⟨e', he', rfl⟩ := List.mem_map.mp hb
      exact digit_byte (hsmall e' (List.mem_cons_of_mem e he'))
    · rw [List.map_cons] at hdecimal
      rw [hdecimal]
      exact hreads
  | star hw =>
    refine ⟨BitVec.ofNat 32 w, wide_ofNat hw, fun ap ap' f' hreads => ?_⟩
    exact .cons (fun _ _ _ => reswitch_star _) hreads

def Number.lflag : Number → Word
  | .int _ => 0
  | .long _ => 1
  | .longlong _ => 2

def Flag.byte : Flag → Byte
  | .none => chr ' '
  | .zero => chr '0'
  | .minus => chr '-'

theorem Number.reads (num : Number) (hd : IsModifier d = false) (padc : Byte) (width : Word)
    (ap : List Word) : Reads num.chars d ap ⟨padc, width, -1, 0, false⟩ ap
      ⟨padc, width, -1, num.lflag, false⟩ := by
  cases num with
  | int v => exact .nil hd _ _
  | long v => exact .cons (fun _ _ _ => reswitch_l) (.nil hd _ _)
  | longlong v =>
    exact .cons (fun _ _ _ => reswitch_l) (.cons (fun _ _ _ => reswitch_l) (.nil hd _ _))

theorem Flag.reads (flag : Flag) (h : Reads mods d ap ⟨flag.byte, -1, -1, 0, false⟩ ap' f') :
    Reads (flag.chars ++ mods) d ap .none ap' f' := by
  cases flag with
  | none => exact h
  | zero => exact .cons (fun _ _ _ => reswitch_zero) h
  | minus => exact .cons (fun _ _ _ => reswitch_minus) h

/-- All modifiers of a numeric format. -/
theorem format_reads (flag : Flag) (h : Gives chars args w) (num : Number) (conv : Conv)
    (ap : List Word) : ∃ width, Wide width w ∧
      Reads (flag.chars ++ (chars ++ num.chars)) conv.char (args ++ ap) .none ap
        ⟨flag.byte, width, -1, num.lflag, false⟩ := by
  have hchar : IsModifier conv.char = false := by cases conv <;> decide
  have hnext : isDigit ((num.chars ++ [conv.char]).headD 0) = false := by
    cases num <;> cases conv <;> rfl
  obtain ⟨width, hwide, hreads⟩ := h.reads flag.byte hnext
  exact ⟨width, hwide, flag.reads (hreads ap ap _ (num.reads hchar flag.byte width ap))⟩

/-! The numbers that the code takes from the arguments -/

theorem halves (v : BitVec 64) : v.extractLsb' 32 32 ++ v.setWidth 32 = v := by
  apply BitVec.eq_of_getLsbD_eq
  intro i hi
  rw [BitVec.getLsbD_append]
  by_cases hlow : i < 32
  · rw [if_pos hlow, BitVec.getLsbD_setWidth, decide_eq_true hlow, Bool.true_and]
  · rw [if_neg hlow, BitVec.getLsbD_extractLsb', decide_eq_true (by omega : i - 32 < 32),
      Bool.true_and, Nat.add_sub_cancel' (by omega)]

theorem getint_number (num : Number) (rest : List Word) : ∃ v : BitVec 64,
    getint (num.args ++ rest) num.lflag = .ok (v, rest) ∧ v.toInt = Conv.d.value num := by
  cases num with
  | int v => exact ⟨v.signExtend 64, rfl, BitVec.toInt_signExtend_of_le (by decide)⟩
  | long v => exact ⟨v.signExtend 64, rfl, BitVec.toInt_signExtend_of_le (by decide)⟩
  | longlong v =>
    refine ⟨v, ?_, rfl⟩
    change Except.ok (v.extractLsb' 32 32 ++ v.setWidth 32, rest) = _
    rw [halves]

theorem getuint_number (num : Number) (rest : List Word) : ∃ v : BitVec 64,
    getuint (num.args ++ rest) num.lflag = .ok (v, rest) ∧
      ∀ conv : Conv, conv ≠ .d → conv.value num = v.toNat := by
  have hword : ∀ v : Word, (v.setWidth 64).toNat = v.toNat := base_toNat
  cases num with
  | int v =>
    refine ⟨v.setWidth 64, rfl, fun conv hconv => ?_⟩
    rw [hword]
    cases conv <;> first | rfl | exact absurd rfl hconv
  | long v =>
    refine ⟨v.setWidth 64, rfl, fun conv hconv => ?_⟩
    rw [hword]
    cases conv <;> first | rfl | exact absurd rfl hconv
  | longlong v =>
    refine ⟨v, ?_, fun conv hconv => ?_⟩
    · change Except.ok (v.extractLsb' 32 32 ++ v.setWidth 32, rest) = _
      rw [halves]
    · cases conv <;> first | rfl | exact absurd rfl hconv

theorem magnitude_toNat (v : BitVec 64) : (magnitude v).toNat = v.toInt.natAbs := by
  have hneg := BitVec.toNat_neg v
  have hlt := v.isLt
  unfold magnitude
  rw [BitVec.toInt_eq_toNat_cond]
  split
  next hpos =>
    rw [if_neg (by omega)]
    omega
  next hhigh =>
    rw [if_pos (by omega), hneg, Nat.mod_eq_of_lt (by omega)]
    omega

theorem numberChars_eq {base width : Word} (hbase : 1 < base.toNat) (hwide : Wide width w)
    (flag : Flag) {v : BitVec 64} {z : ℤ} (hv : v.toNat = z.natAbs) (precision lflag : Word) :
    numberChars v base ⟨flag.byte, width, precision, lflag, false⟩ =
      List.replicate (w - (digitsText base z).length) flag.padc ++ digitsText base z := by
  have hpadc : flag.byte.setWidth 32 = flag.padc := by cases flag <;> decide
  unfold numberChars digitsText
  rw [List.length_map, ← hv]
  dsimp only
  rw [hwide _ (digits_le hbase v), hpadc]

/-- A numeric format on its own. -/
theorem format_converts (strings : Strings) (flag : Flag) (h : Gives chars args w) (num : Number)
    (conv : Conv) (rest : List Word) :
    Converts strings (flag.chars ++ (chars ++ num.chars)) conv.char (args ++ (num.args ++ rest))
      (printed flag w (signText (conv.value num)) (digitsText conv.base (conv.value num))) := by
  obtain ⟨width, hwide, hreads⟩ := format_reads flag h num conv (num.args ++ rest)
  generalize hf : (⟨flag.byte, width, -1, num.lflag, false⟩ : Flags) = f at hreads
  have hlflag : f.lflag = num.lflag := by rw [← hf]
  have hswitch : ∀ k, 80 ≤ k → ∀ ptr,
      Prints (switch strings k conv.char ⟨ptr, num.args ++ rest, f⟩) ⟨ptr, rest, f⟩
        (printed flag w (signText (conv.value num)) (digitsText conv.base (conv.value num))) := by
    intro k hk ptr
    by_cases hconv : conv = .d
    · subst hconv
      obtain ⟨v, hv, hvalue⟩ := getint_number num rest
      rw [← hlflag] at hv
      have hnumber : numberChars (magnitude v) 10 f = _ :=
        hf ▸ numberChars_eq (by decide) hwide flag (magnitude_toNat v) _ _
      rw [printed, ← hvalue]
      change Prints (switch strings k (chr 'd') ⟨ptr, num.args ++ rest, f⟩) ⟨ptr, rest, f⟩
        (signChars v ++ _)
      rw [show Conv.d.base = 10 from rfl, ← hnumber]
      exact signed_prints (by omega) hv
    · obtain ⟨v, hv, hvalue⟩ := getuint_number num rest
      rw [← hlflag] at hv
      have hz := hvalue conv hconv
      have hbase : 1 < conv.base.toNat ∧ conv.base.toNat ≤ 16 := by cases conv <;> decide
      have hnumber : numberChars v conv.base f = _ :=
        hf ▸ numberChars_eq hbase.1 hwide flag (congrArg Int.natAbs hz).symm _ _
      have hsign : signText (conv.value num) = [] := by
        rw [hz]
        exact if_neg (by omega)
      rw [printed, hsign, List.nil_append, ← hnumber]
      cases conv with
      | d => exact absurd rfl hconv
      | u => exact unsigned_prints hbase.1 hbase.2 (by omega) hv
      | o => exact unsigned_prints hbase.1 hbase.2 (by omega) hv
      | x => exact unsigned_prints hbase.1 hbase.2 (by omega) hv
  exact converts hreads hswitch

theorem converts_iff (strings : Strings) (flag : Flag) (h : Gives chars args w) (num : Number)
    (conv : Conv) (rest : List Word) :
    Converts strings (flag.chars ++ (chars ++ num.chars)) conv.char (args ++ (num.args ++ rest))
        (field flag w (signText (conv.value num)) (digitsText conv.base (conv.value num))) ↔
      w ≤ (numeral conv.base.toNat (conv.value num).natAbs).length ∨
        (0 ≤ conv.value num ∧ flag ≠ .minus) := by
  have hbase : 1 < conv.base.toNat := by cases conv <;> decide
  have hcode := format_converts strings flag h num conv rest
  rw [← printed_eq_field_iff flag w conv.base hbase]
  constructor
  · intro hfield
    exact ((hcode _ (le_refl _)).unique (hfield _ (le_refl _))).2
  · intro heq
    rw [← heq]
    exact hcode

/-- A number comes out as it should in its field where the field is no wider than the digits, and
else where it is not negative and not to be padded on the right. -/
theorem number_fields_iff (strings : Strings) (flag : Flag) (h : Gives chars args w)
    (num : Number) (conv : Conv) (rest : List Word) :
    Converts strings (flag.chars ++ (chars ++ num.chars)) conv.char (args ++ (num.args ++ rest))
        (field flag w (signText (conv.value num)) (digitsText conv.base (conv.value num))) ↔
      w ≤ (numeral conv.base.toNat (conv.value num).natAbs).length ∨
        (0 ≤ conv.value num ∧ flag ≠ .minus) :=
  converts_iff strings flag h num conv rest

/-- A byte in two hexadecimal digits. -/
theorem number_fields_iff_hex :
    Converts messages (Flag.zero.chars ++ ([chr '*'] ++ (Number.int 10).chars)) Conv.x.char
        ([2] ++ ((Number.int 10).args ++ []))
        (field .zero 2 (signText (Conv.x.value (.int 10))) (digitsText Conv.x.base
          (Conv.x.value (.int 10)))) ↔
      2 ≤ (numeral Conv.x.base.toNat (Conv.x.value (.int 10)).natAbs).length ∨
        (0 ≤ Conv.x.value (.int 10) ∧ Flag.zero ≠ .minus) :=
  number_fields_iff messages .zero (.star (by decide)) (.int 10) .x []

/-- The format %-*d with the width 5 and the number 3. -/
theorem minus_pads_left : ¬ Converts messages (Flag.minus.chars ++ ([chr '*'] ++
    (Number.int 3).chars)) Conv.d.char ([5] ++ ((Number.int 3).args ++ []))
    (field .minus 5 (signText (Conv.d.value (.int 3))) (digitsText Conv.d.base
      (Conv.d.value (.int 3)))) := by
  have hvalue : Conv.d.value (.int 3) = 3 := by decide
  have hbase : Conv.d.base.toNat = 10 := rfl
  have hiff := converts_iff messages .minus (Gives.star (w := 5) (by decide)) (.int 3) .d []
  intro h
  rcases hiff.mp h with hnarrow | ⟨-, hflag⟩
  · rw [hvalue, hbase, numeral_of_lt (by decide)] at hnarrow
    exact absurd hnarrow (by decide)
  · exact hflag rfl

end NumberFields
