import OsEngineering.NumberFields

/-! strtol() of lab01's lib/string.c, and which numbers it reads back from what vprintfmt()
prints. -/
namespace Strtol

open ByteBlock Console Numerals PrintNumber PrintFormat FormatScan NumberFields

/-- `dig`, where the character has one. -/
def digitOf (c : Byte) : Option ℕ :=
  if chr '0' ≤ c ∧ c ≤ chr '9' then some (c.toNat - (chr '0').toNat)
  else if chr 'a' ≤ c ∧ c ≤ chr 'z' then some (c.toNat - (chr 'a').toNat + 10)
  else if chr 'A' ≤ c ∧ c ≤ chr 'Z' then some (c.toNat - (chr 'A').toNat + 10)
  else none

/-- The loop over the digits: the value and where it ends. A string stands without its
terminating zero. -/
def digits (base : Word) : Word → List Byte → Word × List Byte
  | val, [] => (val, [])
  | val, c :: s =>
    match digitOf c with
    | none => (val, c :: s)
    | some dig =>
      if base.toInt ≤ dig then (val, c :: s) else digits base (val * base + BitVec.ofNat 32 dig) s

def skipBlanks (s : List Byte) : List Byte := s.dropWhile fun c => c = chr ' ' ∨ c = chr '\t'

/-- `neg` after the sign. -/
def sign : List Byte → Bool × List Byte
  | [] => (false, [])
  | c :: s => if c = chr '+' then (false, s) else if c = chr '-' then (true, s) else (false, c :: s)

/-- The base after the prefix. -/
def pref (base : Word) (s : List Byte) : Word × List Byte :=
  if (base = 0 ∨ base = 16) ∧ s[0]? = some (chr '0') ∧ s[1]? = some (chr 'x') then (16, s.drop 2)
  else if base = 0 ∧ s[0]? = some (chr '0') then (8, s.drop 1)
  else if base = 0 then (10, s)
  else (base, s)

/-- The value, and the string at `*endptr`. -/
def strtol (s : List Byte) (base : Word) : Word × List Byte :=
  let (neg, s) := sign (skipBlanks s)
  let (base, s) := pref base s
  let (val, s) := digits base 0 s
  (if neg then -val else val, s)

variable {base : Word} {s tail : List Byte} {c : Byte} {flag : Flag} {w : ℕ} {z : ℤ}

/-- No number goes on in `s`. -/
def Ends (s : List Byte) : Prop := ∀ c ∈ s.head?, digitOf c = none

/-- The string of a text that was printed. -/
def text (cs : List Word) : List Byte := cs.map (BitVec.setWidth 8)

/-! The loop -/

theorem digitOf_digit {d : ℕ} (hd : d < 16) : digitOf ((digit d).setWidth 8) = some d := by
  interval_cases d <;> decide

theorem digits_ends (h : Ends s) (base val : Word) : digits base val s = (val, s) := by
  cases s with
  | nil => rfl
  | cons c s =>
    have hc := h c (by simp)
    simp [digits, hc]

theorem word_step (base : Word) (v d : ℕ) :
    BitVec.ofNat 32 v * base + BitVec.ofNat 32 d = BitVec.ofNat 32 (v * base.toNat + d) := by
  rw [BitVec.ofNat_add, BitVec.ofNat_mul, BitVec.ofNat_toNat, BitVec.setWidth_eq]

theorem digits_reads (hlow : base.toNat ≤ 16) (hends : Ends tail) {ds : List ℕ}
    (hds : ∀ d ∈ ds, d < base.toNat) (v : ℕ) :
    digits base (BitVec.ofNat 32 v) (text (ds.map digit) ++ tail) =
      (BitVec.ofNat 32 (ds.foldl (fun v d => v * base.toNat + d) v), tail) := by
  induction ds generalizing v with
  | nil => exact digits_ends hends base _
  | cons d ds ih =>
    have hd := hds d (by simp)
    have hint : base.toInt = base.toNat := BitVec.toInt_eq_toNat_of_lt (by omega)
    have hless : ¬ base.toInt ≤ (d : ℤ) := by
      rw [hint]
      omega
    have hstep : digits base (BitVec.ofNat 32 v) (text ((d :: ds).map digit) ++ tail) =
        digits base (BitVec.ofNat 32 v * base + BitVec.ofNat 32 d)
          (text (ds.map digit) ++ tail) := by
      simp only [text, List.map_cons, List.cons_append, digits, digitOf_digit (by omega : d < 16),
        if_neg hless]
    rw [hstep, word_step, ih fun e he => hds e (by simp [he])]
    rfl

/-! The characters in front of the digits -/

theorem digit_char {d : ℕ} (hd : d < 16) : (digit d).setWidth 8 ≠ chr ' ' ∧
    (digit d).setWidth 8 ≠ chr '\t' ∧ (digit d).setWidth 8 ≠ chr '+' ∧
    (digit d).setWidth 8 ≠ chr '-' ∧ (digit d).setWidth 8 ≠ chr 'x' := by
  interval_cases d <;> decide

theorem skipBlanks_spaces (n : ℕ) (s : List Byte) :
    skipBlanks (List.replicate n (chr ' ') ++ s) = skipBlanks s := by
  induction n with
  | zero => rfl
  | succ n _ => simp [skipBlanks, List.replicate_succ]

theorem skipBlanks_cons (h : c ≠ chr ' ') (h' : c ≠ chr '\t') (s : List Byte) :
    skipBlanks (c :: s) = c :: s := by
  simp [skipBlanks, h, h']

/-- There is no prefix where the second character is not an x. -/
theorem pref_none (h0 : base ≠ 0) (hx : s[1]? ≠ some (chr 'x')) : pref base s = (base, s) := by
  have h0' : base ≠ 0#32 := h0
  simp [pref, h0', hx]

theorem ends_not_x (h : Ends tail) : tail.head? ≠ some (chr 'x') := by
  intro hx
  have hdigit := h _ hx
  exact absurd hdigit (by decide)

theorem second_not_x {ds : List ℕ} (hds : ∀ d ∈ ds, d < 16) (hne : ds ≠ []) (hends : Ends tail) :
    (text (ds.map digit) ++ tail)[1]? ≠ some (chr 'x') := by
  rcases ds with _ | ⟨d, _ | ⟨e, ds⟩⟩
  · exact absurd rfl hne
  · have hx := ends_not_x hends
    simpa [text, ← List.head?_eq_getElem?] using hx
  · have hx := (digit_char (hds e (by simp))).2.2.2.2
    simp [text, hx]

theorem ofInt_neg (z : ℤ) (h : z < 0) :
    -BitVec.ofNat 32 z.natAbs = BitVec.ofInt 32 z := by
  have habs : ((z.natAbs : ℕ) : ℤ) = -z := by omega
  rw [← BitVec.ofInt_natCast, habs, BitVec.ofInt_neg, neg_neg]

theorem ofInt_nonneg (z : ℤ) (h : 0 ≤ z) : BitVec.ofNat 32 z.natAbs = BitVec.ofInt 32 z := by
  have habs : ((z.natAbs : ℕ) : ℤ) = z := by omega
  rw [← BitVec.ofInt_natCast, habs]

/-! Numbers in a base of at most 16 -/

structure Usual (base : Word) : Prop where
  low : 1 < base.toNat
  high : base.toNat ≤ 16

theorem Usual.ne_zero (h : Usual base) : base ≠ 0 := by
  rintro rfl
  have hlow := h.low
  simp at hlow

/-- Zeros, and then the digits of `n`. -/
def padded (base : Word) (m n : ℕ) : List ℕ := List.replicate m 0 ++ numeral base.toNat n

theorem padded_ne_nil (h : Usual base) (m n : ℕ) : padded base m n ≠ [] :=
  List.append_ne_nil_of_right_ne_nil _ (numeral_ne_nil h.low n)

theorem padded_lt (h : Usual base) (m n : ℕ) : ∀ d ∈ padded base m n, d < base.toNat := by
  intro d hd
  rcases List.mem_append.mp hd with hzero | hin
  · rw [List.eq_of_mem_replicate hzero]
    exact Nat.zero_lt_of_lt h.low
  · exact (isNumeral h.low n).digits d hin

theorem padded_reads (h : Usual base) (hends : Ends tail) (m n : ℕ) :
    digits base 0 (text ((padded base m n).map digit) ++ tail) = (BitVec.ofNat 32 n, tail) := by
  have hzeros : ∀ m, (List.replicate m 0).foldl (fun v d => v * base.toNat + d) 0 = 0 := by
    intro m
    induction m with
    | zero => rfl
    | succ m ih => simpa [List.replicate_succ] using ih
  have hreads : (numeral base.toNat n).foldl (fun v d => v * base.toNat + d) 0 = n :=
    (isNumeral h.low n).reads
  have hrun := digits_reads h.high hends (padded_lt h m n) 0
  rwa [padded, List.foldl_append, hzeros, hreads] at hrun

theorem padded_pref (h : Usual base) (hends : Ends tail) (m n : ℕ) :
    pref base (text ((padded base m n).map digit) ++ tail) =
      (base, text ((padded base m n).map digit) ++ tail) := by
  apply pref_none h.ne_zero
  exact second_not_x (fun d hd => (padded_lt h m n d hd).trans_le h.high) (padded_ne_nil h m n)
    hends

theorem strtol_minus (h : Usual base) (hends : Ends tail) (m n : ℕ) :
    strtol (chr '-' :: (text ((padded base m n).map digit) ++ tail)) base =
      (-BitVec.ofNat 32 n, tail) := by
  have hstart : sign (skipBlanks (chr '-' :: (text ((padded base m n).map digit) ++ tail))) =
      (true, text ((padded base m n).map digit) ++ tail) := by
    rw [skipBlanks_cons (by decide) (by decide)]
    simp [sign, (by decide : chr '-' ≠ chr '+')]
  simp only [strtol, hstart, padded_pref h hends, padded_reads h hends, ↓reduceIte]

theorem strtol_plain (h : Usual base) (hends : Ends tail) (k m n : ℕ) :
    strtol (List.replicate k (chr ' ') ++ (text ((padded base m n).map digit) ++ tail)) base =
      (BitVec.ofNat 32 n, tail) := by
  obtain ⟨d, ds, hds⟩ := List.exists_cons_of_ne_nil (padded_ne_nil h m n)
  have hd := (padded_lt h m n d (by simp [hds])).trans_le h.high
  obtain ⟨hspace, htab, hplus, hminus, -⟩ := digit_char hd
  have hstart : sign (skipBlanks (List.replicate k (chr ' ') ++
      (text ((padded base m n).map digit) ++ tail))) =
        (false, text ((padded base m n).map digit) ++ tail) := by
    rw [skipBlanks_spaces, hds]
    change sign (skipBlanks ((digit d).setWidth 8 :: (text (ds.map digit) ++ tail))) =
      (false, (digit d).setWidth 8 :: (text (ds.map digit) ++ tail))
    rw [skipBlanks_cons hspace htab]
    simp [sign, hplus, hminus]
  simp only [strtol, hstart, padded_pref h hends, padded_reads h hends, Bool.false_eq_true,
    ↓reduceIte]

/-- A sign, zeros and a numeral are read as the number. -/
theorem strtol_signed (h : Usual base) (hends : Ends tail) (m : ℕ) (z : ℤ) :
    strtol (text (signText z) ++ (text ((padded base m z.natAbs).map digit) ++ tail)) base =
      (BitVec.ofInt 32 z, tail) := by
  rcases Int.lt_or_le z 0 with hneg | hpos
  · have hsign : text (signText z) = [chr '-'] := by simp [signText, hneg, text, int, chr]
    rw [hsign, List.singleton_append, strtol_minus h hends, ofInt_neg z hneg]
  · have hsign : text (signText z) = [] := by simp [signText, Int.not_lt.mpr hpos, text]
    rw [hsign, ← ofInt_nonneg z hpos]
    exact strtol_plain h hends 0 m z.natAbs

/-- Where there is no digit after the sign, the digits are left. -/
theorem strtol_stops (h0 : base ≠ 0) (hc : c = chr ' ' ∨ c = chr '-') (s : List Byte) :
    strtol (chr '-' :: c :: s) base = (0, c :: s) := by
  have h0' : base ≠ 0#32 := h0
  have hx : c ≠ chr '0' := by
    rcases hc with rfl | rfl <;> decide
  have hdigit : digitOf c = none := by
    rcases hc with rfl | rfl <;> decide
  have hpref : pref base (c :: s) = (base, c :: s) := by simp [pref, h0', hx]
  have hstart : sign (skipBlanks (chr '-' :: c :: s)) = (true, c :: s) := by
    rw [skipBlanks_cons (by decide) (by decide)]
    simp [sign, (by decide : chr '-' ≠ chr '+')]
  simp only [strtol, hstart, hpref, digits, hdigit, ↓reduceIte]
  rfl

theorem padc_byte (flag : Flag) : flag.padc.setWidth 8 = flag.byte := by
  cases flag <;> decide

theorem zeros_text (m n : ℕ) : List.replicate m (chr '0') ++
    (text ((padded base 0 n).map digit) ++ tail) =
      text ((padded base m n).map digit) ++ tail := by
  have hzero : (digit 0).setWidth 8 = chr '0' := by decide
  simp [padded, text, hzero]

/-- Which fields are read back. -/
def ReadsBack (flag : Flag) (w len : ℕ) (z : ℤ) : Prop :=
  w ≤ len ∨ flag = .zero ∨ (flag = .none ∧ 0 ≤ z) ∨
    (flag = .minus ∧ 0 ≤ z ∧ w = len + 1 ∧ BitVec.ofInt 32 (-z) = BitVec.ofInt 32 z)

theorem field_reads_iff (h : Usual base) (hends : Ends tail) (flag : Flag) (w : ℕ) (z : ℤ) :
    strtol (text (printed flag w (signText z) (digitsText base z)) ++ tail) base =
      (BitVec.ofInt 32 z, tail) ↔ ReadsBack flag w (numeral base.toNat z.natAbs).length z := by
  have hlen : (digitsText base z).length = (numeral base.toNat z.natAbs).length :=
    List.length_map _
  generalize hpad : w - (digitsText base z).length = pad
  have hprinted : text (printed flag w (signText z) (digitsText base z)) ++ tail =
      text (signText z) ++ (List.replicate pad flag.byte ++
        (text ((padded base 0 z.natAbs).map digit) ++ tail)) := by
    rw [printed, hpad]
    simp [text, digitsText, padded, padc_byte]
  rw [hprinted]
  cases pad with
  | zero =>
    have hfits : w ≤ (numeral base.toNat z.natAbs).length := by omega
    have hread := strtol_signed h hends 0 z
    simpa [ReadsBack, hfits] using hread
  | succ pad =>
    have hno : ¬ w ≤ (numeral base.toNat z.natAbs).length := by omega
    -- what is left in front of the rest is not the rest
    have hstops : ∀ (c : Byte) (s : List Byte), c = chr ' ' ∨ c = chr '-' →
        strtol (chr '-' :: c :: (s ++ tail)) base ≠ (BitVec.ofInt 32 z, tail) := by
      intro c s hc heq
      rw [strtol_stops h.ne_zero hc] at heq
      have hlength := congrArg (fun r => r.2.length) heq
      simp only [List.length_cons, List.length_append] at hlength
      omega
    rcases Int.lt_or_le z 0 with hneg | hpos
    · have hsign : text (signText z) = [chr '-'] := by simp [signText, hneg, text, int, chr]
      rw [hsign]
      cases flag with
      | zero =>
        have hread := strtol_signed h hends (pad + 1) z
        rw [hsign, ← zeros_text] at hread
        simpa [ReadsBack, Flag.byte] using hread
      | none =>
        have hstop := hstops (chr ' ') (List.replicate pad (chr ' ') ++
          text ((padded base 0 z.natAbs).map digit)) (Or.inl rfl)
        simpa [Flag.byte, List.replicate_succ, ReadsBack, hno, not_le.mpr hneg] using hstop
      | minus =>
        have hstop := hstops (chr '-') (List.replicate pad (chr '-') ++
          text ((padded base 0 z.natAbs).map digit)) (Or.inr rfl)
        simpa [Flag.byte, List.replicate_succ, ReadsBack, hno, not_le.mpr hneg] using hstop
    · have hsign : text (signText z) = [] := by simp [signText, Int.not_lt.mpr hpos, text]
      rw [hsign]
      cases flag with
      | zero =>
        have hread := strtol_signed h hends (pad + 1) z
        rw [hsign, ← zeros_text] at hread
        simpa [ReadsBack, Flag.byte] using hread
      | none =>
        have hread := strtol_plain h hends (pad + 1) 0 z.natAbs
        rw [ofInt_nonneg z hpos] at hread
        simpa [ReadsBack, Flag.byte, hpos] using hread
      | minus =>
        cases pad with
        | zero =>
          have hread := strtol_minus h hends 0 z.natAbs
          have hone : w = (numeral base.toNat z.natAbs).length + 1 := by omega
          rw [ofInt_nonneg z hpos, ← BitVec.ofInt_neg] at hread
          simp only [Flag.byte, List.nil_append, Nat.zero_add, List.replicate_one,
            List.singleton_append, hread, Prod.mk.injEq, and_true]
          simp [ReadsBack, hpos, hone]
        | succ pad =>
          have hmore : w ≠ (numeral base.toNat z.natAbs).length + 1 := by omega
          have hstop := hstops (chr '-') (List.replicate pad (chr '-') ++
            text ((padded base 0 z.natAbs).map digit)) (Or.inr rfl)
          simpa [Flag.byte, List.replicate_succ, ReadsBack, hno, hmore] using hstop

/-- strtol() reads a number back from what vprintfmt() prints for it, and stops behind it: where
the field is no wider than the digits, with the flag 0, and without a flag where the number is not
negative. Padded with a minus sign, it takes the padding for the sign. -/
theorem printed_read_back_iff (strings : Strings) (flag : Flag) {chars : List Byte}
    {args : List Word} (hw : Gives chars args w) (num : Number) (conv : Conv) (rest : List Word)
    {cs : List Word} (hcs : Converts strings (flag.chars ++ (chars ++ num.chars)) conv.char
      (args ++ (num.args ++ rest)) cs) (hends : Ends tail) :
    strtol (text cs ++ tail) conv.base = (BitVec.ofInt 32 (conv.value num), tail) ↔
      ReadsBack flag w (numeral conv.base.toNat (conv.value num).natAbs).length
        (conv.value num) := by
  have husual : Usual conv.base := by cases conv <;> exact ⟨by decide, by decide⟩
  have hprints := format_converts strings flag hw num conv rest
  obtain ⟨-, rfl⟩ := (hprints _ (le_refl _)).unique (hcs _ (le_refl _))
  exact field_reads_iff husual hends flag w (conv.value num)

/-- -42 with the format %0*d and the width 5, in front of a space. -/
theorem printed_read_back_iff_padded :
    strtol (text (printed .zero 5 (signText (Conv.d.value (.int (-42))))
      (digitsText Conv.d.base (Conv.d.value (.int (-42))))) ++ [chr ' ']) Conv.d.base =
        (BitVec.ofInt 32 (Conv.d.value (.int (-42))), [chr ' ']) :=
  (printed_read_back_iff messages .zero (.star (by decide)) (.int (-42)) .d []
    (format_converts messages .zero (.star (by decide)) (.int (-42)) .d [])
    (by simp only [Ends]; decide)).mpr (Or.inr (Or.inl rfl))

/-- The format %-2d prints 3 as "-3". -/
example : strtol [chr '-', chr '3'] 10 = (-3, []) := by decide

end Strtol
