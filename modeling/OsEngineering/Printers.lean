import OsEngineering.Console
import OsEngineering.Numerals

/-! The two printers of xv6: printf() of the user library goes through a format with a state,
cprintf() of console.c looks one character ahead. Characters go to write() and to consputc(). -/
namespace Printers

open ByteBlock Console Numerals

/-- "0123456789ABCDEF" -/
def upperDigits : List Byte := ['0', '1', '2', '3', '4', '5', '6', '7', '8', '9', 'A', 'B', 'C',
  'D', 'E', 'F'].map chr

/-- "0123456789abcdef" -/
def lowerDigits : List Byte := ['0', '1', '2', '3', '4', '5', '6', '7', '8', '9', 'a', 'b', 'c',
  'd', 'e', 'f'].map chr

/-- `buf[i++] = c` in a `char buf[16]` with the first `i` set. -/
def push (buf : List Byte) (c : Byte) : Option (List Byte) :=
  if buf.length < 16 then some (buf ++ [c]) else none

/-- The do-while loop of printint(). -/
def toDigits (digits : List Byte) (base : Word) : ℕ → Word → List Byte → Option (List Byte)
  | 0, _, _ => none
  | k + 1, x, buf => do
    let buf ← push buf (← digits[(x % base).toNat]?)
    if x / base ≠ 0 then toDigits digits base k (x / base) buf else pure buf

/-- What the last loop puts out. -/
def printint (digits : List Byte) (xx base : Word) (sgn : Bool) : Option (List Byte) := do
  let neg := sgn && decide (xx.toInt < 0)
  let buf ← toDigits digits base 32 (if neg then -xx else xx) []
  let buf ← if neg then push buf (chr '-') else pure buf
  pure buf.reverse

/-- "(null)" -/
def null : List Byte := ['(', 'n', 'u', 'l', 'l', ')'].map chr

section Loops

/-! `string` gives the characters of the string at an address, `ap` the words on the stack behind
the format. -/

variable (string : Word → List Byte) (ap : ℕ → Word)

def stringAt (s : Word) : List Byte := if s = 0 then null else string s

namespace User

def printint : Word → Word → Bool → Option (List Byte) := Printers.printint upperDigits

/-- The loop of printf(): `state` is set after a '%', and `n` arguments have been taken. -/
def loop : List Byte → Bool → ℕ → Option (List Byte)
  | [], _, _ => some []
  | c :: fmt, false, n => do
    if c = chr '%' then loop fmt true n
    else
      let out ← loop fmt false n
      pure (c :: out)
  | c :: fmt, true, n => do
    if c = chr 'd' then
      let text ← printint (ap n) 10 true
      let out ← loop fmt false (n + 1)
      pure (text ++ out)
    else if c = chr 'x' ∨ c = chr 'p' then
      let text ← printint (ap n) 16 false
      let out ← loop fmt false (n + 1)
      pure (text ++ out)
    else if c = chr 's' then
      let out ← loop fmt false (n + 1)
      pure (stringAt string (ap n) ++ out)
    else if c = chr 'c' then
      let out ← loop fmt false (n + 1)
      pure ((ap n).setWidth 8 :: out)
    else if c = chr '%' then
      let out ← loop fmt false n
      pure (c :: out)
    else
      let out ← loop fmt false n
      pure (chr '%' :: c :: out)

/-- What is written to the file. -/
def printf (fmt : List Byte) : Option (List Byte) := loop string ap fmt false 0

end User

namespace Kernel

def printint (xx base : Word) (sign : Bool) : Option (List Word) :=
  (Printers.printint lowerDigits xx base sign).map fun out => out.map fun c => c.signExtend 32

/-- The loop of cprintf(). A zero ends it also after a '%'. -/
def loop : List Byte → ℕ → Option (List Word)
  | [], _ => some []
  | c :: fmt, n => do
    if c ≠ chr '%' then
      let out ← loop fmt n
      pure (c.setWidth 32 :: out)
    else
      match fmt with
      | [] => pure []
      | c :: fmt =>
        if c = chr 'd' then
          let text ← printint (ap n) 10 true
          let out ← loop fmt (n + 1)
          pure (text ++ out)
        else if c = chr 'x' ∨ c = chr 'p' then
          let text ← printint (ap n) 16 false
          let out ← loop fmt (n + 1)
          pure (text ++ out)
        else if c = chr 's' then
          let out ← loop fmt (n + 1)
          pure ((stringAt string (ap n)).map (BitVec.signExtend 32) ++ out)
        else if c = chr '%' then
          let out ← loop fmt n
          pure (c.setWidth 32 :: out)
        else
          let out ← loop fmt n
          pure ((chr '%').setWidth 32 :: c.setWidth 32 :: out)

/-- What consputc() is called with. -/
def cprintf (fmt : List Byte) : Option (List Word) := loop string ap fmt 0

end Kernel

end Loops

/-! What a format means -/

inductive Piece where
  | text (c : Byte)
  | conv (c : Byte)
  deriving DecidableEq

/-- A '%' at the end is dropped. -/
def pieces : List Byte → List Piece
  | [] => []
  | c :: fmt =>
    if c ≠ chr '%' then .text c :: pieces fmt
    else
      match fmt with
      | [] => []
      | c :: fmt => .conv c :: pieces fmt

def digitIn (digits : List Byte) (d : ℕ) : Byte := digits.getD d 0

/-- The digits of a printer, and whether it knows %c. -/
structure Style where
  digit : ℕ → Byte
  char : Bool

def userStyle : Style := ⟨digitIn upperDigits, true⟩

def kernelStyle : Style := ⟨digitIn lowerDigits, false⟩

section Meaning

variable (style : Style) (string : Word → List Byte)

def decimal (z : ℤ) : List Byte :=
  (if z < 0 then [chr '-'] else []) ++ (numeral 10 z.natAbs).map style.digit

def hexadecimal (n : ℕ) : List Byte := (numeral 16 n).map style.digit

/-- The text of a conversion with the next argument, and whether it takes that. -/
def convert (c : Byte) (arg : Word) : List Byte × Bool :=
  if c = chr 'd' then (decimal style arg.toInt, true)
  else if c = chr 'x' ∨ c = chr 'p' then (hexadecimal style arg.toNat, true)
  else if c = chr 's' then (stringAt string arg, true)
  else if c = chr 'c' ∧ style.char then ([arg.setWidth 8], true)
  else if c = chr '%' then ([c], false)
  else ([chr '%', c], false)

def render (ap : ℕ → Word) : List Piece → ℕ → List Byte
  | [], _ => []
  | .text c :: ps, n => c :: render ap ps n
  | .conv c :: ps, n =>
    let (text, takes) := convert style string c (ap n)
    text ++ render ap ps (if takes then n + 1 else n)

end Meaning

variable {string : Word → List Byte} {ap : ℕ → Word} {base : Word} {digits : List Byte}

/-! printint() -/

theorem toDigits_numeral (hlow : 1 < base.toNat) (hlen : digits.length = 16)
    (hhigh : base.toNat ≤ 16) {k : ℕ} (x : Word) (buf : List Byte)
    (hk : (numeral base.toNat x.toNat).length ≤ k)
    (hroom : buf.length + (numeral base.toNat x.toNat).length ≤ 16) :
    toDigits digits base k x buf = some (buf ++
      ((numeral base.toNat x.toNat).map (digitIn digits)).reverse) := by
  induction k generalizing x buf with
  | zero =>
    have := length_numeral_pos hlow x.toNat
    omega
  | succ k ih =>
    have hmod : (x % base).toNat = x.toNat % base.toNat := BitVec.toNat_umod
    have hdiv : (x / base).toNat = x.toNat / base.toNat := BitVec.toNat_udiv
    have hlt : (x % base).toNat < digits.length := by
      rw [hmod, hlen]
      exact (Nat.mod_lt _ (by omega)).trans_le hhigh
    have hdigit : digits[(x % base).toNat]? = some (digitIn digits (x % base).toNat) := by
      rw [digitIn, List.getD_eq_getElem?_getD, List.getElem?_eq_getElem hlt, Option.getD_some]
    have hpos := length_numeral_pos hlow x.toNat
    have hpush : push buf (digitIn digits (x % base).toNat) =
        some (buf ++ [digitIn digits (x % base).toNat]) := by
      rw [push, if_pos (by omega)]
    simp only [toDigits, hdigit, Option.bind_eq_bind, Option.bind_some, hpush]
    rcases Nat.lt_or_ge x.toNat base.toNat with hsmall | hlarge
    · have hzero : x / base = 0 := by
        apply BitVec.eq_of_toNat_eq
        rw [hdiv, Nat.div_eq_of_lt hsmall]
        rfl
      simp [hzero, numeral_of_lt hsmall, hmod, Nat.mod_eq_of_lt hsmall]
    · have hmore : x / base ≠ 0 := by
        intro hzero
        have hnat := congrArg BitVec.toNat hzero
        rw [hdiv] at hnat
        have hpos' := Nat.div_pos hlarge (by omega)
        simp at hnat
        omega
      have hsplit := numeral_of_le hlow hlarge
      rw [hsplit, List.length_append, List.length_singleton] at hk hroom
      rw [if_pos hmore, ih, hdiv, hsplit, hmod]
      · simp
      · rw [hdiv]
        omega
      · rw [hdiv, List.length_append, List.length_singleton]
        omega

theorem toDigits_fits (base : Word) (hlow : 1 < base.toNat) (hlen : digits.length = 16)
    (hhigh : base.toNat ≤ 16) {x : Word} (hfits : (numeral base.toNat x.toNat).length ≤ 15) :
    toDigits digits base 32 x [] =
      some ((numeral base.toNat x.toNat).map (digitIn digits)).reverse := by
  have h := toDigits_numeral hlow hlen hhigh (k := 32) x [] (by omega) (by
    rw [List.length_nil]
    omega)
  rwa [List.nil_append] at h

theorem magnitude (xx : Word) :
    (if xx.toInt < 0 then -xx else xx).toNat = xx.toInt.natAbs := by
  split
  · next hneg =>
    rw [BitVec.toNat_neg]
    have hint := BitVec.toInt_eq_toNat_cond xx
    omega
  · next hpos =>
    have hint := BitVec.toInt_eq_toNat_cond xx
    omega

theorem printint_decimal (digits : List Byte) (hlen : digits.length = 16) (char : Bool)
    (xx : Word) :
    printint digits xx 10 true = some (decimal ⟨digitIn digits, char⟩ xx.toInt) := by
  have hlong : (numeral 10 xx.toInt.natAbs).length ≤ 10 := by
    apply length_numeral_le (by decide) (by decide)
    have := magnitude xx
    omega
  have hrun := toDigits_fits 10 (by decide) hlen (by decide)
    (x := if xx.toInt < 0 then -xx else xx) (by
      rw [magnitude]
      exact hlong.trans (by decide))
  rw [magnitude] at hrun
  have hbase : (10 : Word).toNat = 10 := rfl
  rw [hbase] at hrun
  simp only [printint, Bool.true_and, decide_eq_true_eq, hrun, decimal]
  split
  · have hpush : push ((numeral 10 xx.toInt.natAbs).map (digitIn digits)).reverse
        (chr '-') =
        some (((numeral 10 xx.toInt.natAbs).map (digitIn digits)).reverse ++ [chr '-']) := by
      rw [push, if_pos (by simpa using (by omega : (numeral 10 xx.toInt.natAbs).length < 16))]
    simp [hpush]
  · simp

theorem printint_hexadecimal (digits : List Byte) (hlen : digits.length = 16) (char : Bool)
    (xx : Word) :
    printint digits xx 16 false = some (hexadecimal ⟨digitIn digits, char⟩ xx.toNat) := by
  have hlong : (numeral 16 xx.toNat).length ≤ 8 := by
    apply length_numeral_le (by decide) (by decide)
    exact xx.isLt
  have hrun := toDigits_fits 16 (by decide) hlen (by decide) (x := xx)
    (hlong.trans (by decide))
  have hbase : (16 : Word).toNat = 16 := rfl
  rw [hbase] at hrun
  simp only [printint, Bool.false_and, Bool.false_eq_true, ↓reduceIte, hrun, Option.bind_eq_bind,
    Option.bind_some, Option.pure_def, List.reverse_reverse, hexadecimal]

/-! The loops -/

theorem pieces_cons {c : Byte} (h : c ≠ chr '%') (fmt : List Byte) :
    pieces (c :: fmt) = .text c :: pieces fmt := by
  rw [pieces.eq_def]
  simp [h]

theorem pieces_percent : pieces [chr '%'] = [] := by decide

theorem pieces_conv (c : Byte) (fmt : List Byte) :
    pieces (chr '%' :: c :: fmt) = .conv c :: pieces fmt := by
  rw [pieces.eq_def]
  simp

theorem user_loop (fmt : List Byte) (n : ℕ) :
    User.loop string ap fmt false n = some (render userStyle string ap (pieces fmt) n) := by
  induction fmt using pieces.induct generalizing n with
  | case1 => rfl
  | case2 c fmt h ih => simp [User.loop, pieces_cons h, h, ih, render]
  | case3 c h =>
    obtain rfl : c = chr '%' := by simpa using h
    simp [User.loop, pieces_percent, render]
  | case4 c h d fmt ih =>
    obtain rfl : c = chr '%' := by simpa using h
    have hdec := printint_decimal upperDigits rfl true
    have hhex := printint_hexadecimal upperDigits rfl true
    simp only [User.loop, pieces_conv, render, convert, ↓reduceIte]
    split_ifs <;> simp_all [User.printint, userStyle]

theorem narrow_signExtend (cs : List Byte) :
    cs.map (BitVec.setWidth 8 ∘ BitVec.signExtend 32) = cs := by
  have hbyte : ∀ c : Byte, (c.signExtend 32).setWidth 8 = c := by decide
  exact (List.map_congr_left fun c _ => hbyte c).trans (List.map_id cs)

theorem kernel_decimal (xx : Word) : Kernel.printint xx 10 true =
    some ((decimal kernelStyle xx.toInt).map (BitVec.signExtend 32)) := by
  rw [Kernel.printint, printint_decimal lowerDigits rfl false]
  rfl

theorem kernel_hexadecimal (xx : Word) : Kernel.printint xx 16 false =
    some ((hexadecimal kernelStyle xx.toNat).map (BitVec.signExtend 32)) := by
  rw [Kernel.printint, printint_hexadecimal lowerDigits rfl false]
  rfl

theorem kernel_loop (string : Word → List Byte) (ap : ℕ → Word) (fmt : List Byte) (n : ℕ) :
    ∃ out, Kernel.loop string ap fmt n = some out ∧
    out.map (BitVec.setWidth 8) = render kernelStyle string ap (pieces fmt) n := by
  induction fmt using pieces.induct generalizing n with
  | case1 => exact ⟨[], rfl, rfl⟩
  | case2 c fmt h ih =>
    obtain ⟨out, hout, hrest⟩ := ih n
    refine ⟨c.setWidth 32 :: out, ?_, by simp [pieces_cons h, render, hrest]⟩
    rw [Kernel.loop.eq_def]
    simp [h, hout]
  | case3 c h =>
    obtain rfl : c = chr '%' := by simpa using h
    exact ⟨[], rfl, by simp [pieces_percent, render]⟩
  | case4 c h d fmt ih =>
    obtain rfl : c = chr '%' := by simpa using h
    obtain ⟨out, hout, hrest⟩ := ih n
    obtain ⟨out', hout', hrest'⟩ := ih (n + 1)
    rw [Kernel.loop.eq_def]
    simp only [ne_eq, not_true_eq_false, ↓reduceIte, kernel_decimal, kernel_hexadecimal, hout,
      hout', pieces_conv, render, convert, Option.bind_eq_bind, Option.bind_some, Option.pure_def]
    split_ifs <;> refine ⟨_, rfl, ?_⟩ <;> simp_all [narrow_signExtend, kernelStyle]

/-! Both -/

/-- The same up to the case of a hexadecimal digit. -/
def SameUpToCase (a b : Byte) : Prop := a = b ∨ ((chr 'A' ≤ a ∧ a ≤ chr 'F') ∧ b = a + 32)

theorem same_refl (cs : List Byte) : List.Forall₂ SameUpToCase cs cs :=
  List.forall₂_same.mpr fun _ _ => Or.inl rfl

theorem digit_same {d : ℕ} (hd : d < 16) :
    SameUpToCase (digitIn upperDigits d) (digitIn lowerDigits d) := by
  simp only [SameUpToCase]
  revert d
  decide

theorem digits_same {ds : List ℕ} (hds : ∀ d ∈ ds, d < 16) : List.Forall₂ SameUpToCase
    (ds.map (digitIn upperDigits)) (ds.map (digitIn lowerDigits)) := by
  rw [List.forall₂_map_left_iff, List.forall₂_map_right_iff, List.forall₂_same]
  exact fun d hd => digit_same (hds d hd)

theorem decimal_same (z : ℤ) :
    List.Forall₂ SameUpToCase (decimal userStyle z) (decimal kernelStyle z) := by
  apply List.rel_append (same_refl _)
  apply digits_same
  intro d hd
  have := (isNumeral (by decide : 1 < 10) z.natAbs).digits d hd
  omega

theorem hexadecimal_same (n : ℕ) :
    List.Forall₂ SameUpToCase (hexadecimal userStyle n) (hexadecimal kernelStyle n) :=
  digits_same (isNumeral (by decide : 1 < 16) n).digits

theorem convert_same (string : Word → List Byte) {c : Byte} (hc : c ≠ chr 'c') (arg : Word) :
    List.Forall₂ SameUpToCase (convert userStyle string c arg).1
      (convert kernelStyle string c arg).1 ∧
    (convert userStyle string c arg).2 = (convert kernelStyle string c arg).2 := by
  simp only [convert, hc, false_and, ↓reduceIte]
  split_ifs
  · exact ⟨decimal_same _, rfl⟩
  · exact ⟨hexadecimal_same _, rfl⟩
  · exact ⟨same_refl _, rfl⟩
  · exact ⟨same_refl _, rfl⟩
  · exact ⟨same_refl _, rfl⟩

theorem render_same {ps : List Piece} (h : .conv (chr 'c') ∉ ps) (n : ℕ) :
    List.Forall₂ SameUpToCase (render userStyle string ap ps n)
      (render kernelStyle string ap ps n) := by
  induction ps generalizing n with
  | nil => exact .nil
  | cons p ps ih =>
    have hps : .conv (chr 'c') ∉ ps := fun hmem => h (List.mem_cons_of_mem p hmem)
    cases p with
    | text c => exact .cons (Or.inl rfl) (ih hps n)
    | conv c =>
      have hc : c ≠ chr 'c' := by
        rintro rfl
        simp at h
      obtain ⟨htext, htakes⟩ := convert_same string hc (ap n)
      simp only [render, htakes]
      exact List.rel_append htext (ih hps _)

/-- Both printers print the pieces of any format with its arguments, each with its own digits, and
stay inside their buffers. Where there is no %c, which cprintf() does not know, they print the
same up to the case of hexadecimal digits. -/
theorem printers_agree (string : Word → List Byte) (ap : ℕ → Word) (fmt : List Byte) :
    ∃ out out', User.printf string ap fmt = some out ∧ Kernel.cprintf string ap fmt = some out' ∧
      out = render userStyle string ap (pieces fmt) 0 ∧
      out'.map (BitVec.setWidth 8) = render kernelStyle string ap (pieces fmt) 0 ∧
      (.conv (chr 'c') ∉ pieces fmt →
        List.Forall₂ SameUpToCase out (out'.map (BitVec.setWidth 8))) := by
  obtain ⟨out', hout', hrender⟩ := kernel_loop string ap fmt 0
  refine ⟨_, out', user_loop fmt 0, hout', rfl, hrender, ?_⟩
  intro hc
  rw [hrender]
  exact render_same hc 0

end Printers
