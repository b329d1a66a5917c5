import OsEngineering.Console
import OsEngineering.PrintNumber

/-! vprintfmt() of lab01's lib/printfmt.c, for any putch(). Integers are those of the i386, where
long has the size of int. -/
namespace PrintFormat

open ByteBlock Console PrintNumber

/-! The format -/

/-- A pointer into the format, with the bytes before it, the nearest one first, and those from it
on, its NUL included. -/
structure Ptr where
  before : List Byte
  after : List Byte

/-- The first byte of a format. -/
def Ptr.start (fmt : List Byte) : Ptr := ⟨[], fmt ++ [0]⟩

/-- *fmt -/
def peek : Ptr → Except Stop Byte
  | ⟨_, c :: _⟩ => .ok c
  | ⟨_, []⟩ => .error .outside

/-- *fmt++ -/
def fetch : Ptr → Except Stop (Byte × Ptr)
  | ⟨before, c :: after⟩ => .ok (c, ⟨c :: before, after⟩)
  | ⟨_, []⟩ => .error .outside

/-- for (; fmt[-1] != '%'; fmt--) -/
def toPercent : List Byte → List Byte → Except Stop Ptr
  | [], _ => .error .outside
  | c :: before, after =>
    if c = chr '%' then .ok ⟨c :: before, after⟩ else toPercent before (c :: after)

/-- for (fmt--; fmt[-1] != '%'; fmt--) -/
def rewind : Ptr → Except Stop Ptr
  | ⟨c :: before, after⟩ => toPercent before (c :: after)
  | ⟨[], _⟩ => .error .outside

/-! The arguments -/

/-- va_arg() of an int, a long or a pointer. -/
def vaArg : List Word → Except Stop (Word × List Word)
  | w :: ap => .ok (w, ap)
  | [] => .error .argument

/-- va_arg() of a long long. -/
def vaArgLongLong : List Word → Except Stop (BitVec 64 × List Word)
  | low :: high :: ap => .ok (high ++ low, ap)
  | _ => .error .argument

def getuint (ap : List Word) (lflag : Word) : Except Stop (BitVec 64 × List Word) :=
  if 2 ≤ lflag.toInt then vaArgLongLong ap
  else (vaArg ap).map fun r => (r.1.setWidth 64, r.2)

def getint (ap : List Word) (lflag : Word) : Except Stop (BitVec 64 × List Word) :=
  if 2 ≤ lflag.toInt then vaArgLongLong ap
  else (vaArg ap).map fun r => (r.1.signExtend 64, r.2)

/-! Flags, width and precision -/

structure Flags where
  padc : Byte
  width : Word
  precision : Word
  lflag : Word
  altflag : Bool

def Flags.none : Flags := ⟨chr ' ', -1, -1, 0, false⟩

/-- What the loop over the format has in hand. -/
structure Scan where
  fmt : Ptr
  ap : List Word
  flags : Flags

def isDigit (c : Byte) : Bool := chr '0' ≤ c ∧ c ≤ chr '9'

/-- The loop of the width field, with the precision so far and the digit in `ch`. -/
def widthField : ℕ → Word → Byte → Ptr → Except Stop (Word × Ptr)
  | 0, _, _, _ => .error .fuel
  | k + 1, precision, ch, fmt => do
    let precision := precision * 10 + ch.setWidth 32 - 48
    let ch ← peek fmt
    if isDigit ch then
      let (_, fmt) ← fetch fmt
      widthField k precision ch fmt
    else pure (precision, fmt)

def Flags.processPrecision (f : Flags) (precision : Word) : Flags :=
  if f.width.toInt < 0 then { f with width := precision, precision := -1 }
  else { f with precision := precision }

/-- The switch up to the character that is none of these, which comes with the scan after it. -/
def reswitch : ℕ → Scan → Except Stop (Byte × Scan)
  | 0, _ => .error .fuel
  | k + 1, ⟨fmt, ap, f⟩ => do
    let (ch, fmt) ← fetch fmt
    if ch = chr '-' then reswitch k ⟨fmt, ap, { f with padc := chr '-' }⟩
    else if ch = chr '0' then reswitch k ⟨fmt, ap, { f with padc := chr '0' }⟩
    else if isDigit ch then
      let (precision, fmt) ← widthField (k + 1) 0 ch fmt
      reswitch k ⟨fmt, ap, f.processPrecision precision⟩
    else if ch = chr '*' then
      let (precision, ap) ← vaArg ap
      reswitch k ⟨fmt, ap, f.processPrecision precision⟩
    else if ch = chr '.' then
      reswitch k ⟨fmt, ap, { f with width := if f.width.toInt < 0 then 0 else f.width }⟩
    else if ch = chr '#' then reswitch k ⟨fmt, ap, { f with altflag := true }⟩
    else if ch = chr 'l' then reswitch k ⟨fmt, ap, { f with lflag := f.lflag + 1 }⟩
    else pure (ch, ⟨fmt, ap, f⟩)

/-! Strings -/

def MAXERROR : ℕ := 7

def bytes (s : List Char) : List Byte := s.map chr

/-- The texts of error_string[]. -/
def errorText : ℕ → Option (List Byte)
  | 1 => some (bytes "unspecified error".toList)
  | 2 => some (bytes "bad environment".toList)
  | 3 => some (bytes "invalid parameter".toList)
  | 4 => some (bytes "out of memory".toList)
  | 5 => some (bytes "out of environments".toList)
  | 6 => some (bytes "segmentation fault".toList)
  | _ => none

/-- The strings in memory, up to their NULs, and where those of error_string[] are. -/
structure Strings where
  text : Word → { s : List Byte // 0 ∉ s }
  error_string : Fin MAXERROR → Word
  null_iff : ∀ i : Fin MAXERROR, error_string i = 0 ↔ errorText i = none
  error_text : ∀ (i : Fin MAXERROR) (s : List Byte), errorText i = some s →
    (text (error_string i)).val = s

def strnlen (s : List Byte) (size : Word) : Word := BitVec.ofNat 32 (min s.length size.toNat)

/-- error_string[err], where only err < MAXERROR is known: of the address of an entry 32 bits
count. -/
def errorEntry (strings : Strings) (err : Word) : Except Stop Word :=
  if h : (err.setWidth 30).toNat < MAXERROR then .ok (strings.error_string ⟨_, h⟩)
  else .error .outside

section Code

variable {σ : Type} (putch : Word → σ → σ)

/-- for (; width > 0; width--) putch(c, putdat), with the width after it. -/
def putPad (c width : Word) : StateT σ (Except Stop) Word := do
  putTimes putch c width.toInt.toNat
  pure (if 0 < width.toInt then 0 else width)

/-- The second loop of %s; the characters are signed. -/
def putString (altflag : Bool) : List Byte → Word → Word → StateT σ (Except Stop) Word
  | [], _, width => pure width
  | c :: p, precision, width =>
    let ch : Word := c.signExtend 32
    let next : Word := if precision.toInt < 0 then precision else precision - 1
    if precision.toInt < 0 ∨ 0 ≤ next.toInt then do
      modify (putch (if altflag ∧ (ch.toInt < 32 ∨ 126 < ch.toInt) then int '?' else ch))
      putString altflag p next (width - 1)
    else pure width

def printString (f : Flags) (p : List Byte) : StateT σ (Except Stop) Unit := do
  let width ← (if 0 < f.width.toInt ∧ f.padc ≠ chr '-' then
      putPad putch (f.padc.setWidth 32) (f.width - strnlen p f.precision)
    else pure f.width)
  let width ← putString putch f.altflag p f.precision width
  let _ ← putPad putch (int ' ') width
  pure ()

def printError (strings : Strings) (printfmt : List Byte → List Word → StateT σ (Except Stop) Unit)
    (err : Word) : StateT σ (Except Stop) Unit := do
  let err := if err.toInt < 0 then -err else err
  if (MAXERROR : ℤ) ≤ err.toInt then printfmt (bytes "error %d".toList) [err]
  else
    let p ← errorEntry strings err
    if p = 0 then printfmt (bytes "error %d".toList) [err]
    else printfmt (bytes "%s".toList) [p]

/-- The label number. -/
def number (k : ℕ) (num : BitVec 64) (base : Word) (f : Flags) : StateT σ (Except Stop) Unit :=
  printnum putch base (f.padc.setWidth 32) k num f.width

/-- The rest of the switch, for the character `ch`. -/
def convert (strings : Strings) (printfmt : List Byte → List Word → StateT σ (Except Stop) Unit)
    (k : ℕ) (ch : Byte) : Scan → StateT σ (Except Stop) Scan
  | ⟨fmt, ap, f⟩ =>
    if ch = chr 'c' then do
      let (c, ap) ← vaArg ap
      modify (putch c)
      pure ⟨fmt, ap, f⟩
    else if ch = chr 'e' then do
      let (err, ap) ← vaArg ap
      printError strings printfmt err
      pure ⟨fmt, ap, f⟩
    else if ch = chr 's' then do
      let (p, ap) ← vaArg ap
      printString putch f (if p = 0 then bytes "(null)".toList else strings.text p)
      pure ⟨fmt, ap, f⟩
    else if ch = chr 'd' then do
      let (num, ap) ← getint ap f.lflag
      let num ← (if num.toInt < 0 then do
          modify (putch (int '-'))
          pure (-num)
        else pure num)
      number putch k num 10 f
      pure ⟨fmt, ap, f⟩
    else if ch = chr 'u' then do
      let (num, ap) ← getuint ap f.lflag
      number putch k num 10 f
      pure ⟨fmt, ap, f⟩
    else if ch = chr 'o' then do
      let (num, ap) ← getuint ap f.lflag
      number putch k num 8 f
      pure ⟨fmt, ap, f⟩
    else if ch = chr 'p' then do
      modify (putch (int '0'))
      modify (putch (int 'x'))
      let (num, ap) ← vaArg ap
      number putch k (num.setWidth 64) 16 f
      pure ⟨fmt, ap, f⟩
    else if ch = chr 'x' then do
      let (num, ap) ← getuint ap f.lflag
      number putch k num 16 f
      pure ⟨fmt, ap, f⟩
    else if ch = chr '%' then do
      modify (putch (ch.setWidth 32))
      pure ⟨fmt, ap, f⟩
    else do
      modify (putch (int '%'))
      let fmt ← rewind fmt
      pure ⟨fmt, ap, f⟩

/-- vprintfmt() at the start of its inner loop. -/
def vprintfmt (strings : Strings) : ℕ → Ptr → List Word → StateT σ (Except Stop) Unit
  | 0, _, _ => throw .fuel
  | k + 1, fmt, ap => do
    let (ch, fmt) ← fetch fmt
    if ch = chr '%' then
      let (ch, st) ← reswitch k ⟨fmt, ap, Flags.none⟩
      let st ← convert putch strings (fun fmt ap => vprintfmt strings k (.start fmt) ap) k ch st
      vprintfmt strings k st.fmt st.ap
    else if ch = 0 then pure ()
    else
      modify (putch (ch.setWidth 32))
      vprintfmt strings k fmt ap

end Code

end PrintFormat
