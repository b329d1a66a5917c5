import OsEngineering.FaultState
import OsEngineering.ShellCommands

/-! The parser of hw02-shell/sh.c on one line. Pointers into the line are offsets. -/
namespace ShellParser

open ByteBlock FaultState ShellCommands

/-- `outside` is a read outside of the line and its terminating zero; `loop` is a loop or a
recursion that takes more turns than the line has characters. -/
inductive Stop where
  | outside
  | exit (msg : String)
  | leftovers (s : Str)
  | loop
  deriving DecidableEq, Repr

/-- The state is `*ps`. -/
abbrev Parse := Code Stop ℕ

/-- Space, tab, carriage return, newline and vertical tab. -/
def whitespace : List Byte := [32, 9, 13, 10, 11]

/-- `<`, `|` and `>`. -/
def symbols : List Byte := [60, 124, 62]

/-- strchr() also finds the terminating zero. -/
def strchr (s : List Byte) (c : Byte) : Prop := c = 0 ∨ c ∈ s

instance (s : List Byte) (c : Byte) : Decidable (strchr s c) :=
  inferInstanceAs (Decidable (_ ∨ _))

section Line

variable (line : Str)

/-- The character at an offset. -/
def deref (s : ℕ) : Parse Byte :=
  if s < line.length then pure (line.getD s 0)
  else if s = line.length then pure 0
  else throw .outside

/-- The loops that pass over the characters with `p`, up to `es`. -/
def skip (p : Byte → Prop) [DecidablePred p] : ℕ → ℕ → Parse ℕ
  | 0, s => if s < line.length then throw .loop else pure s
  | k + 1, s =>
    if s < line.length then do
      let c ← deref line s
      if p c then skip p k (s + 1) else pure s
    else pure s

def skipSpace (s : ℕ) : Parse ℕ := skip line (strchr whitespace) line.length s

def skipWord (s : ℕ) : Parse ℕ :=
  skip line (fun c => ¬ strchr whitespace c ∧ ¬ strchr symbols c) line.length s

/-- The switch in gettoken(): its `ret` and the new `s`. -/
def scan (c : Byte) (s : ℕ) : Parse (Byte × ℕ) :=
  if c = 0 then pure (c, s)
  else if c = 124 ∨ c = 60 then pure (c, s + 1)
  else if c = 62 then pure (c, s + 1)
  else do
    let s ← skipWord line s
    pure (97, s)

/-- The result with `*q` and `*eq`. -/
def gettoken : Parse (Byte × ℕ × ℕ) := do
  let s ← get
  let q ← skipSpace line s
  let c ← deref line q
  let (ret, eq) ← scan line c q
  let s ← skipSpace line eq
  set s
  pure (ret, q, eq)

def peek (toks : List Byte) : Parse Bool := do
  let s ← get
  let s ← skipSpace line s
  set s
  let c ← deref line s
  pure (c ≠ 0 ∧ strchr toks c)

/-- strncpy() of `n` characters with no zero among them. -/
def strncpy : ℕ → ℕ → Parse Str
  | 0, _ => pure []
  | n + 1, s => do
    let c ← deref line s
    let rest ← strncpy n (s + 1)
    pure (c :: rest)

def mkcopy (s es : ℕ) : Parse Str := strncpy line (es - s) s

def parseredirs : ℕ → Cmd → Parse Cmd
  | 0, _ => throw .loop
  | k + 1, cmd => do
    if ← peek line [60, 62] then
      let (tok, _, _) ← gettoken line
      let (next, q, eq) ← gettoken line
      if next ≠ 97 then throw (.exit "missing file for redirection\n")
      else if tok = 60 then
        let file ← mkcopy line q eq
        parseredirs k (.redircmd cmd file .input)
      else if tok = 62 then
        let file ← mkcopy line q eq
        parseredirs k (.redircmd cmd file .output)
      else parseredirs k cmd
    else pure cmd

/-- parseexec() stores an argument in the execcmd that `ret` may have been wrapped around. -/
def addArg : Cmd → Str → Cmd
  | .execcmd argv, arg => .execcmd (argv ++ [arg])
  | .redircmd cmd file type, arg => .redircmd (addArg cmd arg) file type
  | .pipecmd left right, _ => .pipecmd left right

/-- The loop of parseexec(). -/
def parseargs : ℕ → ℕ → Cmd → Parse Cmd
  | 0, _, _ => throw .loop
  | k + 1, argc, ret => do
    if ← peek line [124] then pure ret
    else
      let (tok, q, eq) ← gettoken line
      if tok = 0 then pure ret
      else if tok ≠ 97 then throw (.exit "syntax error\n")
      else
        let arg ← mkcopy line q eq
        if MAXARGS ≤ argc + 1 then throw (.exit "too many args\n")
        else
          let ret ← parseredirs line (line.length + 1) (addArg ret arg)
          parseargs k (argc + 1) ret

def parseexec : Parse Cmd := do
  let ret ← parseredirs line (line.length + 1) (.execcmd [])
  parseargs line (line.length + 1) 0 ret

def parsepipe : ℕ → Parse Cmd
  | 0 => throw .loop
  | k + 1 => do
    let cmd ← parseexec line
    if ← peek line [124] then
      let _ ← gettoken line
      let rest ← parsepipe k
      pure (.pipecmd cmd rest)
    else pure cmd

def parseline : Parse Cmd := parsepipe line (line.length + 1)

def parsecmd : Except Stop Cmd := do
  let (cmd, _) ← (do
    let cmd ← parseline line
    let _ ← peek line []
    let s ← get
    if s ≠ line.length then throw (.leftovers (line.drop s)) else pure cmd : Parse Cmd) 0
  pure cmd

end Line

end ShellParser
