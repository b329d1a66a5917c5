import OsEngineering.ShellParser

/-! The parser of xv6's sh.c on one line, with the line, the cursor and the loops over characters of
the other shell. The strchr() of xv6 does not find the terminating zero, and here panic() ends the
shell. There is memory for every node and stack for every call. -/
namespace ShParser

open ByteBlock FaultState
open ShellCommands (Str MAXARGS)
open ShellParser (Stop Parse deref skip whitespace)

/-- `<|>&;()` -/
def symbols : List Byte := [60, 124, 62, 38, 59, 40, 41]

def O_RDONLY : ℕ := 0x000
def O_WRONLY : ℕ := 0x001
def O_CREATE : ℕ := 0x200

/-- `q` and `eq` of a word. -/
structure Slice where
  start : ℕ
  stop : ℕ
  deriving DecidableEq, Repr

/-- The trees, with words `ω`. A null pointer ends `argv`. -/
inductive Cmd (ω : Type) where
  | execcmd (argv : List ω)
  | redircmd (cmd : Cmd ω) (file : ω) (mode fd : ℕ)
  | pipecmd (left right : Cmd ω)
  | listcmd (left right : Cmd ω)
  | backcmd (cmd : Cmd ω)
  deriving DecidableEq, Repr

def Cmd.map {ω ω' : Type} (f : ω → ω') : Cmd ω → Cmd ω'
  | .execcmd argv => .execcmd (argv.map f)
  | .redircmd cmd file mode fd => .redircmd (cmd.map f) (f file) mode fd
  | .pipecmd left right => .pipecmd (left.map f) (right.map f)
  | .listcmd left right => .listcmd (left.map f) (right.map f)
  | .backcmd cmd => .backcmd (cmd.map f)

section Line

variable (line : Str)

def skipSpace (s : ℕ) : Parse ℕ := skip line (· ∈ whitespace) line.length s

def skipWord (s : ℕ) : Parse ℕ :=
  skip line (fun c => c ∉ whitespace ∧ c ∉ symbols) line.length s

/-- The switch in gettoken(): its `ret` and the new `s`. -/
def scan (c : Byte) (s : ℕ) : Parse (Byte × ℕ) :=
  if c = 0 then pure (c, s)
  else if c = 124 ∨ c = 40 ∨ c = 41 ∨ c = 59 ∨ c = 38 ∨ c = 60 then pure (c, s + 1)
  else if c = 62 then do
    let d ← deref line (s + 1)
    if d = 62 then pure (43, s + 2) else pure (c, s + 1)
  else do
    let s ← skipWord line s
    pure (97, s)

/-- The result with `*q` and `*eq`. -/
def gettoken : Parse (Byte × Slice) := do
  let s ← get
  let q ← skipSpace line s
  let c ← deref line q
  let (ret, eq) ← scan line c q
  let s ← skipSpace line eq
  set s
  pure (ret, ⟨q, eq⟩)

def peek (toks : List Byte) : Parse Bool := do
  let s ← get
  let s ← skipSpace line s
  set s
  let c ← deref line s
  pure (c ≠ 0 ∧ c ∈ toks)

def parseredirs : ℕ → Cmd Slice → Parse (Cmd Slice)
  | 0, _ => throw .loop
  | k + 1, cmd => do
    if ← peek line [60, 62] then
      let (tok, _) ← gettoken line
      let (next, file) ← gettoken line
      if next ≠ 97 then throw (.exit "missing file for redirection")
      else if tok = 60 then parseredirs k (.redircmd cmd file O_RDONLY 0)
      else if tok = 62 then parseredirs k (.redircmd cmd file (O_WRONLY ||| O_CREATE) 1)
      else if tok = 43 then parseredirs k (.redircmd cmd file (O_WRONLY ||| O_CREATE) 1)
      else parseredirs k cmd
    else pure cmd

/-- parseexec() stores an argument in the execcmd that `ret` may have been wrapped around. -/
def addArg {ω : Type} : Cmd ω → ω → Cmd ω
  | .execcmd argv, arg => .execcmd (argv ++ [arg])
  | .redircmd cmd file mode fd, arg => .redircmd (addArg cmd arg) file mode fd
  | cmd, _ => cmd

/-- The loop of parseexec(). -/
def parseargs : ℕ → ℕ → Cmd Slice → Parse (Cmd Slice)
  | 0, _, _ => throw .loop
  | k + 1, argc, ret => do
    if ← peek line [124, 41, 38, 59] then pure ret
    else
      let (tok, arg) ← gettoken line
      if tok = 0 then pure ret
      else if tok ≠ 97 then throw (.exit "syntax")
      else if MAXARGS ≤ argc + 1 then throw (.exit "too many args")
      else
        let ret ← parseredirs line (line.length + 1) (addArg ret arg)
        parseargs k (argc + 1) ret

/-- The functions below are given the parseline() that they call. -/
def parseblock (parseline : Parse (Cmd Slice)) : Parse (Cmd Slice) := do
  if ← peek line [40] then
    let _ ← gettoken line
    let cmd ← parseline
    if ← peek line [41] then
      let _ ← gettoken line
      parseredirs line (line.length + 1) cmd
    else throw (.exit "syntax - missing )")
  else throw (.exit "parseblock")

def parseexec (parseline : Parse (Cmd Slice)) : Parse (Cmd Slice) := do
  if ← peek line [40] then parseblock line parseline
  else
    let ret ← parseredirs line (line.length + 1) (.execcmd [])
    parseargs line (line.length + 1) 0 ret

def parsepipe (parseline : Parse (Cmd Slice)) : ℕ → Parse (Cmd Slice)
  | 0 => throw .loop
  | k + 1 => do
    let cmd ← parseexec line parseline
    if ← peek line [124] then
      let _ ← gettoken line
      let rest ← parsepipe parseline k
      pure (.pipecmd cmd rest)
    else pure cmd

/-- The loop of parseline(). -/
def parsebacks : ℕ → Cmd Slice → Parse (Cmd Slice)
  | 0, _ => throw .loop
  | k + 1, cmd => do
    if ← peek line [38] then
      let _ ← gettoken line
      parsebacks k (.backcmd cmd)
    else pure cmd

def parseline : ℕ → Parse (Cmd Slice)
  | 0 => throw .loop
  | k + 1 => do
    let cmd ← parsepipe line (parseline k) (line.length + 1)
    let cmd ← parsebacks line (line.length + 1) cmd
    if ← peek line [59] then
      let _ ← gettoken line
      let rest ← parseline k
      pure (.listcmd cmd rest)
    else pure cmd

end Line

/-- `*s = 0` in the buffer of the line. -/
def zero (s : ℕ) : Code Stop (List Byte) Unit := fun buf =>
  if s < buf.length then .ok ((), buf.set s 0) else .error .outside

def zeroAll : List Slice → Code Stop (List Byte) Unit
  | [] => pure ()
  | arg :: argv => do
    zero arg.stop
    zeroAll argv

def nulterminate : Cmd Slice → Code Stop (List Byte) Unit
  | .execcmd argv => zeroAll argv
  | .redircmd cmd file _ _ => do
    nulterminate cmd
    zero file.stop
  | .pipecmd left right => do
    nulterminate left
    nulterminate right
  | .listcmd left right => do
    nulterminate left
    nulterminate right
  | .backcmd cmd => nulterminate cmd

/-- The tree and what is left in the buffer. -/
def parsecmd (line : Str) : Except Stop (Cmd Slice × List Byte) := do
  let (cmd, _) ← (do
    let cmd ← parseline line (line.length + 1)
    let _ ← peek line []
    let s ← get
    if s ≠ line.length then throw (.leftovers (line.drop s)) else pure cmd : Parse (Cmd Slice)) 0
  let (_, buf) ← nulterminate cmd (line ++ [0])
  pure (cmd, buf)

/-- The C string at an offset of a buffer. -/
def cstring (buf : List Byte) (s : ℕ) : Str := (buf.drop s).takeWhile (· ≠ 0)

end ShParser
