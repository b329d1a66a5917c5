import OsEngineering.ShParser

/-! What lines of sh.c mean: their tokens, the derivations over them and the trees of these. -/
namespace ShGrammar

open ByteBlock ShParser
open ShellCommands (Str MAXARGS)
open ShellParser (whitespace)

/-- The symbol of `>>` is 43, as gettoken() has it. -/
inductive Token where
  | word (w : Str)
  | symbol (c : Byte)
  deriving DecidableEq, Repr

def WordChar (c : Byte) : Prop := c ∉ whitespace ∧ c ∉ symbols

instance (c : Byte) : Decidable (WordChar c) := inferInstanceAs (Decidable (_ ∧ _))

/-- Words and `>>` are as long as they can be. -/
inductive Tokens : Str → List Token → Prop where
  | nil : Tokens [] []
  | space {c : Byte} {s : Str} {ts : List Token} (hc : c ∈ whitespace) (h : Tokens s ts) :
    Tokens (c :: s) ts
  | symbol {c : Byte} {s : Str} {ts : List Token} (hc : c ∈ symbols)
    (hs : c = 62 → s.head? ≠ some 62) (h : Tokens s ts) : Tokens (c :: s) (.symbol c :: ts)
  | append {s : Str} {ts : List Token} (h : Tokens s ts) :
    Tokens (62 :: 62 :: s) (.symbol 43 :: ts)
  | word {w s : Str} {ts : List Token} (hne : w ≠ []) (hw : ∀ c ∈ w, WordChar c)
    (hs : ∀ c ∈ s.head?, ¬ WordChar c) (h : Tokens s ts) : Tokens (w ++ s) (.word w :: ts)

/-! Derivations, with the tokens and the tree of each. -/

inductive Op where
  | read
  | write
  | append
  deriving DecidableEq, Repr

def Op.symbol : Op → Byte
  | .read => 60
  | .write => 62
  | .append => 43

def Op.mode : Op → ℕ
  | .read => O_RDONLY
  | .write => O_WRONLY ||| O_CREATE
  | .append => O_WRONLY ||| O_CREATE

def Op.fd : Op → ℕ
  | .read => 0
  | .write => 1
  | .append => 1

/-- redir ::= ('<' | '>' | '>>') word -/
structure Redir where
  op : Op
  file : Str

/-- word redir* -/
structure Arg where
  word : Str
  redirs : List Redir

mutual

/-- line ::= pipe '&'* [';' line] -/
inductive Line where
  | last (p : Pipe) (backs : ℕ)
  | list (p : Pipe) (backs : ℕ) (rest : Line)

/-- pipe ::= exec ['|' pipe] -/
inductive Pipe where
  | last (e : Exec)
  | pipe (e : Exec) (rest : Pipe)

/-- exec ::= '(' line ')' redir* | redir* (word redir*)* -/
inductive Exec where
  | block (l : Line) (redirs : List Redir)
  | words (redirs : List Redir) (args : List Arg)

end

def Redir.tokens (r : Redir) : List Token := [.symbol r.op.symbol, .word r.file]

def redirTokens (rs : List Redir) : List Token := rs.flatMap Redir.tokens

def Arg.tokens (a : Arg) : List Token := .word a.word :: redirTokens a.redirs

def argTokens (args : List Arg) : List Token := args.flatMap Arg.tokens

def backTokens (n : ℕ) : List Token := List.replicate n (.symbol 38)

mutual

def Line.tokens : Line → List Token
  | .last p n => p.tokens ++ backTokens n
  | .list p n rest => p.tokens ++ (backTokens n ++ .symbol 59 :: rest.tokens)

def Pipe.tokens : Pipe → List Token
  | .last e => e.tokens
  | .pipe e rest => e.tokens ++ .symbol 124 :: rest.tokens

def Exec.tokens : Exec → List Token
  | .block l rs => .symbol 40 :: (l.tokens ++ .symbol 41 :: redirTokens rs)
  | .words rs args => redirTokens rs ++ argTokens args

end

/-- The first redirection is next to the command, the last one outermost. -/
def wrap (cmd : Cmd Str) (rs : List Redir) : Cmd Str :=
  rs.foldl (fun cmd r => .redircmd cmd r.file r.op.mode r.op.fd) cmd

def backs (n : ℕ) (cmd : Cmd Str) : Cmd Str := Nat.iterate Cmd.backcmd n cmd

mutual

def Line.cmd : Line → Cmd Str
  | .last p n => backs n p.cmd
  | .list p n rest => .listcmd (backs n p.cmd) rest.cmd

def Pipe.cmd : Pipe → Cmd Str
  | .last e => e.cmd
  | .pipe e rest => .pipecmd e.cmd rest.cmd

def Exec.cmd : Exec → Cmd Str
  | .block l rs => wrap l.cmd rs
  | .words rs args =>
    wrap (.execcmd (args.map Arg.word)) (rs ++ args.flatMap Arg.redirs)

end

/-! Each argv has room for its words and a null. -/

mutual

def Line.Fits : Line → Prop
  | .last p _ => p.Fits
  | .list p _ rest => p.Fits ∧ rest.Fits

def Pipe.Fits : Pipe → Prop
  | .last e => e.Fits
  | .pipe e rest => e.Fits ∧ rest.Fits

def Exec.Fits : Exec → Prop
  | .block l _ => l.Fits
  | .words _ args => args.length < MAXARGS

end

end ShGrammar
