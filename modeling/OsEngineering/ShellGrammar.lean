import OsEngineering.ShellParser

/-! What lines of the shell mean: the tokens of a line, the derivations over them and their
command trees. -/
namespace ShellGrammar

open ByteBlock ShellCommands ShellParser

inductive Token where
  | word (w : Str)
  | symbol (c : Byte)
  deriving DecidableEq, Repr

def WordChar (c : Byte) : Prop := c ∉ whitespace ∧ c ∉ symbols

instance (c : Byte) : Decidable (WordChar c) := inferInstanceAs (Decidable (_ ∧ _))

/-- Words are as long as they can be. -/
inductive Tokens : Str → List Token → Prop where
  | nil : Tokens [] []
  | space {c : Byte} {s : Str} {ts : List Token} (hc : c ∈ whitespace) (h : Tokens s ts) :
    Tokens (c :: s) ts
  | symbol {c : Byte} {s : Str} {ts : List Token} (hc : c ∈ symbols) (h : Tokens s ts) :
    Tokens (c :: s) (.symbol c :: ts)
  | word {w s : Str} {ts : List Token} (hne : w ≠ []) (hw : ∀ c ∈ w, WordChar c)
    (hs : ∀ c ∈ s.head?, ¬ WordChar c) (h : Tokens s ts) : Tokens (w ++ s) (.word w :: ts)

/-! Derivations, with the tokens and the tree of each. -/

def symbolOf : Redirection → Byte
  | .input => 60
  | .output => 62

/-- redir ::= ('<' | '>') word -/
structure Redir where
  type : Redirection
  file : Str

/-- word redir* -/
structure Arg where
  word : Str
  redirs : List Redir

/-- exec ::= redir* (word redir*)* -/
structure Exec where
  redirs : List Redir
  args : List Arg

/-- pipe ::= exec ['|' pipe] -/
inductive Pipe where
  | exec (e : Exec)
  | pipe (e : Exec) (rest : Pipe)

def Redir.tokens (r : Redir) : List Token := [.symbol (symbolOf r.type), .word r.file]

def redirTokens (rs : List Redir) : List Token := rs.flatMap Redir.tokens

def Arg.tokens (a : Arg) : List Token := .word a.word :: redirTokens a.redirs

def Exec.tokens (e : Exec) : List Token := redirTokens e.redirs ++ e.args.flatMap Arg.tokens

def Pipe.tokens : Pipe → List Token
  | .exec e => e.tokens
  | .pipe e rest => e.tokens ++ .symbol 124 :: rest.tokens

/-- The first redirection is next to the command, the last one outermost. -/
def wrap (cmd : Cmd) (rs : List Redir) : Cmd :=
  rs.foldl (fun cmd r => .redircmd cmd r.file r.type) cmd

def Exec.cmd (e : Exec) : Cmd :=
  wrap (.execcmd (e.args.map Arg.word)) (e.redirs ++ e.args.flatMap Arg.redirs)

def Pipe.cmd : Pipe → Cmd
  | .exec e => e.cmd
  | .pipe e rest => .pipecmd e.cmd rest.cmd

/-- Each argv has room for its words and a null. -/
def Pipe.Fits : Pipe → Prop
  | .exec e => e.args.length < MAXARGS
  | .pipe e rest => e.args.length < MAXARGS ∧ rest.Fits

end ShellGrammar
