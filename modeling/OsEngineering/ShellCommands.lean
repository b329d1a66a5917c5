import OsEngineering.ByteBlock

/-! The command trees of the shell in hw02-shell/sh.c. -/
namespace ShellCommands

open ByteBlock

/-- A string without its terminating zero. -/
abbrev Str := List Byte

def MAXARGS : ℕ := 10

/-- The type of a redircmd, `<` or `>`. -/
inductive Redirection where
  | input
  | output
  deriving DecidableEq, Repr

/-- What open() gets as its flags: O_RDONLY, or O_WRONLY with O_CREAT and O_TRUNC. -/
inductive Flags where
  | read
  | truncate
  deriving DecidableEq, Repr

def Redirection.flags : Redirection → Flags
  | .input => .read
  | .output => .truncate

def Redirection.fd : Redirection → ℕ
  | .input => 0
  | .output => 1

/-- redircmd() sets `flags` and `fd` from the type. -/
inductive Cmd where
  | execcmd (argv : List Str)
  | redircmd (cmd : Cmd) (file : Str) (type : Redirection)
  | pipecmd (left right : Cmd)
  deriving DecidableEq, Repr

end ShellCommands
