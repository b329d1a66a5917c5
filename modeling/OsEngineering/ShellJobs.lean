import OsEngineering.ShParser
import OsEngineering.TransitionSystem
import Mathlib.Logic.Function.Basic

/-! The processes of xv6's sh.c: main() and its children in runcmd(). They take their steps in
any order, their system calls may fail, and any of them may be killed. -/
namespace ShellJobs

open ShParser TransitionSystem
open ShellCommands (Str)

/-- Where a command is in the one around it. The lines that main() reads are a list, too. -/
inductive Turn where
  | sub
  | first
  | next
  | left
  | right
  | back
  deriving DecidableEq, Repr

/-- The place of a command, its last turn first. -/
abbrev Path := List Turn

/-- Where a process is. It still has to wait() in `join`, and `waits` times in `waits`; the list
of main() goes on at the next prompt. -/
inductive Control where
  | prompt
  | parse (buf : Str)
  | runcmd (cmd : Cmd Str)
  | join (right : Option (Cmd Str))
  | fork2 (right : Cmd Str)
  | waits (n : ℕ)
  | program (argv : List Str)
  deriving DecidableEq

inductive Life where
  | alive
  | zombie
  | gone
  deriving DecidableEq, Repr

/-- `origin` and `path` are history: the commands a process has begun and got to. Without a
parent it is a child of init. -/
structure Process where
  parent : Option ℕ
  origin : Path
  path : Path
  control : Control
  life : Life

/-- `lines` is history, the last line first. -/
structure State where
  proc : ℕ → Process
  count : ℕ
  lines : List Str

inductive Event where
  | line (buf : Str) (ok : Bool)
  | eof
  | step (p : ℕ) (ok : Bool)
  | finish (p : ℕ)
  | reap (p q : ℕ)
  | childless (p : ℕ)
  | adopt (q : ℕ)
  | kill (p : ℕ)
  deriving DecidableEq

def cd : Str := [99, 100, 32]

/-- What parsecmd() returns; it panics on other lines. -/
def tree (buf : Str) : Option (Cmd Str) :=
  match parsecmd buf with
  | .ok (cmd, buf) => some (cmd.map fun q => cstring buf q.start)
  | .error _ => none

namespace State

variable (s : State)

def Alive (p : ℕ) : Prop := p < s.count ∧ (s.proc p).life = .alive

/-- A process that wait() has not returned yet. -/
def Unreaped (q : ℕ) : Prop := q < s.count ∧ (s.proc q).life ≠ .gone

instance (p : ℕ) : Decidable (s.Alive p) := inferInstanceAs (Decidable (_ ∧ _))

instance (q : ℕ) : Decidable (s.Unreaped q) := inferInstanceAs (Decidable (_ ∧ _))

def set (p : ℕ) (x : Process) : State := { s with proc := Function.update s.proc p x }

/-- The process goes on with `k` at the place `path`. -/
def advance (p : ℕ) (path : Path) (k : Control) : State :=
  s.set p { s.proc p with path, control := k }

def fork (p : ℕ) (turn : Turn) (child k : Control) : State :=
  let path := turn :: (s.proc p).path
  { (s.advance p (s.proc p).path k).set s.count ⟨some p, path, path, child, .alive⟩ with
    count := s.count + 1 }

/-- The children go to init. -/
def exit (p : ℕ) : State :=
  { s with proc := fun q =>
      if q = p then { s.proc p with life := .zombie }
      else if (s.proc q).parent = some p then { s.proc q with parent := none }
      else s.proc q }

def bury (q : ℕ) : State := s.set q { s.proc q with life := .gone }

/-- The switch of runcmd(). Each branch ends in exit(), and so does panic(). -/
def runcmd (p : ℕ) (ok : Bool) : Cmd Str → State
  | .execcmd [] => s.exit p
  | .execcmd (arg :: args) =>
    if ok then s.advance p (s.proc p).path (.program (arg :: args)) else s.exit p
  | .redircmd cmd _ _ _ =>
    if ok then s.advance p (.sub :: (s.proc p).path) (.runcmd cmd) else s.exit p
  | .listcmd left right =>
    if ok then s.fork p .first (.runcmd left) (.join (some right)) else s.exit p
  | .pipecmd left right => if ok then s.fork p .left (.runcmd left) (.fork2 right) else s.exit p
  | .backcmd cmd => if ok then s.fork p .back (.runcmd cmd) (.waits 0) else s.exit p

/-- What follows a wait(). -/
def wake (p : ℕ) : State :=
  let path := (s.proc p).path
  match (s.proc p).control with
  | .join (some right) => s.advance p (.next :: path) (.runcmd right)
  | .join none => s.advance p (.next :: path) .prompt
  | .waits (n + 1) => s.advance p path (.waits n)
  | _ => s

end State

namespace Control

def Steps : Control → Bool
  | .parse _ | .runcmd _ | .fork2 _ => true
  | _ => false

def Waiting : Control → Bool
  | .join _ | .waits (_ + 1) => true
  | _ => false

def Ends : Control → Bool
  | .program _ | .waits 0 => true
  | _ => false

end Control

def Enabled (s : State) : Event → Prop
  | .line _ _ | .eof => s.Alive 0 ∧ (s.proc 0).control = .prompt
  | .step p _ => s.Alive p ∧ (s.proc p).control.Steps
  | .finish p => s.Alive p ∧ (s.proc p).control.Ends
  | .reap p q => s.Alive p ∧ (s.proc p).control.Waiting ∧ q < s.count ∧
      (s.proc q).life = .zombie ∧ (s.proc q).parent = some p
  | .childless p => s.Alive p ∧ (s.proc p).control.Waiting ∧
      ∀ q < s.count, (s.proc q).parent = some p → (s.proc q).life = .gone
  | .adopt q => q < s.count ∧ (s.proc q).life = .zombie ∧ (s.proc q).parent = none
  | .kill p => s.Alive p

def next (s : State) : Event → State
  | .line buf ok =>
    if cd <+: buf then s
    else if ok then { s.fork 0 .first (.parse buf) (.join none) with lines := buf :: s.lines }
    else s.exit 0
  | .eof => s.exit 0
  | .step p ok =>
    match (s.proc p).control with
    | .parse buf =>
      match tree buf with
      | some cmd => s.advance p (s.proc p).path (.runcmd cmd)
      | none => s.exit p
    | .runcmd cmd => s.runcmd p ok cmd
    | .fork2 right => if ok then s.fork p .right (.runcmd right) (.waits 2) else s.exit p
    | _ => s
  | .finish p | .kill p => s.exit p
  | .reap p q => (s.bury q).wake p
  | .childless p => s.wake p
  | .adopt q => s.bury q

def machine : Machine State Event := ⟨Enabled, next⟩

instance (s : State) (e : Event) : Decidable (machine.enabled s e) := by
  change Decidable (Enabled s e)
  cases e <;> unfold Enabled <;> infer_instance

/-- Process 0 is in main(). -/
def boot : State where
  proc p := ⟨none, [], [], .prompt, if p = 0 then .alive else .gone⟩
  count := 1
  lines := []

namespace State

variable {s : State} {p q r : ℕ}

/-! How the fields change. -/

@[simp] theorem set_proc (p : ℕ) (x : Process) :
    (s.set p x).proc = Function.update s.proc p x := rfl

@[simp] theorem set_count (p : ℕ) (x : Process) : (s.set p x).count = s.count := rfl

variable {x : Path} {k : Control}

@[simp] theorem advance_count : (s.advance p x k).count = s.count := rfl

@[simp] theorem advance_lines : (s.advance p x k).lines = s.lines := rfl

@[simp] theorem exit_count : (s.exit p).count = s.count := rfl

@[simp] theorem exit_lines : (s.exit p).lines = s.lines := rfl

@[simp] theorem bury_count : (s.bury p).count = s.count := rfl

@[simp] theorem bury_lines : (s.bury p).lines = s.lines := rfl

theorem advance_self : (s.advance p x k).proc p = { s.proc p with path := x, control := k } := by
  simp [advance]

theorem advance_of_ne (h : q ≠ p) : (s.advance p x k).proc q = s.proc q := by
  simp [advance, h]

theorem bury_self : (s.bury q).proc q = { s.proc q with life := .gone } := by
  simp [bury]

theorem bury_of_ne (h : p ≠ q) : (s.bury q).proc p = s.proc p := by
  simp [bury, h]

theorem advance_same (p q : ℕ) : ((s.advance p x k).proc q).life = (s.proc q).life ∧
    ((s.advance p x k).proc q).parent = (s.proc q).parent ∧
    ((s.advance p x k).proc q).origin = (s.proc q).origin := by
  rcases eq_or_ne q p with rfl | h
  · simp [advance_self]
  · simp [advance_of_ne h]

theorem alive_advance : (s.advance p x k).Alive q ↔ s.Alive q := by
  simp [Alive, advance_same]

theorem unreaped_advance : (s.advance p x k).Unreaped q ↔ s.Unreaped q := by
  simp [Unreaped, advance_same]

/-- wait() of init or of the parent takes a process away, and nothing else. -/
theorem bury_same (q r : ℕ) : ((s.bury q).proc r).parent = (s.proc r).parent ∧
    ((s.bury q).proc r).origin = (s.proc r).origin ∧
    ((s.bury q).proc r).path = (s.proc r).path ∧
    ((s.bury q).proc r).control = (s.proc r).control := by
  rcases eq_or_ne r q with rfl | h
  · simp [bury_self]
  · simp [bury_of_ne h]

theorem alive_bury (h : (s.proc q).life = .zombie) : (s.bury q).Alive r ↔ s.Alive r := by
  rcases eq_or_ne r q with rfl | hne
  · simp [Alive, bury_self, h]
  · simp [Alive, bury_of_ne hne]

theorem unreaped_bury : (s.bury q).Unreaped r ↔ s.Unreaped r ∧ r ≠ q := by
  rcases eq_or_ne r q with rfl | h
  · simp [Unreaped, bury_self]
  · simp [Unreaped, bury_of_ne h, h]

/-! fork() -/

variable {turn : Turn} {c : Control}

theorem fork_count : (s.fork p turn c k).count = s.count + 1 := rfl

theorem fork_child : (s.fork p turn c k).proc s.count =
    ⟨some p, turn :: (s.proc p).path, turn :: (s.proc p).path, c, .alive⟩ := by
  simp [fork]

theorem fork_self (h : p < s.count) :
    (s.fork p turn c k).proc p = { s.proc p with control := k } := by
  simp [fork, advance, h.ne]

theorem fork_of_ne (h : q ≠ p) (hq : q < s.count) :
    (s.fork p turn c k).proc q = s.proc q := by
  simp [fork, advance, h, hq.ne]

theorem lt_fork_count : q < (s.fork p turn c k).count ↔ q < s.count ∨ q = s.count := by
  rw [fork_count]
  omega

theorem fork_old (hq : q < s.count) : ((s.fork p turn c k).proc q).life = (s.proc q).life ∧
    ((s.fork p turn c k).proc q).parent = (s.proc q).parent ∧
    ((s.fork p turn c k).proc q).origin = (s.proc q).origin ∧
    ((s.fork p turn c k).proc q).path = (s.proc q).path := by
  rcases eq_or_ne q p with rfl | h
  · simp [fork_self hq]
  · simp [fork_of_ne h hq]

theorem alive_fork (hq : q < s.count) : (s.fork p turn c k).Alive q ↔ s.Alive q := by
  simp [Alive, lt_fork_count, fork_old hq, hq]

theorem unreaped_fork (hq : q < s.count) : (s.fork p turn c k).Unreaped q ↔ s.Unreaped q := by
  simp [Unreaped, lt_fork_count, fork_old hq, hq]

/-! exit() -/

theorem exit_self : (s.exit p).proc p = { s.proc p with life := .zombie } := by
  simp [exit]

theorem exit_of_ne (h : q ≠ p) : (s.exit p).proc q =
    { s.proc q with parent := if (s.proc q).parent = some p then none else (s.proc q).parent } := by
  simp only [exit, if_neg h]
  split <;> rfl

/-- exit() moves nothing but lives and parents. -/
theorem exit_same (p q : ℕ) : ((s.exit p).proc q).origin = (s.proc q).origin ∧
    ((s.exit p).proc q).path = (s.proc q).path ∧
    ((s.exit p).proc q).control = (s.proc q).control := by
  rcases eq_or_ne q p with rfl | h
  · simp [exit_self]
  · simp [exit_of_ne h]

theorem alive_exit : (s.exit p).Alive q ↔ s.Alive q ∧ q ≠ p := by
  rcases eq_or_ne q p with rfl | h
  · simp [Alive, exit_self]
  · simp [Alive, exit_of_ne h, h]

theorem unreaped_exit (hp : s.Alive p) : (s.exit p).Unreaped q ↔ s.Unreaped q := by
  rcases eq_or_ne q p with rfl | h
  · simp [Unreaped, exit_self, hp.2]
  · simp [Unreaped, exit_of_ne h]

end State

end ShellJobs
