import OsEngineering.KernelParams
import OsEngineering.TransitionSystem
import Mathlib.Data.List.FinRange
import Mathlib.Logic.Function.Basic

/-! fork(), exit(), wait() and kill() of proc.c over the process table. Each section under
ptable.lock is one event, and so is each step of fork() outside it. -/
namespace ProcessTable

open KernelParams TransitionSystem

abbrev Slot := Fin NPROC
abbrev Pid := BitVec 32

instance : NeZero NPROC := ⟨by decide⟩

/-- The slot userinit() takes. -/
def initproc : Slot := 0

inductive ProcState where
  | unused
  | embryo
  | sleeping
  | runnable
  | running
  | zombie
  deriving DecidableEq

/-- wait() sleeps on the address of a slot; other calls sleep elsewhere. -/
inductive Chan where
  | proc (i : Slot)
  | other (addr : ℕ)
  deriving DecidableEq

/-- `birth` numbers the calls of allocproc() that found the slot; it is history, as is the
number that stands for the pages allocated then. -/
structure Proc where
  state : ProcState
  pid : Pid
  parent : Option Slot
  chan : Option Chan
  killed : Bool
  kstack : Option ℕ
  pgdir : Option ℕ
  birth : ℕ

/-- What fork() does next to the slot from allocproc(). -/
inductive ForkPoint where
  | kalloc
  | copyuvm
  | setParent
  | setRunnable
  deriving DecidableEq

inductive Control where
  | user
  | wait
  | fork (np : Slot) (point : ForkPoint)
  deriving DecidableEq

/-- `ret` is what the last call of each process returned. The last five fields are history:
whether kill() was called with the pid of a slot since allocproc() set it, and the births
that exited, that wait() returned and whose pages were freed. -/
structure State where
  proc : Slot → Proc
  control : Slot → Control
  nextpid : Pid
  births : ℕ
  ret : Slot → Pid
  called : Slot → Bool
  exited : List ℕ
  reaped : List ℕ
  freedStacks : List ℕ
  freedPgdirs : List ℕ

/-- After userinit(). -/
def boot : State where
  proc i :=
    if i = initproc then ⟨.runnable, 1, none, none, false, some 0, some 0, 0⟩
    else ⟨.unused, 0, none, none, false, none, none, 0⟩
  control _ := .user
  nextpid := 2
  births := 1
  ret _ := 0
  called _ := false
  exited := []
  reaped := []
  freedStacks := []
  freedPgdirs := []

namespace State

def setProc (s : State) (i : Slot) (p : Proc) : State :=
  { s with proc := Function.update s.proc i p }

def move (s : State) (i : Slot) (c : Control) : State :=
  { s with control := Function.update s.control i c }

def finish (s : State) (i : Slot) (r : Pid) : State :=
  { s.move i .user with ret := Function.update s.ret i r }

def setState (s : State) (i : Slot) (st : ProcState) : State :=
  s.setProc i { s.proc i with state := st }

end State

/-- The first slot of a scan of the table. -/
def scan (found : Slot → Bool) : Option Slot := (List.finRange NPROC).find? found

def wake (chan : Option Chan) (p : Proc) : Proc :=
  if p.state = .sleeping ∧ p.chan = chan then { p with state := .runnable } else p

def wakeup1 (s : State) (chan : Option Chan) : State :=
  { s with proc := fun i => wake chan (s.proc i) }

/-! fork(). -/

/-- The locked part of allocproc(). -/
def allocproc (s : State) (p : Slot) : State :=
  match scan fun i => (s.proc i).state = .unused with
  | none => s.finish p (-1)
  | some np =>
    { (s.setProc np { s.proc np with state := .embryo, pid := s.nextpid, birth := s.births }).move
        p (.fork np .kalloc) with
      nextpid := s.nextpid + 1
      births := s.births + 1
      called := Function.update s.called np false }

def allocKstack (s : State) (p np : Slot) (ok : Bool) : State :=
  if ok then
    (s.setProc np { s.proc np with kstack := some (s.proc np).birth }).move p (.fork np .copyuvm)
  else
    (s.setProc np { s.proc np with kstack := none, state := .unused }).finish p (-1)

def freeStack (s : State) (i : Slot) : State :=
  { s.setProc i { s.proc i with kstack := none } with
    freedStacks := s.freedStacks ++ (s.proc i).kstack.toList }

def copyPgdir (s : State) (p np : Slot) (ok : Bool) : State :=
  if ok then
    (s.setProc np { s.proc np with pgdir := some (s.proc np).birth }).move p (.fork np .setParent)
  else
    let s := freeStack (s.setProc np { s.proc np with pgdir := none }) np
    (s.setState np .unused).finish p (-1)

def setParent (s : State) (p np : Slot) : State :=
  (s.setProc np { s.proc np with parent := some p }).move p (.fork np .setRunnable)

def setRunnable (s : State) (p np : Slot) : State :=
  (s.setState np .runnable).finish p (s.proc np).pid

/-! exit(), from where it takes ptable.lock. -/

def adopt (p : Slot) (s : State) (i : Slot) : State :=
  if (s.proc i).parent = some p then
    let s := s.setProc i { s.proc i with parent := some initproc }
    if (s.proc i).state = .zombie then wakeup1 s (some (.proc initproc)) else s
  else s

def abandon (s : State) (p : Slot) : State := (List.finRange NPROC).foldl (adopt p) s

def exit (s : State) (p : Slot) : State :=
  let s := wakeup1 s ((s.proc p).parent.map .proc)
  let s := abandon s p
  { s.setState p .zombie with exited := s.exited ++ [(s.proc p).birth] }

/-! wait(). -/

def reap (s : State) (i : Slot) : State :=
  let s := freeStack s i
  let s := { s with freedPgdirs := s.freedPgdirs ++ (s.proc i).pgdir.toList }
  { s.setProc i { s.proc i with pid := 0, parent := none, killed := false, state := .unused } with
    reaped := s.reaped ++ [(s.proc i).birth] }

/-- One pass of the loop of wait(), to its return or its sleep. -/
def wait (s : State) (p : Slot) : State :=
  match scan fun i => (s.proc i).parent = some p ∧ (s.proc i).state = .zombie with
  | some i => (reap s i).finish p (s.proc i).pid
  | none =>
    if (∀ i, (s.proc i).parent ≠ some p) ∨ (s.proc p).killed = true then s.finish p (-1)
    else (s.setProc p { s.proc p with chan := some (.proc p), state := .sleeping }).move p .wait

def hit (p : Proc) : Proc :=
  { p with killed := true, state := if p.state = .sleeping then .runnable else p.state }

/-- kill() called by `p`. -/
def kill (s : State) (p : Slot) (pid : Pid) : State :=
  let s := { s with called := fun i => s.called i || decide ((s.proc i).pid = pid) }
  match scan fun i => (s.proc i).pid = pid with
  | some i => (s.setProc i (hit (s.proc i))).finish p 0
  | none => s.finish p (-1)

/-- The scheduler runs `p`; a process that slept clears its channel, and one in wait() goes
on with its loop while ptable.lock is still held. -/
def schedule (s : State) (p : Slot) : State :=
  let s := s.setProc p { s.proc p with state := .running, chan := none }
  if s.control p = .wait then wait s p else s

def sleep (s : State) (p : Slot) (addr : ℕ) : State :=
  s.setProc p { s.proc p with chan := some (.other addr), state := .sleeping }

inductive Event where
  | allocproc (p : Slot)
  | kalloc (p np : Slot) (ok : Bool)
  | copyuvm (p np : Slot) (ok : Bool)
  | setParent (p np : Slot)
  | setRunnable (p np : Slot)
  | exit (p : Slot)
  | wait (p : Slot)
  | kill (p : Slot) (pid : Pid)
  | schedule (p : Slot)
  | yield (p : Slot)
  | sleep (p : Slot) (addr : ℕ)
  | wakeup (addr : ℕ)
  deriving DecidableEq

def Enabled (s : State) : Event → Prop
  | .allocproc p | .wait p | .kill p _ | .sleep p _ =>
    (s.proc p).state = .running ∧ s.control p = .user
  | .exit p => (s.proc p).state = .running ∧ s.control p = .user ∧ p ≠ initproc
  | .kalloc p np _ => (s.proc p).state = .running ∧ s.control p = .fork np .kalloc
  | .copyuvm p np _ => (s.proc p).state = .running ∧ s.control p = .fork np .copyuvm
  | .setParent p np => (s.proc p).state = .running ∧ s.control p = .fork np .setParent
  | .setRunnable p np => (s.proc p).state = .running ∧ s.control p = .fork np .setRunnable
  | .schedule p => (s.proc p).state = .runnable
  | .yield p => (s.proc p).state = .running
  | .wakeup _ => True

instance (s : State) (e : Event) : Decidable (Enabled s e) := by
  cases e <;> unfold Enabled <;> infer_instance

def next (s : State) : Event → State
  | .allocproc p => allocproc s p
  | .kalloc p np ok => allocKstack s p np ok
  | .copyuvm p np ok => copyPgdir s p np ok
  | .setParent p np => setParent s p np
  | .setRunnable p np => setRunnable s p np
  | .exit p => exit s p
  | .wait p => wait s p
  | .kill p pid => kill s p pid
  | .schedule p => schedule s p
  | .yield p => s.setState p .runnable
  | .sleep p addr => sleep s p addr
  | .wakeup addr => wakeup1 s (some (.other addr))

def machine : Machine State Event := ⟨Enabled, next⟩

instance (s : State) (e : Event) : Decidable (machine.enabled s e) :=
  inferInstanceAs (Decidable (Enabled s e))

abbrev Reaches (es : List Event) (s : State) : Prop := Run machine.Step (· = boot) es s

end ProcessTable
