import OsEngineering.TransitionSystem
import Mathlib.Logic.Function.Basic
import Mathlib.Data.Nat.Notation

/-! The spin locks of spinlock.c, instruction by instruction, on any CPUs. Interrupts come where
the flag allows them, and sched() takes a process from one CPU to another. -/
namespace Spinlocks

open TransitionSystem

/-- `FL_IF` is the flag in eflags. -/
structure Cpu where
  FL_IF : Bool
  ncli : ℤ
  intena : Bool
  deriving DecidableEq, Repr

structure Spinlock (κ : Type) where
  locked : Bool
  cpu : Option κ
  deriving DecidableEq, Repr

/-- pushcli(), once it has read `eflags`. -/
def Cpu.pushcli (c : Cpu) (eflags : Bool) : Cpu where
  FL_IF := false
  intena := if c.ncli = 0 then eflags else c.intena
  ncli := c.ncli + 1

def Cpu.popcli (c : Cpu) : Except String Cpu :=
  if c.FL_IF then .error "popcli - interruptible"
  else if c.ncli - 1 < 0 then .error "popcli"
  else .ok { c with
    ncli := c.ncli - 1
    FL_IF := decide (c.ncli - 1 = 0) && c.intena }

/-- Who calls holding(). -/
inductive Caller where
  | acquire
  | release
  | sched
  deriving DecidableEq, Repr

/-- Who calls pushcli(). -/
inductive Pusher (L : Type) where
  | code
  | acquire (l : L)
  | holding (op : Caller) (l : L)
  deriving DecidableEq

/-- The next instruction. `code` is all code outside spinlock.c and sched(). -/
inductive Point (L : Type) where
  | code
  /-- pushcli() has read `eflags` and is about to execute cli. -/
  | cli (eflags : Bool) (from_ : Pusher L)
  /-- holding() reads `locked`, and `cpu` if it is set. -/
  | readLocked (op : Caller) (l : L)
  | readCpu (op : Caller) (l : L)
  | xchg (l : L)
  | setCpu (l : L)
  | clearCpu (l : L)
  | unlock (l : L)
  | popcli
  /-- In swtch(), and back from it in sched(). -/
  | swtch
  | setIntena
  deriving DecidableEq

/-- What code has entered and not left. -/
inductive Section (L : Type) where
  | cli
  | lock (l : L)
  deriving DecidableEq

/-- The code of a thread, or of an interrupt on top of it. `sections` and `flag` are not in the
source: `flag` is the interrupt flag as the code itself has left it, outside of sections. -/
structure Activation (L : Type) where
  point : Point L
  sections : List (Section L)
  flag : Bool
  deriving DecidableEq

/-- `below` are the interrupted activations, with the eflags that iret restores. `intena` is the
local variable of sched(), if that has been called. -/
structure Context (L : Type) where
  top : Activation L
  below : List (Activation L × Bool)
  intena : Option Bool

/-- The scheduler of a CPU, or a process. -/
inductive Thread (κ π : Type) where
  | scheduler (c : κ)
  | process (p : π)
  deriving DecidableEq

structure State (κ π L : Type) where
  cpus : κ → Cpu
  locks : L → Spinlock κ
  running : κ → Thread κ π
  contexts : Thread κ π → Context L
  halted : Option String

section Code

variable {κ L : Type} [DecidableEq κ] [DecidableEq L]

/-- What holding() returns goes to its caller. -/
def held (cpu : Cpu) (a : Activation L) (op : Caller) (l : L) (r : Bool) :
    Except String (Cpu × Activation L) := do
  let cpu ← cpu.popcli
  match op with
  | .acquire => if r then throw "acquire" else pure (cpu, { a with point := .xchg l })
  | .release => if r then pure (cpu, { a with point := .clearCpu l }) else throw "release"
  | .sched =>
    if !r then throw "sched ptable.lock"
    else if cpu.ncli ≠ 1 then throw "sched locks"
    else if cpu.FL_IF then throw "sched interruptible"
    else pure (cpu, { a with point := .swtch })

/-- One instruction of the functions of spinlock.c, on the CPU `c`. -/
def instruction (c : κ) (cpu : Cpu) (locks : L → Spinlock κ) (a : Activation L) :
    Except String (Cpu × (L → Spinlock κ) × Activation L) :=
  match a.point with
  | .cli eflags from_ =>
    let cpu := cpu.pushcli eflags
    match from_ with
    | .code => .ok (cpu, locks, { a with point := .code, sections := .cli :: a.sections })
    -- holding() calls pushcli() again
    | .acquire l => .ok (cpu, locks, { a with point := .cli cpu.FL_IF (.holding .acquire l) })
    | .holding op l => .ok (cpu, locks, { a with point := .readLocked op l })
  | .readLocked op l =>
    if (locks l).locked then .ok (cpu, locks, { a with point := .readCpu op l })
    else (held cpu a op l false).map fun x => (x.1, locks, x.2)
  | .readCpu op l =>
    (held cpu a op l (decide ((locks l).cpu = some c))).map fun x => (x.1, locks, x.2)
  | .xchg l =>
    let old := (locks l).locked
    let locks := Function.update locks l { locks l with locked := true }
    .ok (cpu, locks, if old then a else { a with point := .setCpu l })
  | .setCpu l =>
    .ok (cpu, Function.update locks l { locks l with cpu := some c },
      { a with point := .code, sections := .lock l :: a.sections })
  | .clearCpu l =>
    .ok (cpu, Function.update locks l { locks l with cpu := none }, { a with point := .unlock l })
  | .unlock l =>
    .ok (cpu, Function.update locks l { locks l with locked := false },
      { a with point := .popcli, sections := a.sections.erase (.lock l) })
  | .popcli => cpu.popcli.map fun cpu => (cpu, locks, { a with point := .code })
  | .code | .swtch | .setIntena => .ok (cpu, locks, a)

end Code

/-- `sti` is that of scheduler(). -/
inductive Event (κ π L : Type) where
  | pushcli (c : κ)
  | popcli (c : κ)
  | acquire (c : κ) (l : L)
  | release (c : κ) (l : L)
  | sti (c : κ)
  | instruction (c : κ)
  | sched (c : κ)
  | toScheduler (c : κ)
  | toProcess (c : κ) (p : π)
  | restore (c : κ)
  | interrupt (c : κ)
  | iret (c : κ)

section Machine

variable {κ π L : Type} [DecidableEq κ] [DecidableEq π] [DecidableEq L]

namespace State

def top (s : State κ π L) (c : κ) : Activation L := (s.contexts (s.running c)).top

def setContext (s : State κ π L) (c : κ) (x : Context L) : State κ π L :=
  { s with contexts := Function.update s.contexts (s.running c) x }

def setTop (s : State κ π L) (c : κ) (a : Activation L) : State κ π L :=
  s.setContext c { s.contexts (s.running c) with top := a }

def goto (s : State κ π L) (c : κ) (x : Point L) : State κ π L :=
  s.setTop c { s.top c with point := x }

def setCpu (s : State κ π L) (c : κ) (cpu : Cpu) : State κ π L :=
  { s with cpus := Function.update s.cpus c cpu }

def panic (s : State κ π L) (msg : String) : State κ π L := { s with halted := some msg }

/-- swtch() to the thread `t`. -/
def switch (s : State κ π L) (c : κ) (t : Thread κ π) : State κ π L :=
  { s with running := Function.update s.running c t }

end State

/-- A thread that has been switched to. One that has called sched() will restore `intena`; any
other has to do with what it finds. -/
def arrive (cpu : Cpu) (x : Context L) : Context L :=
  match x.intena with
  | some _ => { x with top := { x.top with point := .setIntena } }
  | none => { x with top := { x.top with point := .code, flag := cpu.intena } }

def Enabled (s : State κ π L) (e : Event κ π L) : Prop :=
  s.halted = none ∧ match e with
  | .pushcli c | .popcli c | .acquire c _ | .release c _ | .sti c => (s.top c).point = .code
  | .instruction c => (s.top c).point ≠ .code ∧ (s.top c).point ≠ .swtch ∧
      (s.top c).point ≠ .setIntena
  | .sched c => (s.top c).point = .code ∧ s.running c ≠ .scheduler c
  | .toScheduler c => (s.top c).point = .swtch ∧ s.running c ≠ .scheduler c
  | .toProcess c p => (s.top c).point = .code ∧ s.running c = .scheduler c ∧
      (s.contexts (.process p)).top.point = .swtch ∧ ∀ c', s.running c' ≠ .process p
  | .restore c => (s.top c).point = .setIntena
  | .interrupt c => (s.cpus c).FL_IF = true
  | .iret c => (s.top c).point = .code ∧ (s.contexts (s.running c)).below ≠ []

instance {n : ℕ} (s : State (Fin n) π L) (e : Event (Fin n) π L) : Decidable (Enabled s e) := by
  cases e <;> unfold Enabled <;> infer_instance

variable (ptable : L)

def next (s : State κ π L) : Event κ π L → State κ π L
  | .pushcli c => s.goto c (.cli (s.cpus c).FL_IF .code)
  | .popcli c =>
    match (s.cpus c).popcli with
    | .error msg => s.panic msg
    | .ok cpu =>
      (s.setCpu c cpu).setTop c { s.top c with sections := (s.top c).sections.erase .cli }
  | .acquire c l => s.goto c (.cli (s.cpus c).FL_IF (.acquire l))
  | .release c l => s.goto c (.cli (s.cpus c).FL_IF (.holding .release l))
  | .sti c => (s.setCpu c { s.cpus c with FL_IF := true }).setTop c { s.top c with flag := true }
  | .instruction c =>
    match instruction c (s.cpus c) s.locks (s.top c) with
    | .error msg => s.panic msg
    | .ok (cpu, locks, a) => { (s.setCpu c cpu).setTop c a with locks := locks }
  | .sched c => s.goto c (.cli (s.cpus c).FL_IF (.holding .sched ptable))
  | .toScheduler c =>
    let s := s.setContext c { s.contexts (s.running c) with intena := some (s.cpus c).intena }
    let s := s.switch c (.scheduler c)
    s.setContext c (arrive (s.cpus c) (s.contexts (.scheduler c)))
  | .toProcess c p =>
    let s := (s.goto c .swtch).switch c (.process p)
    s.setContext c (arrive (s.cpus c) (s.contexts (.process p)))
  | .restore c =>
    match (s.contexts (s.running c)).intena with
    | some b => (s.setCpu c { s.cpus c with intena := b }).goto c .code
    | none => s
  | .interrupt c =>
    let x := s.contexts (s.running c)
    (s.setCpu c { s.cpus c with FL_IF := false }).setContext c { x with
      top := ⟨.code, [], false⟩
      below := (x.top, (s.cpus c).FL_IF) :: x.below }
  | .iret c =>
    match (s.contexts (s.running c)).below with
    | [] => s
    | (a, eflags) :: below =>
      (s.setCpu c { s.cpus c with FL_IF := eflags }).setContext c
        { s.contexts (s.running c) with top := a, below := below }

def machine : Machine (State κ π L) (Event κ π L) := ⟨Enabled, next ptable⟩

instance {n : ℕ} (s : State (Fin n) π L) (e : Event (Fin n) π L) :
    Decidable ((machine ptable).enabled s e) := inferInstanceAs (Decidable (Enabled s e))

/-- Each CPU begins with its scheduler(), and new processes are about to return from swtch()
into forkret(). -/
def boot : State κ π L where
  cpus _ := ⟨false, 0, false⟩
  locks _ := ⟨false, none⟩
  running := .scheduler
  contexts
    | .scheduler _ => ⟨⟨.code, [], false⟩, [], none⟩
    | .process _ => ⟨⟨.swtch, [.lock ptable], false⟩, [], none⟩
  halted := none

end Machine

end Spinlocks
