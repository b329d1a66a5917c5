import OsEngineering.TransitionSystem
import Mathlib.Logic.Function.Basic
import Mathlib.Data.Nat.Notation

/-! sleep() and wakeup() of proc.c, on any CPUs. Every lock operation ends an event, and a
CPU keeps ptable.lock while it goes from a process to its scheduler and on to the next. -/
namespace SleepWakeup

open TransitionSystem

inductive Lock (L : Type*) where
  | ptable
  | spin (l : L)
  deriving DecidableEq

inductive ProcState where
  | unused
  | sleeping
  | runnable
  | running
  | zombie
  deriving DecidableEq

/-- Where a process stands in the kernel. `code` is all code outside sleep(), wakeup() and
wakeup1(); a process in `asleep` has called sched(). -/
inductive Point (χ L : Type*) where
  | forkret
  | code
  | sleepLock (chan : χ) (lk : Lock L)
  | sleepUnlock (chan : χ) (lk : Lock L)
  | sleepSwitch (chan : χ) (lk : Lock L)
  | asleep (chan : χ) (lk : Lock L)
  | relock (lk : Lock L)
  | wakeup (chan : χ)
  | wakeupUnlock (chan : χ)
  | wakeupReturn (chan : χ)
  | exited
  deriving DecidableEq

/-- The yield() of a timer interrupt. -/
inductive Preempt where
  | no
  | locked
  | switched
  deriving DecidableEq

/-- A CPU without a process runs its scheduler. The last four fields are history: the number
of events, when the pending sleep() of a process released its lock, when a process last
acquired each lock, and what that was when its last wakeup() began. -/
structure State (π κ χ L : Type*) where
  holder : Lock L → Option κ
  ncli : κ → ℕ
  proc : κ → Option π
  state : π → ProcState
  chan : π → Option χ
  point : π → Point χ L
  preempt : π → Preempt
  halted : Option String
  clock : ℕ
  releasedAt : π → Option ℕ
  acquiredAt : π → Lock L → Option ℕ
  since : π → Lock L → Option ℕ

variable {π κ χ L : Type*}

/-- Some processes are ready for their first run. -/
def initial (ready : π → Bool) : State π κ χ L where
  holder _ := none
  ncli _ := 0
  proc _ := none
  state p := if ready p then .runnable else .unused
  chan _ := none
  point _ := .forkret
  preempt _ := .no
  halted := none
  clock := 0
  releasedAt _ := none
  acquiredAt _ _ := none
  since _ _ := none

namespace State

def panic (s : State π κ χ L) (msg : String) : State π κ χ L := { s with halted := some msg }

variable [DecidableEq π] [DecidableEq κ] [DecidableEq χ] [DecidableEq L]

def goto (s : State π κ χ L) (p : π) (x : Point χ L) : State π κ χ L :=
  { s with point := Function.update s.point p x }

def setState (s : State π κ χ L) (p : π) (st : ProcState) : State π κ χ L :=
  { s with state := Function.update s.state p st }

/-- acquire() on the CPU `c`, once the lock is free or found to be held here. -/
def acquire (s : State π κ χ L) (c : κ) (l : Lock L) : State π κ χ L :=
  if s.holder l = some c then s.panic "acquire"
  else { s with
    holder := Function.update s.holder l (some c)
    ncli := Function.update s.ncli c (s.ncli c + 1) }

def release (s : State π κ χ L) (c : κ) (l : Lock L) : State π κ χ L :=
  if s.holder l = some c then { s with
    holder := Function.update s.holder l none
    ncli := Function.update s.ncli c (s.ncli c - 1) }
  else s.panic "release"

/-- The process `p` notes when it acquired `l`. -/
def note (s : State π κ χ L) (p : π) (l : Lock L) : State π κ χ L :=
  { s with
    acquiredAt := Function.update s.acquiredAt p
      (Function.update (s.acquiredAt p) l (some s.clock)) }

def markRelease (s : State π κ χ L) (p : π) : State π κ χ L :=
  { s with releasedAt := Function.update s.releasedAt p (some s.clock) }

def markSince (s : State π κ χ L) (p : π) : State π κ χ L :=
  { s with since := Function.update s.since p (s.acquiredAt p) }

/-- The switch from the process `p` to the scheduler of `c`. -/
def sched (s : State π κ χ L) (c : κ) (p : π) : State π κ χ L :=
  if s.holder .ptable ≠ some c then s.panic "sched ptable.lock"
  else if s.ncli c ≠ 1 then s.panic "sched locks"
  else if s.state p = .running then s.panic "sched running"
  else { s with proc := Function.update s.proc c none }

def wakeup1 (s : State π κ χ L) (chan : χ) : State π κ χ L :=
  { s with state := fun p =>
      if s.state p = .sleeping ∧ s.chan p = some chan then .runnable else s.state p }

end State

variable [DecidableEq π] [DecidableEq κ] [DecidableEq χ] [DecidableEq L]

/-- sleep() is entered. -/
def sleep (s : State π κ χ L) (p : π) (chan : χ) (lk : Lock L) : State π κ χ L :=
  let s := { s with releasedAt := Function.update s.releasedAt p none }
  s.goto p (if lk = .ptable then .sleepSwitch chan lk else .sleepLock chan lk)

/-- p->chan and p->state are set. With lk = &ptable.lock this is where the lock leaves the
hands of `p`. -/
def fallAsleep (s : State π κ χ L) (p : π) (chan : χ) (lk : Lock L) : State π κ χ L :=
  let s := { s with chan := Function.update s.chan p (some chan) }
  let s := if lk = .ptable then s.markRelease p else s
  (s.setState p .sleeping).goto p (.asleep chan lk)

def sleepSwitch (s : State π κ χ L) (c : κ) (p : π) (chan : χ) (lk : Lock L) : State π κ χ L :=
  (fallAsleep s p chan lk).sched c p

/-- sched() has returned in sleep(). -/
def sleepTidy (s : State π κ χ L) (c : κ) (p : π) (lk : Lock L) : State π κ χ L :=
  let s := { s with chan := Function.update s.chan p none }
  if lk = .ptable then s.goto p .code else (s.release c .ptable).goto p (.relock lk)

/-- What the process `p` on `c` does next inside the modelled functions. -/
def advance (s : State π κ χ L) (c : κ) (p : π) : Point χ L → State π κ χ L
  | .forkret => (s.release c .ptable).goto p .code
  | .sleepLock chan lk => ((s.acquire c .ptable).note p .ptable).goto p (.sleepUnlock chan lk)
  | .sleepUnlock chan lk => ((s.release c lk).markRelease p).goto p (.sleepSwitch chan lk)
  | .sleepSwitch chan lk => sleepSwitch s c p chan lk
  | .asleep _ lk => sleepTidy s c p lk
  | .relock lk => ((s.acquire c lk).note p lk).goto p .code
  | .wakeup chan =>
    (((s.acquire c .ptable).note p .ptable).wakeup1 chan).goto p (.wakeupUnlock chan)
  | .wakeupUnlock chan => (s.release c .ptable).goto p (.wakeupReturn chan)
  | .wakeupReturn _ => s.goto p .code
  | .code | .exited => s

/-- The lock that step of `p` waits for. -/
def wants : Preempt → Point χ L → Option (Lock L)
  | .no, .sleepLock _ _ | .no, .wakeup _ => some .ptable
  | .no, .relock lk => some lk
  | _, _ => none

/-- The process `p` on `c` goes on, in an interrupt or where it was. -/
def proceed (s : State π κ χ L) (c : κ) (p : π) : State π κ χ L :=
  match s.preempt p with
  | .no => advance s c p (s.point p)
  | .locked =>
    ({ s with preempt := Function.update s.preempt p .switched }.setState p .runnable).sched c p
  | .switched => { s.release c .ptable with preempt := Function.update s.preempt p .no }

inductive Event (π κ χ L : Type*) where
  | acquire (c : κ) (p : π) (l : Lock L)
  | release (c : κ) (p : π) (l : Lock L)
  | sleep (c : κ) (p : π) (chan : χ) (lk : Lock L)
  | wakeup (c : κ) (p : π) (chan : χ)
  | wakeup1 (c : κ) (p : π) (chan : χ)
  | kill (c : κ) (p victim : π)
  | fork (c : κ) (p np : π)
  | exit (c : κ) (p : π)
  | proceed (c : κ) (p : π)
  | timer (c : κ) (p : π)
  | schedAcquire (c : κ)
  | schedRelease (c : κ)
  | schedule (c : κ) (p : π)

/-- `p` runs on `c`, outside the modelled functions and interrupts. -/
def InCode (s : State π κ χ L) (c : κ) (p : π) : Prop :=
  s.proc c = some p ∧ s.point p = .code ∧ s.preempt p = .no

/-- The lock `l` is free, or acquire() panics at once. -/
def CanAcquire (s : State π κ χ L) (c : κ) (l : Lock L) : Prop :=
  s.holder l = none ∨ s.holder l = some c

def Enabled (s : State π κ χ L) (e : Event π κ χ L) : Prop :=
  s.halted = none ∧ match e with
  | .acquire c p l => InCode s c p ∧ CanAcquire s c l
  | .release c p l => InCode s c p ∧ s.holder l = some c
  | .sleep c p _ lk => InCode s c p ∧ s.holder lk = some c
  | .wakeup c p _ => InCode s c p
  | .wakeup1 c p _ | .kill c p _ | .exit c p => InCode s c p ∧ s.holder .ptable = some c
  | .fork c p np => InCode s c p ∧ s.holder .ptable = some c ∧ s.state np = .unused
  | .proceed c p => s.proc c = some p ∧ ∀ l ∈ wants (s.preempt p) (s.point p), CanAcquire s c l
  | .timer c p => s.proc c = some p ∧ s.preempt p = .no ∧ s.ncli c = 0 ∧ CanAcquire s c .ptable
  | .schedAcquire c => s.proc c = none ∧ CanAcquire s c .ptable
  | .schedRelease c => s.proc c = none ∧ s.holder .ptable = some c
  | .schedule c p => s.proc c = none ∧ s.holder .ptable = some c ∧ s.state p = .runnable

instance (s : State π κ χ L) (e : Event π κ χ L) : Decidable (Enabled s e) := by
  cases e <;> unfold Enabled <;> (try unfold InCode) <;> (try unfold CanAcquire) <;> infer_instance

def update (s : State π κ χ L) : Event π κ χ L → State π κ χ L
  | .acquire c p l => (s.acquire c l).note p l
  | .release c _ l => s.release c l
  | .sleep _ p chan lk => sleep s p chan lk
  | .wakeup _ p chan => (s.markSince p).goto p (.wakeup chan)
  | .wakeup1 _ p chan => ((s.markSince p).wakeup1 chan).goto p (.wakeupReturn chan)
  | .kill _ _ victim => if s.state victim = .sleeping then s.setState victim .runnable else s
  | .fork _ _ np => s.setState np .runnable
  | .exit c p => ((s.setState p .zombie).goto p .exited).sched c p
  | .proceed c p => proceed s c p
  | .timer c p =>
    { s.acquire c .ptable with preempt := Function.update s.preempt p .locked }
  | .schedAcquire c => s.acquire c .ptable
  | .schedRelease c => s.release c .ptable
  | .schedule c p =>
    { s.setState p .running with proc := Function.update s.proc c (some p) }.note p .ptable

/-- A panic stops the machine in the state the event began in. -/
def next (s : State π κ χ L) (e : Event π κ χ L) : State π κ χ L :=
  match (update s e).halted with
  | none => { update s e with clock := s.clock + 1 }
  | some msg => { s.panic msg with clock := s.clock + 1 }

def machine : Machine (State π κ χ L) (Event π κ χ L) := ⟨Enabled, next⟩

instance (s : State π κ χ L) (e : Event π κ χ L) : Decidable (machine.enabled s e) :=
  inferInstanceAs (Decidable (Enabled s e))

abbrev Reaches (ready : π → Bool) (es : List (Event π κ χ L)) (s : State π κ χ L) : Prop :=
  Run machine.Step (· = initial ready) es s

end SleepWakeup
