import OsEngineering.SleepWakeup
import Mathlib.Data.Fintype.Sum

/-! sleeplock.c over sleep() and wakeup(). The address of a lock is the channel its waiters
sleep on, and each has a spinlock of its own. A process stands for its pid. -/
namespace Sleeplocks

open TransitionSystem SleepWakeup

/-- Where a process stands in sleeplock.c. A process in `testing` may be in the sleep() of
the loop, one in `cleared` in the wakeup() before it. -/
inductive Place (K : Type*) where
  | code
  | acquiring (k : K)
  | testing (k : K)
  | taking (k : K)
  | taken (k : K)
  | releasing (k : K)
  | clearing (k : K)
  | waking (k : K)
  | cleared (k : K)
  | asking (k : K)
  | checking (k : K)
  | checked (k : K) (r : Bool)
  deriving DecidableEq

structure State (π κ K χ L : Type*) where
  kernel : SleepWakeup.State π κ (K ⊕ χ) (K ⊕ L)
  locked : K → Bool
  pid : K → Option π
  place : π → Place K

variable {π κ K χ L : Type*}

/-- The address of a lock, and the lock that guards it. -/
def chan (k : K) : K ⊕ χ := .inl k

def lk (k : K) : Lock (K ⊕ L) := .spin (.inl k)

/-- All locks after initsleeplock(). -/
def initial (ready : π → Bool) : State π κ K χ L where
  kernel := SleepWakeup.initial ready
  locked _ := false
  pid _ := none
  place _ := .code

def owner (s : State π κ K χ L) (k : K) : Option π := if s.locked k then s.pid k else none

inductive Event (π κ K χ L : Type*) where
  | kernel (e : SleepWakeup.Event π κ (K ⊕ χ) (K ⊕ L))
  | acquiresleep (c : κ) (p : π) (k : K)
  | releasesleep (c : κ) (p : π) (k : K)
  | holdingsleep (c : κ) (p : π) (k : K)
  | step (c : κ) (p : π)

/-- The process whose code the event is. The other events come by themselves. -/
def actor : SleepWakeup.Event π κ (K ⊕ χ) (K ⊕ L) → Option π
  | .acquire _ p _ | .release _ p _ | .sleep _ p _ _ | .wakeup _ p _ | .wakeup1 _ p _
  | .kill _ p _ | .fork _ p _ | .exit _ p => some p
  | .proceed _ _ | .timer _ _ | .schedAcquire _ | .schedRelease _ | .schedule _ _ => none

/-- Code elsewhere uses neither the spinlock of a sleep lock nor its address. -/
def ForeignLock : Lock (K ⊕ L) → Prop
  | .spin (.inl _) => False
  | _ => True

def ForeignChan : K ⊕ χ → Prop
  | .inl _ => False
  | .inr _ => True

def Foreign : SleepWakeup.Event π κ (K ⊕ χ) (K ⊕ L) → Prop
  | .acquire _ _ l | .release _ _ l => ForeignLock l
  | .sleep _ _ x l => ForeignChan x ∧ ForeignLock l
  | .wakeup _ _ x | .wakeup1 _ _ x => ForeignChan x
  | _ => True

instance (l : Lock (K ⊕ L)) : Decidable (ForeignLock l) := by
  rcases l with _ | (_ | _) <;> unfold ForeignLock <;> infer_instance

instance (x : K ⊕ χ) : Decidable (ForeignChan x) := by
  rcases x with _ | _ <;> unfold ForeignChan <;> infer_instance

instance (e : SleepWakeup.Event π κ (K ⊕ χ) (K ⊕ L)) : Decidable (Foreign e) := by
  cases e <;> unfold Foreign <;> infer_instance

/-- The CPU is outside every section of a spinlock. -/
def Bare (s : State π κ K χ L) (c : κ) : Prop :=
  s.kernel.ncli c = 0 ∧ ∀ l, s.kernel.holder l ≠ some c

/-- The functions are called without a spinlock, and a lock is released by its owner. -/
def Disciplined (s : State π κ K χ L) : Event π κ K χ L → Prop
  | .acquiresleep c _ _ | .holdingsleep c _ _ => Bare s c
  | .releasesleep c p k => Bare s c ∧ owner s k = some p
  | _ => True

theorem bare_iff (s : State π κ K χ L) (c : κ) : Bare s c ↔ s.kernel.ncli c = 0 ∧
    s.kernel.holder .ptable ≠ some c ∧ ∀ x, s.kernel.holder (.spin x) ≠ some c := by
  constructor
  · exact fun h => ⟨h.1, h.2 .ptable, fun x => h.2 (.spin x)⟩
  · rintro ⟨hn, hp, hs⟩
    refine ⟨hn, ?_⟩
    rintro (_ | x)
    · exact hp
    · exact hs x

variable [DecidableEq π] [DecidableEq κ] [DecidableEq K] [DecidableEq χ] [DecidableEq L]

namespace State

def goto (s : State π κ K χ L) (p : π) (x : Place K) : State π κ K χ L :=
  { s with place := Function.update s.place p x }

/-- The process calls a function of the kernel. -/
def call (s : State π κ K χ L) (e : SleepWakeup.Event π κ (K ⊕ χ) (K ⊕ L)) : State π κ K χ L :=
  { s with kernel := SleepWakeup.next s.kernel e }

def set (s : State π κ K χ L) (k : K) (locked : Bool) (pid : Option π) : State π κ K χ L :=
  { s with
    locked := Function.update s.locked k locked
    pid := Function.update s.pid k pid }

end State

/-- What the process `p` on `c` does next in sleeplock.c. -/
def advance (s : State π κ K χ L) (c : κ) (p : π) : Place K → State π κ K χ L
  | .code => s
  | .acquiring k => (s.call (.acquire c p (lk k))).goto p (.testing k)
  | .testing k =>
    if s.locked k then s.call (.sleep c p (chan k) (lk k)) else s.goto p (.taking k)
  | .taking k => (s.set k true (some p)).goto p (.taken k)
  | .taken k => (s.call (.release c p (lk k))).goto p .code
  | .releasing k => (s.call (.acquire c p (lk k))).goto p (.clearing k)
  | .clearing k => (s.set k false none).goto p (.waking k)
  | .waking k => (s.call (.wakeup c p (chan k))).goto p (.cleared k)
  | .cleared k => (s.call (.release c p (lk k))).goto p .code
  | .asking k => (s.call (.acquire c p (lk k))).goto p (.checking k)
  | .checking k => s.goto p (.checked k (s.locked k && decide (s.pid k = some p)))
  | .checked k _ => (s.call (.release c p (lk k))).goto p .code

/-- The lock that step waits for. -/
def awaits : Place K → Option K
  | .acquiring k | .releasing k | .asking k => some k
  | _ => none

def Enabled (s : State π κ K χ L) : Event π κ K χ L → Prop
  | .kernel e => SleepWakeup.Enabled s.kernel e ∧ (∀ p ∈ actor e, s.place p = .code) ∧ Foreign e
  | .acquiresleep c p _ | .releasesleep c p _ | .holdingsleep c p _ =>
    s.kernel.halted = none ∧ InCode s.kernel c p ∧ s.place p = .code
  | .step c p => s.kernel.halted = none ∧ InCode s.kernel c p ∧ s.place p ≠ .code ∧
      ∀ k ∈ awaits (s.place p), CanAcquire s.kernel c (lk k)

instance (s : State π κ K χ L) (e : Event π κ K χ L) : Decidable (Enabled s e) := by
  cases e <;> unfold Enabled <;> (try unfold InCode) <;> (try unfold CanAcquire) <;> infer_instance

def next (s : State π κ K χ L) : Event π κ K χ L → State π κ K χ L
  | .kernel e => s.call e
  | .acquiresleep _ p k => s.goto p (.acquiring k)
  | .releasesleep _ p k => s.goto p (.releasing k)
  | .holdingsleep _ p k => s.goto p (.asking k)
  | .step c p => advance s c p (s.place p)

def machine : Machine (State π κ K χ L) (Event π κ K χ L) := ⟨Enabled, next⟩

instance (s : State π κ K χ L) (e : Event π κ K χ L) : Decidable (machine.enabled s e) :=
  inferInstanceAs (Decidable (Enabled s e))

instance [Fintype K] [Fintype L] (s : State π κ K χ L) (c : κ) : Decidable (Bare s c) :=
  decidable_of_iff _ (bare_iff s c).symm

instance [Fintype K] [Fintype L] (s : State π κ K χ L) (e : Event π κ K χ L) :
    Decidable (Disciplined s e) := by
  cases e <;> unfold Disciplined <;> infer_instance

end Sleeplocks
