import OsEngineering.BufferCache
import OsEngineering.LinkedQueue

/-! The driver ide.c with a disk that does one command at a time and interrupts once for each.
The sections under idelock are the events; in between a process sleeps in iderw() or waits to
look at its buffer again. What is done to buffers outside iderw() is left open. -/
namespace IdeQueue

open KernelParams TransitionSystem BufferCache LinkedQueue

def FSSIZE : ℕ := 1000

/-- What idestart() has told the disk: read or write, the drive, the sector, and for a write
the data. -/
structure Command (D : Type*) where
  write : Bool
  drive : Dev
  sector : BlockNo
  data : D

/-- How the disk ends a command. Under `error` it sets IDE_DF or IDE_ERR; a write that fails
leaves `garbage` in the sector. -/
structure Answer (D : Type*) where
  error : Bool
  garbage : D

/-- Where a process is in iderw(b); `n` numbers the calls that have put a buffer into the
queue. -/
inductive Call where
  | outside
  | asleep (b : BufNo) (n : ℕ)
  | woken (b : BufNo) (n : ℕ)
  deriving DecidableEq

inductive Halt where
  | panic (msg : String)
  | endless
  deriving DecidableEq

/-- `arrived`, `completed` and `returned` are histories: the buffers put into the queue, the
buffers ideintr() has taken out, and the numbers of the calls that have returned. -/
structure State (π D : Type*) where
  buf : BufNo → Buf D
  queue : Queue BufNo
  device : Option (Command D)
  disk : Dev → BlockNo → D
  call : π → Call
  halted : Option Halt
  arrived : List (π × BufNo)
  completed : List BufNo
  returned : List ℕ

variable {π D : Type*}

def initial (buf : BufNo → Buf D) (disk : Dev → BlockNo → D) : State π D :=
  ⟨buf, ⟨none, fun _ => none⟩, none, disk, fun _ => .outside, none, [], [], []⟩

/-- (flags & (B_VALID|B_DIRTY)) == B_VALID -/
def Done (x : Buf D) : Prop := x.valid = true ∧ x.dirty = false

instance (x : Buf D) : Decidable (Done x) := inferInstanceAs (Decidable (_ ∧ _))

/-- The low bit of the device selects the drive. -/
def command (x : Buf D) : Command D := ⟨x.dirty, x.dev &&& 1, x.blockno, x.data⟩

def idestart (s : State π D) (b : BufNo) : Except String (State π D) :=
  if FSSIZE ≤ (s.buf b).blockno.toNat then .error "incorrect blockno"
  else .ok { s with device := some (command (s.buf b)) }

/-- wakeup(b) -/
def wakeup (s : State π D) (b : BufNo) : State π D :=
  { s with call := fun p => match s.call p with
      | .asleep c n => if c = b then .woken c n else .asleep c n
      | c => c }

/-- The sector after a command. -/
def perform (disk : Dev → BlockNo → D) (c : Command D) (a : Answer D) : Dev → BlockNo → D :=
  if c.write = true then put disk c.drive c.sector (if a.error = true then a.garbage else c.data)
  else disk

/-- Reads the data of `c` into `b`, unless there was an error, and sets the flags. -/
def finish (s : State π D) (b : BufNo) (c : Command D) (a : Answer D) : State π D :=
  { s with buf := Function.update s.buf b { s.buf b with
      valid := true
      dirty := false
      data := if (s.buf b).dirty = false ∧ a.error = false then s.disk c.drive c.sector
        else (s.buf b).data } }

/-- The disk is done with the command `c`, and ideintr() runs. -/
def ideintr (s : State π D) (c : Command D) (a : Answer D) : Except String (State π D) :=
  let s := { s with device := none, disk := perform s.disk c a }
  match s.queue.head with
  | none => .ok s
  | some b =>
    let s := { s with queue := s.queue.pop b, completed := s.completed ++ [b] }
    let s := wakeup (finish s b c a) b
    match s.queue.head with
    | none => .ok s
    | some b => idestart s b

variable [DecidableEq π]

def setCall (s : State π D) (p : π) (c : Call) : State π D :=
  { s with call := Function.update s.call p c }

/-- The call of iderw(b) up to the end of its first section; `none` is a walk without end. -/
def iderw (havedisk1 : Bool) (s : State π D) (p : π) (b : BufNo) :
    Except String (Option (State π D)) :=
  if Done (s.buf b) then .error "iderw: nothing to do"
  else if (s.buf b).dev ≠ 0 ∧ havedisk1 = false then .error "iderw: ide disk 1 not present"
  else
    match s.queue.append (NBUF + 1) b with
    | none => .ok none
    | some q =>
      let s := { setCall s p (.asleep b s.arrived.length) with
        queue := q, arrived := s.arrived ++ [(p, b)] }
      if q.head = some b then (idestart s b).map some else .ok (some s)

/-- A process in iderw() looks at its buffer again. -/
def resume (s : State π D) (p : π) (b : BufNo) (n : ℕ) : State π D :=
  if Done (s.buf b) then { setCall s p .outside with returned := s.returned ++ [n] }
  else setCall s p (.asleep b n)

/-- `rouse` is a wakeup for another reason, such as kill(). -/
inductive Event (π D : Type*) where
  | change (b : BufNo) (x : Buf D)
  | iderw (p : π) (b : BufNo)
  | ideintr (c : Command D) (a : Answer D)
  | rouse (p : π) (b : BufNo) (n : ℕ)
  | resume (p : π) (b : BufNo) (n : ℕ)

/-- The buffer a process is in iderw() with. -/
def Call.on : Call → Option BufNo
  | .outside => none
  | .asleep b _ | .woken b _ => some b

/-- No process is in iderw() with the buffer. -/
def Free (s : State π D) (b : BufNo) : Prop := ∀ p, (s.call p).on ≠ some b

/-- Callers of iderw() hold the lock of their buffer, so no two are in it with one buffer, and
nobody else changes more than its reference count. -/
def Enabled (s : State π D) (e : Event π D) : Prop :=
  s.halted = none ∧ match e with
  | .change b x => Free s b ∨ x = { s.buf b with refcnt := x.refcnt }
  | .iderw p b => s.call p = .outside ∧ Free s b
  | .ideintr c _ => s.device = some c
  | .rouse p b n => s.call p = .asleep b n
  | .resume p b n => s.call p = .woken b n

/-- A section that panics leaves the state as it was. -/
def settle (s : State π D) : Except String (State π D) → State π D
  | .ok t => t
  | .error msg => { s with halted := some (.panic msg) }

def next (havedisk1 : Bool) (s : State π D) : Event π D → State π D
  | .change b x => { s with buf := Function.update s.buf b x }
  | .iderw p b =>
    match iderw havedisk1 s p b with
    | .ok (some t) => t
    | .ok none => { s with halted := some .endless }
    | .error msg => { s with halted := some (.panic msg) }
  | .ideintr c a => settle s (ideintr s c a)
  | .rouse p b n => setCall s p (.woken b n)
  | .resume p b n => resume s p b n

def machine (havedisk1 : Bool) : Machine (State π D) (Event π D) := ⟨Enabled, next havedisk1⟩

end IdeQueue
