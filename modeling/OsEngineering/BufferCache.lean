import OsEngineering.CircularList
import OsEngineering.FiniteTally
import OsEngineering.KernelParams
import OsEngineering.TransitionSystem
import Mathlib.Data.List.FinRange

/-! bio.c for any callers. A handle is one bracket from bread() to brelse(); a process may
have several. Sections under bcache.lock, taking and leaving the lock of a buffer and the
end of a disk transfer are the events; commit() is a sequence of them. -/
namespace BufferCache

open CircularList KernelParams TransitionSystem

def NBUF : ℕ := MAXOPBLOCKS * 3

abbrev BufNo := Fin NBUF
abbrev Dev := BitVec 32

/-- `valid` and `dirty` are the flags B_VALID and B_DIRTY. -/
structure Buf (D : Type*) where
  valid : Bool
  dirty : Bool
  dev : Dev
  blockno : BlockNo
  refcnt : ℕ
  data : D

/-- What a handle is doing with its buffer. A holder that has changed the data has not yet
passed it to log_write() or bwrite() while `unlogged` is set. -/
inductive Use where
  | idle
  | waiting (dev : Dev) (blockno : BlockNo) (b : BufNo)
  | reading (dev : Dev) (blockno : BlockNo) (b : BufNo)
  | holding (dev : Dev) (blockno : BlockNo) (b : BufNo) (unlogged : Bool)
  | writing (dev : Dev) (blockno : BlockNo) (b : BufNo)
  | releasing (b : BufNo)
  deriving DecidableEq

/-- `content` is history: what was last put into each block. -/
structure State (η D : Type*) where
  buf : BufNo → Buf D
  links : Links BufNo
  lock : BufNo → Option η
  use : η → Use
  disk : Dev → BlockNo → D
  halted : Option String
  content : Dev → BlockNo → D

variable {η D : Type*}

/-- binit(), with `zero` in the static buffers. -/
def initial (zero : D) (disk : Dev → BlockNo → D) : State η D where
  buf _ := ⟨false, false, 0, 0, 0, zero⟩
  links := (List.finRange NBUF).foldl Links.pushFront ⟨fun _ => none, fun _ => none⟩
  lock _ := none
  use _ := .idle
  disk := disk
  halted := none
  content := disk

def State.setBuf (s : State η D) (b : BufNo) (x : Buf D) : State η D :=
  { s with buf := Function.update s.buf b x }

def put (f : Dev → BlockNo → D) (dev : Dev) (blockno : BlockNo) (d : D) : Dev → BlockNo → D :=
  fun v n => if v = dev ∧ n = blockno then d else f v n

/-- The scan of bget() for a cached block, and the one for a buffer to recycle. -/
def cached (s : State η D) (dev : Dev) (blockno : BlockNo) : Option BufNo :=
  scan s.links.next (fun b => (s.buf b).dev = dev ∧ (s.buf b).blockno = blockno) (NBUF + 1)
    (s.links.next none)

def unused (s : State η D) : Option BufNo :=
  scan s.links.prev (fun b => (s.buf b).refcnt = 0 ∧ (s.buf b).dirty = false) (NBUF + 1)
    (s.links.prev none)

/-- The completion of iderw(): data goes out if B_DIRTY is set, else it comes in. -/
def ideintr (s : State η D) (b : BufNo) : State η D :=
  if (s.buf b).dirty = true then
    { s.setBuf b { s.buf b with valid := true, dirty := false } with
      disk := put s.disk (s.buf b).dev (s.buf b).blockno (s.buf b).data }
  else
    s.setBuf b { s.buf b with
      valid := true
      data := s.disk (s.buf b).dev (s.buf b).blockno }

variable [DecidableEq η]

def State.setUse (s : State η D) (h : η) (u : Use) : State η D :=
  { s with use := Function.update s.use h u }

/-- bget() up to acquiresleep(). -/
def bget (s : State η D) (h : η) (dev : Dev) (blockno : BlockNo) : State η D :=
  match cached s dev blockno with
  | some b =>
    (s.setBuf b { s.buf b with refcnt := (s.buf b).refcnt + 1 }).setUse h (.waiting dev blockno b)
  | none =>
    match unused s with
    | some b =>
      (s.setBuf b { s.buf b with
        dev := dev
        blockno := blockno
        valid := false
        dirty := false
        refcnt := 1 }).setUse h (.waiting dev blockno b)
    | none => { s with halted := some "bget: no buffers" }

/-- bget() has the lock, and bread() looks at B_VALID. -/
def acquiresleep (s : State η D) (h : η) (dev : Dev) (blockno : BlockNo) (b : BufNo) :
    State η D :=
  { s with lock := Function.update s.lock b (some h) }.setUse h
    (if (s.buf b).valid = true then .holding dev blockno b false else .reading dev blockno b)

/-- The caller changes b->data. -/
def modify (s : State η D) (h : η) (dev : Dev) (blockno : BlockNo) (b : BufNo) (d : D) :
    State η D :=
  { s.setBuf b { s.buf b with data := d } with
    content := put s.content dev blockno d }.setUse h (.holding dev blockno b true)

/-- What log_write() does to the buffer. -/
def logWrite (s : State η D) (h : η) (dev : Dev) (blockno : BlockNo) (b : BufNo) : State η D :=
  (s.setBuf b { s.buf b with dirty := true }).setUse h (.holding dev blockno b false)

/-- bwrite() up to its wait for the disk. -/
def bwrite (s : State η D) (h : η) (dev : Dev) (blockno : BlockNo) (b : BufNo) : State η D :=
  (s.setBuf b { s.buf b with dirty := true }).setUse h (.writing dev blockno b)

def releasesleep (s : State η D) (h : η) (b : BufNo) : State η D :=
  { s with lock := Function.update s.lock b none }.setUse h (.releasing b)

/-- The part of brelse() under bcache.lock. -/
def brelse (s : State η D) (h : η) (b : BufNo) : State η D :=
  let s := s.setBuf b { s.buf b with refcnt := (s.buf b).refcnt - 1 }
  let s := if (s.buf b).refcnt = 0 then { s with links := (s.links.unlink b).pushFront b } else s
  s.setUse h .idle

inductive Event (η D : Type*) where
  | bget (h : η) (dev : Dev) (blockno : BlockNo)
  | acquiresleep (h : η) (dev : Dev) (blockno : BlockNo) (b : BufNo)
  | readDone (h : η) (dev : Dev) (blockno : BlockNo) (b : BufNo)
  | modify (h : η) (dev : Dev) (blockno : BlockNo) (b : BufNo) (unlogged : Bool) (d : D)
  | logWrite (h : η) (dev : Dev) (blockno : BlockNo) (b : BufNo) (unlogged : Bool)
  | bwrite (h : η) (dev : Dev) (blockno : BlockNo) (b : BufNo) (unlogged : Bool)
  | writeDone (h : η) (dev : Dev) (blockno : BlockNo) (b : BufNo)
  | releasesleep (h : η) (dev : Dev) (blockno : BlockNo) (b : BufNo)
  | brelse (h : η) (b : BufNo)

/-- Callers hold the buffer they change, and pass what they changed to log_write() or
bwrite() before brelse(). -/
def Enabled (s : State η D) (e : Event η D) : Prop :=
  s.halted = none ∧ match e with
  | .bget h _ _ => s.use h = .idle
  | .acquiresleep h dev blockno b => s.use h = .waiting dev blockno b ∧ s.lock b = none
  | .readDone h dev blockno b => s.use h = .reading dev blockno b
  | .modify h dev blockno b u _ | .logWrite h dev blockno b u | .bwrite h dev blockno b u =>
    s.use h = .holding dev blockno b u
  | .writeDone h dev blockno b => s.use h = .writing dev blockno b
  | .releasesleep h dev blockno b => s.use h = .holding dev blockno b false
  | .brelse h b => s.use h = .releasing b

instance (s : State η D) (e : Event η D) : Decidable (Enabled s e) := by
  cases e <;> unfold Enabled <;> infer_instance

def next (s : State η D) : Event η D → State η D
  | .bget h dev blockno => bget s h dev blockno
  | .acquiresleep h dev blockno b => acquiresleep s h dev blockno b
  | .readDone h dev blockno b => (ideintr s b).setUse h (.holding dev blockno b false)
  | .modify h dev blockno b _ d => modify s h dev blockno b d
  | .logWrite h dev blockno b _ => logWrite s h dev blockno b
  | .bwrite h dev blockno b _ => bwrite s h dev blockno b
  | .writeDone h dev blockno b => (ideintr s b).setUse h (.holding dev blockno b false)
  | .releasesleep h _ _ b => releasesleep s h b
  | .brelse h b => brelse s h b

def machine : Machine (State η D) (Event η D) := ⟨Enabled, next⟩

instance (s : State η D) (e : Event η D) : Decidable (machine.enabled s e) :=
  inferInstanceAs (Decidable (Enabled s e))

abbrev Reaches (zero : D) (disk : Dev → BlockNo → D) (es : List (Event η D)) (s : State η D) :
    Prop :=
  Run machine.Step (· = initial zero disk) es s

end BufferCache
