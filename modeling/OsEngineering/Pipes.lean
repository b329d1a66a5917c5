import OsEngineering.ByteBlock
import OsEngineering.RingBuffer
import OsEngineering.TransitionSystem

/-! pipe.c over one pipe, for any processes. Each section under p->lock is one event: it
begins with a call, or when a process that slept in the call has the lock again, and ends
when the call returns or sleeps. kill() can come between any two sections. -/
namespace Pipes

open ByteBlock RingBuffer TransitionSystem

def PIPESIZE : ℕ := 512

instance : NeZero PIPESIZE := ⟨by decide⟩

structure Pipe where
  data : Fin PIPESIZE → Byte
  nread : BitVec 32
  nwrite : BitVec 32
  readopen : Bool
  writeopen : Bool

namespace Pipe

/-- The full test of pipewrite(). -/
def full (p : Pipe) : Prop := p.nwrite = p.nread + BitVec.ofNat 32 PIPESIZE

instance (p : Pipe) : Decidable p.full := inferInstanceAs (Decidable (_ = _))

def store (p : Pipe) (b : Byte) : Pipe :=
  { p with data := Function.update p.data (slot PIPESIZE p.nwrite) b, nwrite := p.nwrite + 1 }

/-- nwrite - nread, the bytes that were stored and not yet read. -/
def unread (p : Pipe) : ℕ := count p.nread p.nwrite

def queue (p : Pipe) : List Byte := contents p.data p.nread p.nwrite

/-- The byte at nread, and the pipe after nread++. -/
def head (p : Pipe) : Byte := p.data (slot PIPESIZE p.nread)
def skip (p : Pipe) : Pipe := { p with nread := p.nread + 1 }

theorem full_iff (p : Pipe) : p.full ↔ p.unread = PIPESIZE :=
  (count_eq_cap (by decide)).symm

theorem unread_eq_zero (p : Pipe) : p.unread = 0 ↔ p.nread = p.nwrite := count_eq_zero

theorem unread_store {p : Pipe} (b : Byte) (h : p.unread < PIPESIZE) :
    (p.store b).unread = p.unread + 1 := by
  have hcap : PIPESIZE + 1 < 2 ^ 32 := by decide
  exact count_push (lt_trans (Nat.succ_lt_succ h) hcap)

theorem queue_store {p : Pipe} (b : Byte) (h : p.unread < PIPESIZE) :
    (p.store b).queue = p.queue ++ [b] :=
  contents_push (by decide) b h (lt_of_le_of_lt h (by decide))

theorem unread_skip {p : Pipe} (h : p.nread ≠ p.nwrite) : p.skip.unread + 1 = p.unread :=
  count_pop h

theorem queue_skip {p : Pipe} (h : p.nread ≠ p.nwrite) : p.queue = p.head :: p.skip.queue :=
  contents_pop p.data h

end Pipe

/-- The addresses &p->nread and &p->nwrite. -/
inductive Channel where
  | nread
  | nwrite
  deriving DecidableEq

/-- A call that sleeps: its arguments and, for pipewrite(), its loop counter. -/
inductive Call where
  | pipewrite (addr : ℕ → Byte) (n : ℤ) (i : ℕ)
  | piperead (n : ℤ)

inductive Phase where
  | idle
  | asleep (chan : Channel) (c : Call)
  | woken (c : Call)

/-- The channel a process is SLEEPING on. -/
def Phase.chan : Phase → Option Channel
  | .asleep c _ => some c
  | _ => none

def Phase.isIdle : Phase → Bool
  | .idle => true
  | _ => false

def Phase.isWoken : Phase → Bool
  | .woken _ => true
  | _ => false

/-- `ret` is what the last call of each process returned, and `freed` that the page of the
pipe went back to kfree(). `stored` and `taken` are history: the bytes that writes stored and
that reads copied out, in order. -/
structure State (π : Type*) where
  pipe : Pipe
  phase : π → Phase
  killed : π → Bool
  ret : π → ℤ
  freed : Bool
  stored : List Byte
  taken : List Byte

variable {π : Type*}

/-- pipealloc() in a page of old data. -/
def initial (data : Fin PIPESIZE → Byte) (killed : π → Bool) : State π where
  pipe := ⟨data, 0, 0, true, true⟩
  phase := fun _ => .idle
  killed := killed
  ret := fun _ => 0
  freed := false
  stored := []
  taken := []

def wake (chan : Channel) : Phase → Phase
  | .asleep c call => if c = chan then .woken call else .asleep c call
  | f => f

def State.wakeup (s : State π) (chan : Channel) : State π :=
  { s with phase := fun q => wake chan (s.phase q) }

/-- The stores of pipewrite() until the loop ends or the pipe is full. -/
def fill (addr : ℕ → Byte) : ℕ → ℕ → Pipe → ℕ × Pipe
  | 0, i, p => (i, p)
  | m + 1, i, p => if p.full then (i, p) else fill addr m (i + 1) (p.store (addr i))

def filled (s : State π) (addr : ℕ → Byte) (n : ℤ) (i : ℕ) : State π :=
  let (j, p) := fill addr (n - i).toNat i s.pipe
  { s with pipe := p, stored := s.stored ++ (List.range' i (j - i)).map addr }

/-- The copy loop of piperead(). -/
def drain : ℕ → Pipe → List Byte × Pipe
  | 0, p => ([], p)
  | m + 1, p =>
    if p.nread = p.nwrite then ([], p)
    else
      let (bs, p') := drain m p.skip
      (p.head :: bs, p')

def drained (s : State π) (n : ℤ) : State π :=
  let (bs, p) := drain n.toNat s.pipe
  { s with pipe := p, taken := s.taken ++ bs }

def closeEnd (s : State π) (writable : Bool) : State π :=
  if writable then { s with pipe := { s.pipe with writeopen := false } }.wakeup .nread
  else { s with pipe := { s.pipe with readopen := false } }.wakeup .nwrite

def pipeclose (s : State π) (writable : Bool) : State π :=
  let s := closeEnd s writable
  if s.pipe.readopen = false ∧ s.pipe.writeopen = false then { s with freed := true } else s

section Sections

variable [DecidableEq π]

def State.move (s : State π) (q : π) (f : Phase) : State π :=
  { s with phase := Function.update s.phase q f }

def State.finish (s : State π) (q : π) (r : ℤ) : State π :=
  { s.move q .idle with ret := Function.update s.ret q r }

def pipewrite (s : State π) (q : π) (addr : ℕ → Byte) (n : ℤ) (i : ℕ) : State π :=
  let j := (fill addr (n - i).toNat i s.pipe).1
  let s := filled s addr n i
  if (j : ℤ) < n then
    if s.pipe.readopen = false ∨ s.killed q = true then s.finish q (-1)
    else (s.wakeup .nread).move q (.asleep .nwrite (.pipewrite addr n j))
  else (s.wakeup .nread).finish q n

def piperead (s : State π) (q : π) (n : ℤ) : State π :=
  if s.pipe.nread = s.pipe.nwrite ∧ s.pipe.writeopen = true then
    if s.killed q = true then s.finish q (-1)
    else s.move q (.asleep .nread (.piperead n))
  else
    ((drained s n).wakeup .nwrite).finish q (drain n.toNat s.pipe).1.length

def resume (s : State π) (q : π) : Call → State π
  | .pipewrite addr n i => pipewrite s q addr n i
  | .piperead n => piperead s q n

/-- kill() of the process `q`. -/
def kill (s : State π) (q : π) : State π :=
  let s := { s with killed := Function.update s.killed q true }
  match s.phase q with
  | .asleep _ c => s.move q (.woken c)
  | _ => s

inductive Event (π : Type*) where
  | pipewrite (q : π) (addr : ℕ → Byte) (n : ℤ)
  | piperead (q : π) (n : ℤ)
  | resume (q : π)
  | pipeclose (q : π) (writable : Bool)
  | kill (q : π)

def Enabled (s : State π) : Event π → Prop
  | .pipewrite q _ _ | .piperead q _ | .pipeclose q _ =>
    (s.phase q).isIdle = true ∧ s.freed = false
  | .resume q => (s.phase q).isWoken = true ∧ s.freed = false
  | .kill _ => True

instance (s : State π) (e : Event π) : Decidable (Enabled s e) := by
  cases e <;> unfold Enabled <;> infer_instance

def next (s : State π) : Event π → State π
  | .pipewrite q addr n => pipewrite s q addr n 0
  | .piperead q n => piperead s q n
  | .resume q =>
    match s.phase q with
    | .woken c => resume s q c
    | _ => s
  | .pipeclose _ writable => pipeclose s writable
  | .kill q => kill s q

def machine : Machine (State π) (Event π) := ⟨Enabled, next⟩

instance (s : State π) (e : Event π) : Decidable (machine.enabled s e) :=
  inferInstanceAs (Decidable (Enabled s e))

abbrev Reaches (data : Fin PIPESIZE → Byte) (killed : π → Bool) (es : List (Event π))
    (s : State π) : Prop :=
  Run machine.Step (· = initial data killed) es s

end Sections

/-! What the two loops do to the queue. -/

theorem fill_spec (addr : ℕ → Byte) (m i : ℕ) (p : Pipe) (h : p.unread ≤ PIPESIZE) :
    (fill addr m i p).1 = i + min m (PIPESIZE - p.unread) ∧
      (fill addr m i p).2.nread = p.nread ∧
      (fill addr m i p).2.readopen = p.readopen ∧
      (fill addr m i p).2.writeopen = p.writeopen ∧
      (fill addr m i p).2.unread = p.unread + min m (PIPESIZE - p.unread) ∧
      (fill addr m i p).2.queue =
        p.queue ++ (List.range' i (min m (PIPESIZE - p.unread))).map addr := by
  induction m generalizing i p with
  | zero => simp [fill]
  | succ m ih =>
    by_cases hf : p.full
    · have hu := p.full_iff.mp hf
      simp [fill, hf, hu]
    · have hlt : p.unread < PIPESIZE := lt_of_le_of_ne h (mt p.full_iff.mpr hf)
      have hmin : min (m + 1) (PIPESIZE - p.unread) =
          min m (PIPESIZE - (p.unread + 1)) + 1 := by omega
      have hstore := Pipe.unread_store (addr i) hlt
      obtain ⟨h1, h2, h3, h4, h5, h6⟩ := ih (i + 1) (p.store (addr i)) (by omega)
      rw [hstore] at h1 h5 h6
      rw [fill, if_neg hf, hmin]
      refine ⟨by rw [h1]; omega, h2, h3, h4, by rw [h5]; omega, ?_⟩
      rw [h6, Pipe.queue_store (addr i) hlt, List.range'_succ, List.map_cons, List.append_assoc,
        List.singleton_append]

theorem drain_spec (m : ℕ) (p : Pipe) :
    (drain m p).2.readopen = p.readopen ∧ (drain m p).2.writeopen = p.writeopen ∧
      (drain m p).1.length + (drain m p).2.unread = p.unread ∧
      (drain m p).1 ++ (drain m p).2.queue = p.queue := by
  induction m generalizing p with
  | zero => simp [drain]
  | succ m ih =>
    by_cases he : p.nread = p.nwrite
    · simp [drain, he]
    · obtain ⟨h1, h2, h3, h4⟩ := ih p.skip
      have hpop := Pipe.unread_skip he
      rw [drain, if_neg he]
      refine ⟨h1, h2, ?_, ?_⟩
      · change (p.head :: (drain m p.skip).1).length + (drain m p.skip).2.unread = p.unread
        rw [List.length_cons]
        omega
      · change p.head :: ((drain m p.skip).1 ++ (drain m p.skip).2.queue) = p.queue
        rw [h4, Pipe.queue_skip he]

end Pipes
