import OsEngineering.Pipes
import Mathlib.Data.Fin.VecNotation

/-! A pipe hands on every stored byte once and in order, however often its counters wrap. -/
namespace PipeStream

open ByteBlock RingBuffer TransitionSystem Pipes

variable {π : Type*}

/-- The ring holds what was stored and not taken. -/
structure Stream (s : State π) : Prop where
  bounded : s.pipe.unread ≤ PIPESIZE
  pending : s.stored = s.taken ++ s.pipe.queue

/-- A step that keeps the bytes and the histories. -/
theorem Stream.congr {s t : State π} (h : Stream s) (hr : t.pipe.unread = s.pipe.unread)
    (hq : t.pipe.queue = s.pipe.queue) (hs : t.stored = s.stored) (ht : t.taken = s.taken) :
    Stream t where
  bounded := by
    rw [hr]
    exact h.bounded
  pending := by
    rw [hs, ht, hq]
    exact h.pending

theorem initial_stream (data : Fin PIPESIZE → Byte) (killed : π → Bool) :
    Stream (initial data killed) where
  bounded := by simp [initial, Pipe.unread]
  pending := by simp [initial, Pipe.queue]

theorem filled_stream {s : State π} (h : Stream s) (addr : ℕ → Byte) (n : ℤ) (i : ℕ) :
    Stream (filled s addr n i) := by
  obtain ⟨hj, -, -, -, hu, hq⟩ := fill_spec addr (n - i).toNat i s.pipe h.bounded
  have hlen : (fill addr (n - i).toNat i s.pipe).1 - i =
      min (n - i).toNat (PIPESIZE - s.pipe.unread) := by omega
  constructor
  · have := h.bounded
    change (fill addr (n - i).toNat i s.pipe).2.unread ≤ PIPESIZE
    omega
  · change s.stored ++ (List.range' i ((fill addr (n - i).toNat i s.pipe).1 - i)).map addr =
      s.taken ++ (fill addr (n - i).toNat i s.pipe).2.queue
    rw [hq, hlen, ← List.append_assoc, ← h.pending]

theorem drained_stream {s : State π} (h : Stream s) (n : ℤ) : Stream (drained s n) := by
  obtain ⟨-, -, hu, hq⟩ := drain_spec n.toNat s.pipe
  constructor
  · have := h.bounded
    change (drain n.toNat s.pipe).2.unread ≤ PIPESIZE
    omega
  · change s.stored = (s.taken ++ (drain n.toNat s.pipe).1) ++ (drain n.toNat s.pipe).2.queue
    rw [List.append_assoc, hq, h.pending]

theorem closeEnd_stream {s : State π} (h : Stream s) (writable : Bool) :
    Stream (closeEnd s writable) := by
  cases writable with
  | true => exact h.congr rfl rfl rfl rfl
  | false => exact h.congr rfl rfl rfl rfl

theorem pipeclose_stream {s : State π} (h : Stream s) (writable : Bool) :
    Stream (pipeclose s writable) := by
  have hc := closeEnd_stream h writable
  rw [pipeclose]
  split
  · exact hc.congr rfl rfl rfl rfl
  · exact hc

variable [DecidableEq π]

theorem pipewrite_stream {s : State π} (h : Stream s) (q : π) (addr : ℕ → Byte) (n : ℤ) (i : ℕ) :
    Stream (pipewrite s q addr n i) := by
  have hf := filled_stream h addr n i
  rw [pipewrite]
  split
  · split
    · exact hf.congr rfl rfl rfl rfl
    · exact hf.congr rfl rfl rfl rfl
  · exact hf.congr rfl rfl rfl rfl

theorem piperead_stream {s : State π} (h : Stream s) (q : π) (n : ℤ) :
    Stream (piperead s q n) := by
  rw [piperead]
  split
  · split
    · exact h.congr rfl rfl rfl rfl
    · exact h.congr rfl rfl rfl rfl
  · exact (drained_stream h n).congr rfl rfl rfl rfl

theorem kill_stream {s : State π} (h : Stream s) (q : π) : Stream (kill s q) := by
  rw [kill]
  split
  · exact h.congr rfl rfl rfl rfl
  · exact h.congr rfl rfl rfl rfl

theorem step_stream {s t : State π} {e : Event π} (h : Stream s) (hs : machine.Step s e t) :
    Stream t := by
  obtain ⟨-, rfl⟩ := hs
  cases e with
  | pipewrite q addr n => exact pipewrite_stream h q addr n 0
  | piperead q n => exact piperead_stream h q n
  | resume q =>
    change Stream (next s (.resume q))
    rw [next]
    split
    · rename_i c _
      cases c with
      | pipewrite addr n i => exact pipewrite_stream h q addr n i
      | piperead n => exact piperead_stream h q n
    · exact h
  | pipeclose q writable => exact pipeclose_stream h writable
  | kill q => exact kill_stream h q

theorem reaches_stream {data : Fin PIPESIZE → Byte} {killed : π → Bool} {es : List (Event π)}
    {s : State π} (r : Reaches data killed es s) : Stream s := by
  refine r.invariant ?_ fun _ _ _ h hs => step_stream h hs
  rintro _ rfl
  exact initial_stream data killed

/-- The counters stay within PIPESIZE of each other, and the bytes read are the first of the
bytes stored; the rest is what the ring holds. -/
theorem lossless_fifo {data : Fin PIPESIZE → Byte} {killed : π → Bool} {es : List (Event π)}
    {s : State π} (r : Reaches data killed es s) :
    (s.pipe.nwrite - s.pipe.nread).toNat ≤ PIPESIZE ∧ s.taken <+: s.stored ∧
      s.stored = s.taken ++ contents s.pipe.data s.pipe.nread s.pipe.nwrite := by
  have h := reaches_stream r
  refine ⟨h.bounded, ?_, h.pending⟩
  rw [h.pending]
  exact List.prefix_append s.taken s.pipe.queue

/-- A write of 600 bytes waits for room, a read of 100 bytes makes some. -/
def longWrite : List (Event (Fin 2)) :=
  [.piperead p1 100, .pipewrite p0 (fun k => BitVec.ofNat 8 k) 600, .resume p1, .resume p0]

theorem lossless_fifo_long :
    let s := machine.exec (initial (fun _ => 0) fun _ => false) longWrite
    ((s.pipe.nwrite - s.pipe.nread).toNat ≤ PIPESIZE ∧ s.taken <+: s.stored ∧
      s.stored = s.taken ++ contents s.pipe.data s.pipe.nread s.pipe.nwrite) ∧
    s.taken.length = 100 ∧ s.stored.length = 600 :=
  ⟨lossless_fifo (Machine.Valid.run (by decide +kernel)), by decide +kernel, by decide +kernel⟩

end PipeStream
