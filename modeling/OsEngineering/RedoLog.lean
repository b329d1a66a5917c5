import OsEngineering.KernelParams
import Mathlib.Data.List.Nodup
import Mathlib.Logic.Function.Basic
import Mathlib.Algebra.Order.Ring.Int

/-! The in-memory data of log.c and the pure parts of begin_op() and log_write(). -/
namespace RedoLog

open KernelParams

/-- `struct logheader`; the entries of `block` below `n` are in use. -/
structure LogHeader where
  n : ℕ
  block : ℕ → BlockNo

/-- `struct log` without its spin-lock and device. -/
structure Log where
  start : BlockNo
  size : ℤ
  outstanding : ℤ
  committing : Bool
  lh : LogHeader

def LogHeader.blocks (lh : LogHeader) : List BlockNo := (List.range lh.n).map lh.block

/-- The index at which the scan of log_write() stops: the first slot holding `b`
(log absorption) or `n`. -/
def LogHeader.slot (lh : LogHeader) (b : BlockNo) : ℕ := lh.blocks.idxOf b

/-- The two assignments of log_write() after the scan. -/
def LogHeader.record (lh : LogHeader) (b : BlockNo) : LogHeader where
  n := if lh.slot b = lh.n then lh.n + 1 else lh.n
  block := Function.update lh.block (lh.slot b) b

/-- The size test of log_write(), made before log.lock is taken. -/
def Log.tooBig (log : Log) : Prop := LOGSIZE ≤ log.lh.n ∨ log.size - 1 ≤ log.lh.n

instance (log : Log) : Decidable log.tooBig := inferInstanceAs (Decidable (_ ∨ _))

/-- The space test of begin_op(). -/
def Log.exhausted (log : Log) : Prop :=
  (LOGSIZE : ℤ) < log.lh.n + (log.outstanding + 1) * MAXOPBLOCKS

instance (log : Log) : Decidable log.exhausted := inferInstanceAs (Decidable (_ < _))

@[simp] theorem blocks_length (lh : LogHeader) : lh.blocks.length = lh.n := by
  simp [LogHeader.blocks]

theorem blocks_getElem? (lh : LogHeader) {i : ℕ} (h : i < lh.n) :
    lh.blocks[i]? = some (lh.block i) := by
  simp [LogHeader.blocks, h]

theorem mem_blocks {lh : LogHeader} {b : BlockNo} :
    b ∈ lh.blocks ↔ ∃ i < lh.n, lh.block i = b := by
  simp [LogHeader.blocks]

@[simp] theorem blocks_zero (lh : LogHeader) (h : lh.n = 0) : lh.blocks = [] := by
  simp [LogHeader.blocks, h]

theorem slot_lt {lh : LogHeader} {b : BlockNo} (h : b ∈ lh.blocks) : lh.slot b < lh.n := by
  simpa [LogHeader.slot] using List.idxOf_lt_length_of_mem h

theorem slot_eq {lh : LogHeader} {b : BlockNo} (h : b ∉ lh.blocks) : lh.slot b = lh.n := by
  simpa [LogHeader.slot] using List.idxOf_of_notMem h

theorem block_slot {lh : LogHeader} {b : BlockNo} (h : b ∈ lh.blocks) :
    lh.block (lh.slot b) = b := by
  have hs := slot_lt h
  have := blocks_getElem? lh hs
  rw [LogHeader.slot, List.getElem?_idxOf h] at this
  exact (Option.some.inj this).symm

/-- Recording an absorbed block leaves the header as it is. -/
theorem record_of_mem {lh : LogHeader} {b : BlockNo} (h : b ∈ lh.blocks) :
    lh.record b = lh := by
  have hs := slot_lt h
  cases lh with
  | mk n block =>
    simp only [LogHeader.record, LogHeader.mk.injEq]
    constructor
    · exact if_neg (Nat.ne_of_lt hs)
    · exact Function.update_eq_self_iff.mpr (block_slot h).symm

theorem record_of_not_mem {lh : LogHeader} {b : BlockNo} (h : b ∉ lh.blocks) :
    lh.record b = ⟨lh.n + 1, Function.update lh.block lh.n b⟩ := by
  simp [LogHeader.record, slot_eq h]

theorem blocks_record {lh : LogHeader} {b : BlockNo} :
    (lh.record b).blocks = if b ∈ lh.blocks then lh.blocks else lh.blocks ++ [b] := by
  split
  · next h => rw [record_of_mem h]
  · next h =>
    rw [record_of_not_mem h]
    simp only [LogHeader.blocks, List.range_succ, List.map_append, List.map_cons, List.map_nil,
      Function.update_self, List.append_cancel_right_eq]
    apply List.map_congr_left
    intro i hi
    exact Function.update_of_ne (Nat.ne_of_lt (List.mem_range.mp hi)) _ _

theorem mem_blocks_record {lh : LogHeader} {b c : BlockNo} :
    c ∈ (lh.record b).blocks ↔ c = b ∨ c ∈ lh.blocks := by
  rw [blocks_record]
  split
  · next h => exact ⟨Or.inr, fun k => k.elim (fun e => e ▸ h) id⟩
  · simp [or_comm]

theorem nodup_record {lh : LogHeader} {b : BlockNo} (h : lh.blocks.Nodup) :
    (lh.record b).blocks.Nodup := by
  rw [blocks_record]
  split
  · exact h
  · next hb =>
    refine List.nodup_append.mpr ⟨h, List.nodup_singleton b, ?_⟩
    intro c hc d hd
    rintro rfl
    exact hb (List.mem_singleton.mp hd ▸ hc)

end RedoLog
