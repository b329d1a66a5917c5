import OsEngineering.RedoLog
import OsEngineering.ByteBlock
import OsEngineering.CrashHoare

/-! Crash atomicity of log.c. One process runs transactions; a disk write is one durable
step; a reboot keeps the disk and runs recover_from_log() on fresh memory. The buffer cache
is a map from block numbers to valid buffers; bget() may recycle any clean buffer, which
the policy `reclaim` decides. -/
namespace RedoLogCrash

open KernelParams RedoLog ByteBlock CrashHoare

abbrev DiskBlock := Block BSIZE

structure Buf where
  data : DiskBlock
  dirty : Bool

structure Mem where
  log : Log
  cache : BlockNo → Option Buf

/-- `written` lists the block writes that reached the disk, the latest one first. -/
structure Disk where
  blocks : BlockNo → DiskBlock
  written : List (BlockNo × DiskBlock)

def Disk.put (d : Disk) (b : BlockNo) (v : DiskBlock) : Disk :=
  ⟨Function.update d.blocks b v, (b, v) :: d.written⟩

def Mem.hold (m : Mem) (b : BlockNo) (buf : Buf) : Mem :=
  { m with cache := Function.update m.cache b (some buf) }

/-- Buffers without B_DIRTY may have been recycled for other blocks. -/
def Mem.recycle (m : Mem) (gone : BlockNo → Bool) : Mem :=
  { m with cache := fun b => (m.cache b).filter fun buf => buf.dirty || !gone b }

/-! The on-disk header: word 0 is `n`, word `i + 1` is `block[i]`. -/

/-- What read_head() makes of a header block; a negative `n` runs no loop, like 0. -/
def decodeHead (v : DiskBlock) : LogHeader where
  n := (word v 0).toInt.toNat
  block := fun i => word v (i + 1)

/-- The copying loop of read_head(): entries behind `n` keep their old values. -/
def loadHead (lh disk : LogHeader) : LogHeader where
  n := disk.n
  block := fun i => if i < disk.n then disk.block i else lh.block i

/-- What write_head() makes of the old contents of the header block. -/
def encodeHead (lh : LogHeader) (old : DiskBlock) : DiskBlock :=
  (List.range lh.n).foldl (fun v i => setWord v (i + 1) (lh.block i))
    (setWord old 0 (BitVec.ofNat 32 lh.n))

section Kernel

variable (reclaim : Mem → BlockNo → Bool)

def bread (b : BlockNo) : Code Mem Disk DiskBlock := Code.step fun m d =>
  let m := m.recycle (reclaim m)
  match m.cache b with
  | some buf => (buf.data, m)
  | none => (d.blocks b, m.hold b ⟨d.blocks b, false⟩)

def bwrite (b : BlockNo) (data : DiskBlock) : Code Mem Disk Unit :=
  Code.write (fun d => d.put b data) (fun m => m.hold b ⟨data, false⟩)

/-- log_write() of a buffer whose data the caller has set to `data`. -/
def logWrite (b : BlockNo) (data : DiskBlock) : Code Mem Disk Unit := do
  let m ← Code.get
  if m.log.tooBig then Code.panic "too big a transaction"
  else if m.log.outstanding < 1 then Code.panic "log_write outside of trans"
  else Code.modify fun m =>
    { m with log := { m.log with lh := m.log.lh.record b } }.hold b ⟨data, true⟩

def logBlock (start : BlockNo) (tail : ℕ) : BlockNo := start + BitVec.ofNat 32 tail + 1

def writeLog : Code Mem Disk Unit := do
  let m ← Code.get
  Code.loop (fun tail => do
    let _to ← bread reclaim (logBlock m.log.start tail)
    let data ← bread reclaim (m.log.lh.block tail)
    bwrite (logBlock m.log.start tail) data) 0 m.log.lh.n

def writeHead : Code Mem Disk Unit := do
  let m ← Code.get
  let buf ← bread reclaim m.log.start
  bwrite m.log.start (encodeHead m.log.lh buf)

def installTrans : Code Mem Disk Unit := do
  let m ← Code.get
  Code.loop (fun tail => do
    let lbuf ← bread reclaim (logBlock m.log.start tail)
    let _dbuf ← bread reclaim (m.log.lh.block tail)
    bwrite (m.log.lh.block tail) lbuf) 0 m.log.lh.n

def clearHead : Code Mem Disk Unit := Code.modify fun m =>
  { m with log := { m.log with lh := { m.log.lh with n := 0 } } }

def commit : Code Mem Disk Unit := do
  let m ← Code.get
  if 0 < m.log.lh.n then
    writeLog reclaim
    writeHead reclaim
    installTrans reclaim
    clearHead
    writeHead reclaim
  else pure ()

def readHead : Code Mem Disk Unit := do
  let m ← Code.get
  let buf ← bread reclaim m.log.start
  Code.modify fun m => { m with log := { m.log with lh := loadHead m.log.lh (decodeHead buf) } }

def recoverFromLog : Code Mem Disk Unit := do
  readHead reclaim
  installTrans reclaim
  clearHead
  writeHead reclaim

/-- bread(), a change of the data, log_write(). -/
structure Update where
  blockno : BlockNo
  change : DiskBlock → DiskBlock

def update (u : Update) : Code Mem Disk Unit := do
  let data ← bread reclaim u.blockno
  logWrite u.blockno (u.change data)

def addOutstanding (k : ℤ) : Code Mem Disk Unit := Code.modify fun m =>
  { m with log := { m.log with outstanding := m.log.outstanding + k } }

/-- begin_op() and end_op() around the updates, with nobody else active. -/
def transaction (us : List Update) : Code Mem Disk Unit := do
  addOutstanding 1
  Code.each (update reclaim) us
  addOutstanding (-1)
  commit reclaim

def transactions (ts : List (List Update)) : Code Mem Disk Unit :=
  Code.each (transaction reclaim) ts

/-- From initlog() on. -/
def session (ts : List (List Update)) : Code Mem Disk Unit := do
  recoverFromLog reclaim
  transactions reclaim ts

end Kernel

/-- Memory after a boot: initlog() has read `start` and `size` from the superblock. -/
def boot (start : BlockNo) (size : ℤ) : Mem :=
  ⟨⟨start, size, 0, false, ⟨0, fun _ => 0⟩⟩, fun _ => none⟩

/-! What transactions mean: a home state changes by all updates of a transaction at once. -/

abbrev Home := BlockNo → DiskBlock

def applyUpdate (H : Home) (u : Update) : Home :=
  Function.update H u.blockno (u.change (H u.blockno))

def applyTransaction (H : Home) (us : List Update) : Home := us.foldl applyUpdate H

def applyTransactions (H : Home) (ts : List (List Update)) : Home :=
  ts.foldl applyTransaction H

/-- The transactions for which commit() writes anything. -/
def nonempty (ts : List (List Update)) : List (List Update) := ts.filter fun us => !us.isEmpty

/-- The header block and the `size - 1` blocks after it. -/
def InLog (start : BlockNo) (size : ℤ) (b : BlockNo) : Prop :=
  b = start ∨ ∃ i : ℕ, (i : ℤ) + 1 < size ∧ b = logBlock start i

/-- Writes of a header with `n > 0`: one for each transaction that commits something. -/
def commits (start : BlockNo) (d : Disk) : ℕ :=
  d.written.countP fun w => decide (w.1 = start ∧ 0 < (decodeHead w.2).n)

/-! The header format. -/

theorem word_fold (f : ℕ → BlockNo) (v : DiskBlock) {n : ℕ} (hn : n ≤ LOGSIZE) (j : ℕ) :
    word ((List.range n).foldl (fun v i => setWord v (i + 1) (f i)) v) j =
      if 0 < j ∧ j ≤ n then f (j - 1) else word v j := by
  induction n with
  | zero =>
    rw [if_neg (by omega)]
    rfl
  | succ n ih =>
    rw [List.range_succ, List.foldl_append, List.foldl_cons, List.foldl_nil]
    by_cases hj : j = n + 1
    · subst hj
      rw [word_setWord_self _ _ (by simp only [BSIZE, LOGSIZE, MAXOPBLOCKS] at *; omega),
        if_pos ⟨by omega, le_rfl⟩]
      rfl
    · rw [word_setWord_ne _ _ hj, ih (by omega)]
      congr 1
      simp only [eq_iff_iff]
      omega

theorem decode_encode_n {lh : LogHeader} (h : lh.n ≤ LOGSIZE) (old : DiskBlock) :
    (decodeHead (encodeHead lh old)).n = lh.n := by
  have hn : lh.n < 2 ^ 31 := by simp only [LOGSIZE, MAXOPBLOCKS] at h; omega
  simp only [decodeHead, encodeHead]
  rw [word_fold _ _ h, if_neg (by omega), word_setWord_self _ _ (by simp [BSIZE]),
    BitVec.toInt_ofNat']
  have : (lh.n : ℤ).bmod (2 ^ 32) = lh.n := by
    rw [Int.bmod_eq_of_le] <;> omega
  rw [this]
  exact Int.toNat_natCast lh.n

theorem decode_encode_block {lh : LogHeader} (h : lh.n ≤ LOGSIZE) (old : DiskBlock) {i : ℕ}
    (hi : i < lh.n) : (decodeHead (encodeHead lh old)).block i = lh.block i := by
  simp only [decodeHead, encodeHead]
  rw [word_fold _ _ h, if_pos ⟨by omega, by omega⟩]
  rfl

/-! Where blocks lie. -/

theorem logBlock_ne_start (start : BlockNo) {i : ℕ} (h : i < LOGSIZE) :
    logBlock start i ≠ start := by
  simp only [LOGSIZE, MAXOPBLOCKS] at h
  unfold logBlock
  bv_omega

theorem logBlock_inj {start : BlockNo} {i j : ℕ} (hi : i < LOGSIZE) (hj : j < LOGSIZE)
    (h : logBlock start i = logBlock start j) : i = j := by
  simp only [LOGSIZE, MAXOPBLOCKS] at hi hj
  unfold logBlock at h
  bv_omega

theorem ne_start_of_home {start b : BlockNo} {size : ℤ} (h : ¬ InLog start size b) :
    b ≠ start := fun e => h (Or.inl e)

theorem ne_logBlock_of_home {start b : BlockNo} {size : ℤ} (h : ¬ InLog start size b)
    {i : ℕ} (hi : (i : ℤ) + 1 < size) : b ≠ logBlock start i := fun e => h (Or.inr ⟨i, hi, e⟩)

/-! Disk writes. -/

@[simp] theorem put_self (d : Disk) (b : BlockNo) (v : DiskBlock) :
    (d.put b v).blocks b = v := by simp [Disk.put]

theorem put_ne (d : Disk) {b c : BlockNo} (v : DiskBlock) (h : c ≠ b) :
    (d.put b v).blocks c = d.blocks c := by simp [Disk.put, h]

theorem commits_put_ne {start b : BlockNo} (d : Disk) (v : DiskBlock) (h : b ≠ start) :
    commits start (d.put b v) = commits start d := by
  simp [commits, Disk.put, h]

theorem commits_put_head (start : BlockNo) (d : Disk) (v : DiskBlock) :
    commits start (d.put start v) =
      commits start d + if 0 < (decodeHead v).n then 1 else 0 := by
  simp [commits, Disk.put, List.countP_cons]

end RedoLogCrash
