import OsEngineering.ByteBlock
import OsEngineering.FaultState
import OsEngineering.KernelParams
import OsEngineering.TransitionSystem
import Mathlib.Logic.Function.Basic

/-! The block layer of fs.c: the free bitmap, the inode blocks, the blocks of a file. The
disk is what bread() shows; block numbers are natural numbers, and those stored on disk and
in inodes are 32-bit words. -/
namespace BlockAllocation

open ByteBlock FaultState KernelParams TransitionSystem

def NDIRECT : ℕ := 12
def NINDIRECT : ℕ := 128
def MAXFILE : ℕ := NDIRECT + NINDIRECT
def IPB : ℕ := 8
def BPB : ℕ := 4096
def T_DEV : Half := 3

/-- A superblock as mkfs lays out the disk: inode blocks, bitmap and data in this order. -/
structure Superblock where
  size : ℕ
  nblocks : ℕ
  ninodes : ℕ
  inodestart : ℕ
  bmapstart : ℕ
  small : size < 2 ^ 31
  inodes_fit : ∀ i < ninodes, i / IPB + inodestart < bmapstart
  bitmap_fit : ∀ b < size, b / BPB + bmapstart < size - nblocks

def Superblock.nmeta (sb : Superblock) : ℕ := sb.size - sb.nblocks

abbrev DiskBlock := Block BSIZE

structure Inode where
  type : Half
  major : Half
  minor : Half
  nlink : Half
  size : Word
  addrs : ℕ → Word

/-- A call of balloc(): the block and the disk before and after. -/
structure Handed where
  block : ℕ
  before : ℕ → DiskBlock
  after : ℕ → DiskBlock

/-- `icache` holds the valid in-memory inodes; `handed` only records calls of balloc(). -/
structure Fs where
  disk : ℕ → DiskBlock
  icache : ℕ → Option Inode
  handed : List Handed

inductive Fault where
  | panic (msg : String)
  deriving DecidableEq, Repr

abbrev FsCode := Code Fault Fs

def panic {α : Type} (msg : String) : FsCode α := throw (.panic msg)

def bread (b : ℕ) : FsCode DiskBlock := fun s => .ok (s.disk b, s)

/-- A change of a buffer's data and log_write(). -/
def change (b : ℕ) (f : DiskBlock → DiskBlock) : FsCode Unit :=
  modify fun s => { s with disk := Function.update s.disk b (f (s.disk b)) }

/-! The on-disk inode: 64 bytes, of which `addrs[NDIRECT+1]` takes the last 13 words. -/

def decodeDinode (v : DiskBlock) (i : ℕ) : Inode where
  type := half v (32 * (i % IPB))
  major := half v (32 * (i % IPB) + 1)
  minor := half v (32 * (i % IPB) + 2)
  nlink := half v (32 * (i % IPB) + 3)
  size := word v (16 * (i % IPB) + 2)
  addrs := fun k => if k ≤ NDIRECT then word v (16 * (i % IPB) + 3 + k) else 0

/-- memmove() of `n` words to word `base`. -/
def setWords (v : DiskBlock) (base n : ℕ) (f : ℕ → Word) : DiskBlock :=
  (List.range n).foldl (fun v k => setWord v (base + k) (f k)) v

def encodeDinode (ip : Inode) (i : ℕ) (v : DiskBlock) : DiskBlock :=
  let v := setHalf v (32 * (i % IPB)) ip.type
  let v := setHalf v (32 * (i % IPB) + 1) ip.major
  let v := setHalf v (32 * (i % IPB) + 2) ip.minor
  let v := setHalf v (32 * (i % IPB) + 3) ip.nlink
  let v := setWord v (16 * (i % IPB) + 2) ip.size
  setWords v (16 * (i % IPB) + 3) (NDIRECT + 1) ip.addrs

section Kernel

variable (sb : Superblock)

def bzero (bno : ℕ) : FsCode Unit := change bno fun _ => zeros

/-- The inner loop of balloc() from `bi` on. -/
def findFree (v : DiskBlock) (b : ℕ) : ℕ → ℕ → Option ℕ
  | 0, _ => none
  | k + 1, bi =>
    if b + bi < sb.size then
      if bit v bi = false then some bi else findFree v b k (bi + 1)
    else none

def ballocFrom : ℕ → ℕ → FsCode ℕ
  | 0, _ => panic "balloc: out of blocks"
  | k + 1, b =>
    if b < sb.size then do
      let v ← bread (b / BPB + sb.bmapstart)
      match findFree sb v b BPB 0 with
      | some bi =>
        change (b / BPB + sb.bmapstart) fun v => setBit v bi
        bzero (b + bi)
        pure (b + bi)
      | none => ballocFrom k (b + BPB)
    else panic "balloc: out of blocks"

def balloc : FsCode ℕ := do
  let before ← get
  let b ← ballocFrom sb (sb.size / BPB + 1) 0
  modify fun s => { s with handed := ⟨b, before.disk, s.disk⟩ :: s.handed }
  pure b

def bfree (b : ℕ) : FsCode Unit := do
  let v ← bread (b / BPB + sb.bmapstart)
  if bit v (b % BPB) = false then panic "freeing free block"
  else change (b / BPB + sb.bmapstart) fun v => clearBit v (b % BPB)

def dinode (s : Fs) (i : ℕ) : Inode := decodeDinode (s.disk (i / IPB + sb.inodestart)) i

/-- The in-memory copy where the inode is cached, else the one on disk. -/
def inode (s : Fs) (i : ℕ) : Inode := (s.icache i).getD (dinode sb s i)

def ip (i : ℕ) : FsCode Inode := fun s => .ok (inode sb s i, s)

def setInode (i : ℕ) (f : Inode → Inode) : FsCode Unit :=
  modify fun s => { s with icache := Function.update s.icache i (some (f (inode sb s i))) }

def Inode.setAddr (ip : Inode) (k : ℕ) (a : Word) : Inode :=
  { ip with addrs := Function.update ip.addrs k a }

def iupdate (i : ℕ) : FsCode Unit := do
  let ip ← ip sb i
  change (i / IPB + sb.inodestart) (encodeDinode ip i)

/-- The part of ilock() that follows acquiresleep(). -/
def ilock (i : ℕ) : FsCode Unit := do
  let s ← get
  match s.icache i with
  | some _ => pure ()
  | none =>
    setInode sb i id
    if (dinode sb s i).type = 0 then panic "ilock: no type" else pure ()

/-- The block in `addrs[k]`, allocated if there is none. -/
def bmapAddr (i k : ℕ) : FsCode ℕ := do
  let ip ← ip sb i
  if ip.addrs k = 0 then
    let addr ← balloc sb
    setInode sb i fun ip => ip.setAddr k (BitVec.ofNat 32 addr)
    pure addr
  else pure (ip.addrs k).toNat

def bmap (i bn : ℕ) : FsCode ℕ :=
  if bn < NDIRECT then bmapAddr sb i bn
  else
    let bn := bn - NDIRECT
    if bn < NINDIRECT then do
      let addr ← bmapAddr sb i NDIRECT
      let a ← bread addr
      if word a bn = 0 then
        let b ← balloc sb
        change addr fun a => setWord a bn (BitVec.ofNat 32 b)
        pure b
      else pure (word a bn).toNat
    else panic "bmap: out of range"

/-- bfree() of the block in `addrs[k]`, and the slot cleared. -/
def freeAddr (i k : ℕ) : FsCode Unit := do
  let ip ← ip sb i
  bfree sb (ip.addrs k).toNat
  setInode sb i fun ip => ip.setAddr k 0

/-- The first loop of itrunc(), with `k` rounds left. -/
def freeDirect (i : ℕ) : ℕ → FsCode Unit
  | 0 => pure ()
  | k + 1 => do
    let ip ← ip sb i
    if ip.addrs (NDIRECT - (k + 1)) ≠ 0 then freeAddr sb i (NDIRECT - (k + 1)) else pure ()
    freeDirect i k

/-- The loop over the entries of the indirect block `a`, with `k` rounds left. -/
def freeEntries (a : DiskBlock) : ℕ → FsCode Unit
  | 0 => pure ()
  | k + 1 => do
    if word a (NINDIRECT - (k + 1)) ≠ 0 then bfree sb (word a (NINDIRECT - (k + 1))).toNat
    else pure ()
    freeEntries a k

def freeIndirect (i : ℕ) : FsCode Unit := do
  let ip ← ip sb i
  if ip.addrs NDIRECT ≠ 0 then
    let a ← bread (ip.addrs NDIRECT).toNat
    freeEntries sb a NINDIRECT
    freeAddr sb i NDIRECT
  else pure ()

def itrunc (i : ℕ) : FsCode Unit := do
  freeDirect sb i NDIRECT
  freeIndirect sb i
  setInode sb i fun ip => { ip with size := 0 }
  iupdate sb i

/-- memmove(bp->data + off % BSIZE, src + tot, m). -/
def copyIn (v : DiskBlock) (off : ℕ) (src : ℕ → Byte) (tot m : ℕ) : DiskBlock := fun j =>
  if off % BSIZE ≤ j ∧ j < off % BSIZE + m then src (tot + (j - off % BSIZE)) else v j

/-- The loop of writei(); each round takes at least one byte. -/
def writeFrom (i : ℕ) (src : ℕ → Byte) (n : ℕ) : ℕ → ℕ → ℕ → FsCode Unit
  | 0, _, _ => pure ()
  | k + 1, tot, off =>
    if tot < n then do
      let b ← bmap sb i (off / BSIZE)
      let m := min (n - tot) (BSIZE - off % BSIZE)
      change b fun v => copyIn v off src tot m
      writeFrom i src n k (tot + m) (off + m)
    else pure ()

/-- The end of writei(), where `off` has grown by `n`. -/
def extend (i : ℕ) (off n : Word) : FsCode Unit := do
  let ip ← ip sb i
  if 0 < n ∧ ip.size < off then
    setInode sb i fun ip => { ip with size := off }
    iupdate sb i
  else pure ()

/-- `dev` stands for the table devsw[]: what the write function of a device returns. -/
def writei (dev : Half → Option (Word → ℤ)) (i : ℕ) (src : ℕ → Byte) (off n : Word) :
    FsCode ℤ := do
  let ip ← ip sb i
  if ip.type = T_DEV then
    match dev ip.major with
    | none => pure (-1)
    | some write => pure (write n)
  else if ip.size < off ∨ off + n < off then pure (-1)
  else if MAXFILE * BSIZE < (off + n).toNat then pure (-1)
  else do
    writeFrom sb i src n.toNat n.toNat 0 off.toNat
    extend sb i (off + n) n
    pure n.toInt

/-- The branch of iput() for the last reference to an inode without links. -/
def free (i : ℕ) : FsCode Unit := do
  itrunc sb i
  setInode sb i fun ip => { ip with type := 0 }
  iupdate sb i
  modify fun s => { s with icache := Function.update s.icache i none }

/-- The section of iput() under ip->lock, which reads `r` in ip->ref. -/
def iputSection (i : ℕ) (r : ℤ) : FsCode Unit := do
  let s ← get
  match s.icache i with
  | none => pure ()
  | some ip => if ip.nlink = 0 ∧ r = 1 then free sb i else pure ()

/-! Operations on any inodes, one after the other; a panic halts the machine. -/

inductive Op where
  | bmap (i bn : ℕ)
  | writei (dev : Half → Option (Word → ℤ)) (i : ℕ) (src : ℕ → Byte) (off n : Word)
  | itrunc (i : ℕ)
  | iput (i : ℕ) (r : ℤ)

def Op.inum : Op → ℕ
  | .bmap i _ => i
  | .writei _ i _ _ _ => i
  | .itrunc i => i
  | .iput i _ => i

def Op.run : Op → FsCode Unit
  | .bmap i bn => do
    ilock sb i
    let _ ← BlockAllocation.bmap sb i bn
  | .writei dev i src off n => do
    ilock sb i
    let _ ← BlockAllocation.writei sb dev i src off n
  | .itrunc i => do
    ilock sb i
    BlockAllocation.itrunc sb i
  | .iput i r => iputSection sb i r

structure State where
  fs : Fs
  halted : Option Fault

def next (s : State) (op : Op) : State :=
  match op.run sb s.fs with
  | .ok (_, fs) => ⟨fs, none⟩
  | .error e => ⟨s.fs, some e⟩

def machine : Machine State Op where
  enabled s op := s.halted = none ∧ op.inum < sb.ninodes
  next := next sb

end Kernel

end BlockAllocation
