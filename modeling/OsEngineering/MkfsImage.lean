import OsEngineering.BlockAllocation

/-! mkfs.c: the program that makes the first file system. The image is the file `fsfd`, in
sectors of a block each; the host is little-endian, so xint() and xshort() change nothing. -/
namespace MkfsImage

open ByteBlock FaultState KernelParams BlockAllocation

def FSSIZE : ℕ := 1000
def NINODES : ℕ := 200
def ROOTINO : ℕ := 1
def DIRSIZ : ℕ := 14
def T_DIR : Half := 1
def T_FILE : Half := 2

def nbitmap : ℕ := FSSIZE / (BSIZE * 8) + 1
def ninodeblocks : ℕ := NINODES / IPB + 1
def nmeta : ℕ := 2 + nlog + ninodeblocks + nbitmap
def nblocks : ℕ := FSSIZE - nmeta

def sb : Superblock where
  size := FSSIZE
  nblocks := nblocks
  ninodes := NINODES
  inodestart := 2 + nlog
  bmapstart := 2 + nlog + ninodeblocks
  small := by decide
  inodes_fit := by
    intro i hi
    simp only [NINODES, ninodeblocks, IPB] at *
    omega
  bitmap_fit := by
    intro b hb
    simp only [FSSIZE, nblocks, nmeta, nlog, LOGSIZE, MAXOPBLOCKS, ninodeblocks, nbitmap, NINODES,
      IPB, BPB, BSIZE] at *
    omega

/-- An input file: `argv[i]`, and what open() and the calls of read() give. -/
structure HostFile where
  name : List Byte
  opens : Bool
  chunks : List (List Byte)
  terminated : ∀ c ∈ name, c ≠ 0
  sized : ∀ c ∈ chunks, c ≠ [] ∧ c.length ≤ BSIZE

/-- The bytes of a file. -/
def HostFile.bytes (f : HostFile) : List Byte := f.chunks.flatten

/-- The name without a leading underscore. -/
def HostFile.short (f : HostFile) : List Byte :=
  if f.name.head? = some 95 then f.name.tail else f.name

structure Mkfs where
  sectors : ℕ
  image : ℕ → DiskBlock
  freeinode : ℕ
  freeblock : ℕ

/-- exit(1) or a failed assert(). -/
inductive Stop where
  | exit
  | abort
  deriving DecidableEq, Repr

abbrev MkfsCode := Code Stop Mkfs

/-- The globals, and the file after open() with O_TRUNC. -/
def start : Mkfs := ⟨0, fun _ => zeros, 1, 0⟩

/-- A write past the end makes the file longer. -/
def wsect (sec : ℕ) (buf : DiskBlock) : MkfsCode Unit := modify fun s =>
  { s with sectors := max s.sectors (sec + 1), image := Function.update s.image sec buf }

/-- A read past the end is short. -/
def rsect (sec : ℕ) : MkfsCode DiskBlock := fun s =>
  if sec < s.sectors then .ok (s.image sec, s) else .error .exit

def winode (inum : ℕ) (ip : Inode) : MkfsCode Unit := do
  let buf ← rsect (inum / IPB + sb.inodestart)
  wsect (inum / IPB + sb.inodestart) (encodeDinode ip inum buf)

def rinode (inum : ℕ) : MkfsCode Inode := do
  let buf ← rsect (inum / IPB + sb.inodestart)
  pure (decodeDinode buf inum)

/-- freeinode++ -/
def nextInode : MkfsCode ℕ := fun s => .ok (s.freeinode, { s with freeinode := s.freeinode + 1 })

/-- freeblock++ -/
def nextBlock : MkfsCode ℕ := fun s => .ok (s.freeblock, { s with freeblock := s.freeblock + 1 })

def ialloc (type : Half) : MkfsCode ℕ := do
  let inum ← nextInode
  winode inum ⟨type, 0, 0, 1, 0, fun _ => 0⟩
  pure inum

/-- The bitmap with the first `used` bits set. -/
def firstBits (used : ℕ) : DiskBlock := (List.range used).foldl setBit zeros

def balloc (used : ℕ) : MkfsCode Unit :=
  if used < BSIZE * 8 then wsect sb.bmapstart (firstBits used) else throw .abort

/-- `din.addrs[k]`, taken from freeblock if it is 0. -/
def fillAddr (din : Inode) (k : ℕ) : MkfsCode Inode :=
  if din.addrs k = 0 then do
    let b ← nextBlock
    pure (din.setAddr k (BitVec.ofNat 32 b))
  else pure din

/-- The same for an entry of the indirect block `a`, which is read into `indirect`. -/
def fillEntry (a : ℕ) (indirect : DiskBlock) (j : ℕ) : MkfsCode DiskBlock :=
  if word indirect j = 0 then do
    let b ← nextBlock
    wsect a (setWord indirect j (BitVec.ofNat 32 b))
    pure (setWord indirect j (BitVec.ofNat 32 b))
  else pure indirect

/-- The block `x` that iappend() writes to, and the inode it may have changed. -/
def blockOf (din : Inode) (fbn : ℕ) : MkfsCode (Inode × ℕ) :=
  if fbn < NDIRECT then do
    let din ← fillAddr din fbn
    pure (din, (din.addrs fbn).toNat)
  else do
    let din ← fillAddr din NDIRECT
    let indirect ← rsect (din.addrs NDIRECT).toNat
    let indirect ← fillEntry (din.addrs NDIRECT).toNat indirect (fbn - NDIRECT)
    pure (din, (word indirect (fbn - NDIRECT)).toNat)

/-- bcopy(p, buf + pos, n) -/
def bcopy (p : List Byte) (buf : DiskBlock) (pos n : ℕ) : DiskBlock := fun j =>
  if pos ≤ j ∧ j < pos + n then p.getD (j - pos) 0 else buf j

/-- The loop of iappend(); each round takes at least one byte of `p`. -/
def iappendFrom : ℕ → Inode → ℕ → List Byte → MkfsCode (Inode × ℕ)
  | 0, din, off, _ => pure (din, off)
  | k + 1, din, off, p =>
    if p = [] then pure (din, off)
    else if off / BSIZE < MAXFILE then do
      let (din, x) ← blockOf din (off / BSIZE)
      let n1 := min p.length ((off / BSIZE + 1) * BSIZE - off)
      let buf ← rsect x
      wsect x (bcopy p buf (off - off / BSIZE * BSIZE) n1)
      iappendFrom k din (off + n1) (p.drop n1)
    else throw .abort

def iappend (inum : ℕ) (p : List Byte) : MkfsCode Unit := do
  let din ← rinode inum
  let (din, off) ← iappendFrom p.length din din.size.toNat p
  winode inum { din with size := BitVec.ofNat 32 off }

/-- strncpy() into a name of zeros. -/
def strncpy (name : List Byte) : List Byte :=
  name.take DIRSIZ ++ List.replicate (DIRSIZ - name.length) 0

/-- A `struct dirent`, the number first. -/
def dirent (inum : ℕ) (name : List Byte) : List Byte :=
  BitVec.ofNat 8 inum :: BitVec.ofNat 8 (inum / 256) :: strncpy name

def appendAll (inum : ℕ) : List (List Byte) → MkfsCode Unit
  | [] => pure ()
  | c :: chunks => do
    iappend inum c
    appendAll inum chunks

/-- One round of main()'s loop over the input files; 47 is a slash. -/
def addFile (f : HostFile) : MkfsCode ℕ :=
  if 47 ∈ f.name then throw .abort
  else if f.opens = false then throw .exit
  else do
    let inum ← ialloc T_FILE
    iappend ROOTINO (dirent inum f.short)
    appendAll inum f.chunks
    pure inum

def addFiles : List HostFile → MkfsCode (List ℕ)
  | [] => pure []
  | f :: files => do
    let inum ← addFile f
    let inums ← addFiles files
    pure (inum :: inums)

/-- The first loop of main(), with `k` rounds left. -/
def zeroFrom : ℕ → MkfsCode Unit
  | 0 => pure ()
  | k + 1 => do
    wsect (FSSIZE - (k + 1)) zeros
    zeroFrom k

/-- The `struct superblock` in a block of zeros. -/
def superblock : DiskBlock := setWords zeros 0 7 fun k => BitVec.ofNat 32
  ([sb.size, sb.nblocks, sb.ninodes, nlog, 2, sb.inodestart, sb.bmapstart].getD k 0)

/-- The end of main(), which rounds up the size of the root directory. -/
def finish (rootino : ℕ) : MkfsCode Unit := do
  let din ← rinode rootino
  winode rootino
    { din with size := BitVec.ofNat 32 ((din.size.toNat / BSIZE + 1) * BSIZE) }
  let s ← get
  balloc s.freeblock

/-- main() from the first ialloc() on. -/
def populate (files : List HostFile) : MkfsCode (List ℕ) := do
  let rootino ← ialloc T_DIR
  if rootino = ROOTINO then do
    iappend rootino (dirent rootino [46])
    iappend rootino (dirent rootino [46, 46])
    let inums ← addFiles files
    finish rootino
    pure (rootino :: rootino :: inums)
  else throw .abort

/-- main() with the names of the input files; returns the inode numbers that it puts into the
root directory. -/
def main (files : List HostFile) : MkfsCode (List ℕ) := do
  modify fun s => { s with freeblock := nmeta }
  zeroFrom FSSIZE
  wsect 1 superblock
  populate files

end MkfsImage
