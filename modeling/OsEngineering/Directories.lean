import OsEngineering.FileReads

/-! Directories of fs.c over the block layer, with the references and the locks of inodes: iget()
and iput(), dirlookup(), dirlink(), and what sys_unlink() writes. All inodes are on one device. -/
namespace Directories

open ByteBlock FaultState KernelParams BlockAllocation FileReads

def NINODE : ℕ := 50

/-- `ref` and `inuse` count the references to the inodes and the inodes with references; `held`
lists the inodes that the process has locked. -/
structure Kernel where
  fs : Fs
  ref : ℕ → ℤ
  inuse : ℕ
  held : List ℕ

inductive Fault where
  | panic (msg : String)
  /-- A wait for a sleep lock of the process itself. -/
  | deadlock (inum : ℕ)
  deriving DecidableEq, Repr

abbrev DirCode := Code Fault Kernel

def onFs {α : Type} (c : FsCode α) : DirCode α := fun s =>
  match c s.fs with
  | .ok (a, fs) => .ok (a, { s with fs := fs })
  | .error (.panic msg) => .error (.panic msg)

def acquiresleep (i : ℕ) : DirCode Unit := fun s =>
  if i ∈ s.held then .error (.deadlock i) else .ok ((), { s with held := i :: s.held })

def releasesleep (i : ℕ) : DirCode Unit := fun s =>
  .ok ((), { s with held := s.held.erase i })

/-- An entry of icache that is taken for `i` is not valid. -/
def iget (i : ℕ) : DirCode Unit := fun s =>
  if 0 < s.ref i then .ok ((), { s with ref := Function.update s.ref i (s.ref i + 1) })
  else if s.inuse < NINODE then
    .ok ((), { s with
      fs := { s.fs with icache := Function.update s.fs.icache i none }
      ref := Function.update s.ref i 1
      inuse := s.inuse + 1 })
  else .error (.panic "iget: no inodes")

/-- strncpy() of `n` bytes. -/
def strncpy : ℕ → List Byte → List Byte
  | 0, _ => []
  | n + 1, t => if t.headD 0 = 0 then List.replicate (n + 1) 0 else t.headD 0 :: strncpy n t.tail

/-- The bytes of a struct dirent; `inum` is a ushort. -/
def dirent (inum : ℕ) (name : List Byte) : List Byte :=
  BitVec.ofNat 8 inum :: BitVec.ofNat 8 (inum / 256) :: name

section Source

variable (sb : Superblock)

/-- Nobody looks at an inode in icache that has no references. -/
def iput (i : ℕ) : DirCode Unit := do
  acquiresleep i
  let s ← get
  onFs (iputSection sb i (s.ref i))
  releasesleep i
  modify fun s =>
    if s.ref i = 1 then
      { s with
        fs := { s.fs with icache := Function.update s.fs.icache i none }
        ref := Function.update s.ref i 0
        inuse := s.inuse - 1 }
    else { s with ref := Function.update s.ref i (s.ref i - 1) }

variable (read : Half → Option (Word → ℤ × List Byte)) (write : Half → Option (Word → ℤ))

/-- dirlookup() with its iget(). -/
def dirlookup (dp : ℕ) (name : List Byte) : DirCode (Option (ℕ × Word)) := do
  match ← onFs (FileReads.dirlookup sb read dp name) with
  | none => pure none
  | some (inum, off) => do
    iget inum
    pure (some (inum, off))

/-- The second loop of dirlink(). -/
def findEmptyFrom (dp : ℕ) : ℕ → Word → FsCode Word
  | 0, off => pure off
  | k + 1, off => do
    let ip ← ip sb dp
    if off < ip.size then do
      let (r, de) ← readi sb read dp off 16
      if r ≠ 16 then BlockAllocation.panic "dirlink read"
      else if direntInum de = 0 then pure off
      else findEmptyFrom dp k (off + 16)
    else pure off

/-- The size bounds the number of rounds. -/
def findEmpty (dp : ℕ) : FsCode Word := do
  let ip ← ip sb dp
  findEmptyFrom sb read dp ip.size.toNat 0

/-- writei() of the entry `de`, or a panic. -/
def writeDirent (dp : ℕ) (de : List Byte) (off : Word) (msg : String) : DirCode Unit := do
  let r ← onFs (writei sb write dp (fun k => de.getD k 0) off 16)
  if r ≠ 16 then throw (.panic msg) else pure ()

def dirlink (dp : ℕ) (name : List Byte) (inum : ℕ) : DirCode ℤ := do
  match ← dirlookup sb read dp name with
  | some (ip, _) => do
    iput sb ip
    pure (-1)
  | none => do
    let off ← onFs (findEmpty sb read dp)
    writeDirent sb write dp (dirent inum (strncpy DIRSIZ name)) off "dirlink"
    pure 0

/-- The entry at `off` as sys_unlink() overwrites it. -/
def unlinkEntry (dp : ℕ) (off : Word) : DirCode Unit :=
  writeDirent sb write dp (List.replicate 16 0) off "unlink: writei"

end Source

end Directories
