import OsEngineering.InodeCache
import OsEngineering.KernelParams

/-! Open files over the inode cache: sys_open() from the moment it has its inode locked, the
sections of file.c, and the names in directories. The stores into a new struct file, which no
other process has, are one event. -/
namespace OpenFiles

open BlockAllocation ByteBlock InodeCache TransitionSystem
open KernelParams (NFILE)

def T_DIR : Half := 1
def T_FILE : Half := 2

def O_RDONLY : BitVec 32 := 0x000
def O_WRONLY : BitVec 32 := 0x001
def O_RDWR : BitVec 32 := 0x002
def O_CREATE : BitVec 32 := 0x200

def ROOTDEV : Dev := 1
def ROOTINO : ℕ := 1

abbrev FileNo := Fin NFILE

inductive FileType where
  | none
  | pipe
  | inode
  deriving DecidableEq

/-- `ip` is the entry, with the reference to it that the file has. -/
structure File (η : Type*) where
  ref : ℤ
  type : FileType
  readable : Bool
  writable : Bool
  ip : Option (η × Slot)

/-- Whose reference a handle is: that of a file, or of a system call. `made` is from the
ilock() in create() to its return, the next three are the steps of sys_open() after that. -/
inductive Role where
  | call
  | made (omode : BitVec 32)
  | checked (omode : BitVec 32)
  | filed (omode : BitVec 32) (f : FileNo)
  | unlocked (omode : BitVec 32) (f : FileNo)
  | file (f : FileNo)
  deriving DecidableEq

/-- `names` has the inode numbers in the entries of a directory. -/
structure State (η : Type*) where
  cache : InodeCache.State η
  files : FileNo → File η
  role : η → Role
  names : Dev → ℕ → List ℕ

/-- A type that ialloc() is called with, or the 0 of a free inode. -/
def Kind (type : Half) : Prop := type = 0 ∨ type = T_DIR ∨ type = T_FILE ∨ type = T_DEV

instance (type : Half) : Decidable (Kind type) := inferInstanceAs (Decidable (_ ∨ _ ∨ _ ∨ _))

structure Image where
  inode : Dev → ℕ → Dinode
  names : Dev → ℕ → List ℕ
  kinds : ∀ dev inum, Kind (inode dev inum).type

variable {η : Type*}

def initial (image : Image) : State η :=
  ⟨InodeCache.initial image.inode, fun _ => ⟨0, .none, false, false, none⟩, fun _ => .call,
    image.names⟩

/-- The check of sys_open() on the locked inode, and with O_CREATE the one of create(). -/
def Opens (omode : BitVec 32) (type : Half) : Prop :=
  if omode &&& O_CREATE ≠ 0 then type = T_FILE else ¬ (type = T_DIR ∧ omode ≠ O_RDONLY)

instance (omode : BitVec 32) (type : Half) : Decidable (Opens omode type) := by
  simp only [Opens]
  infer_instance

def readable (omode : BitVec 32) : Bool := !decide (omode &&& O_WRONLY ≠ 0)

def writable (omode : BitVec 32) : Bool :=
  decide (omode &&& O_WRONLY ≠ 0 ∨ omode &&& O_RDWR ≠ 0)

/-- `root` and `dirlookup` are the calls of iget() in namex(), `dirlink` and `unlink` write one
entry of a directory; `giveUp` is where fdalloc() fails. -/
inductive Event (η : Type*) where
  | cache (e : InodeCache.Event η)
  | root (h : η)
  | dirlookup (g h : η) (new : Option Half) (k : Slot) (inum : ℕ)
  | dirlink (g : η) (new : Option Half) (k : Slot) (inum : ℕ)
  | unlink (g : η) (new : Option Half) (k : Slot) (inum : ℕ)
  | made (h : η) (j : Slot) (omode : BitVec 32)
  | created (h : η) (j : Slot) (omode : BitVec 32)
  | checked (h : η) (j : Slot) (omode : BitVec 32)
  | filealloc (h : η) (omode : BitVec 32)
  | giveUp (h : η) (omode : BitVec 32) (f : FileNo)
  | iunlock (h : η) (j : Slot) (omode : BitVec 32) (f : FileNo)
  | install (h : η) (j : Slot) (omode : BitVec 32) (f : FileNo)
  | pipealloc (writable : Bool)
  | filedup (f : FileNo)
  | fileclose (f : FileNo)
  | filewrite (f : FileNo) (h : η) (j : Slot) (x : Dinode) (names : List ℕ)

/-- The handle an event of the cache is about. -/
def actor : InodeCache.Event η → η
  | .ialloc h _ _ | .scan h _ _ _ | .igetNew h _ _ _ | .iget h _ _ | .idup h _ _ | .ilock h _ _
  | .load h _ _ | .change h _ _ _ | .iupdate h _ | .iunlock h _ _ | .iput h _ | .check h _
  | .itrunc h _ | .clear h _ | .invalidate h _ | .releasesleep h _ | .decrement h _ => h

/-- sys_open(), sys_mkdir() and sys_mknod() have one type each; create() writes the new inode;
fileread(), filestat() and filewrite() lock the inode of a file. -/
def Allowed : Role → InodeCache.Event η → Prop
  | .call, .iget _ _ _ => False
  | .call, .ialloc _ _ type => type = T_DIR ∨ type = T_FILE ∨ type = T_DEV
  | .call, _ => True
  | .made _, .change _ _ _ _ | .made _, .iupdate _ _ => True
  | .file _, .ilock _ _ _ | .file _, .load _ _ _ | .file _, .iupdate _ _
  | .file _, .iunlock _ _ _ => True
  | _, _ => False

instance (r : Role) (e : InodeCache.Event η) : Decidable (Allowed r e) := by
  induction r using Role.casesOn <;> induction e using InodeCache.Event.casesOn <;>
    unfold Allowed <;> infer_instance

/-- The handle has the directory locked. -/
def Directory (s : State η) (g : η) (new : Option Half) (k : Slot) : Prop :=
  s.cache.use g = .locked new k ∧ (s.cache.icache k).copy.type = T_DIR

instance (s : State η) (g : η) (new : Option Half) (k : Slot) :
    Decidable (Directory s g new k) := inferInstanceAs (Decidable (_ ∧ _))

/-- The entries of the directory in slot `k`. -/
def State.entries (s : State η) (k : Slot) : List ℕ :=
  s.names (s.cache.icache k).dev (s.cache.icache k).inum

def State.setEntries (s : State η) (k : Slot) (l : List ℕ) : State η :=
  { s with names := put s.names (s.cache.icache k).dev (s.cache.icache k).inum l }

def State.setFile (s : State η) (f : FileNo) (x : File η) : State η :=
  { s with files := Function.update s.files f x }

/-- Descriptors are of files that sys_open() or pipealloc() has finished with. -/
def Enabled (s : State η) (e : Event η) : Prop :=
  s.cache.halted = none ∧ match e with
  | .cache e => InodeCache.Enabled s.cache e ∧ Allowed (s.role (actor e)) e
  | .root h => s.cache.use h = .idle
  | .dirlookup g h new k inum =>
    Directory s g new k ∧ inum ∈ s.entries k ∧ s.cache.use h = .idle
  | .dirlink g new k _ => Directory s g new k ∧ s.role g = .call
  | .unlink g new k inum => Directory s g new k ∧ s.role g = .call ∧ inum ∈ s.entries k
  | .made h j omode =>
    s.cache.use h = .locked (some T_FILE) j ∧ s.role h = .call ∧ omode &&& O_CREATE ≠ 0
  | .created h j omode => s.cache.use h = .locked none j ∧ s.role h = .made omode
  | .checked h j omode =>
    s.cache.use h = .locked none j ∧ s.role h = .call ∧ Opens omode (s.cache.icache j).copy.type
  | .filealloc h omode => s.role h = .checked omode
  | .giveUp h omode f => s.role h = .filed omode f
  | .iunlock h j omode f => s.cache.use h = .locked none j ∧ s.role h = .filed omode f
  | .install h j omode f => s.cache.use h = .ref none j ∧ s.role h = .unlocked omode f
  | .pipealloc _ => True
  | .filedup f => (s.files f).type ≠ .none
  | .fileclose f => (s.files f).type ≠ .none
  | .filewrite f h j _ _ =>
    s.cache.use h = .locked none j ∧ s.role h = .file f ∧ (s.files f).writable = true

variable [DecidableEq η]

instance (s : State η) (e : Event η) : Decidable (Enabled s e) := by
  cases e <;> simp only [Enabled] <;> infer_instance

def State.setRole (s : State η) (h : η) (r : Role) : State η :=
  { s with role := Function.update s.role h r }

def State.panic (s : State η) (msg : String) : State η :=
  { s with cache := { s.cache with halted := some msg } }

/-- The first free struct file. -/
def freeFile (s : State η) : Option FileNo :=
  (List.finRange NFILE).find? fun f => (s.files f).ref = 0

def filealloc (s : State η) (h : η) (omode : BitVec 32) : State η :=
  match freeFile s with
  | none => s.setRole h .call
  | some f => (s.setFile f { s.files f with ref := 1 }).setRole h (.filed omode f)

/-- One end of pipealloc(). -/
def pipealloc (s : State η) (writable : Bool) : State η :=
  match freeFile s with
  | none => s
  | some f => s.setFile f { s.files f with
      ref := 1
      type := .pipe
      readable := !writable
      writable := writable }

def filedup (s : State η) (f : FileNo) : State η :=
  if (s.files f).ref < 1 then s.panic "filedup"
  else s.setFile f { s.files f with ref := (s.files f).ref + 1 }

/-- The reference of an inode's file is left to iput(). -/
def fileclose (s : State η) (f : FileNo) : State η :=
  if (s.files f).ref < 1 then s.panic "fileclose"
  else if 0 < (s.files f).ref - 1 then s.setFile f { s.files f with ref := (s.files f).ref - 1 }
  else
    let t := s.setFile f { s.files f with ref := 0, type := .none }
    match (s.files f).type, (s.files f).ip with
    | .inode, some (h, _) => t.setRole h .call
    | _, _ => t

/-- The end of sys_open(). -/
def install (s : State η) (h : η) (j : Slot) (omode : BitVec 32) (f : FileNo) : State η :=
  (s.setFile f { s.files f with
    type := .inode
    ip := some (h, j)
    readable := readable omode
    writable := writable omode }).setRole h (.file f)

def next (ninodes : ℕ) (s : State η) : Event η → State η
  | .cache e =>
    let t := { s with cache := InodeCache.next ninodes s.cache e }
    match e with
    | .itrunc _ j => { t with names := (s.setEntries j []).names }
    | _ => t
  | .root h => { s with cache := InodeCache.next ninodes s.cache (.iget h ROOTDEV ROOTINO) }
  | .dirlookup _ h _ k inum =>
    { s with cache := InodeCache.next ninodes s.cache (.iget h (s.cache.icache k).dev inum) }
  | .dirlink _ _ k inum => s.setEntries k (inum :: s.entries k)
  | .unlink _ _ k inum => s.setEntries k ((s.entries k).erase inum)
  | .made h _ omode => s.setRole h (.made omode)
  | .created h _ omode => s.setRole h (.checked omode)
  | .checked h _ omode => s.setRole h (.checked omode)
  | .filealloc h omode => filealloc s h omode
  | .giveUp h _ f => (s.setFile f { s.files f with ref := 0, type := .none }).setRole h .call
  | .iunlock h j omode f =>
    { s with cache := InodeCache.next ninodes s.cache (.iunlock h none j) }.setRole h
      (.unlocked omode f)
  | .install h j omode f => install s h j omode f
  | .pipealloc writable => pipealloc s writable
  | .filedup f => filedup s f
  | .fileclose f => fileclose s f
  | .filewrite _ h j x names =>
    { s.setEntries j names with cache := InodeCache.next ninodes s.cache (.change h none j x) }

def machine (ninodes : ℕ) : Machine (State η) (Event η) := ⟨Enabled, next ninodes⟩

instance (ninodes : ℕ) (s : State η) (e : Event η) :
    Decidable ((machine ninodes).enabled s e) :=
  inferInstanceAs (Decidable (Enabled s e))

/-- A name that is looked up is of an allocated inode with links. -/
def Named (s : State η) : Event η → Prop
  | .root h => Linked s.cache (.iget h ROOTDEV ROOTINO)
  | .dirlookup _ h _ k inum => Linked s.cache (.iget h (s.cache.icache k).dev inum)
  | _ => True

instance (s : State η) (e : Event η) : Decidable (Named s e) := by
  cases e <;> simp only [Named] <;> infer_instance

end OpenFiles
