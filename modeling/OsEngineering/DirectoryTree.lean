import OsEngineering.FaultState
import OsEngineering.KernelParams
import OsEngineering.TransitionSystem
import Mathlib.Data.List.FinRange
import Mathlib.Logic.Function.Basic

/-! Directories, path names and inode references: the upper half of fs.c, file.c, sysfile.c and
what fork() and exit() do with files. A system call runs without interruption, so the sleep
locks that are held are its own. All inodes are on one device. -/
namespace DirectoryTree

open FaultState KernelParams TransitionSystem

abbrev Path := List Char
abbrev Name := List Char

def ROOTINO : ℕ := 1
def NINODE : ℕ := 50
def DIRSIZ : ℕ := 14

/-- MAXFILE * BSIZE / sizeof(struct dirent). -/
def MAXDIRENTS : ℕ := 4480

def O_WRONLY : BitVec 32 := 1
def O_RDWR : BitVec 32 := 2
def O_CREATE : BitVec 32 := 0x200

inductive FileType where
  | free
  | dir
  | file
  | dev
  deriving DecidableEq, Repr

/-- `birth` only records which allocation of the inode number the entry was made for. -/
structure Dirent where
  inum : ℕ
  name : Name
  birth : ℕ
  deriving DecidableEq, Repr

/-- `entries` is the content of a directory. A disk of FSSIZE blocks holds fewer than 2^15 of
them, so `nlink` does not overflow. -/
structure Dinode where
  type : FileType
  major : BitVec 16
  minor : BitVec 16
  nlink : ℤ
  entries : List Dirent

/-- `ip` is `none` in a file of type FD_NONE or FD_PIPE. -/
structure File where
  ref : ℤ
  ip : Option ℕ

structure Proc where
  cwd : ℕ
  ofile : Fin NOFILE → Option (Fin NFILE)

/-- Every change of an in-memory inode is followed by iupdate(), so `dinodes` stands for both
copies. `inuse` counts the entries of icache with references, `held` lists the locked inodes,
and `births` counts the allocations of each inode number. -/
structure Fs where
  dinodes : ℕ → Dinode
  ref : ℕ → ℤ
  valid : ℕ → Bool
  inuse : ℕ
  held : List ℕ
  files : Fin NFILE → File
  procs : Fin NPROC → Option Proc
  births : ℕ → ℕ

inductive Fault where
  | panic (msg : String)
  /-- A wait for a sleep lock of the process itself. -/
  | deadlock (inum : ℕ)
  deriving DecidableEq, Repr

abbrev FsCode := Code Fault Fs

def panic {α : Type} (msg : String) : FsCode α := throw (.panic msg)

def type (s : Fs) (i : ℕ) : FileType := (s.dinodes i).type
def nlink (s : Fs) (i : ℕ) : ℤ := (s.dinodes i).nlink
def entries (s : Fs) (i : ℕ) : List Dirent := (s.dinodes i).entries

def setDinode (s : Fs) (i : ℕ) (d : Dinode) : Fs :=
  { s with dinodes := Function.update s.dinodes i d }

/-! Sleep locks and the inode cache. -/

def acquiresleep (i : ℕ) : FsCode Unit := fun s =>
  if i ∈ s.held then .error (.deadlock i) else .ok ((), { s with held := i :: s.held })

def releasesleep (i : ℕ) : FsCode Unit := fun s =>
  .ok ((), { s with held := s.held.erase i })

def iget (i : ℕ) : FsCode ℕ := fun s =>
  if 0 < s.ref i then .ok (i, { s with ref := Function.update s.ref i (s.ref i + 1) })
  else if s.inuse < NINODE then
    .ok (i, { s with
      ref := Function.update s.ref i 1
      valid := Function.update s.valid i false
      inuse := s.inuse + 1 })
  else .error (.panic "iget: no inodes")

def idup (i : ℕ) : FsCode ℕ := fun s =>
  .ok (i, { s with ref := Function.update s.ref i (s.ref i + 1) })

def ilock (i : ℕ) : FsCode Unit := do
  let s ← get
  if s.ref i < 1 then panic "ilock"
  else
    acquiresleep i
    if s.valid i then pure ()
    else
      modify fun s => { s with valid := Function.update s.valid i true }
      if type s i = .free then panic "ilock: no type" else pure ()

def iunlock (i : ℕ) : FsCode Unit := do
  let s ← get
  if i ∉ s.held ∨ s.ref i < 1 then panic "iunlock" else releasesleep i

/-- itrunc(), type 0 and iupdate(). -/
def truncate (s : Fs) (i : ℕ) : Fs :=
  { setDinode s i { s.dinodes i with type := .free, entries := [] } with
    valid := Function.update s.valid i false }

def iput (i : ℕ) : FsCode Unit := do
  acquiresleep i
  modify fun s =>
    if s.valid i = true ∧ nlink s i = 0 ∧ s.ref i = 1 then truncate s i else s
  releasesleep i
  modify fun s => { s with
    ref := Function.update s.ref i (s.ref i - 1)
    inuse := if s.ref i = 1 then s.inuse - 1 else s.inuse }

def iunlockput (i : ℕ) : FsCode Unit := do
  iunlock i
  iput i

/-- ip->nlink changes by `n`, and iupdate(). -/
def addNlink (i : ℕ) (n : ℤ) : FsCode Unit := modify fun s =>
  setDinode s i { s.dinodes i with nlink := nlink s i + n }

/-! Directories. -/

/-- The loop of dirlookup() from entry `off` on: the inode number and the entry's place. -/
def findEntry (name : Name) : List Dirent → ℕ → Option (ℕ × ℕ)
  | [], _ => none
  | de :: des, off =>
    if de.inum = 0 then findEntry name des (off + 1)
    else if name = de.name then some (de.inum, off)
    else findEntry name des (off + 1)

def dirlookup (dp : ℕ) (name : Name) : FsCode (Option (ℕ × ℕ)) := do
  let s ← get
  if type s dp ≠ .dir then panic "dirlookup not DIR"
  else
    match findEntry name (entries s dp) 0 with
    | none => pure none
    | some (inum, off) => do
      let _ ← iget inum
      pure (some (inum, off))

/-- The loop of dirlink(): the place of the first empty entry, or the end. -/
def findEmpty : List Dirent → ℕ → ℕ
  | [], off => off
  | de :: des, off => if de.inum = 0 then off else findEmpty des (off + 1)

/-- writei() of one entry at place `off`. -/
def writeEntry (des : List Dirent) (off : ℕ) (de : Dirent) : List Dirent :=
  if off < des.length then des.set off de else des ++ [de]

def setEntry (s : Fs) (dp off : ℕ) (de : Dirent) : Fs :=
  setDinode s dp { s.dinodes dp with entries := writeEntry (entries s dp) off de }

/-- `false` stands for -1. -/
def dirlink (dp : ℕ) (name : Name) (inum : ℕ) : FsCode Bool := do
  match ← dirlookup dp name with
  | some (ip, _) => do
    iput ip
    pure false
  | none => do
    let s ← get
    let off := findEmpty (entries s dp) 0
    if MAXDIRENTS ≤ off then panic "dirlink"
    else
      modify fun s => setEntry s dp off ⟨inum, name, s.births inum⟩
      pure true

/-! Paths. -/

def skipelem (path : Path) : Option (Name × Path) :=
  let s := path.dropWhile (· = '/')
  if s = [] then none
  else some ((s.takeWhile (· ≠ '/')).take DIRSIZ,
    (s.dropWhile (· ≠ '/')).dropWhile (· = '/'))

/-- The elements that successive calls of skipelem() yield, at most `k`. -/
def elementsUpTo : ℕ → Path → List Name
  | 0, _ => []
  | k + 1, path =>
    match skipelem path with
    | none => []
    | some (name, rest) => name :: elementsUpTo k rest

def elements (path : Path) : List Name := elementsUpTo path.length path

def myproc (p : Fin NPROC) : FsCode Proc := fun s =>
  match s.procs p with
  | some q => .ok (q, s)
  | none => .error (.panic "no process")

/-- The loop of namex() at inode `ip`. -/
def namexFrom (nameiparent : Bool) : ℕ → List Name → FsCode (Option (ℕ × Name))
  | ip, [] =>
    if nameiparent then do
      iput ip
      pure none
    else pure (some (ip, []))
  | ip, name :: rest => do
    ilock ip
    let s ← get
    if type s ip ≠ .dir then
      iunlockput ip
      pure none
    else if nameiparent ∧ rest = [] then
      iunlock ip
      pure (some (ip, name))
    else
      match ← dirlookup ip name with
      | none => do
        iunlockput ip
        pure none
      | some (next, _) => do
        iunlockput ip
        namexFrom nameiparent next rest

def namex (p : Fin NPROC) (path : Path) (nameiparent : Bool) :
    FsCode (Option (ℕ × Name)) := do
  let q ← myproc p
  let ip ← if path.head? = some '/' then iget ROOTINO else idup q.cwd
  namexFrom nameiparent ip (elements path)

def namei (p : Fin NPROC) (path : Path) : FsCode (Option ℕ) := do
  let r ← namex p path false
  pure (r.map Prod.fst)

def nameiparent (p : Fin NPROC) (path : Path) : FsCode (Option (ℕ × Name)) :=
  namex p path true

/-! System calls. `ninodes` is that of the superblock. -/

section Calls

variable (ninodes : ℕ)

def ialloc (t : FileType) : FsCode ℕ := do
  let s ← get
  match (List.range ninodes).find? fun i => decide (1 ≤ i ∧ type s i = .free) with
  | none => panic "ialloc: no inodes"
  | some inum => do
    modify fun s => { setDinode s inum ⟨t, 0, 0, 0, []⟩ with
      births := Function.update s.births inum (s.births inum + 1) }
    iget inum

def sysLink (p : Fin NPROC) (old new : Path) : FsCode ℤ := do
  match ← namei p old with
  | none => pure (-1)
  | some ip => do
    ilock ip
    let s ← get
    if type s ip = .dir then
      iunlockput ip
      pure (-1)
    else
      addNlink ip 1
      iunlock ip
      let linked ← match ← nameiparent p new with
        | none => pure false
        | some (dp, name) => do
          ilock dp
          let ok ← dirlink dp name ip
          iunlockput dp
          pure ok
      if linked then
        iput ip
        pure 0
      else
        ilock ip
        addNlink ip (-1)
        iunlockput ip
        pure (-1)

def isdirempty (des : List Dirent) : Bool := (des.drop 2).all fun de => de.inum = 0

def sysUnlink (p : Fin NPROC) (path : Path) : FsCode ℤ := do
  match ← nameiparent p path with
  | none => pure (-1)
  | some (dp, name) => do
    ilock dp
    if name = ['.'] ∨ name = ['.', '.'] then
      iunlockput dp
      pure (-1)
    else
      match ← dirlookup dp name with
      | none => do
        iunlockput dp
        pure (-1)
      | some (ip, off) => do
        ilock ip
        let s ← get
        if nlink s ip < 1 then panic "unlink: nlink < 1"
        else if type s ip = .dir ∧ isdirempty (entries s ip) = false then
          iunlockput ip
          iunlockput dp
          pure (-1)
        else
          modify fun s => setEntry s dp off ⟨0, [], 0⟩
          if type s ip = .dir then addNlink dp (-1) else pure ()
          iunlockput dp
          addNlink ip (-1)
          iunlockput ip
          pure 0

/-- The entries of a new directory, and the entry in `dp`. -/
def createEntries (t : FileType) (dp : ℕ) (name : Name) (ip : ℕ) : FsCode Unit := do
  if t = .dir then
    addNlink dp 1
    let dot ← dirlink ip ['.'] ip
    let dotdot ← if dot then dirlink ip ['.', '.'] dp else pure false
    if dotdot then pure () else panic "create dots"
  else pure ()
  let ok ← dirlink dp name ip
  if ok then pure () else panic "create: dirlink"

def create (p : Fin NPROC) (path : Path) (t : FileType) (major minor : BitVec 16) :
    FsCode (Option ℕ) := do
  match ← nameiparent p path with
  | none => pure none
  | some (dp, name) => do
    ilock dp
    match ← dirlookup dp name with
    | some (ip, _) => do
      iunlockput dp
      ilock ip
      let s ← get
      if t = .file ∧ type s ip = .file then pure (some ip)
      else
        iunlockput ip
        pure none
    | none => do
      let ip ← ialloc ninodes t
      ilock ip
      modify fun s => setDinode s ip
        { s.dinodes ip with major := major, minor := minor, nlink := 1 }
      createEntries t dp name ip
      iunlockput dp
      pure (some ip)

def setFile (f : Fin NFILE) (x : File) : FsCode Unit := modify fun s =>
  { s with files := Function.update s.files f x }

def setProc (p : Fin NPROC) (q : Option Proc) : FsCode Unit := modify fun s =>
  { s with procs := Function.update s.procs p q }

def filealloc : FsCode (Option (Fin NFILE)) := do
  let s ← get
  match (List.finRange NFILE).find? fun f => decide ((s.files f).ref = 0) with
  | none => pure none
  | some f => do
    setFile f ⟨1, (s.files f).ip⟩
    pure (some f)

def fdalloc (p : Fin NPROC) (f : Fin NFILE) : FsCode (Option (Fin NOFILE)) := do
  let q ← myproc p
  match (List.finRange NOFILE).find? fun fd => decide (q.ofile fd = none) with
  | none => pure none
  | some fd => do
    setProc p (some { q with ofile := Function.update q.ofile fd (some f) })
    pure (some fd)

def filedup (f : Fin NFILE) : FsCode Unit := do
  let s ← get
  if (s.files f).ref < 1 then panic "filedup"
  else setFile f ⟨(s.files f).ref + 1, (s.files f).ip⟩

def fileclose (f : Fin NFILE) : FsCode Unit := do
  let s ← get
  if (s.files f).ref < 1 then panic "fileclose"
  else if 0 < (s.files f).ref - 1 then setFile f ⟨(s.files f).ref - 1, (s.files f).ip⟩
  else
    setFile f ⟨0, none⟩
    match (s.files f).ip with
    | none => pure ()
    | some ip => iput ip

/-- The end of sys_open() with `ip` locked. -/
def openFile (p : Fin NPROC) (ip : ℕ) : FsCode ℤ := do
  let f ← filealloc
  match f with
  | none => do
    iunlockput ip
    pure (-1)
  | some f => do
    match ← fdalloc p f with
    | none => do
      fileclose f
      iunlockput ip
      pure (-1)
    | some fd => do
      iunlock ip
      setFile f ⟨1, some ip⟩
      pure fd.val

def sysOpen (p : Fin NPROC) (path : Path) (omode : BitVec 32) : FsCode ℤ := do
  if omode &&& O_CREATE ≠ 0 then
    match ← create ninodes p path .file 0 0 with
    | none => pure (-1)
    | some ip => openFile p ip
  else
    match ← namei p path with
    | none => pure (-1)
    | some ip => do
      ilock ip
      let s ← get
      if type s ip = .dir ∧ omode ≠ 0 then
        iunlockput ip
        pure (-1)
      else openFile p ip

def sysMkdir (p : Fin NPROC) (path : Path) : FsCode ℤ := do
  match ← create ninodes p path .dir 0 0 with
  | none => pure (-1)
  | some ip => do
    iunlockput ip
    pure 0

def sysMknod (p : Fin NPROC) (path : Path) (major minor : BitVec 16) : FsCode ℤ := do
  match ← create ninodes p path .dev major minor with
  | none => pure (-1)
  | some ip => do
    iunlockput ip
    pure 0

def sysChdir (p : Fin NPROC) (path : Path) : FsCode ℤ := do
  match ← namei p path with
  | none => pure (-1)
  | some ip => do
    ilock ip
    let s ← get
    if type s ip ≠ .dir then
      iunlockput ip
      pure (-1)
    else
      iunlock ip
      let q ← myproc p
      iput q.cwd
      setProc p (some { q with cwd := ip })
      pure 0

/-- What exec() does with the inode of the program; `loaded` is what becomes of the image. -/
def exec (p : Fin NPROC) (path : Path) (loaded : Bool) : FsCode ℤ := do
  match ← namei p path with
  | none => pure (-1)
  | some ip => do
    ilock ip
    iunlockput ip
    pure (if loaded then 0 else -1)

def sysClose (p : Fin NPROC) (fd : Fin NOFILE) : FsCode ℤ := do
  let q ← myproc p
  match q.ofile fd with
  | none => pure (-1)
  | some f => do
    setProc p (some { q with ofile := Function.update q.ofile fd none })
    fileclose f
    pure 0

def sysDup (p : Fin NPROC) (fd : Fin NOFILE) : FsCode ℤ := do
  let q ← myproc p
  match q.ofile fd with
  | none => pure (-1)
  | some f => do
    match ← fdalloc p f with
    | none => pure (-1)
    | some fd1 => do
      filedup f
      pure fd1.val

/-- The two new files become FD_PIPE; `page` is whether kalloc() finds one. -/
def pipealloc (page : Bool) : FsCode (Option (Fin NFILE × Fin NFILE)) := do
  match ← filealloc with
  | none => pure none
  | some f0 => do
    match ← filealloc with
    | none => do
      fileclose f0
      pure none
    | some f1 => do
      if page then pure (some (f0, f1))
      else
        fileclose f0
        fileclose f1
        pure none

def sysPipe (p : Fin NPROC) (page : Bool) : FsCode ℤ := do
  match ← pipealloc page with
  | none => pure (-1)
  | some (rf, wf) => do
    match ← fdalloc p rf with
    | none => do
      fileclose rf
      fileclose wf
      pure (-1)
    | some fd0 => do
      match ← fdalloc p wf with
      | none => do
        let q ← myproc p
        setProc p (some { q with ofile := Function.update q.ofile fd0 none })
        fileclose rf
        fileclose wf
        pure (-1)
      | some _ => pure 0

def lockRounds (ip : ℕ) : ℕ → FsCode Unit
  | 0 => pure ()
  | k + 1 => do
    ilock ip
    iunlock ip
    lockRounds ip k

/-- sys_read(), sys_write() and sys_fstat(): the inode is locked `rounds` times, once for each
piece of a write. What is read or written is no directory entry. -/
def useFile (p : Fin NPROC) (fd : Fin NOFILE) (rounds : ℕ) (result : ℤ) : FsCode ℤ := do
  let q ← myproc p
  match q.ofile fd with
  | none => pure (-1)
  | some f => do
    let s ← get
    match (s.files f).ip with
    | none => pure result
    | some ip => do
      lockRounds ip rounds
      pure result

def initproc : Fin NPROC := ⟨0, NPROC_pos⟩

/-- The loop of exit() over the descriptors. -/
def closeAll (p : Fin NPROC) : List (Fin NOFILE) → FsCode Unit
  | [] => pure ()
  | fd :: fds => do
    let q ← myproc p
    match q.ofile fd with
    | none => pure ()
    | some f => do
      fileclose f
      setProc p (some { q with ofile := Function.update q.ofile fd none })
    closeAll p fds

/-- A zombie has no files, so it is not told apart from an unused slot. -/
def exit (p : Fin NPROC) : FsCode ℤ := do
  if p = initproc then panic "init exiting"
  else
    closeAll p (List.finRange NOFILE)
    let q ← myproc p
    iput q.cwd
    setProc p none
    pure 0

def dupAll (q : Proc) : List (Fin NOFILE) → FsCode Unit
  | [] => pure ()
  | fd :: fds => do
    match q.ofile fd with
    | none => pure ()
    | some f => filedup f
    dupAll q fds

/-- The part of fork() about files, into the free slot `np`. -/
def fork (p np : Fin NPROC) : FsCode ℤ := do
  let q ← myproc p
  dupAll q (List.finRange NOFILE)
  let cwd ← idup q.cwd
  setProc np (some { q with cwd := cwd })
  pure np.val

inductive Call where
  | link (old new : Path)
  | unlink (path : Path)
  | «open» (path : Path) (omode : BitVec 32)
  | mkdir (path : Path)
  | mknod (path : Path) (major minor : BitVec 16)
  | chdir (path : Path)
  | exec (path : Path) (loaded : Bool)
  | close (fd : Fin NOFILE)
  | dup (fd : Fin NOFILE)
  | pipe (page : Bool)
  | use (fd : Fin NOFILE) (rounds : ℕ) (result : ℤ)
  | exit
  | fork (np : Fin NPROC)

def Call.run (p : Fin NPROC) : Call → FsCode ℤ
  | .link old new => sysLink p old new
  | .unlink path => sysUnlink p path
  | .open path omode => sysOpen ninodes p path omode
  | .mkdir path => sysMkdir ninodes p path
  | .mknod path major minor => sysMknod ninodes p path major minor
  | .chdir path => sysChdir p path
  | .exec path loaded => DirectoryTree.exec p path loaded
  | .close fd => sysClose p fd
  | .dup fd => sysDup p fd
  | .pipe page => sysPipe p page
  | .use fd rounds result => useFile p fd rounds result
  | .exit => DirectoryTree.exit p
  | .fork np => DirectoryTree.fork p np

/-! Calls of any processes, one after the other; a fault halts the machine. -/

structure State where
  fs : Fs
  halted : Option Fault

structure Event where
  p : Fin NPROC
  call : Call

def Enabled (s : State) (e : Event) : Prop :=
  s.halted = none ∧ s.fs.procs e.p ≠ none ∧
    match e.call with
    | .fork np => s.fs.procs np = none
    | _ => True

instance (s : State) (e : Event) : Decidable (Enabled s e) :=
  match e with
  | ⟨_, .fork _⟩ => inferInstanceAs (Decidable (_ ∧ _ ∧ _))
  | ⟨_, .link _ _⟩ | ⟨_, .unlink _⟩ | ⟨_, .open _ _⟩ | ⟨_, .mkdir _⟩ | ⟨_, .mknod _ _ _⟩
  | ⟨_, .chdir _⟩ | ⟨_, .exec _ _⟩ | ⟨_, .close _⟩ | ⟨_, .dup _⟩ | ⟨_, .pipe _⟩
  | ⟨_, .use _ _ _⟩ | ⟨_, .exit⟩ => inferInstanceAs (Decidable (_ ∧ _ ∧ True))

def next (s : State) (e : Event) : State :=
  match e.call.run ninodes e.p s.fs with
  | .ok (_, fs) => ⟨fs, none⟩
  | .error f => ⟨s.fs, some f⟩

def machine : Machine State Event where
  enabled := Enabled
  next := next ninodes

instance (s : State) (e : Event) : Decidable ((machine ninodes).enabled s e) :=
  inferInstanceAs (Decidable (Enabled s e))

end Calls

end DirectoryTree
