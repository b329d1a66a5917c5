import OsEngineering.FiniteTally
import OsEngineering.InodeHoles
import OsEngineering.OperationTrees
import OsEngineering.TransitionSystem
import Mathlib.Data.List.FinRange
import Mathlib.Data.Fintype.Sum
import Mathlib.Data.Fintype.Prod

/-! The system calls as trees of the operations on the log, the inodes and the open files.
Where a branch is on data that is not here, the code asks for the C condition and goes on for
either answer; a value that is not here is any value. Any two processes may come between the
operations of a third, and one that has to wait is one that takes no step. -/
namespace TransactionCode

open InodeHoles KernelParams OperationTrees TransitionSystem

abbrev ProcNo := Fin NPROC
abbrev FileNo := Fin NFILE
abbrev Fd := Fin NOFILE

def ROOTINO : ℕ := 1
def PGSIZE : ℕ := 4096

/-- sizeof of struct dirent, struct elfhdr and struct proghdr. -/
def direntSize : ℕ := 16
def elfhdrSize : ℕ := 52
def proghdrSize : ℕ := 32

/-- Where a process has a struct file: in ofile, or in one of two variables of its call. -/
abbrev Place := Fd ⊕ Fin 2

/-- The variable of sys_pipe() that is also the one of sys_open(), and its other one. -/
abbrev rf : Fin 2 := ⟨0, Nat.zero_lt_two⟩
abbrev wf : Fin 2 := ⟨1, Nat.one_lt_two⟩

/-- The field `type`, with `ip` where it counts. -/
inductive FileType where
  | none
  | pipe
  | inode (ip : ℕ)
  deriving DecidableEq

structure File where
  ref : ℤ
  type : FileType

inductive ProcState where
  | unused
  | live
  | zombie
  deriving DecidableEq

/-- `outstanding` is that of the log, and `trans` how many more calls of begin_op() than of
end_op() a process has made. -/
structure Shared where
  inode : ℕ → Inode
  files : FileNo → File
  held : ProcNo × Place → Option FileNo
  procs : ProcNo → ProcState
  outstanding : ℤ
  trans : ProcNo → ℤ

/-- `iput` is where iput() is entered. An `inode` operation is what runs under ip->lock, and
gives how many calls of log_write() it makes and its result. -/
inductive Op where
  | ask (condition : String)
  | choose (value : String)
  | panic (msg : String)
  | beginOp
  | endOp
  | logWrite
  | iput (ip : ℕ)
  | size (ip : ℕ)
  | inode (ip : ℕ) (o : InodeOp)
  | filealloc (x : Fin 2)
  | fileclose (x : Place)
  | fdalloc (x : Fin 2)
  | setType (x : Place) (t : FileType)
  | ofile (fd : Fd)
  | dup (fd : Fd)
  | fork
  | exit
  deriving DecidableEq

abbrev Answer : Op → Type
  | .ask _ => Bool
  | .choose _ => ℕ
  | .panic _ => Empty
  | .beginOp | .endOp | .logWrite | .iput _ => Unit
  | .size _ => ℕ
  | .inode _ _ => ℕ × ℤ
  | .filealloc _ => Bool
  | .fileclose _ => FileType
  | .fdalloc _ => Option Fd
  | .setType _ _ => Unit
  | .ofile _ => Option FileType
  | .dup _ => Option Fd
  | .fork => Bool
  | .exit => Unit

/-! The operations. -/

def Shared.setFile (s : Shared) (f : FileNo) (x : File) : Shared :=
  { s with files := Function.update s.files f x }

def Shared.setHeld (s : Shared) (p : ProcNo) (x : Place) (f : Option FileNo) : Shared :=
  { s with held := Function.update s.held (p, x) f }

def freeFile (s : Shared) : Option FileNo :=
  (List.finRange NFILE).find? fun f => (s.files f).ref = 0

def freeFd (s : Shared) (p : ProcNo) : Option Fd :=
  (List.finRange NOFILE).find? fun fd => s.held (p, .inl fd) = none

def unusedProc (s : Shared) : Option ProcNo :=
  (List.finRange NPROC).find? fun q => s.procs q = .unused

def Shared.filealloc (s : Shared) (p : ProcNo) (x : Fin 2) : Bool × Shared :=
  match freeFile s with
  | none => (false, s)
  | some f => (true, (s.setFile f ⟨1, (s.files f).type⟩).setHeld p (.inr x) (some f))

/-- What the place had is no longer there. The answer is the type of the file that is closed
for good, and `none` where it is not. -/
def Shared.fileclose (s : Shared) (p : ProcNo) (x : Place) : Except String (FileType × Shared) :=
  match s.held (p, x) with
  | none => .error "null pointer"
  | some f =>
    if (s.files f).ref < 1 then .error "fileclose"
    else if 0 < (s.files f).ref - 1 then
      .ok (.none, (s.setFile f ⟨(s.files f).ref - 1, (s.files f).type⟩).setHeld p x none)
    else .ok ((s.files f).type, (s.setFile f ⟨0, .none⟩).setHeld p x none)

/-- The descriptor takes over what the variable had. -/
def Shared.fdalloc (s : Shared) (p : ProcNo) (x : Fin 2) : Option Fd × Shared :=
  match freeFd s p with
  | none => (none, s)
  | some fd => (some fd, (s.setHeld p (.inl fd) (s.held (p, .inr x))).setHeld p (.inr x) none)

def Shared.setType (s : Shared) (p : ProcNo) (x : Place) (t : FileType) : Except String Shared :=
  match s.held (p, x) with
  | none => .error "null pointer"
  | some f => .ok (s.setFile f ⟨(s.files f).ref, t⟩)

def Shared.ofile (s : Shared) (p : ProcNo) (fd : Fd) : Option FileType :=
  (s.held (p, .inl fd)).map fun f => (s.files f).type

/-- One more reference, from the place. -/
def Shared.filedup (s : Shared) (f : FileNo) (p : ProcNo) (x : Place) : Except String Shared :=
  if (s.files f).ref < 1 then .error "filedup"
  else .ok ((s.setFile f ⟨(s.files f).ref + 1, (s.files f).type⟩).setHeld p x (some f))

def Shared.dup (s : Shared) (p : ProcNo) (fd : Fd) : Except String (Option Fd × Shared) :=
  match s.held (p, .inl fd) with
  | none => .error "null pointer"
  | some f =>
    match freeFd s p with
    | none => .ok (none, s)
    | some new => do
      let s ← s.filedup f p (.inl new)
      .ok (some new, s)

/-- The loop of fork() over the descriptors of `p`. -/
def dupAll (p np : ProcNo) : List Fd → Shared → Except String Shared
  | [], s => .ok s
  | fd :: fds, s =>
    match s.held (p, .inl fd) with
    | none => dupAll p np fds s
    | some f => do
      let s ← s.filedup f np (.inl fd)
      dupAll p np fds s

/-- From allocproc() to where the new process is RUNNABLE. -/
def Shared.fork (s : Shared) (p : ProcNo) : Except String (Bool × Shared) :=
  match unusedProc s with
  | none => .ok (false, s)
  | some np => do
    let s ← dupAll p np (List.finRange NOFILE)
      { s with procs := Function.update s.procs np .live }
    .ok (true, s)

/-- An operation of process `p`; `n` decides what is not here. The commit in end_op() is
left out. -/
def perform (s : Shared) (p : ProcNo) (n : ℕ) : (o : Op) → Except String (Answer o × Shared)
  | .ask _ => .ok (decide (n ≠ 0), s)
  | .choose _ => .ok (n, s)
  | .panic msg => .error msg
  | .beginOp =>
    .ok ((), { s with
      outstanding := s.outstanding + 1
      trans := Function.update s.trans p (s.trans p + 1) })
  | .endOp =>
    .ok ((), { s with
      outstanding := s.outstanding - 1
      trans := Function.update s.trans p (s.trans p - 1) })
  | .logWrite =>
    if s.outstanding < 1 then .error "log_write outside of trans" else .ok ((), s)
  | .iput _ => .ok ((), s)
  | .size ip => .ok ((s.inode ip).size, s)
  | .inode ip o => do
    let (x, answer) ← o.run (s.inode ip)
    .ok (answer, { s with inode := Function.update s.inode ip x })
  | .filealloc x => .ok (s.filealloc p x)
  | .fileclose x => s.fileclose p x
  | .fdalloc x => .ok (s.fdalloc p x)
  | .setType x t => do
    let s ← s.setType p x t
    .ok ((), s)
  | .ofile fd => .ok (s.ofile p fd, s)
  | .dup fd => s.dup p fd
  | .fork => s.fork p
  | .exit => .ok ((), { s with procs := Function.update s.procs p .zombie })

/-! log.c and fs.c. -/

abbrev Code := Tree Answer

def ask (condition : String) : Code Bool := op (Op.ask condition)

def choose (value : String) : Code ℕ := op (Op.choose value)

def panic {α : Type} (msg : String) : Code α := .step (.panic msg) nofun

def beginOp : Code Unit := op Op.beginOp

def endOp : Code Unit := op Op.endOp

def logWrite : Code Unit := op Op.logWrite

def inodeSize (ip : ℕ) : Code ℕ := op (Op.size ip)

def underLock (ip : ℕ) (o : InodeOp) : Code (ℕ × ℤ) := op (Op.inode ip o)

def filealloc (x : Fin 2) : Code Bool := op (Op.filealloc x)

def closeRef (x : Place) : Code FileType := op (Op.fileclose x)

def fdalloc (x : Fin 2) : Code (Option Fd) := op (Op.fdalloc x)

def setType (x : Place) (t : FileType) : Code Unit := op (Op.setType x t)

def ofile (fd : Fd) : Code (Option FileType) := op (Op.ofile fd)

def dupFd (fd : Fd) : Code (Option Fd) := op (Op.dup fd)

def newProcess : Code Bool := op Op.fork

def becomeZombie : Code Unit := op Op.exit

def logWrites : ℕ → Code Unit
  | 0 => pure ()
  | n + 1 => do
    logWrite
    logWrites n

def onInode (ip : ℕ) (o : InodeOp) : Code ℤ := do
  let (logs, r) ← underLock ip o
  logWrites logs
  pure r

def iupdate : Code Unit := logWrites 1

/-- A result of the kind -1 or a number. -/
def outcome (value : String) : Code ℤ := do
  if ← ask "failed" then pure (-1)
  else do
    let n ← choose value
    pure n

def iget (inum : ℕ) : Code ℕ := do
  if ← ask "empty == 0" then panic "iget: no inodes" else pure inum

def ilock : Code Unit := do
  if ← ask "ip->ref < 1" then panic "ilock"
  else if ← ask "ip->valid == 0 && dip->type == 0" then panic "ilock: no type"
  else pure ()

def iunlock : Code Unit := do
  if ← ask "!holdingsleep(&ip->lock) || ip->ref < 1" then panic "iunlock" else pure ()

def iput (ip : ℕ) : Code Unit := do
  op (Op.iput ip)
  if ← ask "ip->valid && ip->nlink == 0" then
    if ← ask "r == 1" then do
      let _ ← onInode ip .itrunc
      iupdate
    else pure ()
  else pure ()

def iunlockput (ip : ℕ) : Code Unit := do
  iunlock
  iput ip

def ialloc : Code ℕ := do
  if ← ask "dip->type == 0 for some inum" then do
    let inum ← choose "inum"
    let _ ← onInode inum .ialloc
    iget inum
  else panic "ialloc: no inodes"

def readi (ip off n : ℕ) : Code ℤ := do
  if ← ask "ip->type == T_DEV" then outcome "devsw[ip->major].read(ip, dst, n)"
  else onInode ip (.readi off n)

def writei (ip off n : ℕ) : Code ℤ := do
  if ← ask "ip->type == T_DEV" then outcome "devsw[ip->major].write(ip, src, n)"
  else onInode ip (.writei off n)

/-- How often a loop over the entries of a directory goes round. -/
def dirents (size : ℕ) : ℕ := (size + direntSize - 1) / direntSize

def dirlookupFrom (dp : ℕ) : ℕ → ℕ → Code (Option (ℕ × ℕ))
  | 0, _ => pure none
  | rest + 1, off => do
    let r ← readi dp off direntSize
    if r ≠ direntSize then panic "dirlookup read"
    else if ← ask "de.inum == 0" then dirlookupFrom dp rest (off + direntSize)
    else if ← ask "namecmp(name, de.name) == 0" then do
      let inum ← choose "de.inum"
      let ip ← iget inum
      pure (some (ip, off))
    else dirlookupFrom dp rest (off + direntSize)

/-- The inode and its offset. -/
def dirlookup (dp : ℕ) : Code (Option (ℕ × ℕ)) := do
  if ← ask "dp->type != T_DIR" then panic "dirlookup not DIR"
  else do
    let size ← inodeSize dp
    dirlookupFrom dp (dirents size) 0

/-- The first empty entry, or the end. -/
def emptyFrom (dp : ℕ) : ℕ → ℕ → Code ℕ
  | 0, off => pure off
  | rest + 1, off => do
    let r ← readi dp off direntSize
    if r ≠ direntSize then panic "dirlink read"
    else if ← ask "de.inum == 0" then pure off
    else emptyFrom dp rest (off + direntSize)

def dirlink (dp : ℕ) : Code Bool := do
  match ← dirlookup dp with
  | some (ip, _) => do
    iput ip
    pure false
  | none => do
    let size ← inodeSize dp
    let off ← emptyFrom dp (dirents size) 0
    let r ← writei dp off direntSize
    if r ≠ direntSize then panic "dirlink" else pure true

/-- The number is how many path elements skipelem() has left. -/
def namexFrom (nameiparent : Bool) : ℕ → ℕ → Code (Option ℕ)
  | 0, ip => do
    if nameiparent = true then do
      iput ip
      pure none
    else pure (some ip)
  | rest + 1, ip => do
    ilock
    if ← ask "ip->type != T_DIR" then do
      iunlockput ip
      pure none
    else if nameiparent = true ∧ rest = 0 then do
      -- Stop one level early.
      iunlock
      pure (some ip)
    else
      match ← dirlookup ip with
      | none => do
        iunlockput ip
        pure none
      | some (next, _) => do
        iunlockput ip
        namexFrom nameiparent rest next

def namex (nameiparent : Bool) : Code (Option ℕ) := do
  let elements ← choose "path elements"
  if ← ask "*path is a slash" then do
    let ip ← iget ROOTINO
    namexFrom nameiparent elements ip
  else do
    let ip ← choose "idup(myproc()->cwd)"
    namexFrom nameiparent elements ip

def namei : Code (Option ℕ) := namex false

def nameiparent : Code (Option ℕ) := namex true

/-! file.c. -/

def fileclose (x : Place) : Code Unit := do
  match ← closeRef x with
  | .inode ip => do
    beginOp
    iput ip
    endOp
  | _ => pure ()

def filestat : FileType → Code ℤ
  | .inode _ => do
    ilock
    iunlock
    pure 0
  | _ => pure (-1)

def fileread (t : FileType) (n : ℕ) : Code ℤ := do
  if ← ask "f->readable == 0" then pure (-1)
  else
    match t with
    | .pipe => outcome "piperead(f->pipe, addr, n)"
    | .inode ip => do
      ilock
      let off ← choose "f->off"
      let r ← readi ip off n
      iunlock
      pure r
    | .none => panic "fileread"

/-- `max` in filewrite(). -/
def maxWrite : ℕ := (MAXOPBLOCKS - 1 - 1 - 2) / 2 * 512

/-- The loop of filewrite() for `n` more bytes, in at most `fuel` rounds. -/
def filewriteFrom (ip : ℕ) : ℕ → ℕ → Code Bool
  | 0, _ => pure true
  | fuel + 1, n => do
    if n = 0 then pure true
    else do
      beginOp
      ilock
      let off ← choose "f->off"
      let r ← writei ip off (min n maxWrite)
      iunlock
      endOp
      if r < 0 then pure false
      else if r ≠ (min n maxWrite : ℕ) then panic "short filewrite"
      else filewriteFrom ip fuel (n - min n maxWrite)

def filewrite (t : FileType) (n : ℕ) : Code ℤ := do
  if ← ask "f->writable == 0" then pure (-1)
  else
    match t with
    | .pipe => outcome "pipewrite(f->pipe, addr, n)"
    | .inode ip => do
      if ← filewriteFrom ip n n then pure n else pure (-1)
    | .none => panic "filewrite"

/-! sysfile.c. -/

inductive InodeType where
  | T_DIR
  | T_FILE
  | T_DEV
  deriving DecidableEq

def argfd (fd : ℤ) : Code (Option (Fd × FileType)) := do
  if h : 0 ≤ fd ∧ fd.toNat < NOFILE then
    match ← ofile ⟨fd.toNat, h.2⟩ with
    | some t => pure (some (⟨fd.toNat, h.2⟩, t))
    | none => pure none
  else pure none

def sysDup (fd : ℤ) : Code ℤ := do
  match ← argfd fd with
  | none => pure (-1)
  | some (fd, _) => do
    match ← dupFd fd with
    | none => pure (-1)
    | some new => pure new.val

def sysRead (fd n : ℤ) : Code ℤ := do
  match ← argfd fd with
  | none => pure (-1)
  | some (_, t) => do
    if n < 0 then pure (-1)
    else if ← ask "argptr(1, &p, n) < 0" then pure (-1)
    else fileread t n.toNat

def sysWrite (fd n : ℤ) : Code ℤ := do
  match ← argfd fd with
  | none => pure (-1)
  | some (_, t) => do
    if n < 0 then pure (-1)
    else if ← ask "argptr(1, &p, n) < 0" then pure (-1)
    else filewrite t n.toNat

def sysClose (fd : ℤ) : Code ℤ := do
  match ← argfd fd with
  | none => pure (-1)
  | some (fd, _) => do
    fileclose (.inl fd)
    pure 0

def sysFstat (fd : ℤ) : Code ℤ := do
  match ← argfd fd with
  | none => pure (-1)
  | some (_, t) => do
    if ← ask "argptr(1, (void*)&st, sizeof(*st)) < 0" then pure (-1) else filestat t

/-- What follows the label bad in sys_link(). -/
def linkBad (ip : ℕ) : Code ℤ := do
  ilock
  iupdate
  iunlockput ip
  endOp
  pure (-1)

def sysLink : Code ℤ := do
  if ← ask "argstr(0, &old) < 0 || argstr(1, &new) < 0" then pure (-1)
  else do
    beginOp
    match ← namei with
    | none => do
      endOp
      pure (-1)
    | some ip => do
      ilock
      if ← ask "ip->type == T_DIR" then do
        iunlockput ip
        endOp
        pure (-1)
      else do
        iupdate
        iunlock
        match ← nameiparent with
        | none => linkBad ip
        | some dp => do
          ilock
          if ← ask "dp->dev != ip->dev" then do
            iunlockput dp
            linkBad ip
          else if ← dirlink dp then do
            iunlockput dp
            iput ip
            endOp
            pure 0
          else do
            iunlockput dp
            linkBad ip

def isdiremptyFrom (dp : ℕ) : ℕ → ℕ → Code Bool
  | 0, _ => pure true
  | rest + 1, off => do
    let r ← readi dp off direntSize
    if r ≠ direntSize then panic "isdirempty: readi"
    else if ← ask "de.inum != 0" then pure false
    else isdiremptyFrom dp rest (off + direntSize)

def isdirempty (dp : ℕ) : Code Bool := do
  let size ← inodeSize dp
  isdiremptyFrom dp (dirents (size - 2 * direntSize)) (2 * direntSize)

/-- What follows the label bad in sys_unlink(). -/
def unlinkBad (dp : ℕ) : Code ℤ := do
  iunlockput dp
  endOp
  pure (-1)

/-- The end of sys_unlink(). -/
def unlinkEnd (dp ip : ℕ) : Code ℤ := do
  iunlockput dp
  iupdate
  iunlockput ip
  endOp
  pure 0

/-- sys_unlink() from where the entry is cleared. -/
def unlinkEntry (dp ip off : ℕ) (dir : Bool) : Code ℤ := do
  let r ← writei dp off direntSize
  if r ≠ direntSize then panic "unlink: writei"
  else if dir = true then do
    iupdate
    unlinkEnd dp ip
  else unlinkEnd dp ip

def sysUnlink : Code ℤ := do
  if ← ask "argstr(0, &path) < 0" then pure (-1)
  else do
    beginOp
    match ← nameiparent with
    | none => do
      endOp
      pure (-1)
    | some dp => do
      ilock
      if ← ask "name is . or .." then unlinkBad dp
      else
        match ← dirlookup dp with
        | none => unlinkBad dp
        | some (ip, off) => do
          ilock
          if ← ask "ip->nlink < 1" then panic "unlink: nlink < 1"
          else if ← ask "ip->type == T_DIR" then
            if ← isdirempty ip then unlinkEntry dp ip off true
            else do
              iunlockput ip
              unlinkBad dp
          else unlinkEntry dp ip off false

/-- The entries . and .. of a new directory. -/
def createDots (type : InodeType) (ip : ℕ) : Code Unit := do
  if type = .T_DIR then do
    iupdate
    if ← dirlink ip then
      if ← dirlink ip then pure () else panic "create dots"
    else panic "create dots"
  else pure ()

/-- create() from where the name is not in the directory. -/
def createNew (type : InodeType) (dp : ℕ) : Code (Option ℕ) := do
  let ip ← ialloc
  ilock
  iupdate
  createDots type ip
  if ← dirlink dp then do
    iunlockput dp
    pure (some ip)
  else panic "create: dirlink"

def create (type : InodeType) : Code (Option ℕ) := do
  match ← nameiparent with
  | none => pure none
  | some dp => do
    ilock
    match ← dirlookup dp with
    | some (ip, _) => do
      iunlockput dp
      ilock
      let file ← ask "ip->type == T_FILE"
      if type = .T_FILE ∧ file = true then pure (some ip)
      else do
        iunlockput ip
        pure none
    | none => createNew type dp

/-- sys_open() up to where it has its inode locked. -/
def openInode : Code (Option ℕ) := do
  if ← ask "omode & O_CREATE" then
    match ← create .T_FILE with
    | none => do
      endOp
      pure none
    | some ip => pure (some ip)
  else
    match ← namei with
    | none => do
      endOp
      pure none
    | some ip => do
      ilock
      if ← ask "ip->type == T_DIR && omode != O_RDONLY" then do
        iunlockput ip
        endOp
        pure none
      else pure (some ip)

def sysOpen : Code ℤ := do
  if ← ask "argstr(0, &path) < 0 || argint(1, &omode) < 0" then pure (-1)
  else do
    beginOp
    match ← openInode with
    | none => pure (-1)
    | some ip => do
      if ← filealloc rf then
        match ← fdalloc rf with
        | none => do
          fileclose (.inr rf)
          iunlockput ip
          endOp
          pure (-1)
        | some fd => do
          iunlock
          endOp
          setType (.inl fd) (.inode ip)
          pure fd.val
      else do
        iunlockput ip
        endOp
        pure (-1)

/-- sys_mkdir() and sys_mknod(), which look at their arguments in the transaction. -/
def sysMake (type : InodeType) (arguments : String) : Code ℤ := do
  beginOp
  if ← ask arguments then do
    endOp
    pure (-1)
  else
    match ← create type with
    | none => do
      endOp
      pure (-1)
    | some ip => do
      iunlockput ip
      endOp
      pure 0

def sysMkdir : Code ℤ := sysMake .T_DIR "argstr(0, &path) < 0"

def sysMknod : Code ℤ :=
  sysMake .T_DEV "argstr(0, &path) < 0 || argint(1, &major) < 0 || argint(2, &minor) < 0"

def sysChdir : Code ℤ := do
  beginOp
  if ← ask "argstr(0, &path) < 0" then do
    endOp
    pure (-1)
  else
    match ← namei with
    | none => do
      endOp
      pure (-1)
    | some ip => do
      ilock
      if ← ask "ip->type != T_DIR" then do
        iunlockput ip
        endOp
        pure (-1)
      else do
        iunlock
        let cwd ← choose "curproc->cwd"
        iput cwd
        endOp
        pure 0

def pipealloc : Code Bool := do
  if ← filealloc rf then
    if ← filealloc wf then
      if ← ask "(p = (struct pipe*)kalloc()) == 0" then do
        fileclose (.inr rf)
        fileclose (.inr wf)
        pure false
      else do
        setType (.inr rf) .pipe
        setType (.inr wf) .pipe
        pure true
    else do
      fileclose (.inr rf)
      pure false
  else pure false

def sysPipe : Code ℤ := do
  if ← ask "argptr(0, (void*)&fd, 2*sizeof(fd[0])) < 0" then pure (-1)
  else if ← pipealloc then
    match ← fdalloc rf with
    | none => do
      fileclose (.inr rf)
      fileclose (.inr wf)
      pure (-1)
    | some fd0 => do
      match ← fdalloc wf with
      | none => do
        fileclose (.inl fd0)
        fileclose (.inr wf)
        pure (-1)
      | some _ => pure 0
  else pure (-1)

/-! exec.c and proc.c. -/

/-- The loop of loaduvm() for `sz` more bytes, in at most `fuel` rounds. -/
def loaduvmFrom (ip : ℕ) : ℕ → ℕ → ℕ → Code Bool
  | 0, _, _ => pure true
  | fuel + 1, offset, sz => do
    if sz = 0 then pure true
    else if ← ask "(pte = walkpgdir(pgdir, addr+i, 0)) == 0" then
      panic "loaduvm: address should exist"
    else do
      let r ← readi ip offset (min sz PGSIZE)
      if r ≠ (min sz PGSIZE : ℕ) then pure false
      else loaduvmFrom ip fuel (offset + min sz PGSIZE) (sz - min sz PGSIZE)

def loaduvm (ip offset sz : ℕ) : Code Bool := do
  if ← ask "(uint) addr % PGSIZE != 0" then panic "loaduvm: addr must be page aligned"
  else loaduvmFrom ip sz offset sz

/-- The loop of exec() over the program headers. -/
def loadProgram (ip : ℕ) : ℕ → ℕ → Code Bool
  | 0, _ => pure true
  | rest + 1, off => do
    let r ← readi ip off proghdrSize
    if r ≠ proghdrSize then pure false
    else if ← ask "ph.type != ELF_PROG_LOAD" then loadProgram ip rest (off + proghdrSize)
    else if ← ask "ph.memsz < ph.filesz" then pure false
    else if ← ask "ph.vaddr + ph.memsz < ph.vaddr" then pure false
    else if ← ask "(sz = allocuvm(pgdir, sz, ph.vaddr + ph.memsz)) == 0" then pure false
    else if ← ask "ph.vaddr % PGSIZE != 0" then pure false
    else do
      let offset ← choose "ph.off"
      let filesz ← choose "ph.filesz"
      if ← loaduvm ip offset filesz then loadProgram ip rest (off + proghdrSize)
      else pure false

/-- exec() while it has its inode locked. -/
def loadImage (ip : ℕ) : Code Bool := do
  let r ← readi ip 0 elfhdrSize
  if r ≠ elfhdrSize then pure false
  else if ← ask "elf.magic != ELF_MAGIC" then pure false
  else if ← ask "(pgdir = setupkvm()) == 0" then pure false
  else do
    let phoff ← choose "elf.phoff"
    let phnum ← choose "elf.phnum"
    loadProgram ip phnum phoff

def exec : Code ℤ := do
  beginOp
  match ← namei with
  | none => do
    endOp
    pure (-1)
  | some ip => do
    ilock
    if ← loadImage ip then do
      iunlockput ip
      endOp
      -- ip is 0 from here on, so that bad ends no transaction
      if ← ask "allocuvm or copyout failed, or argc >= MAXARG" then pure (-1) else pure 0
    else do
      iunlockput ip
      endOp
      pure (-1)

def sysExec : Code ℤ := do
  if ← ask "argstr, argint, fetchint or fetchstr failed, or too many arguments" then pure (-1)
  else exec

def fork : Code ℤ := do
  if ← ask "(np->pgdir = copyuvm(curproc->pgdir, curproc->sz)) == 0" then pure (-1)
  else if ← newProcess then do
    let pid ← choose "np->pid"
    pure pid
  else pure (-1)

/-- The loop of exit() over the descriptors. -/
def closeAll : List Fd → Code Unit
  | [] => pure ()
  | fd :: fds => do
    match ← ofile fd with
    | some _ => do
      fileclose (.inl fd)
      closeAll fds
    | none => closeAll fds

def exit : Code ℤ := do
  if ← ask "curproc == initproc" then panic "init exiting"
  else do
    closeAll (List.finRange NOFILE)
    beginOp
    let cwd ← choose "curproc->cwd"
    iput cwd
    endOp
    becomeZombie
    pure 0

/-- `other` are the calls that touch none of this: wait, kill, getpid, sbrk, sleep, uptime
and date. -/
inductive Syscall where
  | fork
  | exit
  | pipe
  | read (fd n : ℤ)
  | exec
  | fstat (fd : ℤ)
  | chdir
  | dup (fd : ℤ)
  | openFile
  | write (fd n : ℤ)
  | mknod
  | unlink
  | link
  | mkdir
  | close (fd : ℤ)
  | other
  deriving DecidableEq

def syscall : Syscall → Code ℤ
  | .fork => fork
  | .exit => exit
  | .pipe => sysPipe
  | .read fd n => sysRead fd n
  | .exec => sysExec
  | .fstat fd => sysFstat fd
  | .chdir => sysChdir
  | .dup fd => sysDup fd
  | .openFile => sysOpen
  | .write fd n => sysWrite fd n
  | .mknod => sysMknod
  | .unlink => sysUnlink
  | .link => sysLink
  | .mkdir => sysMkdir
  | .close fd => sysClose fd
  | .other => outcome "the result"

/-! Runs. -/

structure State where
  shared : Shared
  code : ProcNo → Option (Code ℤ)
  halted : Option String

inductive Event where
  | call (p : ProcNo) (c : Syscall)
  | step (p : ProcNo) (n : ℕ)
  | reap (p : ProcNo)
  deriving DecidableEq

def Enabled (s : State) (e : Event) : Prop :=
  s.halted = none ∧ match e with
  | .call p _ => (s.code p).isNone ∧ s.shared.procs p = .live
  | .step p _ => (s.code p).isSome
  | .reap p => (s.code p).isNone ∧ s.shared.procs p = .zombie

instance (s : State) (e : Event) : Decidable (Enabled s e) := by
  cases e <;> simp only [Enabled] <;> infer_instance

/-- The next operation of the call, or its return. -/
def stepCode (s : State) (p : ProcNo) (n : ℕ) : Code ℤ → State
  | .done _ => { s with code := Function.update s.code p none }
  | .step o k =>
    match perform s.shared p n o with
    | .ok (r, shared) => { s with shared, code := Function.update s.code p (some (k r)) }
    | .error msg => { s with halted := some msg }

def next (s : State) : Event → State
  | .call p c => { s with code := Function.update s.code p (some (syscall c)) }
  | .step p n =>
    match s.code p with
    | some c => stepCode s p n c
    | none => s
  | .reap p =>
    { s with shared := { s.shared with procs := Function.update s.shared.procs p .unused } }

def machine : Machine State Event := ⟨Enabled, next⟩

instance (s : State) (e : Event) : Decidable (machine.enabled s e) :=
  inferInstanceAs (Decidable (Enabled s e))

/-- An image of the disk without holes in its files. -/
structure Image where
  inode : ℕ → Inode
  holeFree : ∀ ip, HoleFree (inode ip)

/-- The first process runs, and nothing is open. -/
def initial (image : Image) : State where
  shared :=
    { inode := image.inode
      files := fun _ => ⟨0, .none⟩
      held := fun _ => none
      procs := fun p => if p.val = 0 then .live else .unused
      outstanding := 0
      trans := fun _ => 0 }
  code := fun _ => none
  halted := none

end TransactionCode
