import OsEngineering.FaultState
import OsEngineering.FiniteTally
import OsEngineering.KernelParams
import OsEngineering.TransitionSystem
import Mathlib.Data.List.FinRange
import Mathlib.Logic.Function.Basic

/-! File descriptors, open files and the pages of pipes: file.c, the ends of pipes in pipe.c,
and what sysfile.c, fork(), exit() and wait() do with them. A system call runs without
interruption. -/
namespace FileTable

open FaultState FiniteTally KernelParams TransitionSystem

abbrev ProcNo := Fin NPROC
abbrev FileNo := Fin NFILE
abbrev Fd := Fin NOFILE
abbrev Page := ℕ

/-- The field `type`, with the fields of struct file that only count together with it. -/
inductive FileType where
  | none
  | pipe (p : Page) (readable writable : Bool)
  | inode (ip : ℕ) (readable writable : Bool)
  deriving DecidableEq

structure File where
  ref : ℤ
  type : FileType
  deriving DecidableEq

structure Pipe where
  readopen : Bool
  writeopen : Bool

inductive ProcState where
  | unused
  | embryo
  | live
  | zombie
  deriving DecidableEq

structure Proc where
  state : ProcState
  ofile : Fd → Option FileNo

/-- `pipes` is how pages read as pipes, and `others` are the pages that kalloc() gave to
anything else than a pipe. -/
structure Kernel where
  procs : ProcNo → Proc
  files : FileNo → File
  pipes : Page → Pipe
  free : List Page
  others : List Page

abbrev FileCode := Code String Kernel

def panic {α : Type} (msg : String) : FileCode α := throw msg

def Kernel.setFile (s : Kernel) (f : FileNo) (x : File) : Kernel :=
  { s with files := Function.update s.files f x }

def Kernel.setFd (s : Kernel) (p : ProcNo) (fd : Fd) (f : Option FileNo) : Kernel :=
  { s with
    procs := Function.update s.procs p
      { s.procs p with ofile := Function.update (s.procs p).ofile fd f } }

def Kernel.setState (s : Kernel) (p : ProcNo) (x : ProcState) : Kernel :=
  { s with procs := Function.update s.procs p { s.procs p with state := x } }

def Kernel.setPipe (s : Kernel) (p : Page) (x : Pipe) : Kernel :=
  { s with pipes := Function.update s.pipes p x }

def kalloc : FileCode (Option Page) := fun s =>
  match s.free with
  | [] => .ok (none, s)
  | p :: free => .ok (some p, { s with free := free })

def kfree (p : Page) : FileCode Unit := modify fun s => { s with free := p :: s.free }

def filealloc : FileCode (Option FileNo) := fun s =>
  match (List.finRange NFILE).find? fun f => (s.files f).ref = 0 with
  | none => .ok (none, s)
  | some f => .ok (some f, s.setFile f ⟨1, (s.files f).type⟩)

def filedup (f : FileNo) : FileCode Unit := do
  let s ← get
  if (s.files f).ref < 1 then panic "filedup"
  else modify fun s => s.setFile f ⟨(s.files f).ref + 1, (s.files f).type⟩

def Pipe.close (x : Pipe) (writable : Bool) : Pipe :=
  if writable then { x with writeopen := false } else { x with readopen := false }

def pipeclose (p : Page) (writable : Bool) : FileCode Unit := do
  modify fun s => s.setPipe p ((s.pipes p).close writable)
  let s ← get
  if (s.pipes p).readopen = false ∧ (s.pipes p).writeopen = false then kfree p else pure ()

/-- The iput() of an inode's file changes nothing here. -/
def fileclose (f : FileNo) : FileCode Unit := do
  let s ← get
  if (s.files f).ref < 1 then panic "fileclose"
  else if 0 < (s.files f).ref - 1 then
    modify fun s => s.setFile f ⟨(s.files f).ref - 1, (s.files f).type⟩
  else
    modify fun s => s.setFile f ⟨0, .none⟩
    match (s.files f).type with
    | .pipe p _ writable => pipeclose p writable
    | _ => pure ()

def pipealloc : FileCode (Option (FileNo × FileNo)) := do
  match ← filealloc with
  | none => pure none
  | some f0 => do
    match ← filealloc with
    | none => do
      fileclose f0
      pure none
    | some f1 => do
      match ← kalloc with
      | none => do
        fileclose f0
        fileclose f1
        pure none
      | some p => do
        modify fun s => s.setPipe p ⟨true, true⟩
        modify fun s => s.setFile f0 ⟨(s.files f0).ref, .pipe p true false⟩
        modify fun s => s.setFile f1 ⟨(s.files f1).ref, .pipe p false true⟩
        pure (some (f0, f1))

def fdalloc (p : ProcNo) (f : FileNo) : FileCode (Option Fd) := fun s =>
  match (List.finRange NOFILE).find? fun fd => (s.procs p).ofile fd = none with
  | none => .ok (none, s)
  | some fd => .ok (some fd, s.setFd p fd (some f))

def argfd (s : Kernel) (p : ProcNo) (fd : ℤ) : Option (Fd × FileNo) :=
  if h : 0 ≤ fd ∧ fd < NOFILE then
    ((s.procs p).ofile ⟨fd.toNat, by omega⟩).map fun f => (⟨fd.toNat, by omega⟩, f)
  else none

def sysDup (p : ProcNo) (fd : ℤ) : FileCode ℤ := do
  let s ← get
  match argfd s p fd with
  | none => pure (-1)
  | some (_, f) => do
    match ← fdalloc p f with
    | none => pure (-1)
    | some new => do
      filedup f
      pure new.val

def sysClose (p : ProcNo) (fd : ℤ) : FileCode ℤ := do
  let s ← get
  match argfd s p fd with
  | none => pure (-1)
  | some (fd, f) => do
    modify fun s => s.setFd p fd none
    fileclose f
    pure 0

/-- `ip` is what namei() or create() came to, with the checks on it. -/
def sysOpen (p : ProcNo) (ip : Option ℕ) (readable writable : Bool) : FileCode ℤ := do
  match ip with
  | none => pure (-1)
  | some ip => do
    match ← filealloc with
    | none => pure (-1)
    | some f => do
      match ← fdalloc p f with
      | none => do
        fileclose f
        pure (-1)
      | some fd => do
        modify fun s => s.setFile f ⟨(s.files f).ref, .inode ip readable writable⟩
        pure fd.val

/-- `arg` says whether the argument is a pointer to user memory. -/
def sysPipe (p : ProcNo) (arg : Bool) : FileCode ℤ := do
  if arg = false then pure (-1)
  else
    match ← pipealloc with
    | none => pure (-1)
    | some (rf, wf) => do
      match ← fdalloc p rf with
      | none => do
        fileclose rf
        fileclose wf
        pure (-1)
      | some fd0 => do
        match ← fdalloc p wf with
        | none => do
          modify fun s => s.setFd p fd0 none
          fileclose rf
          fileclose wf
          pure (-1)
        | some _ => pure 0

def allocproc (s : Kernel) : Option ProcNo :=
  (List.finRange NPROC).find? fun p => (s.procs p).state = .unused

def dupAll (p np : ProcNo) : List Fd → FileCode Unit
  | [] => pure ()
  | fd :: fds => do
    let s ← get
    match (s.procs p).ofile fd with
    | none => dupAll p np fds
    | some f => do
      filedup f
      modify fun s => s.setFd np fd (some f)
      dupAll p np fds

/-- `memory` says whether kalloc() gave the pages that fork() asks for. -/
def fork (p : ProcNo) (memory : Bool) : FileCode ℤ := do
  let s ← get
  match allocproc s with
  | none => pure (-1)
  | some np => do
    modify fun s => s.setState np .embryo
    if memory = false then
      modify fun s => s.setState np .unused
      pure (-1)
    else
      dupAll p np (List.finRange NOFILE)
      modify fun s => s.setState np .live
      pure np.val

def closeAll (p : ProcNo) : List Fd → FileCode Unit
  | [] => pure ()
  | fd :: fds => do
    let s ← get
    match (s.procs p).ofile fd with
    | none => closeAll p fds
    | some f => do
      fileclose f
      modify fun s => s.setFd p fd none
      closeAll p fds

def exit (p : ProcNo) : FileCode ℤ := do
  closeAll p (List.finRange NOFILE)
  modify fun s => s.setState p .zombie
  pure 0

/-- `free` and `others` of fork() and wait() are the pages after it; exec() and sbrk() are
`memory`. -/
inductive Call where
  | open (ip : Option ℕ) (readable writable : Bool)
  | pipe (arg : Bool)
  | dup (fd : ℤ)
  | close (fd : ℤ)
  | fork (memory : Bool) (free others : List Page)
  | exit
  | wait (zombie : ProcNo) (free others : List Page)
  | memory (free others : List Page)

def setMemory (free others : List Page) : FileCode ℤ := do
  modify fun s => { s with free := free, others := others }
  pure 0

def Call.run (p : ProcNo) : Call → FileCode ℤ
  | .open ip readable writable => sysOpen p ip readable writable
  | .pipe arg => sysPipe p arg
  | .dup fd => sysDup p fd
  | .close fd => sysClose p fd
  | .fork granted free others => do
    let _ ← setMemory free others
    FileTable.fork p granted
  | .exit => FileTable.exit p
  | .wait zombie free others => do
    let _ ← setMemory free others
    modify fun s => s.setState zombie .unused
    pure zombie.val
  | .memory free others => setMemory free others

structure State where
  kernel : Kernel
  halted : Option String

/-- Pages only go back and forth between kalloc() and its other users. -/
def Traded (s : Kernel) (free others : List Page) : Prop :=
  (free ++ others).Perm (s.free ++ s.others)

def Enabled (s : State) (p : ProcNo) (c : Call) : Prop :=
  s.halted = none ∧ (s.kernel.procs p).state = .live ∧ match c with
  | .fork _ free others => Traded s.kernel free others
  | .memory free others => Traded s.kernel free others
  | .wait zombie free others =>
    (s.kernel.procs zombie).state = .zombie ∧ Traded s.kernel free others
  | _ => True

instance (s : State) (p : ProcNo) (c : Call) : Decidable (Enabled s p c) := by
  cases c <;> simp only [Enabled, Traded] <;> infer_instance

structure Event where
  p : ProcNo
  call : Call

def next (s : State) (e : Event) : State :=
  match e.call.run e.p s.kernel with
  | .ok (_, t) => { s with kernel := t }
  | .error msg => { s with halted := some msg }

def machine : Machine State Event := ⟨fun s e => Enabled s e.p e.call, next⟩

instance (s : State) (e : Event) : Decidable (machine.enabled s e) :=
  inferInstanceAs (Decidable (Enabled s e.p e.call))

/-- The pages at boot, each once: those in kmem.freelist and those in use already. -/
structure Memory where
  free : List Page
  others : List Page
  nodup : (free ++ others).Nodup

/-- One process and no open file. -/
def initial (initproc : ProcNo) (pipes : Page → Pipe) (m : Memory) : State where
  kernel := {
    procs := fun p => ⟨if p = initproc then .live else .unused, fun _ => none⟩
    files := fun _ => ⟨0, .none⟩
    pipes := pipes
    free := m.free
    others := m.others }
  halted := none

abbrev Reaches (initproc : ProcNo) (pipes : Page → Pipe) (m : Memory) (es : List Event)
    (s : State) : Prop :=
  Run machine.Step (· = initial initproc pipes m) es s

end FileTable
