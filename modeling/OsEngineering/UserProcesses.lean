import OsEngineering.PageTables
import OsEngineering.KernelParams
import OsEngineering.TransitionSystem
import Mathlib.Data.List.FinRange

/-! exec.c and the parts of proc.c, sysproc.c and syscall.c that set, copy or rely on the size
and the page table of a process. A system call is one step. -/
namespace UserProcesses

open KernelParams ByteBlock FaultState PageTables TransitionSystem

abbrev Slot := Fin NPROC

def initproc : Slot := ⟨0, NPROC_pos⟩

/-- `built` is no field of the source: the size that userinit(), exec() or fork() built
`pgdir` for. -/
structure Proc where
  pgdir : PageDir
  sz : Word
  kstack : Frame
  parent : Option Slot
  zombie : Bool
  built : Word

/-! syscall.c -/

/-- `esp` is the user's stack pointer in the trap frame. -/
def fetchint (p : Proc) (addr : Word) : VM (Option Word) :=
  if p.sz ≤ addr ∨ p.sz < addr + 4 then pure none
  else do
    let b0 ← load p.pgdir addr
    let b1 ← load p.pgdir (addr + 1)
    let b2 ← load p.pgdir (addr + 2)
    let b3 ← load p.pgdir (addr + 3)
    pure (some (b3 ++ b2 ++ b1 ++ b0))

/-- The loop of fetchstr(): the address of the terminating zero. -/
def scan (d : PageDir) (ep : Word) : ℕ → Word → VM (Option Word)
  | 0, s => if s < ep then throw .loop else pure none
  | k + 1, s =>
    if s < ep then do
      let b ← load d s
      if b = 0 then pure (some s) else scan d ep k (s + 1)
    else pure none

def fetchstr (p : Proc) (addr : Word) : VM (Option Word) :=
  if p.sz ≤ addr then pure none
  else do
    match ← scan p.pgdir p.sz (p.sz - addr).toNat addr with
    | none => pure none
    | some s => pure (some (s - addr))

def argint (p : Proc) (esp n : Word) : VM (Option Word) := fetchint p (esp + 4 + 4 * n)

def argptr (p : Proc) (esp n size : Word) : VM (Option Word) := do
  match ← argint p esp n with
  | none => pure none
  | some i =>
    if size.toInt < 0 ∨ p.sz ≤ i ∨ p.sz < i + size then pure none else pure (some i)

def argstr (p : Proc) (esp n : Word) : VM (Option Word) := do
  match ← argint p esp n with
  | none => pure none
  | some addr => fetchstr p addr

/-! exec.c -/

def ELF_MAGIC : Word := 0x464C457F
def ELF_PROG_LOAD : Word := 1
def MAXARG : ℕ := 32

def wordAt (bs : List Byte) (i : ℕ) : Word :=
  bs.getD (i + 3) 0 ++ bs.getD (i + 2) 0 ++ bs.getD (i + 1) 0 ++ bs.getD i 0

structure ElfHdr where
  magic : Word
  entry : Word
  phoff : Word
  phnum : Half

def decodeElf (bs : List Byte) : ElfHdr :=
  ⟨wordAt bs 0, wordAt bs 24, wordAt bs 28, bs.getD 45 0 ++ bs.getD 44 0⟩

structure ProgHdr where
  type : Word
  off : Word
  vaddr : Word
  filesz : Word
  memsz : Word

def decodePh (bs : List Byte) : ProgHdr :=
  ⟨wordAt bs 0, wordAt bs 4, wordAt bs 8, wordAt bs 16, wordAt bs 20⟩

/-- readi() of a whole record of `n` bytes. -/
def readAll (readi : Reader) (off : Word) (n : ℕ) : Option (List Byte) :=
  match readi off (BitVec.ofNat 32 n) with
  | some bs => if bs.length = n then some bs else none
  | none => none

/-- What exec() installs when it succeeds. -/
structure Image where
  pgdir : PageDir
  sz : Word
  eip : Word
  esp : Word

def wordBytes (w : Word) : List Byte :=
  [w.extractLsb' 0 8, w.extractLsb' 8 8, w.extractLsb' 16 8, w.extractLsb' 24 8]

section Kernel

variable (img : KernelImage)

/-- The loop over the program headers; `none` in place of the size is `goto bad`. -/
def loadSegments (readi : Reader) : ℕ → Word → PageDir → Word → VM (PageDir × Option Word)
  | 0, _, d, sz => pure (d, some sz)
  | k + 1, off, d, sz =>
    match readAll readi off 32 with
    | none => pure (d, none)
    | some bs =>
      let ph := decodePh bs
      if ph.type ≠ ELF_PROG_LOAD then loadSegments readi k (off + 32) d sz
      else if ph.memsz < ph.filesz then pure (d, none)
      else if ph.vaddr + ph.memsz < ph.vaddr then pure (d, none)
      else do
        let (d, sz) ← allocuvm img d sz (ph.vaddr + ph.memsz)
        if sz = 0 then pure (d, none)
        else if ph.vaddr.toNat % 4096 ≠ 0 then pure (d, none)
        else
          if ← loaduvm d ph.vaddr readi ph.off ph.filesz then
            loadSegments readi k (off + 32) d sz
          else pure (d, none)

/-- Pushes the argument strings; the result is the stack pointer and their addresses. -/
def pushArgs (d : PageDir) : ℕ → List (List Byte) → Word → VM (Option (Word × List Word))
  | _, [], sp => pure (some (sp, []))
  | argc, arg :: args, sp =>
    if MAXARG ≤ argc then pure none
    else do
      let sp := (sp - BitVec.ofNat 32 (arg.length + 1)) &&& ~~~3
      if ← copyout d sp (arg ++ [0]) then
        match ← pushArgs d (argc + 1) args sp with
        | none => pure none
        | some (last, ptrs) => pure (some (last, sp :: ptrs))
      else pure none

def bad (d : PageDir) : VM (Option Image) := do
  freevm img d
  pure none

/-- From the allocation of the stack to the new image. -/
def buildStack (argv : List (List Byte)) (entry : Word) (d : PageDir) (sz : Word) :
    VM (Option Image) := do
  let sz := PGROUNDUP sz
  let (d, sz) ← allocuvm img d sz (sz + 2 * PGSIZE)
  if sz = 0 then bad img d
  else
    let d ← clearpteu d (sz - 2 * PGSIZE)
    match ← pushArgs d 0 argv sz with
    | none => bad img d
    | some (sp, ptrs) =>
      let argc := BitVec.ofNat 32 argv.length
      let ustack := [0xffffffff, argc, sp - (argc + 1) * 4] ++ ptrs ++ [0]
      let sp := sp - (3 + argc + 1) * 4
      if ← copyout d sp (ustack.flatMap wordBytes) then
        pure (some ⟨d, sz, entry, sp⟩)
      else bad img d

/-- exec() up to the commit; `file` is what namei() finds. -/
def exec (file : Option Reader) (argv : List (List Byte)) : VM (Option Image) :=
  match file with
  | none => pure none
  | some readi =>
    match readAll readi 0 52 with
    | none => pure none
    | some bs =>
      let elf := decodeElf bs
      if elf.magic ≠ ELF_MAGIC then pure none
      else do
        match ← setupkvm img with
        | none => pure none
        | some d =>
          match ← loadSegments img readi elf.phnum.toNat elf.phoff d 0 with
          | (d, none) => bad img d
          | (d, some sz) => buildStack img argv elf.entry d sz

/-! proc.c and sysproc.c -/

structure State where
  kmem : Kmem
  procs : Slot → Option Proc
  halted : Option Fault

def State.put (s : State) (p : Slot) (proc : Option Proc) : State :=
  { s with procs := Function.update s.procs p proc }

/-- Runs kernel code; a fault halts the machine. -/
def State.call {α : Type} (s : State) (c : VM α) (k : State → α → State) : State :=
  match c s.kmem with
  | .ok (a, m) => k { s with kmem := m } a
  | .error f => { s with halted := some f }

def unused (s : State) : Option Slot :=
  (List.finRange NPROC).find? fun q => (s.procs q).isNone

/-- The kernel stack and the page table of a child. -/
def copyProc (cur : Proc) : VM (Option (Frame × PageDir)) := do
  match ← kalloc with
  | none => pure none
  | some kstack =>
    match ← copyuvm img cur.pgdir cur.sz with
    | none =>
      kfree img kstack
      pure none
    | some d => pure (some (kstack, d))

def fork (s : State) (p : Slot) (cur : Proc) : State :=
  match unused s with
  | none => s
  | some np => s.call (copyProc img cur) fun s r =>
    match r with
    | none => s
    | some (kstack, d) => s.put np (some
        { pgdir := d, sz := cur.sz, kstack := kstack, parent := some p, zombie := false,
          built := cur.sz })

def sysExec (s : State) (p : Slot) (cur : Proc) (file : Option Reader)
    (argv : List (List Byte)) : State :=
  s.call (exec img file argv) fun s r =>
    match r with
    | none => s
    | some im =>
      (s.put p (some { cur with pgdir := im.pgdir, sz := im.sz, built := im.sz })).call
        (freevm img cur.pgdir) fun s _ => s

/-- `n` is what argint() has fetched. -/
def sysSbrk (s : State) (p : Slot) (cur : Proc) (n : Word) : State :=
  s.put p (some { cur with sz := cur.sz + n })

def exit (s : State) (p : Slot) (cur : Proc) : State :=
  if p = initproc then { s with halted := some (.panic "init exiting") }
  else
    let s := s.put p (some { cur with zombie := true })
    { s with procs := fun q => (s.procs q).map fun proc =>
        if proc.parent = some p then { proc with parent := some initproc } else proc }

def child (s : State) (p : Slot) : Option Slot :=
  (List.finRange NPROC).find? fun q =>
    (s.procs q).any fun proc => proc.parent = some p ∧ proc.zombie

/-- wait() that finds a zombie; without one it sleeps or fails and changes nothing. -/
def wait (s : State) (p : Slot) : State :=
  match child s p with
  | none => s
  | some q =>
    match s.procs q with
    | none => s
    | some proc =>
      s.call (do kfree img proc.kstack; freevm img proc.pgdir) fun s _ => s.put q none

inductive Event where
  | fork (p : Slot)
  | exec (p : Slot) (file : Option Reader) (argv : List (List Byte))
  | sbrk (p : Slot) (n : Word)
  | exit (p : Slot)
  | wait (p : Slot)

def Event.caller : Event → Slot
  | .fork p => p
  | .exec p _ _ => p
  | .sbrk p _ => p
  | .exit p => p
  | .wait p => p

def Enabled (s : State) (e : Event) : Prop :=
  s.halted = none ∧ ∃ cur, s.procs e.caller = some cur ∧ cur.zombie = false

def next (s : State) (e : Event) : State :=
  match s.procs e.caller with
  | none => s
  | some cur =>
    match e with
    | .fork p => fork img s p cur
    | .exec p file argv => sysExec img s p cur file argv
    | .sbrk p n => sysSbrk s p cur n
    | .exit p => exit s p cur
    | .wait p => wait img s p

def machine : Machine State Event := ⟨Enabled, next img⟩

/-- userinit() after kinit2(). -/
def userinit (initcode : Page) : VM Proc := do
  match ← kalloc with
  | none => throw .null
  | some kstack =>
    match ← setupkvm img with
    | none => panic "userinit: out of memory?"
    | some d =>
      let d ← inituvm d initcode
      pure { pgdir := d, sz := PGSIZE, kstack := kstack, parent := none, zombie := false,
             built := PGSIZE }

/-- The machine starts with the process of userinit(), which ran before anybody else could
allocate, with memory to spare: it takes at most 1027 pages. -/
def Initial (s : State) : Prop :=
  ∃ initcode kmem proc m, kmem.refuse = [] ∧ 1027 ≤ kmem.freelist.length ∧
    userinit img initcode kmem = .ok (proc, m) ∧
    s.kmem.freelist = m.freelist ∧ s.kmem.mem = m.mem ∧
    s.procs = Function.update (fun _ => none) initproc (some proc) ∧ s.halted = none

end Kernel

end UserProcesses
