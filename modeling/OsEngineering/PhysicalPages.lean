import OsEngineering.FileReferences
import OsEngineering.UserProcesses

/-! Everything that takes pages from kalloc(): the boot in main.c, processes and their page
tables, and pipes. A system call is one step. -/
namespace PhysicalPages

open KernelParams ByteBlock FaultState PageTables UserProcesses TransitionSystem

def P2V (pa : Word) : Word := pa + KERNBASE

/-- `kernel` has the process states, the open files and the pipes; its field `free` is not used,
the free list is that of `kmem`. `cpuStacks` are those of the other CPUs. -/
structure State where
  kmem : Kmem
  kpgdir : PageDir
  cpuStacks : List Frame
  procs : Slot → Option Proc
  kernel : FileTable.Kernel
  halted : Option Fault

def State.put (s : State) (p : Slot) (proc : Option Proc) : State :=
  { s with procs := Function.update s.procs p proc }

/-- Code of vm.c and exec.c, and what comes after it; a fault halts the machine. -/
def State.vm {α : Type} (s : State) (c : VM α) (k : State → α → State) : State :=
  match c s.kmem with
  | .ok (a, m) => k { s with kmem := m } a
  | .error f => { s with halted := some f }

/-- The kernel as file.c and pipe.c see it. -/
def State.view (s : State) : FileTable.Kernel :=
  { s.kernel with free := s.kmem.freelist.map BitVec.toNat }

/-- Code on open files, and what comes after it. -/
def State.files (s : State) (c : FileTable.FileCode ℤ) (k : State → State) : State :=
  match c s.view with
  | .ok (_, t) => k { s with
      kmem := { s.kmem with freelist := t.free.map (BitVec.ofNat 20) }
      kernel := t }
  | .error msg => { s with halted := some (.panic msg) }

section Kernel

variable (img : KernelImage)

/-! main.c -/

/-- The loop of freerange(). -/
def freeFrom (vend : Word) : ℕ → Word → VM Unit
  | 0, p => if p + PGSIZE ≤ vend then throw .loop else pure ()
  | k + 1, p =>
    if p + PGSIZE ≤ vend then do
      kfree img (frameAt (p - KERNBASE))
      freeFrom vend k (p + PGSIZE)
    else pure ()

def freerange (vstart vend : Word) : VM Unit := freeFrom img vend bound (PGROUNDUP vstart)

def kinit1 : VM Unit := freerange img img.kend (P2V 0x400000)

def kinit2 : VM Unit := freerange img (P2V 0x400000) (P2V PHYSTOP)

/-- The stacks of `n` more CPUs. -/
def startothers : ℕ → VM (List Frame)
  | 0 => pure []
  | n + 1 => do
    match ← kalloc with
    | none => throw .null
    | some stack => do
      let cpuStacks ← startothers n
      pure (stack :: cpuStacks)

/-- kvmalloc() does not look at the result of setupkvm(). -/
def main (ncpu : ℕ) (initcode : Page) : VM (PageDir × List Frame × Proc) := do
  kinit1 img
  match ← setupkvm img with
  | none => throw .null
  | some kpgdir => do
    let cpuStacks ← startothers (ncpu - 1)
    kinit2 img
    let proc ← userinit img initcode
    pure (kpgdir, cpuStacks, proc)

/-! System calls. -/

def fork (s : State) (p : Slot) (cur : Proc) : State :=
  match FileTable.allocproc s.kernel with
  | none => s
  | some np => s.vm (copyProc img cur) fun s r =>
    match r with
    | none => s.files (FileTable.fork p false) id
    | some (kstack, d) => s.files (FileTable.fork p true) fun s => s.put np (some
        { pgdir := d, sz := cur.sz, kstack := kstack, parent := some p, zombie := false,
          built := cur.sz })

def sysExec (s : State) (p : Slot) (cur : Proc) (file : Option Reader)
    (argv : List (List Byte)) : State :=
  s.vm (UserProcesses.exec img file argv) fun s r =>
    match r with
    | none => s
    | some im =>
      (s.put p (some { cur with pgdir := im.pgdir, sz := im.sz, built := im.sz })).vm
        (freevm img cur.pgdir) fun s _ => s

/-- The page table has changed whatever the result, which is 0 for failure. -/
def resize (cur : Proc) (r : PageDir × Word) : Proc :=
  if r.2 = 0 then { cur with pgdir := r.1 } else { cur with pgdir := r.1, sz := r.2 }

def growproc (s : State) (p : Slot) (cur : Proc) (n : Word) : State :=
  if 0 < n.toInt then
    s.vm (allocuvm img cur.pgdir cur.sz (cur.sz + n)) fun s r => s.put p (some (resize cur r))
  else if n.toInt < 0 then
    s.vm (deallocuvm img cur.pgdir cur.sz (cur.sz + n)) fun s r => s.put p (some (resize cur r))
  else s

def adopt (p : Slot) (proc : Proc) : Proc :=
  if proc.parent = some p then { proc with parent := some initproc } else proc

def exit (s : State) (p : Slot) (cur : Proc) : State :=
  if p = initproc then { s with halted := some (.panic "init exiting") }
  else s.files (FileTable.exit p) fun s =>
    let s := s.put p (some { cur with zombie := true })
    { s with procs := fun q => (s.procs q).map (adopt p) }

/-- wait() that finds a zombie; without one it sleeps or fails and changes nothing. -/
def wait (s : State) (p : Slot) : State :=
  match child ⟨s.kmem, s.procs, s.halted⟩ p with
  | none => s
  | some q =>
    match s.procs q with
    | none => s
    | some proc =>
      s.vm (do kfree img proc.kstack; freevm img proc.pgdir) fun s _ =>
        { s with kernel := s.kernel.setState q .unused }.put q none

/-- Where kalloc() fails the free list is empty for this call. -/
def sysPipe (s : State) (p : Slot) (arg : Bool) : State :=
  let refused := s.kmem.refuse.headD false
  let s' := { s with kmem := { s.kmem with refuse := s.kmem.refuse.tail } }
  if refused then
    { s' with kmem := { s'.kmem with freelist := [] } }.files (FileTable.sysPipe p arg) fun t =>
      { t with kmem := { t.kmem with freelist := t.kmem.freelist ++ s.kmem.freelist } }
  else s'.files (FileTable.sysPipe p arg) id

inductive Event where
  | fork (p : Slot)
  | exec (p : Slot) (file : Option Reader) (argv : List (List Byte))
  | growproc (p : Slot) (n : Word)
  | exit (p : Slot)
  | wait (p : Slot)
  | pipe (p : Slot) (arg : Bool)
  | open (p : Slot) (ip : Option ℕ) (readable writable : Bool)
  | dup (p : Slot) (fd : ℤ)
  | close (p : Slot) (fd : ℤ)

def Event.caller : Event → Slot
  | .fork p => p
  | .exec p _ _ => p
  | .growproc p _ => p
  | .exit p => p
  | .wait p => p
  | .pipe p _ => p
  | .open p _ _ _ => p
  | .dup p _ => p
  | .close p _ => p

def Enabled (s : State) (e : Event) : Prop :=
  s.halted = none ∧ ∃ cur, s.procs e.caller = some cur ∧ cur.zombie = false

def next (s : State) (e : Event) : State :=
  match s.procs e.caller with
  | none => s
  | some cur =>
    match e with
    | .fork p => fork img s p cur
    | .exec p file argv => sysExec img s p cur file argv
    | .growproc p n => growproc img s p cur n
    | .exit p => exit s p cur
    | .wait p => wait img s p
    | .pipe p arg => sysPipe s p arg
    | .open p ip readable writable => s.files (FileTable.sysOpen p ip readable writable) id
    | .dup p fd => s.files (FileTable.sysDup p fd) id
    | .close p fd => s.files (FileTable.sysClose p fd) id

def machine : Machine State Event := ⟨Enabled, next img⟩

/-- After main() on a machine with `ncpu` CPUs, before the first process runs. Nobody else
allocates during main(); afterwards any call to kalloc() may be refused. -/
def Booted (ncpu : ℕ) (s : State) : Prop :=
  ∃ initcode kmem m proc pipes, kmem.freelist = [] ∧ kmem.refuse = [] ∧
    main img ncpu initcode kmem = .ok ((s.kpgdir, s.cpuStacks, proc), m) ∧
    s.kmem.freelist = m.freelist ∧ s.kmem.mem = m.mem ∧
    s.procs = Function.update (fun _ => none) initproc (some proc) ∧
    s.kernel = {
      procs := fun p => ⟨if p = initproc then .live else .unused, fun _ => none⟩
      files := fun _ => ⟨0, .none⟩
      pipes := pipes
      free := []
      others := [] } ∧
    s.halted = none

end Kernel

/-- The pages that main() gives to kinit1() and kinit2(). -/
def Given (img : KernelImage) (f : Frame) : Prop :=
  (PGROUNDUP img.kend).toNat ≤ KERNBASE.toNat + f.toNat * 4096 ∧
    f.toNat * 4096 < PHYSTOP.toNat

instance (img : KernelImage) (f : Frame) : Decidable (Given img f) :=
  inferInstanceAs (Decidable (_ ∧ _))

end PhysicalPages
