import OsEngineering.ByteBlock
import OsEngineering.FaultState
import Mathlib.Logic.Function.Basic

/-! mmu.h, kalloc.c and vm.c: two-level page tables over physical page frames. A page
directory is a value that carries its page tables with their frames; the contents of all
other frames are in `mem`. Loops carry a bound on their rounds, past which they fault with
`loop`. -/
namespace PageTables

open ByteBlock FaultState

def PGSIZE : Word := 4096
def KERNBASE : Word := 0x80000000
def EXTMEM : Word := 0x100000
def PHYSTOP : Word := 0xE000000
def DEVSPACE : Word := 0xFE000000
def KERNLINK : Word := KERNBASE + EXTMEM

def PTE_P : Word := 1
def PTE_W : Word := 2
def PTE_U : Word := 4

def PGROUNDUP (sz : Word) : Word := (sz + PGSIZE - 1) &&& ~~~(PGSIZE - 1)
def PGROUNDDOWN (a : Word) : Word := a &&& ~~~(PGSIZE - 1)

/-- An index into a page directory or a page table. -/
abbrev Index := BitVec 10

def PDX (va : Word) : Index := va.extractLsb' 22 10
def PTX (va : Word) : Index := va.extractLsb' 12 10

/-- The first address under the directory entry after that of `va`. -/
def nextTable (va : Word) : Word := ((PDX va).setWidth 32 + 1) <<< 22

/-- The number of a physical page. -/
abbrev Frame := BitVec 20

abbrev Page := Block 4096

def V2P (f : Frame) : Word := f ++ (0 : BitVec 12)
def PTE_ADDR (pte : Word) : Word := pte &&& ~~~0xFFF
def PTE_FLAGS (pte : Word) : Word := pte &&& 0xFFF

/-- The frame behind P2V(pa). -/
def frameAt (pa : Word) : Frame := pa.extractLsb' 12 20

structure PageTable where
  frame : Frame
  pte : Index → Word

structure PageDir where
  frame : Frame
  pde : Index → Option PageTable

/-- What the linker provides: `data` starts the writable part of the kernel, `kend` is `end`. -/
structure KernelImage where
  data : Word
  kend : Word
  aligned : data.toNat % 4096 = 0
  above : KERNLINK < data
  below : data < KERNBASE + PHYSTOP

/-- An image for examples, with its data from 0x80108000 on. -/
def imageTo (kend : Word) : KernelImage := ⟨0x80108000, kend, by decide, by decide, by decide⟩

/-- kalloc.c. `refuse` tells which of the coming kalloc() calls find the free list emptied
by somebody else. -/
structure Kmem where
  freelist : List Frame
  refuse : List Bool
  mem : Frame → Page

/-- A null pointer used as an address, or a loop that does not end. -/
inductive Fault where
  | panic (msg : String)
  | null
  | loop
  deriving DecidableEq, Repr

abbrev VM := Code Fault Kmem

def panic {α : Type} (msg : String) : VM α := throw (.panic msg)

def Kmem.take (s : Kmem) : Option Frame × Kmem :=
  if s.refuse.headD false then (none, { s with refuse := s.refuse.tail })
  else match s.freelist with
    | [] => (none, { s with refuse := s.refuse.tail })
    | f :: fs => (some f, { s with freelist := fs, refuse := s.refuse.tail })

def kalloc : VM (Option Frame) := fun s => .ok s.take

/-- memset() or memmove() of a whole page. -/
def fill (f : Frame) (v : Page) : VM Unit :=
  modify fun s => { s with mem := Function.update s.mem f v }

/-- The page table entry of `va`, zero where no page table is present. -/
def PageDir.pte (d : PageDir) (va : Word) : Word :=
  match d.pde (PDX va) with
  | some t => t.pte (PTX va)
  | none => 0

def PageDir.setPte (d : PageDir) (va : Word) (pte : Word) : PageDir :=
  { d with pde := Function.update d.pde (PDX va) <|
      (d.pde (PDX va)).map fun t => { t with pte := Function.update t.pte (PTX va) pte } }

def PageDir.present (d : PageDir) (va : Word) : Prop := d.pte va &&& PTE_P ≠ 0

instance (d : PageDir) (va : Word) : Decidable (d.present va) :=
  inferInstanceAs (Decidable (_ ≠ _))

section Kernel

variable (img : KernelImage)

def kfree (f : Frame) : VM Unit :=
  if KERNBASE + V2P f < img.kend ∨ PHYSTOP ≤ V2P f then panic "kfree"
  else do
    fill f fun _ => 1
    modify fun s => { s with freelist := f :: s.freelist }

/-- The directory comes back with a page table for `va`, or `none` stands for 0. -/
def walkpgdir (d : PageDir) (va : Word) (alloc : Bool) : VM (Option PageDir) :=
  match d.pde (PDX va) with
  | some _ => pure (some d)
  | none =>
    if !alloc then pure none
    else do
      match ← kalloc with
      | none => pure none
      | some f =>
        pure (some { d with pde := Function.update d.pde (PDX va) (some ⟨f, fun _ => 0⟩) })

/-- The loop of mappages() with `k` rounds left after this one; false stands for -1. -/
def mapFrom (perm : Word) : ℕ → PageDir → Word → Word → VM (PageDir × Bool)
  | k, d, a, pa => do
    match ← walkpgdir d a true with
    | none => pure (d, false)
    | some d =>
      if d.present a then panic "remap"
      else
        let d := d.setPte a (pa ||| perm ||| PTE_P)
        match k with
        | 0 => pure (d, true)
        | k + 1 => mapFrom perm k d (a + PGSIZE) (pa + PGSIZE)

def mappages (d : PageDir) (va size pa perm : Word) : VM (PageDir × Bool) :=
  let a := PGROUNDDOWN va
  let last := PGROUNDDOWN (va + size - 1)
  mapFrom perm ((last - a).toNat / 4096) d a pa

/-- More rounds than there are pages. -/
def bound : ℕ := 2 ^ 20

def deallocFrom (oldsz : Word) : ℕ → PageDir → Word → VM PageDir
  | 0, d, a => if a < oldsz then throw .loop else pure d
  | k + 1, d, a =>
    if a < oldsz then do
      match ← walkpgdir d a false with
      | none => deallocFrom oldsz k d (nextTable a)
      | some _ =>
        if d.present a then
          if PTE_ADDR (d.pte a) = 0 then panic "kfree"
          else do
            kfree img (frameAt (PTE_ADDR (d.pte a)))
            deallocFrom oldsz k (d.setPte a 0) (a + PGSIZE)
        else deallocFrom oldsz k d (a + PGSIZE)
    else pure d

def deallocuvm (d : PageDir) (oldsz newsz : Word) : VM (PageDir × Word) :=
  if oldsz ≤ newsz then pure (d, oldsz)
  else do
    let d ← deallocFrom img oldsz bound d (PGROUNDUP newsz)
    pure (d, newsz)

def allocFrom (oldsz newsz : Word) : ℕ → PageDir → Word → VM (PageDir × Word)
  | 0, d, a => if a < newsz then throw .loop else pure (d, newsz)
  | k + 1, d, a =>
    if a < newsz then do
      match ← kalloc with
      | none =>
        let (d, _) ← deallocuvm img d newsz oldsz
        pure (d, 0)
      | some mem =>
        fill mem zeros
        let (d, ok) ← mappages d a PGSIZE (V2P mem) (PTE_W ||| PTE_U)
        if ok then allocFrom oldsz newsz k d (a + PGSIZE)
        else
          let (d, _) ← deallocuvm img d newsz oldsz
          kfree img mem
          pure (d, 0)
    else pure (d, newsz)

def allocuvm (d : PageDir) (oldsz newsz : Word) : VM (PageDir × Word) :=
  if KERNBASE ≤ newsz then pure (d, 0)
  else if newsz < oldsz then pure (d, oldsz)
  else allocFrom img oldsz newsz bound d (PGROUNDUP oldsz)

def freeTables (d : PageDir) : List Index → VM Unit
  | [] => pure ()
  | i :: is => do
    match d.pde i with
    | some t => kfree img t.frame
    | none => pure ()
    freeTables d is

def freevm (d : PageDir) : VM Unit := do
  let (d, _) ← deallocuvm img d KERNBASE 0
  freeTables img d ((List.range 1024).map (BitVec.ofNat 10))
  kfree img d.frame

structure Kmap where
  virt : Word
  phys_start : Word
  phys_end : Word
  perm : Word

def kmap : List Kmap :=
  [⟨KERNBASE, 0, EXTMEM, PTE_W⟩,
   ⟨KERNLINK, KERNLINK - KERNBASE, img.data - KERNBASE, 0⟩,
   ⟨img.data, img.data - KERNBASE, PHYSTOP, PTE_W⟩,
   ⟨DEVSPACE, DEVSPACE, 0, PTE_W⟩]

def mapAll : List Kmap → PageDir → VM (Option PageDir)
  | [], d => pure (some d)
  | k :: ks, d => do
    let (d, ok) ← mappages d k.virt (k.phys_end - k.phys_start) k.phys_start k.perm
    if ok then mapAll ks d
    else
      freevm img d
      pure none

def setupkvm : VM (Option PageDir) := do
  match ← kalloc with
  | none => pure none
  | some f => mapAll img (kmap img) ⟨f, fun _ => none⟩

def inituvm (d : PageDir) (init : Page) : VM PageDir := do
  match ← kalloc with
  | none => throw .null
  | some mem =>
    fill mem zeros
    let (d, _) ← mappages d 0 PGSIZE (V2P mem) (PTE_W ||| PTE_U)
    fill mem init
    pure d

/-- What readi() delivers for an offset and a count; `none` stands for -1. -/
abbrev Reader := Word → Word → Option (List Byte)

def store (f : Frame) (off : ℕ) (bytes : List Byte) : VM Unit :=
  modify fun s => { s with mem := Function.update s.mem f fun i =>
    if off ≤ i ∧ i < off + bytes.length then bytes.getD (i - off) 0 else s.mem f i }

def loadFrom (d : PageDir) (addr : Word) (readi : Reader) (offset sz : Word) :
    ℕ → Word → VM Bool
  | 0, i => if i < sz then throw .loop else pure true
  | k + 1, i =>
    if i < sz then do
      match ← walkpgdir d (addr + i) false with
      | none => panic "loaduvm: address should exist"
      | some _ =>
        let n := if sz - i < PGSIZE then sz - i else PGSIZE
        match readi (offset + i) n with
        | none => pure false
        | some bytes =>
          store (frameAt (PTE_ADDR (d.pte (addr + i)))) 0 bytes
          if bytes.length = n.toNat then loadFrom d addr readi offset sz k (i + PGSIZE)
          else pure false
    else pure true

def loaduvm (d : PageDir) (addr : Word) (readi : Reader) (offset sz : Word) : VM Bool :=
  if addr.toNat % 4096 ≠ 0 then panic "loaduvm: addr must be page aligned"
  else loadFrom d addr readi offset sz bound 0

def clearpteu (d : PageDir) (uva : Word) : VM PageDir := do
  match ← walkpgdir d uva false with
  | none => panic "clearpteu"
  | some d => pure (d.setPte uva (d.pte uva &&& ~~~PTE_U))

def copyFrom (pgdir : PageDir) (sz : Word) : ℕ → PageDir → Word → VM (Option PageDir)
  | 0, d, i => if i < sz then throw .loop else pure (some d)
  | k + 1, d, i =>
    if i < sz then do
      match ← walkpgdir pgdir i false with
      | none => panic "copyuvm: pte should exist"
      | some _ =>
        if ¬ pgdir.present i then panic "copyuvm: page not present"
        else
          match ← kalloc with
          | none =>
            freevm img d
            pure none
          | some mem =>
            let s ← get
            fill mem (s.mem (frameAt (PTE_ADDR (pgdir.pte i))))
            let (d, ok) ← mappages d i PGSIZE (V2P mem) (PTE_FLAGS (pgdir.pte i))
            if ok then copyFrom pgdir sz k d (i + PGSIZE)
            else
              kfree img mem
              freevm img d
              pure none
    else pure (some d)

def copyuvm (pgdir : PageDir) (sz : Word) : VM (Option PageDir) := do
  match ← setupkvm img with
  | none => pure none
  | some d => copyFrom img pgdir sz bound d 0

/-- The frame behind the kernel address; a missing page table is read through 0. -/
def uva2ka (d : PageDir) (uva : Word) : VM (Option Frame) := do
  match ← walkpgdir d uva false with
  | none => throw .null
  | some _ =>
    if d.pte uva &&& PTE_P = 0 ∨ d.pte uva &&& PTE_U = 0 then pure none
    else pure (some (frameAt (PTE_ADDR (d.pte uva))))

/-- The loop of copyout(); each round takes at least one byte of the buffer. -/
def copyoutFrom (d : PageDir) : ℕ → Word → List Byte → VM Bool
  | 0, _, buf => if buf = [] then pure true else throw .loop
  | k + 1, va, buf =>
    if buf = [] then pure true
    else do
      let va0 := PGROUNDDOWN va
      match ← uva2ka d va0 with
      | none => pure false
      | some f =>
        let n := min (4096 - (va - va0).toNat) buf.length
        store f (va - va0).toNat (buf.take n)
        copyoutFrom d k (va0 + PGSIZE) (buf.drop n)

def copyout (d : PageDir) (va : Word) (buf : List Byte) : VM Bool :=
  copyoutFrom d buf.length va buf

/-- A byte read in kernel mode through the current page table; trap() answers a page fault
in the kernel with a panic. -/
def load (d : PageDir) (va : Word) : VM Byte := do
  if d.present va then
    let s ← get
    pure (byte (s.mem (frameAt (PTE_ADDR (d.pte va)))) (va.toNat % 4096))
  else panic "trap"

end Kernel

end PageTables
