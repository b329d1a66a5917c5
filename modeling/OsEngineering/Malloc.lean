import OsEngineering.ByteBlock
import OsEngineering.TransitionSystem
import Mathlib.Algebra.BigOperators.Group.Finset.Basic
import Mathlib.Data.Finset.Basic

/-! umalloc.c. Addresses and sizes count in units of a Header; `base` is the address of the static
header, and sbrk() gives out the memory from `brk` on. `none` stands for a call that does not come
back: a loop without end, or a null pointer that is followed. -/
namespace Malloc

open ByteBlock TransitionSystem

structure Heap where
  ptr : ℕ → ℕ
  size : ℕ → ℕ
  freep : Option ℕ
  brk : ℕ

/-- More rounds than there are headers below `brk`. -/
def Heap.rounds (h : Heap) : ℕ := h.brk + 1

/-- The loop of free(). -/
def findFrom (h : Heap) (bp : ℕ) : ℕ → ℕ → Option ℕ
  | 0, _ => none
  | k + 1, p =>
    if p < bp ∧ bp < h.ptr p then some p
    else if h.ptr p ≤ p ∧ (p < bp ∨ bp < h.ptr p) then some p
    else findFrom h bp k (h.ptr p)

/-- `bp` joins the block behind it, or points to it. -/
def joinNext (h : Heap) (p bp : ℕ) : Heap :=
  if bp + h.size bp = h.ptr p then
    { h with
      size := Function.update h.size bp (h.size bp + h.size (h.ptr p))
      ptr := Function.update h.ptr bp (h.ptr (h.ptr p)) }
  else { h with ptr := Function.update h.ptr bp (h.ptr p) }

/-- `p` takes `bp` in, or points to it. -/
def joinPrev (h : Heap) (p bp : ℕ) : Heap :=
  if p + h.size p = bp then
    { h with
      size := Function.update h.size p (h.size p + h.size bp)
      ptr := Function.update h.ptr p (h.ptr bp) }
  else { h with ptr := Function.update h.ptr p bp }

/-- free() after its loop. -/
def link (h : Heap) (p bp : ℕ) : Heap := { joinPrev (joinNext h p bp) p bp with freep := some p }

def free (h : Heap) (ap : ℕ) : Option Heap :=
  let bp := ap - 1
  match h.freep with
  | none => none
  | some freep => (findFrom h bp h.rounds freep).map fun p => link h p bp

/-- The pointer is `none` for 0. -/
def morecore (h : Heap) (nu : ℕ) (granted : Bool) : Option (Heap × Option ℕ) :=
  let nu := if nu < 4096 then 4096 else nu
  if granted then
    let hp := h.brk
    let h := { h with brk := h.brk + nu, size := Function.update h.size hp nu }
    (free h (hp + 1)).map fun h => (h, h.freep)
  else some (h, none)

/-- malloc() with a block that is large enough. -/
def take (h : Heap) (nunits prevp p : ℕ) : Heap × ℕ :=
  if h.size p = nunits then
    ({ h with ptr := Function.update h.ptr prevp (h.ptr p), freep := some prevp }, p + 1)
  else
    let left := h.size p - nunits
    ({ h with
        size := Function.update (Function.update h.size p left) (p + left) nunits
        freep := some prevp }, p + left + 1)

/-- The loop of malloc(); `grants` tells which of the coming sbrk() calls succeed. -/
def search (nunits : ℕ) : ℕ → List Bool → Heap → ℕ → ℕ → Option (Heap × Option ℕ)
  | 0, _, _, _, _ => none
  | k + 1, grants, h, prevp, p =>
    if nunits ≤ h.size p then
      let (h, ap) := take h nunits prevp p
      some (h, some ap)
    else if h.freep = some p then
      match morecore h nunits (grants.headD false) with
      | none => none
      | some (h, none) => some (h, none)
      | some (h, some p) => search nunits k grants.tail h p (h.ptr p)
    else search nunits k grants h p (h.ptr p)

/-- Eight bytes a unit, and one unit for the header. -/
def nunits (nbytes : Word) : ℕ := ((nbytes + 8 - 1) / 8 + 1).toNat

/-- malloc() with an empty free list. -/
def start (base : ℕ) (h : Heap) : Heap :=
  { h with
    ptr := Function.update h.ptr base base
    size := Function.update h.size base 0
    freep := some base }

def malloc (base : ℕ) (h : Heap) (nbytes : Word) (grants : List Bool) :
    Option (Heap × Option ℕ) :=
  match h.freep with
  | some prevp => search (nunits nbytes) (2 * h.rounds) grants h prevp (h.ptr prevp)
  | none =>
    let h := start base h
    search (nunits nbytes) (2 * h.rounds) grants h base (h.ptr base)

/-! A program that calls them. -/

/-- `live` are the headers of the blocks that the program has, `asked` the bytes it asked for;
`stuck` when a call has not come back. -/
structure State where
  heap : Heap
  live : Finset ℕ
  asked : ℕ → ℕ
  stuck : Bool

/-- `store` is what the program writes into its blocks. -/
inductive Event where
  | malloc (nbytes : Word) (grants : List Bool)
  | free (ap : ℕ)
  | store (ptr size : ℕ → ℕ)

/-- Neither the number of units nor their bytes overflow. -/
def NoOverflow (nbytes : Word) : Prop := nbytes.toNat + 7 < 2 ^ 32 ∧ nunits nbytes * 8 < 2 ^ 32

/-- A unit that a program with these blocks may write. -/
def Payload (s : State) (a : ℕ) : Prop := ∃ b ∈ s.live, b < a ∧ a < b + s.heap.size b

def Enabled (s : State) (e : Event) : Prop :=
  s.stuck = false ∧ match e with
  | .malloc nbytes _ => NoOverflow nbytes
  | .free ap => ∃ a ∈ s.live, ap = a + 1
  | .store ptr size => ∀ a, ¬ Payload s a → ptr a = s.heap.ptr a ∧ size a = s.heap.size a

def next (base : ℕ) (s : State) (e : Event) : State :=
  match e with
  | .malloc nbytes grants =>
    match malloc base s.heap nbytes grants with
    | none => { s with stuck := true }
    | some (h, none) => { s with heap := h }
    | some (h, some ap) =>
      { s with
        heap := h
        live := insert (ap - 1) s.live
        asked := Function.update s.asked (ap - 1) nbytes.toNat }
  | .free ap =>
    match free s.heap ap with
    | none => { s with stuck := true }
    | some h => { s with heap := h, live := s.live.erase (ap - 1) }
  | .store ptr size => { s with heap := { s.heap with ptr := ptr, size := size } }

def machine (base : ℕ) : Machine State Event := ⟨Enabled, next base⟩

/-- No call yet: sbrk() will place the first region at `brk`, above the static header. -/
def Init (base : ℕ) (s : State) : Prop :=
  s.heap.freep = none ∧ base < s.heap.brk ∧ s.live = ∅ ∧ s.stuck = false

end Malloc
