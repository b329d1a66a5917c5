import OsEngineering.BlockAllocation
import OsEngineering.FiniteTally
import OsEngineering.HeldLocks
import Mathlib.Data.List.FinRange

/-! The inode cache of fs.c with its entries. A handle is one reference from iget() to the
decrement in iput(); a process may have several. Sections under icache.lock, taking and
leaving ip->lock and the accesses of one inode block are the events. -/
namespace InodeCache

open ByteBlock BlockAllocation TransitionSystem

def NINODE : ℕ := 50

theorem NINODE_pos : 0 < NINODE := by decide

abbrev Slot := Fin NINODE
abbrev Dev := BitVec 32

structure Dinode where
  type : Half
  major : Half
  minor : Half
  nlink : Half
  size : Word
  addrs : Vector Word (NDIRECT + 1)
  deriving DecidableEq

/-- What ialloc() writes: memset() and the type. -/
def fresh (type : Half) : Dinode := ⟨type, 0, 0, 0, 0, Vector.replicate (NDIRECT + 1) 0⟩

/-- `copy` is what ilock() has read of the inode. -/
structure Entry where
  dev : Dev
  inum : ℕ
  ref : ℤ
  valid : Bool
  copy : Dinode

/-- Where an iput() is: `releasing` and `dropping` are left to every iput(), the others to
one that found no links. -/
inductive Phase where
  | checking
  | truncating
  | clearing
  | invalidating
  | releasing
  | dropping
  deriving DecidableEq

/-- `new` is the type given to ialloc(), as long as its inode is only locked for the first
time and not changed. -/
inductive Use where
  | idle
  | scanning (dev : Dev) (type : Half) (inum : ℕ)
  | claimed (dev : Dev) (type : Half) (inum : ℕ)
  | ref (new : Option Half) (j : Slot)
  | loading (new : Option Half) (j : Slot)
  | locked (new : Option Half) (j : Slot)
  | changing (j : Slot)
  | putting (phase : Phase) (j : Slot)
  deriving DecidableEq

/-- `live` is history: the inodes that were allocated at first or taken by ialloc(), and
not freed by iput() since. -/
structure State (η : Type*) where
  icache : Slot → Entry
  lock : Slot → Option η
  use : η → Use
  disk : Dev → ℕ → Dinode
  live : Dev → ℕ → Bool
  halted : Option String

variable {η : Type*}

def initial (disk : Dev → ℕ → Dinode) : State η where
  icache _ := ⟨0, 0, 0, false, fresh 0⟩
  lock _ := none
  use _ := .idle
  disk := disk
  live v n := decide ((disk v n).type ≠ 0)
  halted := none

def put {α : Type*} (f : Dev → ℕ → α) (dev : Dev) (inum : ℕ) (x : α) : Dev → ℕ → α :=
  fun v n => if v = dev ∧ n = inum then x else f v n

def State.setEntry (s : State η) (j : Slot) (x : Entry) : State η :=
  { s with icache := Function.update s.icache j x }

/-- iupdate() -/
def State.iupdate (s : State η) (j : Slot) : State η :=
  { s with disk := put s.disk (s.icache j).dev (s.icache j).inum (s.icache j).copy }

def find (s : State η) (dev : Dev) (inum : ℕ) : Option Slot :=
  (List.finRange NINODE).find? fun j =>
    0 < (s.icache j).ref ∧ (s.icache j).dev = dev ∧ (s.icache j).inum = inum

def empty (s : State η) : Option Slot :=
  (List.finRange NINODE).find? fun j => (s.icache j).ref = 0

def iget (s : State η) (dev : Dev) (inum : ℕ) : Option (Slot × State η) :=
  match find s dev inum with
  | some j => some (j, s.setEntry j { s.icache j with ref := (s.icache j).ref + 1 })
  | none => (empty s).map fun j => (j, s.setEntry j { s.icache j with
      dev := dev
      inum := inum
      ref := 1
      valid := false })

variable [DecidableEq η]

def State.setUse (s : State η) (h : η) (u : Use) : State η :=
  { s with use := Function.update s.use h u }

def State.setLock (s : State η) (j : Slot) (l : Option η) : State η :=
  { s with lock := Function.update s.lock j l }

def igetFor (s : State η) (h : η) (dev : Dev) (inum : ℕ) (new : Option Half) : State η :=
  match iget s dev inum with
  | some (j, t) => t.setUse h (.ref new j)
  | none => { s with halted := some "iget: no inodes" }

/-- One turn of the loop in ialloc(). -/
def scan (ninodes : ℕ) (s : State η) (h : η) (dev : Dev) (type : Half) (inum : ℕ) : State η :=
  if inum < ninodes then
    if (s.disk dev inum).type = 0 then
      { s with
        disk := put s.disk dev inum (fresh type)
        live := put s.live dev inum true }.setUse h (.claimed dev type inum)
    else s.setUse h (.scanning dev type (inum + 1))
  else { s with halted := some "ialloc: no inodes" }

/-- ilock() has ip->lock and looks at ip->valid. -/
def ilock (s : State η) (h : η) (new : Option Half) (j : Slot) : State η :=
  (s.setLock j (some h)).setUse h
    (if (s.icache j).valid = true then .locked new j else .loading new j)

/-- The rest of ilock() where it reads the inode. -/
def load (s : State η) (h : η) (new : Option Half) (j : Slot) : State η :=
  let d := s.disk (s.icache j).dev (s.icache j).inum
  let t := s.setEntry j { s.icache j with valid := true, copy := d }
  if d.type = 0 then { t with halted := some "ilock: no type" } else t.setUse h (.locked new j)

/-- The holder changes fields of the inode; ip->type is only changed by iput(). -/
def change (s : State η) (h : η) (j : Slot) (x : Dinode) : State η :=
  (s.setEntry j { s.icache j with
    copy := { x with type := (s.icache j).copy.type } }).setUse h (.changing j)

/-- iput() has ip->lock. -/
def iput (s : State η) (h : η) (j : Slot) : State η :=
  (s.setLock j (some h)).setUse h
    (.putting (if (s.icache j).valid = true ∧ (s.icache j).copy.nlink = 0 then .checking
      else .releasing) j)

/-- It looks at ip->ref. -/
def check (s : State η) (h : η) (j : Slot) : State η :=
  s.setUse h (.putting (if (s.icache j).ref = 1 then .truncating else .releasing) j)

def itrunc (s : State η) (h : η) (j : Slot) : State η :=
  ((s.setEntry j { s.icache j with
    copy := { (s.icache j).copy with
      size := 0
      addrs := Vector.replicate (NDIRECT + 1) 0 } }).iupdate j).setUse h (.putting .clearing j)

/-- ip->type = 0 and iupdate(). -/
def clear (s : State η) (h : η) (j : Slot) : State η :=
  let t := (s.setEntry j { s.icache j with
    copy := { (s.icache j).copy with type := 0 } }).iupdate j
  { t with live := put s.live (s.icache j).dev (s.icache j).inum false }.setUse h
    (.putting .invalidating j)

inductive Event (η : Type*) where
  | ialloc (h : η) (dev : Dev) (type : Half)
  | scan (h : η) (dev : Dev) (type : Half) (inum : ℕ)
  | igetNew (h : η) (dev : Dev) (type : Half) (inum : ℕ)
  | iget (h : η) (dev : Dev) (inum : ℕ)
  | idup (h g : η) (j : Slot)
  | ilock (h : η) (new : Option Half) (j : Slot)
  | load (h : η) (new : Option Half) (j : Slot)
  | change (h : η) (new : Option Half) (j : Slot) (x : Dinode)
  | iupdate (h : η) (j : Slot)
  | iunlock (h : η) (new : Option Half) (j : Slot)
  | iput (h : η) (j : Slot)
  | check (h : η) (j : Slot)
  | itrunc (h : η) (j : Slot)
  | clear (h : η) (j : Slot)
  | invalidate (h : η) (j : Slot)
  | releasesleep (h : η) (j : Slot)
  | decrement (h : η) (j : Slot)

/-- A handle another one can be made from with idup(). -/
def Source (u : Use) (j : Slot) : Prop :=
  match u with
  | .ref none k | .locked _ k | .changing k => k = j
  | _ => False

instance (u : Use) (j : Slot) : Decidable (Source u j) := by
  unfold Source
  split <;> infer_instance

/-- Callers allocate with a type, and put an inode made by ialloc() only after ilock(). -/
def Enabled (s : State η) (e : Event η) : Prop :=
  s.halted = none ∧ match e with
  | .ialloc h _ type => s.use h = .idle ∧ type ≠ 0
  | .scan h dev type inum => s.use h = .scanning dev type inum
  | .igetNew h dev type inum => s.use h = .claimed dev type inum
  | .iget h _ _ => s.use h = .idle
  | .idup h g j => s.use h = .idle ∧ Source (s.use g) j
  | .ilock h new j => s.use h = .ref new j ∧ s.lock j = none
  | .load h new j => s.use h = .loading new j
  | .change h new j _ => s.use h = .locked new j
  | .iupdate h j => s.use h = .changing j
  | .iunlock h new j => s.use h = .locked new j
  | .iput h j => s.use h = .ref none j ∧ s.lock j = none
  | .check h j => s.use h = .putting .checking j
  | .itrunc h j => s.use h = .putting .truncating j
  | .clear h j => s.use h = .putting .clearing j
  | .invalidate h j => s.use h = .putting .invalidating j
  | .releasesleep h j => s.use h = .putting .releasing j
  | .decrement h j => s.use h = .putting .dropping j

instance (s : State η) (e : Event η) : Decidable (Enabled s e) := by
  cases e <;> simp only [Enabled] <;> infer_instance

def next (ninodes : ℕ) (s : State η) : Event η → State η
  | .ialloc h dev type => s.setUse h (.scanning dev type 1)
  | .scan h dev type inum => scan ninodes s h dev type inum
  | .igetNew h dev type inum => igetFor s h dev inum (some type)
  | .iget h dev inum => igetFor s h dev inum none
  | .idup h _ j =>
    (s.setEntry j { s.icache j with ref := (s.icache j).ref + 1 }).setUse h (.ref none j)
  | .ilock h new j => ilock s h new j
  | .load h new j => load s h new j
  | .change h _ j x => change s h j x
  | .iupdate h j => (s.iupdate j).setUse h (.locked none j)
  | .iunlock h _ j => (s.setLock j none).setUse h (.ref none j)
  | .iput h j => iput s h j
  | .check h j => check s h j
  | .itrunc h j => itrunc s h j
  | .clear h j => clear s h j
  | .invalidate h j =>
    (s.setEntry j { s.icache j with valid := false }).setUse h (.putting .releasing j)
  | .releasesleep h j => (s.setLock j none).setUse h (.putting .dropping j)
  | .decrement h j =>
    (s.setEntry j { s.icache j with ref := (s.icache j).ref - 1 }).setUse h .idle

def machine (ninodes : ℕ) : Machine (State η) (Event η) := ⟨Enabled, next ninodes⟩

instance (ninodes : ℕ) (s : State η) (e : Event η) :
    Decidable ((machine ninodes).enabled s e) :=
  inferInstanceAs (Decidable (Enabled s e))

/-- A name that a directory holds is of an allocated inode with links. -/
def Linked (s : State η) : Event η → Prop
  | .iget _ dev inum => (s.disk dev inum).type ≠ 0 ∧ (s.disk dev inum).nlink ≠ 0
  | _ => True

instance (s : State η) (e : Event η) : Decidable (Linked s e) := by
  cases e <;> simp only [Linked] <;> infer_instance

end InodeCache
