import OsEngineering.ByteBlock
import OsEngineering.RingBuffer
import OsEngineering.TransitionSystem

/-! console.c: the input ring, consoleintr() and consoleread(). What runs under cons.lock between
two sleeps is one step; what goes to the screen is left out. -/
namespace Console

open ByteBlock RingBuffer TransitionSystem

def INPUT_BUF : ℕ := 128

instance : NeZero INPUT_BUF := ⟨by decide⟩

def chr (x : Char) : Byte := BitVec.ofNat 8 x.toNat

/-- Control-x. -/
def C (x : Char) : Byte := chr x - chr '@'

structure Input where
  buf : Fin INPUT_BUF → Byte
  r : Word
  w : Word
  e : Word

namespace Input

/-- The loop of ^U, with its rounds bounded by the distance of `e` and `w`. -/
def killLine : ℕ → Input → Input
  | 0, i => i
  | k + 1, i =>
    if i.e ≠ i.w ∧ i.buf (slot INPUT_BUF (i.e - 1)) ≠ chr '\n' then
      killLine k { i with e := i.e - 1 }
    else i

def put (i : Input) (c : Byte) : Input :=
  { i with buf := Function.update i.buf (slot INPUT_BUF i.e) c, e := i.e + 1 }

/-- One round of consoleintr(); the flag tells whether it called wakeup(&input.r). -/
def key (i : Input) (c : Byte) : Input × Bool :=
  if c = C 'P' then (i, false)
  else if c = C 'U' then (killLine (i.e - i.w).toNat i, false)
  else if c = C 'H' ∨ c = 0x7f then
    if i.e ≠ i.w then ({ i with e := i.e - 1 }, false) else (i, false)
  else if c ≠ 0 ∧ (i.e - i.r).toNat < INPUT_BUF then
    let c := if c = chr '\r' then chr '\n' else c
    let i := i.put c
    if c = chr '\n' ∨ c = C 'D' ∨ i.e = i.r + BitVec.ofNat 32 INPUT_BUF then
      ({ i with w := i.e }, true)
    else (i, false)
  else (i, false)

end Input

/-- Where consoleread() leaves cons.lock: `took` are the characters that `r` has moved past, `dst`
those it stored, `ret` is `none` when it sleeps. -/
structure Stretch where
  input : Input
  took : List Byte
  dst : List Byte
  n : ℕ
  ret : Option ℤ

/-- The loop of consoleread() up to a sleep or the return. -/
def readLoop (killed : Bool) (target : ℕ) : ℕ → Input → Stretch
  | 0, i => ⟨i, [], [], 0, some target⟩
  | n + 1, i =>
    if i.r = i.w then ⟨i, [], [], n + 1, if killed then some (-1) else none⟩
    else
      let c := i.buf (slot INPUT_BUF i.r)
      let i := { i with r := i.r + 1 }
      if c = C 'D' then
        if n + 1 < target then ⟨{ i with r := i.r - 1 }, [], [], n + 1, some (target - (n + 1))⟩
        else ⟨i, [c], [], n + 1, some (target - (n + 1))⟩
      else if c = chr '\n' then ⟨i, [c], [c], n, some (target - n)⟩
      else
        let t := readLoop killed target n i
        { t with took := c :: t.took, dst := c :: t.dst }

/-- What a call of consoleread() has: the size asked for, `n`, the bytes at `dst`, and what it
returned. The loop is not entered for a size that is not positive, so `n` starts at 0 there. -/
structure Call where
  size : ℤ
  n : ℕ
  dst : List Byte
  ret : Option ℤ

/-- Calls are numbered in the order in which they begin. -/
inductive Phase where
  | idle
  | asleep (id : ℕ)
  | woken (id : ℕ)
  deriving DecidableEq

def Phase.wake : Phase → Phase
  | .asleep id => .woken id
  | f => f

/-! The line discipline that the ring is for. -/

structure Text where
  committed : List Byte
  line : List Byte

/-- What a key does to the text, `delivered` characters of which have been read: a character counts
when fewer than INPUT_BUF others wait. -/
def Text.type (t : Text) (delivered : ℕ) (c : Byte) : Text :=
  let waiting := t.committed.length - delivered + t.line.length
  if c = C 'P' then t
  else if c = C 'U' then { t with line := [] }
  else if c = C 'H' ∨ c = 0x7f then { t with line := t.line.dropLast }
  else if c = 0 ∨ INPUT_BUF ≤ waiting then t
  else
    let c := if c = chr '\r' then chr '\n' else c
    if c = chr '\n' ∨ c = C 'D' ∨ waiting + 1 = INPUT_BUF then ⟨t.committed ++ (t.line ++ [c]), []⟩
    else { t with line := t.line ++ [c] }

/-- `text`, `taken` and `proc` are history: what was typed, each character that a read moved past
with the number of that read, and the process of each read. -/
structure State (π : Type*) where
  input : Input
  phase : π → Phase
  killed : π → Bool
  calls : ℕ
  call : ℕ → Call
  text : Text
  taken : List (ℕ × Byte)
  proc : ℕ → Option π

variable {π : Type*}

def initial (buf : Fin INPUT_BUF → Byte) (killed : π → Bool) : State π where
  input := ⟨buf, 0, 0, 0⟩
  phase := fun _ => .idle
  killed := killed
  calls := 0
  call := fun _ => ⟨0, 0, [], none⟩
  text := ⟨[], []⟩
  taken := []
  proc := fun _ => none

def State.wakeup (s : State π) : State π := { s with phase := fun q => (s.phase q).wake }

def State.key (s : State π) (c : Byte) : State π :=
  let t := { s with input := (s.input.key c).1, text := s.text.type s.taken.length c }
  if (s.input.key c).2 then t.wakeup else t

def consoleintr (s : State π) (cs : List Byte) : State π := cs.foldl State.key s

inductive Event (π : Type*) where
  | consoleintr (cs : List Byte)
  | consoleread (q : π) (n : ℤ)
  | resume (q : π)
  | kill (q : π)

section Sections

variable [DecidableEq π]

/-- The process `q` runs its call until it sleeps or returns. -/
def State.stretch (s : State π) (q : π) (id : ℕ) : State π :=
  let c := s.call id
  let t := readLoop (s.killed q) c.size.toNat c.n s.input
  { s with
    input := t.input
    phase := Function.update s.phase q (if t.ret = none then .asleep id else .idle)
    call := Function.update s.call id { c with n := t.n, dst := c.dst ++ t.dst, ret := t.ret }
    taken := s.taken ++ t.took.map fun c => (id, c) }

def consoleread (s : State π) (q : π) (n : ℤ) : State π :=
  { s with
    calls := s.calls + 1
    call := Function.update s.call s.calls ⟨n, n.toNat, [], none⟩
    proc := Function.update s.proc s.calls (some q) }.stretch q s.calls

/-- kill() of the process `q`. -/
def kill (s : State π) (q : π) : State π :=
  { s with
    killed := Function.update s.killed q true
    phase := Function.update s.phase q (s.phase q).wake }

def Enabled (s : State π) : Event π → Prop
  | .consoleintr _ => True
  | .consoleread q _ => s.phase q = .idle
  | .resume q => ∃ id, s.phase q = .woken id
  | .kill _ => True

instance (s : State π) : (e : Event π) → Decidable (Enabled s e)
  | .consoleintr _ => inferInstanceAs (Decidable True)
  | .consoleread q _ => inferInstanceAs (Decidable (s.phase q = .idle))
  | .resume q =>
    match h : s.phase q with
    | .woken id => isTrue ⟨id, h⟩
    | .idle => isFalse fun ⟨_, hw⟩ => Phase.noConfusion (h.symm.trans hw)
    | .asleep _ => isFalse fun ⟨_, hw⟩ => Phase.noConfusion (h.symm.trans hw)
  | .kill _ => inferInstanceAs (Decidable True)

def next (s : State π) : Event π → State π
  | .consoleintr cs => consoleintr s cs
  | .consoleread q n => consoleread s q n
  | .resume q =>
    match s.phase q with
    | .woken id => s.stretch q id
    | _ => s
  | .kill q => kill s q

def machine : Machine (State π) (Event π) := ⟨Enabled, next⟩

instance (s : State π) (e : Event π) : Decidable (machine.enabled s e) :=
  inferInstanceAs (Decidable (Enabled s e))

end Sections

end Console
