import OsEngineering.BufferCoherence
import Mathlib.Data.Fintype.Card

/-! Which buffer bget() recycles. brelse() puts a buffer that nobody refers to any more in
front of the list and bget() looks from the back, so the list has the buffers by the time of
that brelse(). -/
namespace BufferRecycling

open CircularList KernelParams TransitionSystem BufferCache BufferCoherence

/-- The cache and, as history, when each buffer was last put in front of the list. -/
structure Aged (η D : Type*) where
  cache : State η D
  freed : BufNo → ℕ
  now : ℕ

variable {η D : Type*}

/-- binit() puts one buffer after the other in front. -/
def start (zero : D) (disk : Dev → BlockNo → D) : Aged η D where
  cache := initial zero disk
  freed b := b
  now := NBUF

/-- A buffer bget() may recycle. -/
def Free (s : State η D) (b : BufNo) : Prop := (s.buf b).refcnt = 0 ∧ (s.buf b).dirty = false

/-- What was read into the buffer is still there. -/
def Kept (s t : State η D) (b : BufNo) : Prop :=
  (t.buf b).dev = (s.buf b).dev ∧ (t.buf b).blockno = (s.buf b).blockno ∧
    ((s.buf b).valid = true → (t.buf b).valid = true)

instance (s : State η D) (b : BufNo) : Decidable (Free s b) := inferInstanceAs (Decidable (_ ∧ _))
instance (s t : State η D) (b : BufNo) : Decidable (Kept s t b) :=
  inferInstanceAs (Decidable (_ ∧ _))

/-- The buffers that cannot be recycled, and those put in front after `b`. -/
def taken (s : State η D) : Finset BufNo := Finset.univ.filter fun c => ¬ Free s c

def newer (a : Aged η D) (b : BufNo) : Finset BufNo :=
  Finset.univ.filter fun c => a.freed b < a.freed c

/-- The buffer put in front by the event. -/
def toFront (s : State η D) : Event η D → Option BufNo
  | .brelse _ b => if (s.buf b).refcnt - 1 = 0 then some b else none
  | _ => none

/-- The list has every buffer, the last one put in front first. -/
def InOrder (a : Aged η D) : Prop :=
  (∃ l, Linked a.cache.links l ∧ (∀ b, b ∈ l) ∧ l.Pairwise fun b c => a.freed c < a.freed b) ∧
    ∀ b, a.freed b < a.now

theorem linked_binit (bs : List BufNo) {k : Links BufNo} {l : List BufNo} (h : Linked k l)
    (hnd : (bs.reverse ++ l).Nodup) : Linked (bs.foldl Links.pushFront k) (bs.reverse ++ l) := by
  induction bs generalizing k l with
  | nil => simpa using h
  | cons b bs ih =>
    have hmid : (bs.reverse ++ b :: l).Nodup := by simpa using hnd
    have hb : b ∉ l := by
      have hright := (List.nodup_append.mp hmid).2.1
      exact (List.nodup_cons.mp hright).1
    simpa using ih (linked_pushFront h hb) hmid

theorem start_inOrder (zero : D) (disk : Dev → BlockNo → D) :
    InOrder (start zero disk : Aged η D) := by
  have hnil : Linked (⟨fun _ => none, fun _ => none⟩ : Links BufNo) [] :=
    ⟨⟨rfl, rfl⟩, List.nodup_nil⟩
  have hnd : ((List.finRange NBUF).reverse ++ []).Nodup := by
    simpa using List.nodup_finRange NBUF
  refine ⟨⟨_, linked_binit (List.finRange NBUF) hnil hnd, ?_, ?_⟩, fun b => b.isLt⟩
  · intro b
    simp
  · simpa [start, List.pairwise_reverse] using List.pairwise_lt_finRange NBUF

variable {s : State η D} {a : Aged η D} {b : BufNo}

theorem ideintr_links (s : State η D) (b : BufNo) : (ideintr s b).links = s.links := by
  simp only [ideintr]
  split <;> rfl

/-- The scan from the back meets the buffers by age. -/
theorem unused_oldest (k : InOrder a) (hb : unused a.cache = some b) :
    Free a.cache b ∧ ∀ c, c ≠ b → Free a.cache c → a.freed b < a.freed c := by
  obtain ⟨⟨l, hl, hall, hord⟩, -⟩ := k
  rw [unused, hl.scan_prev _ (length_of_nodup hl.nodup), List.find?_eq_some_iff_append] at hb
  obtain ⟨hfree, m, r, hrev, hm⟩ := hb
  obtain rfl : l = r.reverse ++ b :: m.reverse := by simpa using congrArg List.reverse hrev
  refine ⟨by simpa [Free] using hfree, ?_⟩
  intro c hcb hc
  rcases List.mem_append.mp (hall c) with hmem | hmem
  · exact (List.pairwise_append.mp hord).2.2 c hmem b List.mem_cons_self
  · -- a buffer behind `b` was passed over
    have hmem : c ∈ m := by simpa [hcb] using hmem
    have hnot := hm c hmem
    simp [hc.1, hc.2] at hnot

theorem kept_of_buf {t : State η D} {x : Buf D} {c : BufNo}
    (hbuf : t.buf = Function.update s.buf c x)
    (hx : x.dev = (s.buf c).dev ∧ x.blockno = (s.buf c).blockno ∧
      ((s.buf c).valid = true → x.valid = true)) (b : BufNo) : Kept s t b := by
  rcases eq_or_ne b c with rfl | hb
  · simpa [Kept, hbuf] using hx
  · simp [Kept, hbuf, hb]

theorem kept_refl (s : State η D) (b : BufNo) : Kept s s b := ⟨rfl, rfl, id⟩

theorem Kept.trans {s t u : State η D} (h : Kept s t b) (k : Kept t u b) : Kept s u b :=
  ⟨k.1.trans h.1, k.2.1.trans h.2.1, fun hv => k.2.2 (h.2.2 hv)⟩

theorem ideintr_kept (s : State η D) (c b : BufNo) : Kept s (ideintr s c) b := by
  simp only [ideintr]
  split
  · refine kept_of_buf rfl ?_ b
    exact ⟨rfl, rfl, fun _ => rfl⟩
  · refine kept_of_buf rfl ?_ b
    exact ⟨rfl, rfl, fun _ => rfl⟩

/-- Each buffer is the oldest, cannot be recycled, or was put in front later. -/
theorem full_of_oldest (h : ∀ c, c ≠ b → Free a.cache c → a.freed b < a.freed c) :
    NBUF ≤ 1 + (taken a.cache).card + (newer a b).card := by
  have hcover : (Finset.univ : Finset BufNo) ⊆ ({b} ∪ taken a.cache) ∪ newer a b := by
    intro c _
    rcases eq_or_ne c b with rfl | hc
    · simp
    · by_cases hf : Free a.cache c
      · simp [newer, h c hc hf]
      · simp [taken, hf]
  calc NBUF = (Finset.univ : Finset BufNo).card := by simp [BufNo]
    _ ≤ (({b} ∪ taken a.cache) ∪ newer a b).card := Finset.card_le_card hcover
    _ ≤ ({b} ∪ taken a.cache).card + (newer a b).card := Finset.card_union_le _ _
    _ ≤ 1 + (taken a.cache).card + (newer a b).card := by
      have := Finset.card_union_le {b} (taken a.cache)
      simp only [Finset.card_singleton] at this
      omega

section Handles

variable [DecidableEq η]

def next (a : Aged η D) (e : Event η D) : Aged η D :=
  match toFront a.cache e with
  | some b => ⟨BufferCache.next a.cache e, Function.update a.freed b a.now, a.now + 1⟩
  | none => ⟨BufferCache.next a.cache e, a.freed, a.now⟩

def aging : Machine (Aged η D) (Event η D) := ⟨fun a e => Enabled a.cache e, next⟩

instance (a : Aged η D) (e : Event η D) : Decidable (aging.enabled a e) :=
  inferInstanceAs (Decidable (Enabled a.cache e))

@[simp] theorem next_cache_eq (a : Aged η D) (e : Event η D) :
    (next a e).cache = BufferCache.next a.cache e := by
  simp only [next]
  split <;> rfl

variable {e : Event η D}

theorem bget_links (s : State η D) (h : η) (dev : Dev) (blockno : BlockNo) :
    (bget s h dev blockno).links = s.links := by
  simp only [bget]
  split
  · rfl
  · split <;> rfl

theorem brelse_buf (s : State η D) (h : η) (b : BufNo) : (brelse s h b).buf =
    Function.update s.buf b { s.buf b with refcnt := (s.buf b).refcnt - 1 } := by
  simp only [brelse]
  split <;> rfl

theorem links_of_front (hb : toFront s e = some b) :
    (BufferCache.next s e).links = (s.links.unlink b).pushFront b := by
  cases e <;> simp only [toFront, reduceCtorEq] at hb
  case brelse h c =>
    split at hb
    · next hc =>
      obtain rfl := Option.some.inj hb
      simp [BufferCache.next, brelse, State.setUse, State.setBuf, hc]
    · simp at hb

theorem links_of_none (hb : toFront s e = none) : (BufferCache.next s e).links = s.links := by
  cases e with
  | bget h dev blockno => exact bget_links s h dev blockno
  | readDone h dev blockno b | writeDone h dev blockno b => exact ideintr_links s b
  | brelse h b =>
    have hc : (s.buf b).refcnt - 1 ≠ 0 := by
      intro hc
      simp [toFront, hc] at hb
    simp [BufferCache.next, brelse, State.setUse, State.setBuf, hc]
  | _ => rfl

/-- brelse() puts the buffer before all others, and gives it the latest time. -/
theorem next_inOrder (k : InOrder a) (e : Event η D) : InOrder (next a e) := by
  obtain ⟨⟨l, hl, hall, hord⟩, hpast⟩ := k
  simp only [next]
  split
  · next b hb =>
    obtain ⟨m, r, rfl⟩ := List.append_of_mem (hall b)
    obtain ⟨hnot, hnd⟩ := List.nodup_cons.mp (List.nodup_middle.mp hl.nodup)
    have hne : ∀ c ∈ m ++ r, c ≠ b := fun c hc heq => hnot (heq ▸ hc)
    have hlinked := linked_pushFront (linked_unlink hl) hnot
    refine ⟨⟨b :: (m ++ r), ?_, ?_, ?_⟩, ?_⟩
    · simpa [links_of_front hb] using hlinked
    · intro c
      simpa [or_left_comm] using hall c
    · constructor
      · intro c hc
        simpa [hne c hc] using hpast c
      · have hsub : List.Sublist (m ++ r) (m ++ b :: r) :=
          List.Sublist.append_left (List.sublist_cons_self b r) m
        refine (hord.sublist hsub).imp_of_mem ?_
        intro c d hc hd hcd
        simpa [hne c hc, hne d hd] using hcd
    · intro c
      rcases eq_or_ne c b with rfl | hc
      · simp
      · have := hpast c
        simp only [Function.update_of_ne hc]
        omega
  · next hb => exact ⟨⟨l, by simpa [links_of_none hb] using hl, hall, hord⟩, hpast⟩

/-- Only bget() takes a block from a buffer, the one it found unused. -/
theorem next_kept (s : State η D) (e : Event η D) (b : BufNo) :
    Kept s (BufferCache.next s e) b ∨ unused s = some b := by
  cases e with
  | bget h dev blockno =>
    simp only [BufferCache.next, bget]
    split
    · refine Or.inl (kept_of_buf rfl ?_ b)
      exact ⟨rfl, rfl, id⟩
    · split
      · next c hc =>
        rcases eq_or_ne b c with rfl | hb
        · exact Or.inr hc
        · exact Or.inl (by simp [Kept, State.setUse, State.setBuf, hb])
      · exact Or.inl (kept_refl s b)
  | acquiresleep h dev blockno c | releasesleep h dev blockno c => exact Or.inl (kept_refl s b)
  | readDone h dev blockno c | writeDone h dev blockno c => exact Or.inl (ideintr_kept s c b)
  | modify h dev blockno c u d | logWrite h dev blockno c u | bwrite h dev blockno c u =>
    refine Or.inl (kept_of_buf rfl ?_ b)
    exact ⟨rfl, rfl, id⟩
  | brelse h c =>
    refine Or.inl (kept_of_buf (brelse_buf s h c) ?_ b)
    exact ⟨rfl, rfl, id⟩

/-- The buffer keeps its block up to the state in which bget() chooses it. -/
theorem kept_or_chosen {fs : List (Event η D)} {a' : Aged η D}
    (q : Run aging.Step (· = a) fs a') (b : BufNo) :
    Kept a.cache a'.cache b ∨ ∃ gs m, gs <+: fs ∧ Run aging.Step (· = a) gs m ∧
      Kept a.cache m.cache b ∧ unused m.cache = some b := by
  induction q with
  | nil h => exact Or.inl (h ▸ kept_refl _ b)
  | @snoc gs m e t q hs ih =>
    rcases ih with hk | ⟨gs', m', hpre, q', hk, hu⟩
    · rcases next_kept m.cache e b with hstep | hu
      · refine Or.inl (hk.trans ?_)
        rw [hs.2]
        simpa [aging] using hstep
      · exact Or.inr ⟨gs, m, List.prefix_append gs [e], q, hk, hu⟩
    · exact Or.inr ⟨gs', m', hpre.trans (List.prefix_append gs [e]), q', hk, hu⟩

theorem run_from_inOrder {fs : List (Event η D)} {a' : Aged η D} (k : InOrder a)
    (q : Run aging.Step (· = a) fs a') : InOrder a' := by
  refine q.invariant ?_ ?_
  · rintro s rfl
    exact k
  · rintro s e t k ⟨-, rfl⟩
    exact next_inOrder k e

end Handles

theorem NBUF_pos : 0 < NBUF := by decide

theorem one_lt_NBUF : 1 < NBUF := by decide

def first : BufNo := ⟨0, NBUF_pos⟩

def second : BufNo := ⟨1, one_lt_NBUF⟩

/-- Block 5 is read and released, and block 6 is read. -/
def readFive : List (Event Unit ℕ) :=
  [.bget () 1 5, .acquiresleep () 1 5 first, .readDone () 1 5 first, .releasesleep () 1 5 first,
   .brelse () first]

def readSix : List (Event Unit ℕ) := [.bget () 1 6]

def afterFive : Aged Unit ℕ := aging.exec (start 0 fun _ _ => 7) readFive

end BufferRecycling
