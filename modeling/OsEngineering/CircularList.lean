import Mathlib.Data.List.Nodup
import Mathlib.Logic.Function.Basic

/-! Circular doubly linked lists through a head node. `none` is the head, `some b` the
node of `b`; an intrusive list of C is two functions on nodes. -/
namespace CircularList

variable {B : Type*}

structure Links (B : Type*) where
  next : Option B → Option B
  prev : Option B → Option B

/-- From `x` over the nodes of a list to `y`, linked both ways. -/
def Segment (next prev : Option B → Option B) : Option B → List B → Option B → Prop
  | x, [], y => next x = y ∧ prev y = x
  | x, b :: l, y => next x = some b ∧ prev (some b) = x ∧ Segment next prev (some b) l y

structure Linked (k : Links B) (l : List B) : Prop where
  segment : Segment k.next k.prev none l none
  nodup : l.Nodup

theorem segment_append {next prev : Option B → Option B} (x : Option B) (l : List B) (b : B)
    (m : List B) (y : Option B) : Segment next prev x (l ++ b :: m) y ↔
      Segment next prev x l (some b) ∧ Segment next prev (some b) m y := by
  induction l generalizing x with
  | nil => simp [Segment, and_assoc]
  | cons c l ih => simp only [List.cons_append, Segment, ih, and_assoc]

theorem Segment.congr {next prev next' prev' : Option B → Option B} {x y : Option B}
    {l : List B} (h : Segment next prev x l y) (hx : next' x = next x)
    (hn : ∀ b ∈ l, next' (some b) = next (some b))
    (hp : ∀ b ∈ l, prev' (some b) = prev (some b)) (hy : prev' y = prev y) :
    Segment next' prev' x l y := by
  induction l generalizing x with
  | nil => exact ⟨hx.trans h.1, hy.trans h.2⟩
  | cons b l ih =>
    refine ⟨hx.trans h.1, (hp b List.mem_cons_self).trans h.2.1, ?_⟩
    apply ih h.2.2 (hn b List.mem_cons_self)
    · exact fun c hc => hn c (List.mem_cons_of_mem b hc)
    · exact fun c hc => hp c (List.mem_cons_of_mem b hc)

/-- The same list, read backwards. -/
theorem Segment.reverse {next prev : Option B → Option B} {x y : Option B} {l : List B}
    (h : Segment next prev x l y) : Segment prev next y l.reverse x := by
  induction l generalizing x with
  | nil => exact ⟨h.2, h.1⟩
  | cons b l ih =>
    rw [List.reverse_cons, segment_append]
    exact ⟨ih h.2.2, h.2.1, h.1⟩

/-- The node before the end is the start or one of the list. -/
theorem Segment.last {next prev : Option B → Option B} {x y : Option B} {l : List B}
    (h : Segment next prev x l y) : prev y = x ∨ ∃ d ∈ l, prev y = some d := by
  induction l generalizing x with
  | nil => exact Or.inl h.2
  | cons d l ih =>
    rcases ih h.2.2 with he | ⟨e, he, hp⟩
    · exact Or.inr ⟨d, List.mem_cons_self, he⟩
    · exact Or.inr ⟨e, List.mem_cons_of_mem d he, hp⟩

/-- Two segments meet where the node between them is taken out. -/
theorem segment_join {next prev next' prev' : Option B → Option B} {x y : Option B} {b : B}
    {l m : List B} (hl : Segment next prev x l (some b)) (hm : Segment next prev (some b) m y)
    (hlast : next' (prev (some b)) = next (some b)) (hfirst : prev' (next (some b)) = prev (some b))
    (hx : ∀ z, z = x ∨ (∃ c ∈ l, z = some c) → z ≠ prev (some b) → next' z = next z)
    (hpl : ∀ c ∈ l, prev' (some c) = prev (some c))
    (hnm : ∀ c ∈ m, next' (some c) = next (some c))
    (hpm : ∀ z, z = y ∨ (∃ c ∈ m, z = some c) → z ≠ next (some b) → prev' z = prev z)
    (hnd : l.Nodup) (hxl : ∀ c ∈ l, x ≠ some c) (hmd : m.Nodup) (hym : ∀ c ∈ m, y ≠ some c) :
    Segment next' prev' x (l ++ m) y := by
  induction l generalizing x with
  | nil =>
    have hprev : prev (some b) = x := hl.2
    cases m with
    | nil =>
      have hnext : next (some b) = y := hm.1
      exact ⟨by rw [← hprev, hlast, hnext], by rw [← hnext, hfirst, hprev]⟩
    | cons c m =>
      have hnext : next (some b) = some c := hm.1
      refine ⟨by rw [← hprev, hlast, hnext], by rw [← hnext, hfirst, hprev], ?_⟩
      apply hm.2.2.congr (hnm c List.mem_cons_self)
      · exact fun d hd => hnm d (List.mem_cons_of_mem c hd)
      · intro d hd
        refine hpm (some d) (Or.inr ⟨d, List.mem_cons_of_mem c hd, rfl⟩) ?_
        rw [hnext]
        rintro e
        exact (List.nodup_cons.mp hmd).1 (Option.some.inj e ▸ hd)
      · refine hpm y (Or.inl rfl) ?_
        rw [hnext]
        exact hym c List.mem_cons_self
  | cons c l ih =>
    -- the last node of the first segment is not `x`
    have hxne : x ≠ prev (some b) := by
      rcases hl.2.2.last with he | ⟨d, hd, he⟩
      · rw [he]
        exact hxl c List.mem_cons_self
      · rw [he]
        exact hxl d (List.mem_cons_of_mem c hd)
    refine ⟨(hx x (Or.inl rfl) hxne).trans hl.1, (hpl c List.mem_cons_self).trans hl.2.1, ?_⟩
    apply ih hl.2.2
    · rintro z (rfl | ⟨d, hd, rfl⟩) hz
      · exact hx (some c) (Or.inr ⟨c, List.mem_cons_self, rfl⟩) hz
      · exact hx (some d) (Or.inr ⟨d, List.mem_cons_of_mem c hd, rfl⟩) hz
    · exact fun d hd => hpl d (List.mem_cons_of_mem c hd)
    · exact (List.nodup_cons.mp hnd).2
    · intro d hd e
      exact (List.nodup_cons.mp hnd).1 (Option.some.inj e ▸ hd)

/-! Searching along one of the two links. -/

def scan (step : Option B → Option B) (found : B → Bool) : ℕ → Option B → Option B
  | 0, _ => none
  | _ + 1, none => none
  | n + 1, some b => if found b then some b else scan step found n (step (some b))

theorem scan_segment {next prev : Option B → Option B} (found : B → Bool) {x : Option B}
    {l : List B} (h : Segment next prev x l none) {n : ℕ} (hn : l.length < n) :
    scan next found n (next x) = l.find? found := by
  induction l generalizing x n with
  | nil =>
    obtain ⟨m, rfl⟩ := Nat.exists_eq_succ_of_ne_zero (Nat.ne_of_gt hn)
    rw [h.1]
    rfl
  | cons b l ih =>
    obtain ⟨m, rfl⟩ := Nat.exists_eq_succ_of_ne_zero (Nat.ne_of_gt (Nat.zero_lt_of_lt hn))
    rw [h.1, scan, List.find?_cons]
    split
    · next hb => simp [hb]
    · next hb => simpa [hb] using ih h.2.2 (Nat.lt_of_succ_lt_succ hn)

theorem Linked.scan_next {k : Links B} {l : List B} (h : Linked k l) (found : B → Bool) {n : ℕ}
    (hn : l.length < n) : scan k.next found n (k.next none) = l.find? found :=
  scan_segment found h.segment hn

theorem Linked.scan_prev {k : Links B} {l : List B} (h : Linked k l) (found : B → Bool) {n : ℕ}
    (hn : l.length < n) : scan k.prev found n (k.prev none) = l.reverse.find? found :=
  scan_segment found h.segment.reverse (by rwa [List.length_reverse])

/-! The two operations. -/

section Operations

variable [DecidableEq B]

def Links.setNext (k : Links B) (x y : Option B) : Links B :=
  { k with next := Function.update k.next x y }

def Links.setPrev (k : Links B) (x y : Option B) : Links B :=
  { k with prev := Function.update k.prev x y }

/-- b->next = head.next; b->prev = &head; head.next->prev = b; head.next = b. -/
def Links.pushFront (k : Links B) (b : B) : Links B :=
  let k := (k.setNext (some b) (k.next none)).setPrev (some b) none
  (k.setPrev (k.next none) (some b)).setNext none (some b)

/-- b->next->prev = b->prev; b->prev->next = b->next. -/
def Links.unlink (k : Links B) (b : B) : Links B :=
  let k := k.setPrev (k.next (some b)) (k.prev (some b))
  k.setNext (k.prev (some b)) (k.next (some b))

theorem linked_pushFront {k : Links B} {l : List B} (h : Linked k l) {b : B} (hb : b ∉ l) :
    Linked (k.pushFront b) (b :: l) := by
  refine ⟨?_, List.nodup_cons.mpr ⟨hb, h.nodup⟩⟩
  have hs := h.segment
  cases l with
  | nil =>
    have hnext : k.next none = none := hs.1
    simp [Segment, Links.pushFront, Links.setNext, Links.setPrev, hnext]
  | cons c l =>
    have hnext : k.next none = some c := hs.1
    have hcb : c ≠ b := fun e => hb (e ▸ List.mem_cons_self)
    have hrest : Segment (k.pushFront b).next (k.pushFront b).prev (some c) l none := by
      have hc : c ∉ l := (List.nodup_cons.mp h.nodup).1
      have hbl : b ∉ l := fun m => hb (List.mem_cons_of_mem c m)
      apply hs.2.2.congr
      · simp [Links.pushFront, Links.setNext, Links.setPrev, hcb]
      · intro d hd
        have hdb : d ≠ b := fun e => hbl (e ▸ hd)
        simp [Links.pushFront, Links.setNext, Links.setPrev, hdb]
      · intro d hd
        have hdb : d ≠ b := fun e => hbl (e ▸ hd)
        have hdc : d ≠ c := fun e => hc (e ▸ hd)
        simp [Links.pushFront, Links.setNext, Links.setPrev, hnext, hdb, hdc]
      · simp [Links.pushFront, Links.setNext, Links.setPrev, hnext]
    refine ⟨?_, ?_, ?_, ?_, hrest⟩
    · simp [Links.pushFront, Links.setNext]
    · simp [Links.pushFront, Links.setNext, Links.setPrev, hnext, hcb.symm]
    · simp [Links.pushFront, Links.setNext, Links.setPrev, hnext]
    · simp [Links.pushFront, Links.setNext, Links.setPrev, hnext]

theorem linked_unlink {k : Links B} {l m : List B} {b : B} (h : Linked k (l ++ b :: m)) :
    Linked (k.unlink b) (l ++ m) := by
  obtain ⟨hl, hm⟩ := (segment_append none l b m none).mp h.segment
  have hnd := List.nodup_append.mp h.nodup
  have hbm := List.nodup_cons.mp hnd.2.1
  have hbl : b ∉ l := fun hb => hnd.2.2 b hb b List.mem_cons_self rfl
  have hdisj : ∀ c ∈ l, c ∉ m := fun c hc hcm => hnd.2.2 c hc c (List.mem_cons_of_mem b hcm) rfl
  -- the neighbours of `b` are its ends of the two segments
  have hprev := hl.last
  have hnext : k.next (some b) = none ∨ ∃ c ∈ m, k.next (some b) = some c := by
    rcases hm.reverse.last with he | ⟨c, hc, he⟩
    · exact Or.inl he
    · exact Or.inr ⟨c, List.mem_reverse.mp hc, he⟩
  have hnb : k.next (some b) ≠ some b := by
    rcases hnext with he | ⟨c, hc, he⟩
    · rw [he]
      nofun
    · rw [he]
      rintro e
      exact hbm.1 (Option.some.inj e ▸ hc)
  have hp : (k.unlink b).prev = Function.update k.prev (k.next (some b)) (k.prev (some b)) := rfl
  have hn : (k.unlink b).next = Function.update k.next (k.prev (some b)) (k.next (some b)) := by
    simp only [Links.unlink, Links.setNext, Links.setPrev, Function.update_of_ne hnb.symm]
  refine ⟨?_, ?_⟩
  · rw [hp, hn]
    apply segment_join hl hm
    · exact Function.update_self ..
    · exact Function.update_self ..
    · exact fun z _ hz => Function.update_of_ne hz ..
    · intro c hc
      apply Function.update_of_ne
      rcases hnext with he | ⟨d, hd, he⟩
      · rw [he]
        nofun
      · rw [he]
        rintro e
        exact hdisj c hc (Option.some.inj e ▸ hd)
    · intro c hc
      apply Function.update_of_ne
      rcases hprev with he | ⟨d, hd, he⟩
      · rw [he]
        nofun
      · rw [he]
        rintro e
        exact hdisj d hd (Option.some.inj e ▸ hc)
    · exact fun z _ hz => Function.update_of_ne hz ..
    · exact hnd.1
    · exact fun c _ => nofun
    · exact hbm.2
    · exact fun c _ => nofun
  · refine List.nodup_append.mpr ⟨hnd.1, hbm.2, ?_⟩
    exact fun c hc d hd => hnd.2.2 c hc d (List.mem_cons_of_mem b hd)

end Operations

end CircularList
