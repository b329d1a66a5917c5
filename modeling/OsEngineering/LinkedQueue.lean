import Mathlib.Data.List.Nodup
import Mathlib.Logic.Function.Basic

/-! A queue as a singly linked list: a pointer to the head, and in each node a pointer to the
next. An append walks the list to find the place of the null pointer at its end. -/
namespace LinkedQueue

structure Queue (B : Type*) where
  head : Option B
  link : B → Option B

/-- A place that holds a pointer of the list. -/
inductive Place (B : Type*) where
  | head
  | next (b : B)
  deriving DecidableEq

variable {B : Type*} [DecidableEq B]

def Queue.get (q : Queue B) : Place B → Option B
  | .head => q.head
  | .next b => q.link b

def Queue.set (q : Queue B) (x : Place B) (v : Option B) : Queue B :=
  match x with
  | .head => { q with head := v }
  | .next b => { q with link := Function.update q.link b v }

/-- The first place from `x` on with a null pointer, in at most `fuel` rounds. -/
def Queue.findEnd (q : Queue B) : ℕ → Place B → Option (Place B)
  | 0, _ => none
  | fuel + 1, x =>
    match q.get x with
    | none => some x
    | some b => q.findEnd fuel (.next b)

/-- `none` if the walk does not end. -/
def Queue.append (q : Queue B) (fuel : ℕ) (b : B) : Option (Queue B) :=
  let q := q.set (.next b) none
  (q.findEnd fuel .head).map fun x => q.set x (some b)

/-- The head `b` leaves the queue. -/
def Queue.pop (q : Queue B) (b : B) : Queue B := { q with head := q.link b }

def Path (q : Queue B) : Place B → List B → Prop
  | x, [] => q.get x = none
  | x, b :: l => q.get x = some b ∧ Path q (.next b) l

structure Holds (q : Queue B) (l : List B) : Prop where
  path : Path q .head l
  nodup : l.Nodup

variable {q r : Queue B} {x y : Place B} {b : B} {l m : List B}

theorem get_set_self (q : Queue B) (x : Place B) (v : Option B) : (q.set x v).get x = v := by
  cases x with
  | head => rfl
  | next b => exact Function.update_self _ _ _

theorem get_set_ne (q : Queue B) (v : Option B) (h : y ≠ x) : (q.set x v).get y = q.get y := by
  cases x with
  | head =>
    cases y with
    | head => exact absurd rfl h
    | next c => rfl
  | next b =>
    cases y with
    | head => rfl
    | next c => exact Function.update_of_ne (fun hc => h (by rw [hc])) _ _

omit [DecidableEq B] in
theorem Path.congr (h : Path q x l) (hx : r.get x = q.get x)
    (hl : ∀ b ∈ l, r.link b = q.link b) : Path r x l := by
  induction l generalizing x with
  | nil => exact hx.trans h
  | cons b l ih =>
    refine ⟨hx.trans h.1, ih h.2 (hl b List.mem_cons_self) ?_⟩
    exact fun c hc => hl c (List.mem_cons_of_mem b hc)

omit [DecidableEq B] in
/-- A list has only one walk. -/
theorem Path.unique (h : Path q x l) (g : Path q x m) : l = m := by
  induction l generalizing x m with
  | nil =>
    cases m with
    | nil => rfl
    | cons c m => cases h.symm.trans g.1
  | cons b l ih =>
    cases m with
    | nil => cases h.1.symm.trans g
    | cons c m =>
      obtain rfl := Option.some.inj (h.1.symm.trans g.1)
      rw [ih h.2 g.2]

/-- The place at the end of the list. -/
def endOf : Place B → List B → Place B
  | x, [] => x
  | _, b :: l => endOf (.next b) l

omit [DecidableEq B] in
theorem findEnd_eq {fuel : ℕ} (h : Path q x l) (hf : l.length < fuel) :
    q.findEnd fuel x = some (endOf x l) := by
  induction fuel generalizing x l with
  | zero => exact absurd hf (Nat.not_lt_zero _)
  | succ fuel ih =>
    cases l with
    | nil =>
      rw [Queue.findEnd, show q.get x = none from h]
      rfl
    | cons b l =>
      rw [Queue.findEnd, h.1]
      exact ih h.2 (Nat.lt_of_succ_lt_succ hf)

omit [DecidableEq B] in
theorem endOf_mem (x : Place B) (l : List B) : endOf x l = x ∨ ∃ b ∈ l, endOf x l = .next b := by
  induction l generalizing x with
  | nil => exact Or.inl rfl
  | cons b l ih =>
    rcases ih (.next b) with h | ⟨c, hc, h⟩
    · exact Or.inr ⟨b, List.mem_cons_self, h⟩
    · exact Or.inr ⟨c, List.mem_cons_of_mem b hc, h⟩

/-- Storing a node with a null pointer at the end of the list. -/
theorem Path.snoc (h : Path q x l) (hb : q.link b = none) (hx : x ≠ .next b) (hbl : b ∉ l)
    (hnd : l.Nodup) (hxl : ∀ c ∈ l, x ≠ .next c) :
    Path (q.set (endOf x l) (some b)) x (l ++ [b]) := by
  induction l generalizing x with
  | nil =>
    refine ⟨get_set_self q x (some b), ?_⟩
    exact (get_set_ne q (some b) hx.symm).trans hb
  | cons c l ih =>
    obtain ⟨hcl, hnd⟩ := List.nodup_cons.mp hnd
    have hcb : c ≠ b := fun hc => hbl (hc ▸ List.mem_cons_self)
    refine ⟨?_, ih h.2 ?_ ?_ hnd ?_⟩
    · refine (get_set_ne q (some b) ?_).trans h.1
      rcases endOf_mem (.next c) l with he | ⟨d, hd, he⟩
      · rw [endOf, he]
        exact hxl c List.mem_cons_self
      · rw [endOf, he]
        exact hxl d (List.mem_cons_of_mem c hd)
    · intro hc
      injection hc with hc
      exact hcb hc
    · exact fun hmem => hbl (List.mem_cons_of_mem c hmem)
    · intro d hd hcd
      injection hcd with hcd
      exact hcl (hcd ▸ hd)

theorem Holds.append (h : Holds q l) (hb : b ∉ l) {fuel : ℕ} (hf : l.length < fuel) :
    ∃ r, q.append fuel b = some r ∧ Holds r (l ++ [b]) := by
  have hpath : Path (q.set (.next b) none) .head l := by
    refine h.path.congr (get_set_ne q none nofun) ?_
    intro c hc
    have hcb : c ≠ b := fun hcb => hb (hcb ▸ hc)
    exact Function.update_of_ne hcb _ _
  refine ⟨(q.set (.next b) none).set (endOf .head l) (some b), ?_, ?_, ?_⟩
  · rw [Queue.append, findEnd_eq hpath hf]
    rfl
  · exact hpath.snoc (get_set_self q (.next b) none) nofun hb h.nodup fun _ _ => nofun
  · rw [List.nodup_append]
    refine ⟨h.nodup, List.nodup_singleton b, ?_⟩
    intro c hc d hd hcd
    rw [List.mem_singleton.mp hd] at hcd
    exact hb (hcd ▸ hc)

omit [DecidableEq B] in
theorem Holds.pop (h : Holds q (b :: l)) : Holds (q.pop b) l := by
  refine ⟨?_, (List.nodup_cons.mp h.nodup).2⟩
  cases l with
  | nil => exact h.path.2
  | cons c l => exact ⟨h.path.2.1, h.path.2.2.congr rfl fun _ _ => rfl⟩

omit [DecidableEq B] in
theorem Holds.head (h : Holds q l) : q.head = l.head? := by
  cases l with
  | nil => exact h.path
  | cons b l => exact h.path.1

end LinkedQueue
