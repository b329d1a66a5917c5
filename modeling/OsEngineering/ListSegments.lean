import Mathlib.Data.List.Nodup
import Mathlib.Logic.Function.Basic

/-! Singly linked lists that share their links, each from a head of its own, and pointers to the
places where a list ends for now. -/
namespace ListSegments

structure Lists (H B : Type*) where
  head : H → Option B
  link : B → Option B

/-- A place that holds a pointer. -/
inductive Place (H B : Type*) where
  | head (h : H)
  | link (b : B)
  deriving DecidableEq

variable {H B : Type*} [DecidableEq H] [DecidableEq B]

def Lists.get (s : Lists H B) : Place H B → Option B
  | .head h => s.head h
  | .link b => s.link b

def Lists.set (s : Lists H B) (x : Place H B) (v : Option B) : Lists H B :=
  match x with
  | .head h => { s with head := Function.update s.head h v }
  | .link b => { s with link := Function.update s.link b v }

/-- From the place `x` the links lead over `l` to the place `y`. -/
def Segment (s : Lists H B) : Place H B → List B → Place H B → Prop
  | x, [], y => x = y
  | x, b :: l, y => s.get x = some b ∧ Segment s (.link b) l y

/-- From the place `x` the links lead over `l` to a null pointer. -/
def Path (s : Lists H B) (x : Place H B) (l : List B) : Prop :=
  ∃ y, Segment s x l y ∧ s.get y = none

variable {s t : Lists H B} {x y z : Place H B} {b : B} {l m : List B} {v : Option B}

theorem get_set_self (s : Lists H B) (x : Place H B) (v : Option B) : (s.set x v).get x = v := by
  cases x with
  | head h => exact Function.update_self _ _ _
  | link b => exact Function.update_self _ _ _

theorem get_set_ne (s : Lists H B) (v : Option B) (h : y ≠ x) : (s.set x v).get y = s.get y := by
  cases x with
  | head k =>
    cases y with
    | head h' => exact Function.update_of_ne (fun hk => h (by rw [hk])) _ _
    | link c => rfl
  | link b =>
    cases y with
    | head h' => rfl
    | link c => exact Function.update_of_ne (fun hc => h (by rw [hc])) _ _

omit [DecidableEq H] [DecidableEq B] in
theorem Segment.mem_places (h : Segment s x l y) : y = x ∨ ∃ b ∈ l, y = .link b := by
  induction l generalizing x with
  | nil => exact Or.inl h.symm
  | cons b l ih =>
    rcases ih h.2 with rfl | ⟨c, hc, rfl⟩
    · exact Or.inr ⟨b, List.mem_cons_self, rfl⟩
    · exact Or.inr ⟨c, List.mem_cons_of_mem b hc, rfl⟩

omit [DecidableEq H] [DecidableEq B] in
theorem Segment.append (h : Segment s x l y) (h' : Segment s y m z) :
    Segment s x (l ++ m) z := by
  induction l generalizing x with
  | nil =>
    obtain rfl : x = y := h
    exact h'
  | cons b l ih => exact ⟨h.1, ih h.2⟩

/-- Writing to a place that is not in the list. -/
theorem Segment.set (h : Segment s x l y) (hx : z ≠ x) (hl : ∀ b ∈ l, z ≠ .link b) :
    Segment (s.set z v) x l y := by
  induction l generalizing x with
  | nil => exact h
  | cons b l ih =>
    refine ⟨(get_set_ne s v hx.symm).trans h.1, ih h.2 (hl b List.mem_cons_self) ?_⟩
    exact fun c hc => hl c (List.mem_cons_of_mem b hc)

/-- Writing to the end of the list. -/
theorem Segment.set_end (h : Segment s x l y) (hnd : l.Nodup) (hx : ∀ b ∈ l, x ≠ .link b) :
    Segment (s.set y v) x l y := by
  induction l generalizing x with
  | nil => exact h
  | cons b l ih =>
    obtain ⟨hb, hnd⟩ := List.nodup_cons.mp hnd
    have hxy : x ≠ y := by
      rcases h.2.mem_places with rfl | ⟨c, hc, rfl⟩
      · exact hx b List.mem_cons_self
      · exact hx c (List.mem_cons_of_mem b hc)
    refine ⟨(get_set_ne s v hxy).trans h.1, ih h.2 hnd fun c hc hbc => ?_⟩
    injection hbc with hbc
    exact hb (hbc ▸ hc)

/-- A node stored at the end of the list is its last one. -/
theorem Segment.snoc (h : Segment s x l y) (hnd : l.Nodup) (hx : ∀ b ∈ l, x ≠ .link b) (b : B) :
    Segment (s.set y (some b)) x (l ++ [b]) (.link b) :=
  (h.set_end hnd hx).append ⟨get_set_self s y (some b), rfl⟩

omit [DecidableEq H] [DecidableEq B] in
theorem path_nil : Path s x [] ↔ s.get x = none := by
  constructor
  · rintro ⟨y, rfl, h⟩
    exact h
  · intro h
    exact ⟨x, rfl, h⟩

omit [DecidableEq H] [DecidableEq B] in
theorem path_cons : Path s x (b :: l) ↔ s.get x = some b ∧ Path s (.link b) l := by
  constructor
  · rintro ⟨y, ⟨hb, h⟩, hy⟩
    exact ⟨hb, y, h, hy⟩
  · rintro ⟨hb, y, h, hy⟩
    exact ⟨y, ⟨hb, h⟩, hy⟩

omit [DecidableEq H] [DecidableEq B] in
/-- A list depends on the place it starts from and on the links of its nodes. -/
theorem Path.congr (h : Path s x l) (hx : t.get y = s.get x)
    (hl : ∀ b ∈ l, t.link b = s.link b) : Path t y l := by
  induction l generalizing x y with
  | nil =>
    rw [path_nil] at h ⊢
    exact hx.trans h
  | cons b l ih =>
    rw [path_cons] at h ⊢
    refine ⟨hx.trans h.1, ih h.2 (hl b List.mem_cons_self) ?_⟩
    exact fun c hc => hl c (List.mem_cons_of_mem b hc)

omit [DecidableEq H] [DecidableEq B] in
theorem Segment.path (h : Segment s x l y) (h' : Path s y m) : Path s x (l ++ m) := by
  obtain ⟨z, hz, hnone⟩ := h'
  exact ⟨z, h.append hz, hnone⟩

theorem Path.set (h : Path s x l) (hx : z ≠ x) (hl : ∀ b ∈ l, z ≠ .link b) :
    Path (s.set z v) x l := by
  obtain ⟨y, hseg, hy⟩ := h
  refine ⟨y, hseg.set hx hl, (get_set_ne s v ?_).trans hy⟩
  rcases hseg.mem_places with rfl | ⟨b, hb, rfl⟩
  · exact hx.symm
  · exact (hl b hb).symm

end ListSegments
