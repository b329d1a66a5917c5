import OsEngineering.ByteBlock
import OsEngineering.ListSegments
import Mathlib.Data.List.Basic

/-! The free list of pmap.c in lab 2, and the block of check_page_free_list() that moves the pages
with lower addresses to its front. -/
namespace PageFreeList

open ByteBlock ListSegments

/-- A struct PageInfo by its index in `pages`. -/
abbrev Page := Word

def PGSHIFT : ℕ := 12

def PDXSHIFT : ℕ := 22

def NPDENTRIES : Word := 1024

def PDX (la : Word) : Word := (la >>> PDXSHIFT) &&& 0x3FF

def page2pa (pp : Page) : Word := pp <<< PGSHIFT

def pdx_limit (only_low_memory : Bool) : Word := if only_low_memory then 1 else NPDENTRIES

/-- PDX(page2pa(pp)) >= pdx_limit, as an index of `tp`. -/
def pagetype (only_low_memory : Bool) (pp : Page) : Fin 2 :=
  if pdx_limit only_low_memory ≤ PDX (page2pa pp) then 1 else 0

/-- The heads are the local pointers pp1 and pp2, the links the fields pp_link. -/
abbrev Pointers := Lists (Fin 2) Page

abbrev Tails := Fin 2 → Place (Fin 2) Page

structure Kernel where
  page_free_list : Option Page
  pp_link : Page → Option Page

/-- The loop over the free list, in at most `fuel` rounds. -/
def sortPages : ℕ → Tails → Pointers → Option Page → Option (Pointers × Tails)
  | _, tp, s, none => some (s, tp)
  | 0, _, _, some _ => none
  | fuel + 1, tp, s, some pp =>
    let s := s.set (tp (pagetype true pp)) (some pp)
    let tp := Function.update tp (pagetype true pp) (.link pp)
    sortPages fuel tp s (s.link pp)

/-- The block under `if (only_low_memory)`. The local pointers start with any value. -/
def moveLowPages (fuel : ℕ) (locals : Fin 2 → Option Page) (k : Kernel) : Option Kernel :=
  (sortPages fuel .head ⟨locals, k.pp_link⟩ k.page_free_list).map fun r =>
    let s := r.1.set (r.2 1) none
    let s := s.set (r.2 0) (s.head 1)
    ⟨s.head 0, s.link⟩

/-- The links lead from `head` over `l` to a null pointer. -/
def Linked (link : Page → Option Page) : Option Page → List Page → Prop
  | head, [] => head = none
  | head, pp :: l => head = some pp ∧ Linked link (link pp) l

def Low (pp : Page) : Bool := PDX (page2pa pp) < pdx_limit true

/-- The loop has gone through `a`, and `b` is still to come. -/
structure Sorting (link : Page → Option Page) (s : Pointers) (tp : Tails) (pp : Option Page)
    (a b : List Page) : Prop where
  segment : ∀ i, Segment s (.head i) (a.filter fun q => pagetype true q = i) (tp i)
  rest : Linked link pp b
  same : ∀ q ∉ a, s.link q = link q
  nodup : (a ++ b).Nodup

variable {link : Page → Option Page} {s : Pointers} {tp : Tails} {head : Option Page} {pp : Page}
  {a b l : List Page} {x : Place (Fin 2) Page}

theorem linked_path (hlink : s.link = link) (hx : s.get x = head) :
    Linked link head l ↔ Path s x l := by
  subst hlink hx
  induction l generalizing x with
  | nil => exact path_nil.symm
  | cons pp l ih =>
    rw [path_cons, Linked]
    exact and_congr_right fun _ => ih (x := .link pp)

theorem Sorting.start (h : Linked link head l) (hnd : l.Nodup) (locals : Fin 2 → Option Page) :
    Sorting link ⟨locals, link⟩ .head head [] l :=
  ⟨fun _ => rfl, h, fun _ _ => rfl, hnd⟩

/-- A tail is a head, or it is in a page of its group. -/
theorem Sorting.tail (h : Sorting link s tp head a b) (i : Fin 2) :
    tp i = .head i ∨ ∃ q ∈ a, pagetype true q = i ∧ tp i = .link q := by
  rcases (h.segment i).mem_places with heq | ⟨q, hq, heq⟩
  · exact Or.inl heq
  · obtain ⟨hqa, hqi⟩ := List.mem_filter.mp hq
    exact Or.inr ⟨q, hqa, of_decide_eq_true hqi, heq⟩

theorem Sorting.tail_ne_link (h : Sorting link s tp head a b) (i : Fin 2) {q : Page} (hq : q ∉ a) :
    tp i ≠ .link q := by
  intro heq
  rcases h.tail i with hhead | ⟨r, hr, -, hlink⟩
  · cases hhead.symm.trans heq
  · cases hlink.symm.trans heq
    exact hq hr

theorem Sorting.tail_ne_head (h : Sorting link s tp head a b) {i j : Fin 2} (hij : i ≠ j) :
    tp i ≠ .head j := by
  intro heq
  rcases h.tail i with hhead | ⟨r, -, -, hlink⟩
  · cases hhead.symm.trans heq
    exact hij rfl
  · cases hlink.symm.trans heq

/-- The tail of one group is not in the list of the other. -/
theorem Sorting.tail_apart (h : Sorting link s tp head a b) {i j : Fin 2} (hij : i ≠ j) :
    ∀ q ∈ a.filter fun q => pagetype true q = j, tp i ≠ .link q := by
  intro q hq heq
  have hqj := of_decide_eq_true (List.mem_filter.mp hq).2
  rcases h.tail i with hhead | ⟨r, -, hri, hlink⟩
  · cases hhead.symm.trans heq
  · cases hlink.symm.trans heq
    exact hij (hri.symm.trans hqj)

theorem Sorting.nodup_group (h : Sorting link s tp head a b) (i : Fin 2) :
    (a.filter fun q => pagetype true q = i).Nodup :=
  (List.nodup_append.mp h.nodup).1.filter _

/-- One round of the loop. -/
theorem Sorting.step (h : Sorting link s tp (some pp) a (pp :: b)) :
    Sorting link (s.set (tp (pagetype true pp)) (some pp))
      (Function.update tp (pagetype true pp) (.link pp))
      ((s.set (tp (pagetype true pp)) (some pp)).link pp) (a ++ [pp]) b := by
  have hfresh : ∀ q ∈ pp :: b, q ∉ a := fun q hq ha =>
    (List.nodup_append.mp h.nodup).2.2 q ha q hq rfl
  have hsame : ∀ q ∉ a, (s.set (tp (pagetype true pp)) (some pp)).link q = link q := fun q hq =>
    (get_set_ne s (some pp) (h.tail_ne_link _ hq).symm).trans (h.same q hq)
  refine ⟨fun i => ?_, ?_, fun q hq => ?_, ?_⟩
  · rw [List.filter_append]
    by_cases hi : i = pagetype true pp
    · subst hi
      rw [Function.update_self, List.filter_cons_of_pos (by simp)]
      exact (h.segment _).snoc (h.nodup_group _) nofun pp
    · have hne : pagetype true pp ≠ i := Ne.symm hi
      rw [Function.update_of_ne hi, List.filter_cons_of_neg (by simpa using hne), List.filter_nil,
        List.append_nil]
      exact (h.segment i).set (h.tail_ne_head hne) (h.tail_apart hne)
  · rw [hsame pp (hfresh pp List.mem_cons_self)]
    exact h.rest.2
  · exact hsame q fun ha => hq (List.mem_append_left _ ha)
  · rw [List.append_assoc]
    exact h.nodup

/-- The loop stops after the whole list. -/
theorem Sorting.run {fuel : ℕ} (h : Sorting link s tp head a b) (hfuel : b.length ≤ fuel) :
    ∃ t tq, sortPages fuel tp s head = some (t, tq) ∧ Sorting link t tq none (a ++ b) [] := by
  induction b generalizing s tp head a fuel with
  | nil =>
    obtain rfl : head = none := h.rest
    refine ⟨s, tp, by cases fuel <;> rfl, ?_⟩
    rw [List.append_nil]
    exact h
  | cons pp b ih =>
    obtain ⟨fuel, rfl⟩ : ∃ n, fuel = n + 1 := ⟨fuel - 1, by rw [List.length_cons] at hfuel; omega⟩
    obtain rfl : head = some pp := h.rest.1
    obtain ⟨t, tq, hrun, hend⟩ := ih h.step (Nat.le_of_succ_le_succ hfuel)
    rw [List.append_cons]
    exact ⟨t, tq, hrun, hend⟩

theorem pagetype_zero : pagetype true pp = 0 ↔ Low pp = true := by
  unfold pagetype Low
  rw [decide_eq_true_iff, ← BitVec.not_le]
  split
  next h => exact iff_of_false (by decide) (not_not_intro h)
  next h => exact iff_of_true rfl h

theorem pagetype_one : pagetype true pp = 1 ↔ Low pp = false := by
  rw [← Bool.not_eq_true, ← pagetype_zero]
  generalize pagetype true pp = i
  revert i
  decide

/-- The list of the second group is put behind that of the first. -/
theorem Sorting.join (h : Sorting link s tp none l []) :
    ∃ t, t = ((s.set (tp 1) none).set (tp 0) ((s.set (tp 1) none).head 1)) ∧
      Linked t.link (t.head 0) (l.filter Low ++ l.filter fun pp => !Low pp) ∧
      ∀ q ∉ l, t.link q = link q := by
  have h01 : (0 : Fin 2) ≠ 1 := by decide
  have hlow : (l.filter fun q => pagetype true q = 0) = l.filter Low :=
    List.filter_congr fun q _ => by simp only [pagetype_zero, Bool.decide_eq_true]
  have hhigh : (l.filter fun q => pagetype true q = 1) = l.filter fun pp => !Low pp :=
    List.filter_congr fun q _ => by simp only [pagetype_one]; cases Low q <;> rfl
  have hsecond : Path (s.set (tp 1) none) (.head 1) (l.filter fun q => pagetype true q = 1) :=
    ⟨tp 1, (h.segment 1).set_end (h.nodup_group 1) nofun, get_set_self _ _ _⟩
  have hfirst : Segment (s.set (tp 1) none) (.head 0) (l.filter fun q => pagetype true q = 0)
      (tp 0) := (h.segment 0).set (h.tail_ne_head h01.symm) (h.tail_apart h01.symm)
  refine ⟨_, rfl, ?_, fun q hq => ?_⟩
  · generalize hs : s.set (tp 1) none = u at hsecond hfirst
    have htail : Path (u.set (tp 0) (u.head 1)) (.head 1)
        (l.filter fun q => pagetype true q = 1) :=
      hsecond.set (h.tail_ne_head h01) (h.tail_apart h01)
    have hjoined : Path (u.set (tp 0) (u.head 1)) (tp 0)
        (l.filter fun q => pagetype true q = 1) := by
      refine htail.congr ?_ fun _ _ => rfl
      rw [get_set_self, get_set_ne u _ (h.tail_ne_head h01).symm]
      rfl
    rw [← hlow, ← hhigh]
    refine (linked_path (x := .head 0) rfl rfl).mpr ?_
    exact (hfirst.set_end (h.nodup_group 0) nofun).path hjoined
  · have hne := fun i => (h.tail_ne_link i hq).symm
    exact (get_set_ne _ _ (hne 0)).trans ((get_set_ne _ _ (hne 1)).trans (h.same q hq))

/-- The pages with lower addresses come first, in the order they had, and then the others in
theirs; no other page is changed. -/
theorem moveLowPages_stable {k : Kernel} {l : List Page} {fuel : ℕ} (locals : Fin 2 → Option Page)
    (h : Linked k.pp_link k.page_free_list l) (hnd : l.Nodup) (hfuel : l.length ≤ fuel) :
    ∃ k', moveLowPages fuel locals k = some k' ∧
      Linked k'.pp_link k'.page_free_list (l.filter Low ++ l.filter fun pp => !Low pp) ∧
      ∀ q ∉ l, k'.pp_link q = k.pp_link q := by
  obtain ⟨t, tq, hrun, hend⟩ := (Sorting.start h hnd locals).run hfuel
  rw [List.nil_append] at hend
  obtain ⟨u, rfl, hlist, hsame⟩ := hend.join
  refine ⟨⟨_, _⟩, ?_, hlist, hsame⟩
  rw [moveLowPages, hrun]
  rfl

/-- The pages 1024 and 3, where page 1024 is the first above the limit. -/
def twoPages : Kernel := ⟨some 1024, fun pp => if pp = 1024 then some 3 else none⟩

theorem moveLowPages_stable_two :
    ∃ k', moveLowPages 2 (fun _ => none) twoPages = some k' ∧
      Linked k'.pp_link k'.page_free_list
        ([1024, 3].filter Low ++ [1024, 3].filter fun pp => !Low pp) ∧
      ∀ q ∉ [1024, 3], k'.pp_link q = twoPages.pp_link q :=
  moveLowPages_stable _ (by exact ⟨rfl, rfl, rfl⟩) (by decide) (by decide)

end PageFreeList
