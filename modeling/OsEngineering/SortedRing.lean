import Mathlib.Data.Finset.Max
import Mathlib.Data.Finset.Sort
import Mathlib.Logic.Function.Basic

/-! Circular singly linked lists kept in order: from each node the next greater one follows, and
the least node, `base`, follows the greatest. -/
namespace SortedRing

variable {α : Type*} [LinearOrder α]

/-- `y` follows `x` among the nodes `G`. -/
def Follows (G : Finset α) (base x y : α) : Prop :=
  (y ∈ G ∧ x < y ∧ ∀ z ∈ G, x < z → y ≤ z) ∨ (y = base ∧ ∀ z ∈ G, z ≤ x)

structure Ring (G : Finset α) (base : α) (next : α → α) : Prop where
  base_mem : base ∈ G
  base_le : ∀ x ∈ G, base ≤ x
  follows : ∀ x ∈ G, Follows G base x (next x)

/-- From `x` over the nodes of a list to `y`. -/
def Path (next : α → α) : α → List α → α → Prop
  | x, [], y => next x = y
  | x, a :: l, y => next x = a ∧ Path next a l y

/-- `q` is the greatest node below `x`. -/
def Before (G : Finset α) (q x : α) : Prop := q ∈ G ∧ q < x ∧ ∀ z ∈ G, z < x → z ≤ q

variable {G : Finset α} {base q x y : α} {next : α → α} {l m : List α}

theorem Ring.next_mem (h : Ring G base next) (hx : x ∈ G) : next x ∈ G := by
  rcases h.follows x hx with ⟨hmem, -, -⟩ | ⟨heq, -⟩
  · exact hmem
  · rw [heq]
    exact h.base_mem

theorem Ring.congr {next' : α → α} (h : Ring G base next) (hsame : ∀ x ∈ G, next' x = next x) :
    Ring G base next' := by
  refine ⟨h.base_mem, h.base_le, fun x hx => ?_⟩
  rw [hsame x hx]
  exact h.follows x hx

theorem Ring.exists_before (h : Ring G base next) (hx : base < x) : ∃ q, Before G q x := by
  have hne : (G.filter (· < x)).Nonempty := ⟨base, Finset.mem_filter.mpr ⟨h.base_mem, hx⟩⟩
  obtain ⟨hmem, hlt⟩ := Finset.mem_filter.mp (Finset.max'_mem _ hne)
  exact ⟨_, hmem, hlt, fun z hz hzx => Finset.le_max' _ z (Finset.mem_filter.mpr ⟨hz, hzx⟩)⟩

theorem Before.unique {r : α} (h : Before G q x) (h' : Before G r x) : q = r :=
  le_antisymm (h'.2.2 q h.1 h.2.1) (h.2.2 r h'.1 h'.2.1)

/-- What follows the node before `x` is above `x`, or it is the base. -/
theorem Ring.next_before (h : Ring G base next) (hq : Before G q x) (hx : x ∉ G) :
    (x < next q ∧ next q ∈ G) ∨ (next q = base ∧ ∀ z ∈ G, z < x) := by
  have hside : ∀ z ∈ G, q < z → x < z := by
    intro z hz hqz
    rcases lt_trichotomy z x with hzx | rfl | hzx
    · exact absurd hqz (not_lt.mpr (hq.2.2 z hz hzx))
    · exact absurd hz hx
    · exact hzx
  rcases h.follows q hq.1 with ⟨hmem, hlt, -⟩ | ⟨heq, hlast⟩
  · exact Or.inl ⟨hside _ hmem hlt, hmem⟩
  · exact Or.inr ⟨heq, fun z hz => (hlast z hz).trans_lt hq.2.1⟩

/-- A search that stops where `x` lies between a node and the next, or past the wrap, stops only
before `x`. -/
theorem Ring.stops_iff (h : Ring G base next) (hbase : base < x) (hx : x ∉ G)
    (hy : y ∈ G) :
    (y < x ∧ x < next y ∨ next y ≤ y ∧ (y < x ∨ x < next y)) ↔ Before G y x := by
  constructor
  · rintro (⟨hlt, hgt⟩ | ⟨hwrap, hside⟩)
    · refine ⟨hy, hlt, fun z hz hzx => ?_⟩
      rcases h.follows y hy with ⟨-, -, hleast⟩ | ⟨heq, -⟩
      · by_contra hyz
        exact absurd (hleast z hz (not_le.mp hyz)) (not_le.mpr (hzx.trans hgt))
      · rw [heq] at hgt
        exact absurd hgt (not_lt.mpr hbase.le)
    · rcases h.follows y hy with ⟨-, hlt, -⟩ | ⟨heq, hlast⟩
      · exact absurd hlt (not_lt.mpr hwrap)
      · rcases hside with hside | hside
        · exact ⟨hy, hside, fun z hz _ => hlast z hz⟩
        · rw [heq] at hside
          exact absurd hside (not_lt.mpr hbase.le)
  · intro hb
    rcases h.next_before hb hx with ⟨hgt, -⟩ | ⟨heq, -⟩
    · exact Or.inl ⟨hb.2.1, hgt⟩
    · rw [heq]
      exact Or.inr ⟨h.base_le y hy, Or.inl hb.2.1⟩

/-- A new node after the one before it. -/
theorem Ring.insert [DecidableEq α] (h : Ring G base next) (hq : Before G q x) (hx : x ∉ G) :
    Ring (insert x G) base (Function.update (Function.update next x (next q)) q x) := by
  have hqx : q ≠ x := hq.2.1.ne
  have hbase : base < x := (h.base_le q hq.1).trans_lt hq.2.1
  refine ⟨Finset.mem_insert_of_mem h.base_mem, fun z hz => ?_, fun z hz => ?_⟩
  · rcases Finset.mem_insert.mp hz with rfl | hz
    · exact hbase.le
    · exact h.base_le z hz
  · by_cases hzq : z = q
    · rw [hzq, Function.update_self]
      refine Or.inl ⟨Finset.mem_insert_self x G, hq.2.1, fun w hw hqw => ?_⟩
      rcases Finset.mem_insert.mp hw with rfl | hw
      · exact le_rfl
      · by_contra hwx
        exact absurd (hq.2.2 w hw (not_le.mp hwx)) (not_le.mpr hqw)
    · rw [Function.update_of_ne hzq]
      rcases Finset.mem_insert.mp hz with rfl | hzG
      · rw [Function.update_self]
        rcases h.next_before hq hx with ⟨hgt, hmem⟩ | ⟨heq, hall⟩
        · refine Or.inl ⟨Finset.mem_insert_of_mem hmem, hgt, fun w hw hzw => ?_⟩
          rcases Finset.mem_insert.mp hw with rfl | hw
          · exact absurd hzw (lt_irrefl w)
          · rcases h.follows q hq.1 with ⟨-, -, hleast⟩ | ⟨heq, hlast⟩
            · exact hleast w hw (hq.2.1.trans hzw)
            · exact absurd (hq.2.1.trans hzw) (not_lt.mpr (hlast w hw))
        · refine Or.inr ⟨heq, fun w hw => ?_⟩
          rcases Finset.mem_insert.mp hw with rfl | hw
          · exact le_rfl
          · exact (hall w hw).le
      · have hzx : z ≠ x := fun heq => hx (heq ▸ hzG)
        rw [Function.update_of_ne hzx]
        rcases h.follows z hzG with ⟨hmem, hlt, hleast⟩ | ⟨heq, hlast⟩
        · refine Or.inl ⟨Finset.mem_insert_of_mem hmem, hlt, fun w hw hzw => ?_⟩
          rcases Finset.mem_insert.mp hw with rfl | hw
          · -- `w` is new: `z` is below `q`
            have hzq' : z < q := lt_of_le_of_ne (hq.2.2 z hzG hzw) hzq
            exact (hleast q hq.1 hzq').trans hq.2.1.le
          · exact hleast w hw hzw
        · refine Or.inr ⟨heq, fun w hw => ?_⟩
          rcases Finset.mem_insert.mp hw with rfl | hw
          · have hqz : q < z := lt_of_le_of_ne (hlast q hq.1) (Ne.symm hzq)
            by_contra hwz
            exact absurd (hq.2.2 z hzG (not_le.mp hwz)) (not_le.mpr hqz)
          · exact hlast w hw

/-- The node after `q` leaves. -/
theorem Ring.erase [DecidableEq α] (h : Ring G base next) (hq : q ∈ G) (hx : next q = x)
    (hne : x ≠ base) : Ring (G.erase x) base (Function.update next q (next x)) := by
  have hxG : x ∈ G := hx ▸ h.next_mem hq
  rcases h.follows q hq with ⟨-, hqx, hleast⟩ | ⟨heq, -⟩
  swap
  · exact absurd (hx.symm.trans heq) hne
  rw [hx] at hqx hleast
  refine ⟨Finset.mem_erase.mpr ⟨Ne.symm hne, h.base_mem⟩,
    fun z hz => h.base_le z (Finset.mem_of_mem_erase hz), fun z hz => ?_⟩
  obtain ⟨hzx, hzG⟩ := Finset.mem_erase.mp hz
  by_cases hzq : z = q
  · rw [hzq, Function.update_self]
    rcases h.follows x hxG with ⟨hmem, hlt, hnext⟩ | ⟨heq, hlast⟩
    · refine Or.inl ⟨Finset.mem_erase.mpr ⟨hlt.ne', hmem⟩, hqx.trans hlt, fun w hw hqw => ?_⟩
      obtain ⟨hwx, hwG⟩ := Finset.mem_erase.mp hw
      exact hnext w hwG (lt_of_le_of_ne (hleast w hwG hqw) (Ne.symm hwx))
    · refine Or.inr ⟨heq, fun w hw => ?_⟩
      obtain ⟨hwx, hwG⟩ := Finset.mem_erase.mp hw
      by_contra hqw
      exact hwx (le_antisymm (hlast w hwG) (hleast w hwG (not_le.mp hqw)))
  · rw [Function.update_of_ne hzq]
    rcases h.follows z hzG with ⟨hmem, hlt, hnext⟩ | ⟨heq, hlast⟩
    · have hother : next z ≠ x := by
        intro hsame
        rw [hsame] at hlt hnext
        rcases lt_or_gt_of_ne hzq with hlow | hhigh
        · exact absurd (hnext q hq hlow) (not_le.mpr hqx)
        · exact absurd (hleast z hzG hhigh) (not_le.mpr hlt)
      refine Or.inl ⟨Finset.mem_erase.mpr ⟨hother, hmem⟩, hlt, fun w hw hzw => ?_⟩
      exact hnext w (Finset.mem_of_mem_erase hw) hzw
    · exact Or.inr ⟨heq, fun w hw => hlast w (Finset.mem_of_mem_erase hw)⟩

/-! Walking around the ring. -/

omit [LinearOrder α] in
theorem path_append {z : α} :
    Path next x (l ++ y :: m) z ↔ Path next x l y ∧ Path next y m z := by
  induction l generalizing x with
  | nil => simp only [List.nil_append, Path]
  | cons a l ih => simp only [List.cons_append, Path, ih, and_assoc]

/-- The nodes in order, from `x` to the last, which leads back to the base. -/
theorem Ring.path_up (h : Ring G base next) (hsorted : (l ++ x :: m).Pairwise (· < ·))
    (hall : ∀ z, z ∈ l ++ x :: m ↔ z ∈ G) : Path next x m base := by
  induction m generalizing x l with
  | nil =>
    have hx : x ∈ G := (hall x).mp (List.mem_append_right l List.mem_cons_self)
    rcases h.follows x hx with ⟨hmem, hlt, -⟩ | ⟨heq, -⟩
    · rcases List.mem_append.mp ((hall _).mpr hmem) with hlow | hself
      · have hbelow := (List.pairwise_append.mp hsorted).2.2 _ hlow x List.mem_cons_self
        exact absurd hbelow (not_lt.mpr hlt.le)
      · rw [List.mem_singleton] at hself
        exact absurd hself hlt.ne'
    · exact heq
  | cons y m ih =>
    have hrest : (l ++ [x]) ++ y :: m = l ++ x :: y :: m := by
      rw [List.append_assoc, List.singleton_append]
    have hx : x ∈ G := (hall x).mp (List.mem_append_right l List.mem_cons_self)
    have hy : y ∈ G := (hall y).mp
      (List.mem_append_right l (List.mem_cons_of_mem x List.mem_cons_self))
    have htail := (List.pairwise_append.mp hsorted).2.1
    obtain ⟨hxall, hyall⟩ := List.pairwise_cons.mp htail
    have hxy : x < y := hxall y List.mem_cons_self
    refine ⟨?_, ih (by rw [hrest]; exact hsorted) (by rw [hrest]; exact hall)⟩
    rcases h.follows x hx with ⟨hmem, hlt, hleast⟩ | ⟨-, hlast⟩
    · refine le_antisymm (hleast y hy hxy) ?_
      rcases List.mem_append.mp ((hall _).mpr hmem) with hlow | hhigh
      · have hbelow := (List.pairwise_append.mp hsorted).2.2 _ hlow x List.mem_cons_self
        exact absurd hbelow (not_lt.mpr hlt.le)
      · rcases List.mem_cons.mp hhigh with heq | hhigh
        · exact absurd heq hlt.ne'
        · rcases List.mem_cons.mp hhigh with heq | hhigh
          · exact heq.ge
          · exact ((List.pairwise_cons.mp hyall).1 _ hhigh).le
    · exact absurd hxy (not_lt.mpr (hlast y hy))

/-- From any node the others follow in order, with one wrap, and then that node again. -/
theorem Ring.visits (h : Ring G base next) {f : α} (hf : f ∈ G) :
    ∃ l m, (l ++ f :: m).Pairwise (· < ·) ∧ (∀ z, z ∈ l ++ f :: m ↔ z ∈ G) ∧
      Path next f (m ++ l) f := by
  have hsorted := (Finset.sortedLT_sort G).pairwise
  have hall : ∀ z, z ∈ Finset.sort G ↔ z ∈ G := fun z => Finset.mem_sort _
  obtain ⟨l, m, hsplit⟩ := List.append_of_mem ((hall f).mpr hf)
  rw [hsplit] at hsorted hall
  refine ⟨l, m, hsorted, hall, ?_⟩
  have hup := h.path_up hsorted hall
  cases l with
  | nil =>
    -- the least node is the base
    have hbase : base = f := by
      refine le_antisymm (h.base_le f hf) ?_
      rcases List.mem_cons.mp ((hall base).mpr h.base_mem) with heq | hlater
      · exact heq.ge
      · exact ((List.pairwise_cons.mp hsorted).1 base hlater).le
    rw [hbase] at hup
    rw [List.append_nil]
    exact hup
  | cons b l =>
    have hb : b ∈ G := (hall b).mp List.mem_cons_self
    have hbase : base = b := by
      refine le_antisymm (h.base_le b hb) ?_
      rcases List.mem_cons.mp ((hall base).mpr h.base_mem) with heq | hlater
      · exact heq.ge
      · exact ((List.pairwise_cons.mp hsorted).1 base hlater).le
    have hfromBase := h.path_up (l := []) hsorted hall
    have hlow : Path next b l f := (path_append.mp hfromBase).1
    rw [path_append]
    rw [hbase] at hup
    exact ⟨hup, hlow⟩

end SortedRing
