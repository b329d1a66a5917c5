import Mathlib.Data.List.Basic

/-! The lines of a stream: what each separator ends, and the part after the last one. -/
namespace StreamLines

variable {α : Type*} [DecidableEq α] (sep : α)

/-- The lines that a separator ends, without it. -/
def lines (s : List α) : List (List α) := (s.splitOn sep).dropLast

/-- What comes after the last separator. -/
def unended (s : List α) : List α := (s.splitOn sep).getLastD []

def ended (ls : List (List α)) : List α := (ls.map (· ++ [sep])).flatten

variable {sep} {s t l : List α}

theorem lines_of_notMem (h : sep ∉ s) : lines sep s = [] := by
  rw [lines, List.splitOn_eq_singleton h]
  rfl

theorem unended_of_notMem (h : sep ∉ s) : unended sep s = s := by
  rw [unended, List.splitOn_eq_singleton h]
  rfl

theorem lines_line (h : sep ∉ l) (s : List α) : lines sep (l ++ sep :: s) = l :: lines sep s := by
  rw [lines, List.splitOn_append_cons_self_of_not_mem h,
    List.dropLast_cons_of_ne_nil (List.splitOn_ne_nil sep s), lines]

theorem unended_line (h : sep ∉ l) (s : List α) :
    unended sep (l ++ sep :: s) = unended sep s := by
  rw [unended, unended, List.splitOn_append_cons_self_of_not_mem h]
  cases hs : s.splitOn sep with
  | nil => exact absurd hs (List.splitOn_ne_nil sep s)
  | cons x xs => rfl

/-- A stream is one line that is not ended, or a line and a stream. -/
theorem line_induction (sep : α) {P : List α → Prop} (last : ∀ s, sep ∉ s → P s)
    (line : ∀ l s, sep ∉ l → P s → P (l ++ sep :: s)) (s : List α) : P s := by
  induction hn : s.length using Nat.strongRecOn generalizing s with
  | ind n ih =>
    by_cases hs : sep ∈ s
    · obtain ⟨l, t, rfl, hl⟩ := List.eq_append_cons_of_mem hs
      refine line l t hl (ih t.length ?_ t rfl)
      rw [List.length_append, List.length_cons] at hn
      omega
    · exact last s hs

theorem notMem_unended (s : List α) : sep ∉ unended sep s := by
  induction s using line_induction sep with
  | last s h => rwa [unended_of_notMem h]
  | line l s h ih => rwa [unended_line h]

/-- The lines end where the next stream goes on. -/
theorem lines_append (s t : List α) :
    lines sep (s ++ t) = lines sep s ++ lines sep (unended sep s ++ t) := by
  induction s using line_induction sep with
  | last s h => rw [lines_of_notMem h, unended_of_notMem h, List.nil_append]
  | line l s h ih =>
    rw [List.append_assoc, List.cons_append, lines_line h, lines_line h, unended_line h, ih,
      List.cons_append]

theorem ended_lines (sep : α) (s : List α) : ended sep (lines sep s) ++ unended sep s = s := by
  unfold ended
  induction s using line_induction sep with
  | last s h => rw [lines_of_notMem h, unended_of_notMem h, List.map_nil, List.flatten_nil,
      List.nil_append]
  | line l s h ih => rw [lines_line h, unended_line h, List.map_cons, List.flatten_cons,
      List.append_assoc, ih, List.append_assoc, List.singleton_append]

theorem lines_ended {ls : List (List α)} (h : ∀ l ∈ ls, sep ∉ l) : lines sep (ended sep ls) = ls := by
  unfold ended
  induction ls with
  | nil => exact lines_of_notMem (List.not_mem_nil)
  | cons l ls ih =>
    rw [List.map_cons, List.flatten_cons, List.append_assoc, List.singleton_append,
      lines_line (h l List.mem_cons_self), ih fun m hm => h m (List.mem_cons_of_mem _ hm)]

theorem length_ended_lines (sep : α) (s : List α) :
    (ended sep (lines sep s)).length + (unended sep s).length = s.length := by
  rw [← List.length_append, ended_lines]

theorem unended_length_lt (h : sep ∈ s) : (unended sep s).length < s.length := by
  obtain ⟨l, t, rfl, hl⟩ := List.eq_append_cons_of_mem h
  have := length_ended_lines sep t
  rw [unended_line hl, List.length_append, List.length_cons]
  omega

end StreamLines
