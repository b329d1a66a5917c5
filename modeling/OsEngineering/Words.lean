import Mathlib.Data.List.TakeWhile

/-! The words of a list: its longest runs of elements that do not separate. -/
namespace Words

variable {α : Type*} (sep : α → Bool)

def words (xs : List α) : List (List α) := (xs.splitOnP sep).filter fun w => !w.isEmpty

variable {sep} {c : α} {w xs : List α}

@[simp] theorem words_nil : words sep [] = [] := by simp [words]

theorem words_sep (hc : sep c) (xs : List α) : words sep (c :: xs) = words sep xs := by
  have hnone : ∀ c ∈ ([] : List α), sep c = false := by simp
  have hsplit : (c :: xs).splitOnP sep = [] :: xs.splitOnP sep := by
    simpa using List.splitOnP_append_cons_of_forall_mem hnone c hc xs
  simp [words, hsplit]

theorem words_dropWhile (sep : α → Bool) (xs : List α) :
    words sep (xs.dropWhile sep) = words sep xs := by
  induction xs with
  | nil => simp
  | cons c xs ih =>
    by_cases hc : sep c
    · simpa [hc, words_sep hc] using ih
    · simp [hc]

/-- A word ends at a separator or at the end. -/
theorem words_word (hw : w ≠ []) (hplain : ∀ c ∈ w, sep c = false)
    (hxs : ∀ c ∈ xs.head?, sep c = true) : words sep (w ++ xs) = w :: words sep xs := by
  cases xs with
  | nil =>
    have hsplit : w.splitOnP sep = [w] := List.splitOnP_eq_singleton hplain
    simp [words, hsplit, hw]
  | cons c xs =>
    have hc := hxs c (by simp)
    have hsplit : (w ++ c :: xs).splitOnP sep = w :: xs.splitOnP sep :=
      List.splitOnP_append_cons_of_forall_mem hplain c hc xs
    have hrest : words sep (c :: xs) = words sep xs := words_sep hc xs
    simp only [hrest]
    simp [words, hsplit, hw]

theorem head_dropWhile (p : α → Bool) (xs : List α) :
    ∀ c ∈ (xs.dropWhile p).head?, p c = false := by
  intro c hc
  have hnot := List.head?_dropWhile_not p xs
  simp_all

/-- What comes before the first separator is the first word. -/
theorem words_cons (hc : sep c = false) (xs : List α) :
    words sep (c :: xs) = ((c :: xs).takeWhile fun d => !sep d) ::
      words sep ((c :: xs).dropWhile fun d => !sep d) := by
  have hne : ((c :: xs).takeWhile fun d => !sep d) ≠ [] := by simp [hc]
  have hplain : ∀ d ∈ (c :: xs).takeWhile fun d => !sep d, sep d = false := by
    intro d hd
    simpa using List.mem_takeWhile_imp hd
  have hend : ∀ d ∈ ((c :: xs).dropWhile fun d => !sep d).head?, sep d = true := by
    intro d hd
    simpa using head_dropWhile (fun d => !sep d) (c :: xs) d hd
  have hword := words_word hne hplain hend
  simpa only [List.takeWhile_append_dropWhile] using hword

end Words
