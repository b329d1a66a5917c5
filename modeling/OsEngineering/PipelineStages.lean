import OsEngineering.PipelineSections
import Mathlib.Algebra.Order.BigOperators.Group.Finset

/-! Each program of a pipeline has written what its filter makes of what it has read. A step of one
of them leaves this so for the others. -/
namespace Pipelines

open ByteBlock TransitionSystem Pipes PipeStream StreamFilters

variable {program : ℕ → StreamFilter Byte} {file : List Byte} {n i k : ℕ} {s s' : State program}

/-- read() has returned 0. -/
def Mode.seenEnd : Mode → Bool
  | .writing _ _ true | .exiting | .leaving | .exited => true
  | _ => false

/-- How far a program is that has read the same bytes and written the same bytes. -/
def Mode.rank : Mode → ℕ
  | .writing _ _ true => 3
  | .exiting => 5
  | .leaving => 6
  | .exited => 7
  | _ => 0

namespace State

/-- What program `i` has read. -/
def took (file : List Byte) (s : State program) : ℕ → List Byte
  | 0 => file.take s.off
  | k + 1 => (s.pipe k).taken

/-- What program `i` has written. -/
def gave (n : ℕ) (s : State program) (i : ℕ) : List Byte :=
  if i + 1 = n then s.output else (s.pipe i).stored

theorem gave_last (s : State program) (h : i + 1 = n) : s.gave n i = s.output := if_pos h

theorem gave_pipe (s : State program) (h : ¬i + 1 = n) : s.gave n i = (s.pipe i).stored := if_neg h

/-- Program `i` has slept in the call it is in. -/
def inCall (n : ℕ) (s : State program) (i : ℕ) : Bool :=
  !(s.inputPhase i).isIdle || !(s.outputPhase n i).isIdle

/-- A number that grows with each step of program `i`. -/
def weight (file : List Byte) (n : ℕ) (s : State program) (i : ℕ) : ℕ :=
  3 * ((s.took file i).length + (s.gave n i).length) + (s.mode i).rank + (s.inCall n i).toNat

end State

/-- A filter that has read `took` of `whole` and has written `gave`; of its write() it has stored
`j` bytes. -/
def Follows (f : StreamFilter Byte) (whole took gave : List Byte) (v : f.Vars) (j : ℕ) : Mode → Prop
  | .reading => v = f.after took ∧ gave = f.early took
  | .writing call later eof => [] ∉ call :: later ∧ v = f.after took ∧ (eof = true → took = whole) ∧
    gave ++ (call.drop j ++ later.flatten) = if eof then f.written took else f.early took
  | .exiting | .leaving | .exited => took = whole ∧ gave = f.written took
  | .failed => False

structure Inv (file : List Byte) (n : ℕ) (s : State program) : Prop where
  off : s.off ≤ file.length
  sound : ∀ k, k + 1 < n → Sound (s.pipe k)
  reads : ∀ k, k + 1 < n → Reads (s.pipe k) (s.mode (k + 1)) (program (k + 1)).size
  writes : ∀ k, k + 1 < n → Writes (s.pipe k) (s.mode k)
  follows : ∀ i < n, Follows (program i) (stream program file i) (s.took file i) (s.gave n i)
    (s.vars i) (counter (s.outputPhase n i)) (s.mode i)
  order : ∀ k, k + 1 < n → (s.mode (k + 1)).seenEnd = true → s.mode k = .exited

/-- A step of program `i` from `s` to `s'`. -/
structure Local (file : List Byte) (n : ℕ) (s : State program) (i : ℕ) (s' : State program) :
    Prop where
  off : s'.off ≤ file.length
  rest : i ≠ 0 → s'.off = s.off
  console : i + 1 ≠ n → s'.output = s.output
  mode : ∀ j, j ≠ i → s'.mode j = s.mode j
  vars : ∀ j, j ≠ i → s'.vars j = s.vars j
  pipe : ∀ j, j ≠ i → j + 1 ≠ i → s'.pipe j = s.pipe j
  reads : ∀ k, k + 1 = i → Sound (s'.pipe k) ∧ Reads (s'.pipe k) (s'.mode i) (program i).size
  writes : i + 1 < n → Sound (s'.pipe i) ∧ Writes (s'.pipe i) (s'.mode i)
  before : ∀ k, k + 1 = i → Writes (s'.pipe k) (s.mode k) ∧
    (s'.pipe k).stored = (s.pipe k).stored ∧
    counter ((s'.pipe k).phase .writer) = counter ((s.pipe k).phase .writer) ∧
    ((s'.pipe k).phase .writer).isIdle = ((s.pipe k).phase .writer).isIdle
  behind : i + 1 < n → Reads (s'.pipe i) (s.mode (i + 1)) (program (i + 1)).size ∧
    (s'.pipe i).taken = (s.pipe i).taken ∧
    ((s'.pipe i).phase .reader).isIdle = ((s.pipe i).phase .reader).isIdle
  follows : Follows (program i) (stream program file i) (s'.took file i) (s'.gave n i)
    (s'.vars i) (counter (s'.outputPhase n i)) (s'.mode i)
  order : ∀ k, k + 1 = i → (s'.mode i).seenEnd = true → s.mode k = .exited
  weight : s.weight file n i < s'.weight file n i

/-- The other programs see nothing of a step but what is in the pipes. -/
theorem Local.others (h : Local file n s i s') {j : ℕ} (hj : j < n) (hne : j ≠ i) :
    s'.took file j = s.took file j ∧ s'.gave n j = s.gave n j ∧
    counter (s'.outputPhase n j) = counter (s.outputPhase n j) ∧ s'.inCall n j = s.inCall n j := by
  have hin : s'.took file j = s.took file j ∧
      (s'.inputPhase j).isIdle = (s.inputPhase j).isIdle := by
    cases j with
    | zero => simp [State.took, State.inputPhase, h.rest hne.symm]
    | succ k =>
      by_cases hki : k = i
      · obtain ⟨-, htaken, hidle⟩ := h.behind (by omega)
        simp [State.took, State.inputPhase, hki, htaken, hidle]
      · simp [State.took, State.inputPhase, h.pipe k hki (by omega)]
  have hout : s'.gave n j = s.gave n j ∧
      counter (s'.outputPhase n j) = counter (s.outputPhase n j) ∧
      (s'.outputPhase n j).isIdle = (s.outputPhase n j).isIdle := by
    by_cases hlast : j + 1 = n
    · simp [State.gave, State.outputPhase, hlast, h.console (by omega)]
    · by_cases hji : j + 1 = i
      · obtain ⟨-, hstored, hcounter, hidle⟩ := h.before j hji
        simp [State.gave, State.outputPhase, hlast, hstored, hcounter, hidle]
      · simp [State.gave, State.outputPhase, hlast, h.pipe j hne hji]
  refine ⟨hin.1, hout.1, hout.2.1, ?_⟩
  simp [State.inCall, hin.2, hout.2.2]

theorem Local.keeps (h : Local file n s i s') (hinv : Inv file n s)
    (halive : (s.mode i).alive = true) : Inv file n s' where
  off := h.off
  sound k hk := by
    by_cases hki : k = i
    · simpa [hki] using (h.writes (by omega)).1
    · by_cases hki' : k + 1 = i
      · exact (h.reads k hki').1
      · simpa [h.pipe k hki hki'] using hinv.sound k hk
  reads k hk := by
    by_cases hki' : k + 1 = i
    · subst hki'
      exact (h.reads k rfl).2
    · rw [h.mode (k + 1) hki']
      by_cases hki : k = i
      · subst hki
        exact (h.behind hk).1
      · simpa [h.pipe k hki hki'] using hinv.reads k hk
  writes k hk := by
    by_cases hki : k = i
    · subst hki
      exact (h.writes hk).2
    · rw [h.mode k hki]
      by_cases hki' : k + 1 = i
      · exact (h.before k hki').1
      · simpa [h.pipe k hki hki'] using hinv.writes k hk
  follows j hj := by
    by_cases hji : j = i
    · subst hji
      exact h.follows
    · obtain ⟨htook, hgave, hcounter, -⟩ := h.others hj hji
      simpa [htook, hgave, hcounter, h.mode j hji, h.vars j hji] using hinv.follows j hj
  order k hk hend := by
    by_cases hki' : k + 1 = i
    · have hmode := h.order k hki' (by simpa [hki'] using hend)
      simpa [h.mode k (by omega)] using hmode
    · rw [h.mode (k + 1) hki'] at hend
      have hexited := hinv.order k hk hend
      by_cases hki : k = i
      · subst hki
        simp [hexited, Mode.alive] at halive
      · simpa [h.mode k hki] using hexited

/-- Each step adds to the sum of the weights. -/
theorem Local.total (h : Local file n s i s') (hi : i < n) :
    (∑ j ∈ Finset.range n, s.weight file n j) < ∑ j ∈ Finset.range n, s'.weight file n j := by
  apply Finset.sum_lt_sum
  · intro j hj
    by_cases hji : j = i
    · simpa [hji] using h.weight.le
    · obtain ⟨htook, hgave, -, hcall⟩ := h.others (Finset.mem_range.mp hj) hji
      simp [State.weight, htook, hgave, hcall, h.mode j hji]
  · exact ⟨i, Finset.mem_range.mpr hi, h.weight⟩

end Pipelines
