import Mathlib.Algebra.Order.Group.Nat
import Mathlib.Logic.Function.Basic

/-! A screen as a window on an endless sheet of rows. What is typed goes to the sheet at a
cursor; the screen shows the last rows, and moves on by a row when the cursor leaves it. -/
namespace EndlessSheet

variable {α : Type*} {rows cols : ℕ} {blank : α}

/-- The first `top` rows have gone off the screen. -/
structure Sheet (α : Type*) where
  cell : ℕ → α
  cursor : ℕ
  top : ℕ

namespace Sheet

def write (s : Sheet α) (x : α) : Sheet α :=
  { s with cell := Function.update s.cell s.cursor x }

def type (s : Sheet α) (x : α) : Sheet α := { s.write x with cursor := s.cursor + 1 }

def newline (cols : ℕ) (s : Sheet α) : Sheet α :=
  { s with cursor := (s.cursor / cols + 1) * cols }

/-- To the start of the row. -/
def home (cols : ℕ) (s : Sheet α) : Sheet α := { s with cursor := s.cursor / cols * cols }

/-- The rows that have gone are out of reach. -/
def back (cols : ℕ) (s : Sheet α) : Sheet α :=
  if s.top * cols < s.cursor then { s with cursor := s.cursor - 1 } else s

def feed (rows cols : ℕ) (s : Sheet α) : Sheet α :=
  if (s.top + rows) * cols ≤ s.cursor then { s with top := s.top + 1 } else s

end Sheet

/-- The screen `crt`, with its cursor at `pos`, shows the rows from `top` on. What lies below
them is still blank. -/
structure Shows (rows cols : ℕ) (blank : α) (s : Sheet α) (crt : ℕ → α) (pos : ℕ) : Prop where
  cells : ∀ i < rows * cols, crt i = s.cell (s.top * cols + i)
  cursor : s.cursor = s.top * cols + pos
  fresh : ∀ i, (s.top + rows) * cols ≤ i → s.cell i = blank

variable {s : Sheet α} {crt crt' : ℕ → α} {pos : ℕ}

theorem Shows.write (h : Shows rows cols blank s crt pos) (hpos : pos < rows * cols) (x : α) :
    Shows rows cols blank (s.write x) (Function.update crt pos x) pos where
  cells := by
    intro i hi
    rcases eq_or_ne i pos with rfl | hne
    · simp [Sheet.write, h.cursor]
    · have hcell : s.top * cols + i ≠ s.cursor := by
        rw [h.cursor]
        omega
      simp [Sheet.write, hne, hcell, h.cells i hi]
  cursor := h.cursor
  fresh := by
    intro i hi
    simp only [Sheet.write] at hi
    have hend : (s.top + rows) * cols = s.top * cols + rows * cols := Nat.add_mul ..
    have hcursor := h.cursor
    have hcell : i ≠ s.cursor := by omega
    simpa [Sheet.write, hcell] using h.fresh i hi

/-- The cursor goes elsewhere. -/
theorem Shows.move (h : Shows rows cols blank s crt pos) {n m : ℕ} (hn : n = s.top * cols + m) :
    Shows rows cols blank { s with cursor := n } crt m :=
  ⟨h.cells, hn, h.fresh⟩

theorem Shows.type (h : Shows rows cols blank s crt pos) (hpos : pos < rows * cols) (x : α) :
    Shows rows cols blank (s.type x) (Function.update crt pos x) (pos + 1) := by
  apply (h.write hpos x).move
  simp [Sheet.write, h.cursor, Nat.add_assoc]

theorem Shows.div (h : Shows rows cols blank s crt pos) (hc : 0 < cols) :
    s.cursor / cols = s.top + pos / cols := by
  rw [h.cursor, Nat.mul_comm, Nat.mul_add_div hc]

theorem Shows.newline (h : Shows rows cols blank s crt pos) (hc : 0 < cols) :
    Shows rows cols blank (s.newline cols) crt ((pos / cols + 1) * cols) := by
  apply h.move
  rw [h.div hc, Nat.add_assoc, Nat.add_mul]

theorem Shows.home (h : Shows rows cols blank s crt pos) (hc : 0 < cols) :
    Shows rows cols blank (s.home cols) crt (pos / cols * cols) := by
  apply h.move
  rw [h.div hc, Nat.add_mul]

theorem Shows.back (h : Shows rows cols blank s crt pos) :
    Shows rows cols blank (s.back cols) crt (pos - 1) := by
  have hcursor := h.cursor
  simp only [Sheet.back]
  split
  · apply h.move
    omega
  · next hzero =>
    have : pos - 1 = pos := by omega
    rwa [this]

/-- The screen scrolls: its rows go up by one, and the last one is blank. -/
theorem Shows.feed (h : Shows rows cols blank s crt pos) (hr : 0 < rows)
    (hfull : rows * cols ≤ pos) (hup : ∀ i < (rows - 1) * cols, crt' i = crt (i + cols))
    (hnew : ∀ i, (rows - 1) * cols ≤ i → i < rows * cols → crt' i = blank) :
    Shows rows cols blank (s.feed rows cols) crt' (pos - cols) := by
  obtain ⟨n, rfl⟩ : ∃ n, rows = n + 1 := ⟨rows - 1, by omega⟩
  have hcursor := h.cursor
  have hlen : (n + 1) * cols = n * cols + cols := Nat.succ_mul n cols
  have htop : (s.top + 1) * cols = s.top * cols + cols := Nat.succ_mul s.top cols
  have hend : (s.top + (n + 1)) * cols = s.top * cols + (n + 1) * cols := Nat.add_mul ..
  have hgone : (s.top + (n + 1)) * cols ≤ s.cursor := by omega
  simp only [Sheet.feed, if_pos hgone, Nat.add_sub_cancel] at hup hnew ⊢
  constructor
  · intro i hi
    by_cases hlast : i < n * cols
    · have hcell : s.top * cols + (i + cols) = (s.top + 1) * cols + i := by omega
      rw [hup i hlast, h.cells (i + cols) (by omega), hcell]
    · have hbelow : (s.top + (n + 1)) * cols ≤ (s.top + 1) * cols + i := by omega
      rw [hnew i (by omega) hi, h.fresh _ hbelow]
  · simp only
    omega
  · intro i hi
    apply h.fresh
    have hmore : (s.top + 1 + (n + 1)) * cols = (s.top + (n + 1)) * cols + cols := by
      rw [Nat.add_right_comm, Nat.succ_mul]
    simp only at hi
    omega

theorem Shows.feed_of_lt (h : Shows rows cols blank s crt pos) (hpos : pos < rows * cols) :
    s.feed rows cols = s := by
  have hend : (s.top + rows) * cols = s.top * cols + rows * cols := Nat.add_mul ..
  have hcursor := h.cursor
  simp only [Sheet.feed]
  rw [if_neg (by omega)]

/-- A screen on its own is the first rows of a sheet. -/
def sheetOf (rows cols : ℕ) (blank : α) (crt : ℕ → α) (pos : ℕ) : Sheet α where
  cell i := if i < rows * cols then crt i else blank
  cursor := pos
  top := 0

theorem shows_sheetOf (rows cols : ℕ) (blank : α) (crt : ℕ → α) (pos : ℕ) :
    Shows rows cols blank (sheetOf rows cols blank crt pos) crt pos where
  cells i hi := by simp [sheetOf, hi]
  cursor := by simp [sheetOf]
  fresh i hi := by
    simp only [sheetOf, Nat.zero_add] at hi ⊢
    rw [if_neg (by omega)]

end EndlessSheet
