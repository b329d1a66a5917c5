import Mathlib.Data.List.Infix

/-! Programs that read a stream in pieces of any size and write another one. -/
namespace StreamFilters

/-- `feed` gives the writes after a piece of at most `size` elements, and `finish` those at the end.
The writes depend on the pieces, what they write does not. -/
structure StreamFilter (α : Type) where
  Vars : Type
  init : Vars
  size : ℕ
  feed : Vars → List α → Vars × List (List α)
  finish : Vars → List (List α)
  size_pos : 0 < size
  feed_nil : ∀ v, feed v [] = (v, [])
  feed_vars : ∀ v xs ys, (feed v (xs ++ ys)).1 = (feed (feed v xs).1 ys).1
  feed_writes : ∀ v xs ys, (feed v (xs ++ ys)).2.flatten =
    (feed v xs).2.flatten ++ (feed (feed v xs).1 ys).2.flatten
  feed_ne_nil : ∀ v xs, [] ∉ (feed v xs).2
  finish_ne_nil : ∀ v, [] ∉ finish v

variable {α : Type}

namespace StreamFilter

variable (f : StreamFilter α)

def after (xs : List α) : f.Vars := (f.feed f.init xs).1

/-- What is written before the end of the stream is seen. -/
def early (xs : List α) : List α := (f.feed f.init xs).2.flatten

def written (xs : List α) : List α := f.early xs ++ (f.finish (f.after xs)).flatten

@[simp] theorem after_nil : f.after [] = f.init := by simp [after, f.feed_nil]

@[simp] theorem early_nil : f.early [] = [] := by simp [early, f.feed_nil]

theorem after_append (xs ys : List α) : f.after (xs ++ ys) = (f.feed (f.after xs) ys).1 :=
  f.feed_vars f.init xs ys

theorem early_append (xs ys : List α) :
    f.early (xs ++ ys) = f.early xs ++ (f.feed (f.after xs) ys).2.flatten :=
  f.feed_writes f.init xs ys

theorem early_starts {xs ys : List α} (h : xs <+: ys) : f.early xs <+: f.early ys := by
  obtain ⟨zs, rfl⟩ := h
  rw [f.early_append]
  exact List.prefix_append _ _

theorem early_starts_written {xs ys : List α} (h : xs <+: ys) : f.early xs <+: f.written ys :=
  (f.early_starts h).trans (List.prefix_append _ _)

end StreamFilter

/-- The streams of a row of filters, each of which reads what the one before it writes. -/
def stream (program : ℕ → StreamFilter α) (xs : List α) : ℕ → List α
  | 0 => xs
  | i + 1 => (program i).written (stream program xs i)

end StreamFilters
