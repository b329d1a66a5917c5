import Mathlib.Data.Nat.Notation

/-! Programs as trees: the next operation, and how the program goes on with each answer. What
the operations may be used for is a discipline on what the program knows. -/
namespace OperationTrees

inductive Tree {Op : Type} (Answer : Op → Type) (α : Type) where
  | done (a : α)
  | step (o : Op) (k : Answer o → Tree Answer α)

variable {Op : Type} {Answer : Op → Type} {α β : Type}

def Tree.bind : Tree Answer α → (α → Tree Answer β) → Tree Answer β
  | .done a, f => f a
  | .step o k, f => .step o fun r => (k r).bind f

instance : Monad (Tree Answer) where
  pure := .done
  bind := Tree.bind

/-- The operation alone. -/
def op (o : Op) : Tree Answer (Answer o) := .step o .done

/-- `need`: the operation is allowed; `after`: what may be known after it. -/
structure Discipline {Op : Type} (Answer : Op → Type) (κ : Type) where
  need : κ → Op → Prop
  after : κ → (o : Op) → Answer o → κ → Prop

variable {κ : Type}

/-- The tree keeps to the discipline from `l` on, and `Q` holds where it ends. -/
def wp (D : Discipline Answer κ) : Tree Answer α → (α → κ → Prop) → κ → Prop
  | .done a, Q, l => Q a l
  | .step o k, Q, l => D.need l o ∧ ∀ r m, D.after l o r m → wp D (k r) Q m

variable {D : Discipline Answer κ} {Q R : α → κ → Prop} {l : κ}

theorem wp_pure {a : α} (h : Q a l) : wp D (pure a) Q l := h

theorem wp_mono {c : Tree Answer α} (h : wp D c Q l) (hQ : ∀ a m, Q a m → R a m) :
    wp D c R l := by
  induction c generalizing l with
  | done a => exact hQ a l h
  | step o k ih => exact ⟨h.1, fun r m hr => ih r (h.2 r m hr)⟩

theorem wp_bind {c : Tree Answer α} {f : α → Tree Answer β} {Q : β → κ → Prop}
    (h : wp D c (fun a m => wp D (f a) Q m) l) : wp D (c >>= f) Q l := by
  induction c generalizing l with
  | done a => exact h
  | step o k ih => exact ⟨h.1, fun r m hr => ih r (h.2 r m hr)⟩

theorem wp_op {o : Op} {Q : Answer o → κ → Prop} (hn : D.need l o)
    (h : ∀ r m, D.after l o r m → Q r m) : wp D (op o) Q l := ⟨hn, h⟩

/-- The tree keeps to the discipline wherever `P` is known, and changes nothing in that. -/
def Keeps (D : Discipline Answer κ) (P : κ → Prop) (c : Tree Answer α) : Prop :=
  ∀ l, P l → wp D c (fun _ m => m = l) l

variable {P P' : κ → Prop} {c : Tree Answer α} {f : α → Tree Answer β}

theorem keeps_pure (a : α) : Keeps D P (pure a) := fun _ _ => rfl

theorem keeps_bind (h : Keeps D P c) (hf : ∀ a, Keeps D P (f a)) : Keeps D P (c >>= f) := by
  intro l hl
  refine wp_bind (wp_mono (h l hl) ?_)
  rintro a m rfl
  exact hf a m hl

theorem keeps_op {o : Op} (hn : ∀ l, P l → D.need l o)
    (h : ∀ l, P l → ∀ r m, D.after l o r m → m = l) : Keeps D P (op o : Tree Answer (Answer o)) :=
  fun l hl => ⟨hn l hl, h l hl⟩

theorem keeps_ite {p : Prop} [Decidable p] {d : Tree Answer α} (hc : Keeps D P c)
    (hd : Keeps D P d) : Keeps D P (if p then c else d) := by
  split
  · exact hc
  · exact hd

theorem Keeps.imp (h : Keeps D P c) (hP : ∀ l, P' l → P l) : Keeps D P' c :=
  fun l hl => h l (hP l hl)

/-- A piece that changes nothing, and then the rest. -/
theorem Keeps.then {Q : β → κ → Prop} (h : Keeps D P c) (hl : P l)
    (hf : ∀ a, wp D (f a) Q l) : wp D (c >>= f) Q l := by
  refine wp_bind (wp_mono (h l hl) ?_)
  rintro a m rfl
  exact hf a

end OperationTrees
