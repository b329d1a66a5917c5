import Mathlib.Logic.Function.Basic
import Mathlib.Order.Basic

/-! Cells of a memory that get new values, and such that take the values which other cells had
before. The cells are numbered: `dst k` is to get `val k`, or what was in `src k`. -/
namespace MemoryMoves

variable {A α : Type*} (dst src : ℕ → A) (val : ℕ → α)

/-- The cells with a number in `I` have got their values, and no other cell has changed. -/
structure Written (I : ℕ → Prop) (m m' : A → α) : Prop where
  inside : ∀ k, I k → m' (dst k) = val k
  outside : ∀ a, (∀ k, I k → a ≠ dst k) → m' a = m a

/-- The values are those of other cells. -/
abbrev Moved (I : ℕ → Prop) (m m' : A → α) : Prop := Written dst (fun k => m (src k)) I m m'

variable {dst src val} {I J : ℕ → Prop} {m m₁ m₂ : A → α}

theorem Written.refl (h : ∀ k, ¬ I k) (m : A → α) : Written dst val I m m :=
  ⟨fun k hk => absurd hk (h k), fun _ _ => rfl⟩

theorem Written.unique (h : Written dst val I m m₁) (g : Written dst val I m m₂) : m₁ = m₂ := by
  funext a
  by_cases ha : ∃ k, I k ∧ a = dst k
  · obtain ⟨k, hk, rfl⟩ := ha
    rw [h.inside k hk, g.inside k hk]
  · have hne : ∀ k, I k → a ≠ dst k := fun k hk heq => ha ⟨k, hk, heq⟩
    rw [h.outside a hne, g.outside a hne]

theorem Written.union (h : Written dst val I m m₁) (g : Written dst val J m₁ m₂)
    (hdst : ∀ i j, I i → J j → dst i ≠ dst j) : Written dst val (fun k => I k ∨ J k) m m₂ where
  inside := by
    rintro k (hk | hk)
    · rw [g.outside (dst k) fun j hj => hdst k j hk hj, h.inside k hk]
    · exact g.inside k hk
  outside := by
    intro a ha
    rw [g.outside a fun j hj => ha j (Or.inr hj), h.outside a fun i hi => ha i (Or.inl hi)]

theorem Written.congr (h : Written dst val I m m₁) (hij : ∀ k, I k ↔ J k) :
    Written dst val J m m₁ :=
  ⟨fun k hk => h.inside k ((hij k).mpr hk),
    fun a ha => h.outside a fun k hk => ha k ((hij k).mp hk)⟩

theorem Written.congr_val {val' : ℕ → α} (h : Written dst val I m m₁)
    (hval : ∀ k, I k → val k = val' k) : Written dst val' I m m₁ :=
  ⟨fun k hk => (h.inside k hk).trans (hval k hk), h.outside⟩

/-- The second part reads nothing that the first has written. -/
theorem moved_union (h : Moved dst src I m m₁) (g : Moved dst src J m₁ m₂)
    (hsrc : ∀ i j, I i → J j → src j ≠ dst i) (hdst : ∀ i j, I i → J j → dst i ≠ dst j) :
    Moved dst src (fun k => I k ∨ J k) m m₂ :=
  h.union (g.congr_val fun j hj => h.outside (src j) fun i hi => hsrc i j hi hj) hdst

variable [DecidableEq A]

/-- One cell. -/
theorem written_update (m : A → α) (k : ℕ) :
    Written dst val (fun j => j = k) m (Function.update m (dst k) (val k)) where
  inside := by
    rintro j rfl
    exact Function.update_self ..
  outside := by
    intro a ha
    exact Function.update_of_ne (ha k rfl) ..

end MemoryMoves
