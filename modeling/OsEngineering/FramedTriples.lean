import OsEngineering.FaultState
import Mathlib.Algebra.Group.Basic

/-! Sequential code that holds resources for a time: a run that ends turns what the code held
before into what it holds after, whatever else is held. -/
namespace FramedTriples

open FaultState

variable {ε σ α β A : Type} [AddCommMonoid A]

/-- `I a s`: the books of `s` balance when `a` is held outside of them. -/
def Triple (I : A → σ → Prop) (a : A) (c : Code ε σ α) (b : α → A) : Prop :=
  ∀ x s r t, I (a + x) s → c s = .ok (r, t) → I (b r + x) t

variable {I : A → σ → Prop} {a a' b : A} {c : Code ε σ α} {d e : α → A}

theorem triple_pure {r : α} (h : d r = a) : Triple I a (pure r : Code ε σ α) d := by
  intro x s r' t hi hrun
  obtain ⟨rfl, rfl⟩ := pure_ok hrun
  rw [h]
  exact hi

theorem triple_throw (f : ε) : Triple I a (throw f : Code ε σ α) d := by
  intro x s r t _ hrun
  exact (throw_ok hrun).elim

theorem triple_frame (h : Triple I a c d) (y : A) : Triple I (a + y) c fun r => d r + y := by
  intro x s r t hi hrun
  rw [add_assoc] at hi ⊢
  exact h (y + x) s r t hi hrun

theorem triple_bind {f : α → Code ε σ β} {g : β → A} (hc : Triple I a c d)
    (hf : ∀ r, Triple I (d r) (f r) g) : Triple I a (c >>= f) g := by
  intro x s r t hi hrun
  obtain ⟨m, u, hm, hr⟩ := bind_ok hrun
  exact hf m x u r t (hc x s m u hi hm) hr

/-- The first piece of code takes something. -/
theorem triple_take {f : α → Code ε σ β} {g : β → A} (hc : Triple I 0 c d)
    (hf : ∀ r, Triple I (d r + a) (f r) g) : Triple I a (c >>= f) g := by
  have hframe := triple_frame hc a
  rw [zero_add] at hframe
  exact triple_bind hframe hf

theorem triple_keep {f : α → Code ε σ β} {g : β → A} (hc : Triple I 0 c fun _ => 0)
    (hf : ∀ r, Triple I a (f r) g) : Triple I a (c >>= f) g := by
  apply triple_take hc
  intro r
  rw [zero_add]
  exact hf r

/-- The first piece of code gives something back. -/
theorem triple_give {f : α → Code ε σ β} {g : β → A} (ha : a = b + a')
    (hc : Triple I b c fun _ => 0) (hf : ∀ r, Triple I a' (f r) g) :
    Triple I a (c >>= f) g := by
  rw [ha]
  apply triple_bind (triple_frame hc a')
  intro r
  rw [zero_add]
  exact hf r

theorem triple_return {r : α} {f : α → Code ε σ β} {g : β → A} (hf : Triple I a (f r) g) :
    Triple I a (pure r >>= f) g := by
  intro x s r' t hi hrun
  rw [run_bind (pure_run r s)] at hrun
  exact hf x s r' t hi hrun

theorem triple_get {f : σ → Code ε σ β} {g : β → A} (hf : ∀ s, Triple I a (f s) g) :
    Triple I a (get >>= f) g := by
  intro x s r t hi hrun
  rw [run_bind (get_run s)] at hrun
  exact hf s x s r t hi hrun

theorem triple_modify {m : σ → σ} (h : ∀ x s, I (a + x) s → I (b + x) (m s)) :
    Triple I a (modify m : Code ε σ PUnit) fun _ => b := by
  intro x s r t hi hrun
  rw [modify_run] at hrun
  cases hrun
  exact h x s hi

theorem triple_ite {p : Prop} [Decidable p] {c' : Code ε σ α} (hp : p → Triple I a c d)
    (hn : ¬ p → Triple I a c' d) : Triple I a (if p then c else c') d := by
  by_cases h : p
  · rw [if_pos h]
    exact hp h
  · rw [if_neg h]
    exact hn h

end FramedTriples
