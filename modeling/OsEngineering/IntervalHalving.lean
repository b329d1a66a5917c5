import Mathlib.Logic.Relation
import Mathlib.Data.Int.Order.Basic

/-! Halving an interval of indices of which only some count. An index is tried when it is the
last one up to the middle that counts; the search goes on below the index tried or above the
middle. -/
namespace IntervalHalving

open Relation

/-- `m` is the index that is tried in [l, r]. -/
structure Probe (P : ℤ → Prop) (l r m : ℤ) : Prop where
  low : l ≤ m
  half : m ≤ (l + r) / 2
  counts : P m
  last : ∀ i, m < i → i ≤ (l + r) / 2 → ¬ P i

inductive Part (P : ℤ → Prop) : ℤ × ℤ → ℤ × ℤ → Prop where
  | skip {l r : ℤ} : l ≤ r → (∀ i, l ≤ i → i ≤ (l + r) / 2 → ¬ P i) →
      Part P (l, r) ((l + r) / 2 + 1, r)
  | lower {l r m : ℤ} : l ≤ r → Probe P l r m → Part P (l, r) (l, m - 1)
  | upper {l r m : ℤ} : l ≤ r → Probe P l r m → Part P (l, r) ((l + r) / 2 + 1, r)

/-- The second interval is one of those that halving the first can lead to. -/
def Halves (P : ℤ → Prop) : ℤ × ℤ → ℤ × ℤ → Prop := ReflTransGen (Part P)

def Has (p : ℤ × ℤ) (i : ℤ) : Prop := p.1 ≤ i ∧ i ≤ p.2

variable {P : ℤ → Prop} {l r m k i : ℤ} {p q a b : ℤ × ℤ}

theorem Probe.unique (h : Probe P l r m) (h' : Probe P l r k) : m = k := by
  have h₁ : ¬ m < k := fun hlt => h.last k hlt h'.half h'.counts
  have h₂ : ¬ k < m := fun hlt => h'.last m hlt h.half h.counts
  omega

theorem Probe.high (h : Probe P l r m) (hlr : l ≤ r) : m ≤ r := by
  have := h.half
  omega

theorem Part.within (h : Part P p q) (hi : Has q i) : Has p i := by
  unfold Has at *
  cases h with
  | skip hlr _ => dsimp only at *; omega
  | lower hlr hm =>
    have := hm.high hlr
    dsimp only at *
    omega
  | upper hlr hm => dsimp only at *; omega

theorem Halves.within (h : Halves P p q) (hi : Has q i) : Has p i := by
  induction h with
  | refl => exact hi
  | tail _ hstep ih => exact ih (hstep.within hi)

/-- Only one half of an interval holds a given index. -/
theorem Part.unique (h : Part P p a) (h' : Part P p b) (ha : Has a i) (hb : Has b i) : a = b := by
  unfold Has at *
  cases h with
  | skip hlr hno =>
    cases h' with
    | skip => rfl
    | lower _ hm => exact absurd hm.counts (hno _ hm.low hm.half)
    | upper => rfl
  | lower hlr hm =>
    cases h' with
    | skip _ hno => exact absurd hm.counts (hno _ hm.low hm.half)
    | lower _ hk => rw [hm.unique hk]
    | upper _ hk =>
      have := hm.half
      dsimp only at *
      omega
  | upper hlr hm =>
    cases h' with
    | skip => rfl
    | lower _ hk =>
      have := hk.half
      dsimp only at *
      omega
    | upper => rfl

theorem Part.probe (h : Part P p q) (hm : Probe P p.1 p.2 m) : ¬ Has q m := by
  unfold Has
  intro hin
  cases h with
  | skip _ hno => exact hno _ hm.low hm.half hm.counts
  | lower _ hk =>
    have := hm.unique hk
    dsimp only at *
    omega
  | upper _ _ =>
    have := hm.half
    dsimp only at *
    omega

/-- Of two intervals with a common index one comes from the other. -/
theorem Halves.chain (ha : Halves P p a) (hb : Halves P p b) (hia : Has a i) (hib : Has b i) :
    Halves P a b ∨ Halves P b a := by
  induction ha with
  | refl => exact Or.inl hb
  | tail _ hstep ih =>
    obtain hfrom | hto := ih (hstep.within hia)
    · obtain rfl | ⟨c, hc, hrest⟩ := hfrom.cases_head
      · exact Or.inr (ReflTransGen.single hstep)
      · rw [hstep.unique hc hia (Halves.within hrest hib)]
        exact Or.inl hrest
    · exact Or.inr (hto.tail hstep)

theorem Halves.probe (h : Halves P a b) (hm : Probe P a.1 a.2 m) (hin : Has b m) : a = b := by
  obtain rfl | ⟨c, hc, hrest⟩ := h.cases_head
  · rfl
  · exact absurd (Halves.within hrest hin) (hc.probe hm)

/-- Two intervals in which each other's index is tried are one. -/
theorem Halves.eq_of_probes (ha : Halves P p a) (hb : Halves P p b)
    (hm : Probe P a.1 a.2 m) (hk : Probe P b.1 b.2 k)
    (hbm : Has b m) (ham : Has a m) (hak : Has a k) : a = b := by
  obtain h | h := Halves.chain ha hb ham hbm
  · exact h.probe hm hbm
  · exact (h.probe hk hak).symm

/-- Of the indices with `V` in the interval `a`, halving it tries `m` first, in `p`. -/
structure FirstTried (P V : ℤ → Prop) (a p : ℤ × ℤ) (m : ℤ) : Prop where
  halves : Halves P a p
  probe : Probe P p.1 p.2 m
  inside : Has p m
  holds : V m
  all : ∀ i, Has a i → P i → V i → Has p i

theorem FirstTried.unique {V : ℤ → Prop} (h : FirstTried P V a p m) (h' : FirstTried P V a q k) :
    p = q ∧ m = k := by
  have hm : Has q m := h'.all m (h.halves.within h.inside) h.probe.counts h.holds
  have hk : Has p k := h.all k (h'.halves.within h'.inside) h'.probe.counts h'.holds
  obtain rfl := h.halves.eq_of_probes h'.halves h.probe h'.probe hm h.inside hk
  exact ⟨rfl, h.probe.unique h'.probe⟩

end IntervalHalving
