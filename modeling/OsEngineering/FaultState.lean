import Mathlib.Data.List.Basic

/-! Sequential code over a state `σ` that may stop with a fault `ε`. Runs are taken apart by
inversion; triples say what a run that faults may fault with. -/
namespace FaultState

abbrev Code (ε σ α : Type) := StateT σ (Except ε) α

variable {ε σ α β : Type}

theorem pure_ok {a b : α} {s t : σ} (h : (pure a : Code ε σ α) s = .ok (b, t)) :
    b = a ∧ t = s := by
  cases h
  exact ⟨rfl, rfl⟩

theorem throw_ok {e : ε} {b : α} {s t : σ} (h : (throw e : Code ε σ α) s = .ok (b, t)) :
    False := by
  cases h

theorem bind_run (c : Code ε σ α) (f : α → Code ε σ β) (s : σ) :
    (c >>= f) s = match c s with
      | .ok (a, t) => f a t
      | .error e => .error e := by
  change (c s >>= fun p => f p.1 p.2) = _
  cases c s with
  | error e => rfl
  | ok p => rfl

theorem bind_ok {c : Code ε σ α} {f : α → Code ε σ β} {b : β} {s u : σ}
    (h : (c >>= f) s = .ok (b, u)) : ∃ a t, c s = .ok (a, t) ∧ f a t = .ok (b, u) := by
  rw [bind_run] at h
  cases hc : c s with
  | error e =>
    rw [hc] at h
    cases h
  | ok p =>
    rw [hc] at h
    exact ⟨p.1, p.2, rfl, h⟩

theorem bind_error {c : Code ε σ α} {f : α → Code ε σ β} {e : ε} {s : σ}
    (h : (c >>= f) s = .error e) :
    c s = .error e ∨ ∃ a t, c s = .ok (a, t) ∧ f a t = .error e := by
  rw [bind_run] at h
  cases hc : c s with
  | error e' =>
    rw [hc] at h
    cases h
    exact Or.inl rfl
  | ok p =>
    rw [hc] at h
    exact Or.inr ⟨p.1, p.2, rfl, h⟩

theorem run_bind {c : Code ε σ α} {f : α → Code ε σ β} {a : α} {s t : σ}
    (h : c s = .ok (a, t)) : (c >>= f) s = f a t := by
  rw [bind_run, h]

theorem pure_run (a : α) (s : σ) : (pure a : Code ε σ α) s = .ok (a, s) := rfl

theorem get_run (s : σ) : (get : Code ε σ σ) s = .ok (s, s) := rfl

theorem modify_run (f : σ → σ) (s : σ) : (modify f : Code ε σ PUnit) s = .ok (⟨⟩, f s) := rfl

/-- A run from what can be evaluated of its end. -/
theorem run_of_some {c : Code ε σ α} {s : σ} {g : α × σ → β} {b : β}
    (h : (c s).toOption.map g = some b) : ∃ a t, c s = .ok (a, t) ∧ g (a, t) = b := by
  cases hc : c s with
  | error e =>
    rw [hc] at h
    cases h
  | ok x =>
    rw [hc] at h
    exact ⟨x.1, x.2, rfl, Option.some.inj h⟩

/-- What a run can fault with. -/
def Faults (E : ε → Prop) (c : Code ε σ α) : Prop := ∀ s e, c s = .error e → E e

variable {E : ε → Prop}

theorem faults_pure (a : α) : Faults E (pure a : Code ε σ α) := by
  intro s e h
  cases h

theorem faults_throw {e : ε} (he : E e) : Faults E (throw e : Code ε σ α) := by
  intro s e' h
  cases h
  exact he

theorem faults_bind {c : Code ε σ α} {f : α → Code ε σ β} (hc : Faults E c)
    (hf : ∀ a, Faults E (f a)) : Faults E (c >>= f) := by
  intro s e h
  rcases bind_error h with h | ⟨a, t, -, h⟩
  · exact hc s e h
  · exact hf a t e h

/-- The second piece of code may rely on what the first one returned. -/
theorem faults_bind_run {c : Code ε σ α} {f : α → Code ε σ β} (hc : Faults E c)
    (hf : ∀ a, (∃ s t, c s = .ok (a, t)) → Faults E (f a)) : Faults E (c >>= f) := by
  intro s e h
  rcases bind_error h with h | ⟨a, t, hrun, h⟩
  · exact hc s e h
  · exact hf a ⟨s, t, hrun⟩ t e h

/-- A run that ends leaves `v` of the state as it was. -/
def Keeps {ν : Type} (v : σ → ν) (c : Code ε σ α) : Prop :=
  ∀ s a t, c s = .ok (a, t) → v t = v s

variable {ν : Type} {v : σ → ν}

theorem keeps_pure (a : α) : Keeps v (pure a : Code ε σ α) := by
  intro s b t h
  rw [(pure_ok h).2]

theorem keeps_throw (e : ε) : Keeps v (throw e : Code ε σ α) := by
  intro s b t h
  exact (throw_ok h).elim

theorem keeps_get : Keeps v (get : Code ε σ σ) := by
  intro s b t h
  cases h
  rfl

theorem keeps_modify {f : σ → σ} (h : ∀ s, v (f s) = v s) :
    Keeps v (modify f : Code ε σ PUnit) := by
  intro s b t hrun
  cases hrun
  exact h s

theorem keeps_bind {c : Code ε σ α} {f : α → Code ε σ β} (hc : Keeps v c)
    (hf : ∀ a, Keeps v (f a)) : Keeps v (c >>= f) := by
  intro s b u h
  obtain ⟨a, t, hfirst, hrest⟩ := bind_ok h
  exact (hf a t b u hrest).trans (hc s a t hfirst)

/-! The outcome of one run: `Q` of its result or `E` of its fault. -/

def wp (c : Code ε σ α) (Q : α → σ → Prop) (E : ε → Prop) (s : σ) : Prop :=
  match c s with
  | .ok (a, t) => Q a t
  | .error e => E e

variable {Q Q' : α → σ → Prop}

theorem wp_ok {c : Code ε σ α} {s t : σ} {a : α} (h : wp c Q E s) (hc : c s = .ok (a, t)) :
    Q a t := by
  rw [wp, hc] at h
  exact h

theorem wp_error {c : Code ε σ α} {s : σ} {e : ε} (h : wp c Q E s) (hc : c s = .error e) :
    E e := by
  rw [wp, hc] at h
  exact h

theorem wp_of_run {c : Code ε σ α} {a : α} {s t : σ} (hc : c s = .ok (a, t)) (h : Q a t) :
    wp c Q E s := by
  rw [wp, hc]
  exact h

theorem wp_mono {c : Code ε σ α} {s : σ} (h : wp c Q E s) (hq : ∀ a t, Q a t → Q' a t) :
    wp c Q' E s := by
  unfold wp at *
  cases hc : c s with
  | error e =>
    rw [hc] at h
    exact h
  | ok p =>
    rw [hc] at h
    exact hq p.1 p.2 h

theorem wp_conseq {E' : ε → Prop} {c : Code ε σ α} {s : σ} (h : wp c Q E s)
    (hq : ∀ a t, Q a t → Q' a t) (he : ∀ e, E e → E' e) : wp c Q' E' s := by
  unfold wp at *
  cases hc : c s with
  | error e =>
    rw [hc] at h
    exact he e h
  | ok p =>
    rw [hc] at h
    exact hq p.1 p.2 h

theorem wp_pure {a : α} {s : σ} (h : Q a s) : wp (pure a : Code ε σ α) Q E s := h

theorem wp_throw {e : ε} {s : σ} (h : E e) : wp (throw e : Code ε σ α) Q E s := h

theorem wp_bind {Q : β → σ → Prop} {c : Code ε σ α} {f : α → Code ε σ β} {s : σ}
    (h : wp c (fun a t => wp (f a) Q E t) E s) : wp (c >>= f) Q E s := by
  unfold wp at *
  rw [bind_run]
  cases hc : c s with
  | error e =>
    rw [hc] at h
    exact h
  | ok p =>
    rw [hc] at h
    exact h

theorem wp_bind_run {Q : β → σ → Prop} {c : Code ε σ α} {f : α → Code ε σ β} {a : α} {s t : σ}
    (hc : c s = .ok (a, t)) (h : wp (f a) Q E t) : wp (c >>= f) Q E s := by
  apply wp_bind
  rw [wp, hc]
  exact h

/-! Code over a part of the state -/

/-- `c` runs on what `view` shows of the state, and `put` puts its result back. -/
def zoom {δ τ : Type} (view : σ → τ) (put : τ → σ → σ) (f : δ → ε) (c : Code δ τ α) :
    Code ε σ α := fun s =>
  match c (view s) with
  | .ok (a, x) => .ok (a, put x s)
  | .error e => .error (f e)

section Zoom

variable {δ τ : Type} {view : σ → τ} {put : τ → σ → σ} {f : δ → ε} {c : Code δ τ α} {s : σ}

theorem zoom_run {a : α} {x : τ} (h : c (view s) = .ok (a, x)) :
    zoom view put f c s = .ok (a, put x s) := by
  rw [zoom, h]

theorem zoom_wp {Q : α → σ → Prop} (h : wp c (fun a x => Q a (put x s)) (fun e => E (f e)) (view s)) :
    wp (zoom view put f c) Q E s := by
  unfold wp at *
  rw [zoom]
  cases hc : c (view s) with
  | error e =>
    rw [hc] at h
    exact h
  | ok x =>
    rw [hc] at h
    exact h

end Zoom

end FaultState
