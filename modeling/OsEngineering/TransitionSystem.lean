import Mathlib.Data.List.Infix

/-! Runs of labelled transition systems and the induction rules on them.
A run records its events in order; every prefix of a run is a run. -/
namespace TransitionSystem

variable {σ ε : Type*}

inductive Run (step : σ → ε → σ → Prop) (init : σ → Prop) : List ε → σ → Prop where
  | nil {s} : init s → Run step init [] s
  | snoc {es s e t} : Run step init es s → step s e t → Run step init (es ++ [e]) t

/-- A step that also meets `ok` in the state it is taken in. -/
def Guarded (step : σ → ε → σ → Prop) (ok : σ → ε → Prop) (s : σ) (e : ε) (t : σ) : Prop :=
  ok s e ∧ step s e t

section Relational

variable {step : σ → ε → σ → Prop} {init : σ → Prop}

theorem Run.invariant {I : σ → Prop} (base : ∀ s, init s → I s)
    (keep : ∀ s e t, I s → step s e t → I t) {es : List ε} {s : σ}
    (r : Run step init es s) : I s := by
  induction r with
  | nil h => exact base _ h
  | snoc _ h ih => exact keep _ _ _ ih h

theorem Run.mono {step' : σ → ε → σ → Prop} (h : ∀ s e t, step s e t → step' s e t)
    {es : List ε} {s : σ} (r : Run step init es s) : Run step' init es s := by
  induction r with
  | nil hi => exact .nil hi
  | snoc _ hs ih => exact .snoc ih (h _ _ _ hs)

theorem Run.unguarded {ok : σ → ε → Prop} {es : List ε} {s : σ}
    (r : Run (Guarded step ok) init es s) : Run step init es s :=
  r.mono fun _ _ _ h => h.2

theorem Run.last_step {es : List ε} {e : ε} {t : σ} (r : Run step init (es ++ [e]) t) :
    ∃ s, Run step init es s ∧ step s e t := by
  generalize hg : es ++ [e] = gs at r
  cases r with
  | nil => simp at hg
  | snoc r hs =>
    obtain ⟨rfl, h⟩ := List.append_inj' hg rfl
    cases h
    exact ⟨_, r, hs⟩

end Relational

/-! Machines: an event is possible or not, and the state after it is a function. -/

structure Machine (σ ε : Type*) where
  enabled : σ → ε → Prop
  next : σ → ε → σ

namespace Machine

variable (M : Machine σ ε)

def Step (s : σ) (e : ε) (t : σ) : Prop := M.enabled s e ∧ t = M.next s e

def exec (s : σ) (es : List ε) : σ := es.foldl M.next s

def Valid : σ → List ε → Prop
  | _, [] => True
  | s, e :: es => M.enabled s e ∧ Valid (M.next s e) es

instance validDecidable [∀ s e, Decidable (M.enabled s e)] :
    (s : σ) → (es : List ε) → Decidable (M.Valid s es)
  | _, [] => isTrue trivial
  | s, e :: es => @instDecidableAnd _ _ _ (validDecidable (M.next s e) es)

variable {M}

theorem run_deterministic {s₀ s t : σ} {es : List ε} (r : Run M.Step (· = s₀) es s)
    (q : Run M.Step (· = s₀) es t) : s = t := by
  induction r generalizing t with
  | nil h =>
    generalize hg : ([] : List ε) = gs at q
    cases q with
    | nil k => exact h.trans k.symm
    | snoc => simp at hg
  | snoc r h ih =>
    obtain ⟨u, q, k⟩ := q.last_step
    have := ih q
    subst this
    exact h.2.trans k.2.symm

theorem Valid.extend {s₀ s : σ} {fs es : List ε} (r : Run M.Step (· = s₀) fs s)
    (h : M.Valid s es) : Run M.Step (· = s₀) (fs ++ es) (M.exec s es) := by
  induction es generalizing fs s with
  | nil => simpa [exec] using r
  | cons e es ih =>
    have := ih (r.snoc ⟨h.1, rfl⟩) h.2
    simpa [exec] using this

theorem Valid.run {s₀ : σ} {es : List ε} (h : M.Valid s₀ es) :
    Run M.Step (· = s₀) es (M.exec s₀ es) := by
  simpa using Valid.extend (.nil rfl) h

theorem exec_of_run {s₀ s : σ} {es : List ε} (r : Run M.Step (· = s₀) es s) :
    M.exec s₀ es = s := by
  induction r with
  | nil h => exact h.symm
  | snoc _ h ih => simpa [exec, h.2] using congrArg (fun u => M.next u _) ih

/-- The same machine with an event possible only where `ok` allows it. -/
def guard (M : Machine σ ε) (ok : σ → ε → Prop) : Machine σ ε where
  enabled s e := ok s e ∧ M.enabled s e
  next := M.next

instance (ok : σ → ε → Prop) [∀ s e, Decidable (ok s e)] [∀ s e, Decidable (M.enabled s e)]
    (s : σ) (e : ε) : Decidable ((M.guard ok).enabled s e) :=
  inferInstanceAs (Decidable (_ ∧ _))

theorem Valid.guarded_run {ok : σ → ε → Prop} {s₀ : σ} {es : List ε}
    (h : (M.guard ok).Valid s₀ es) : Run (Guarded M.Step ok) (· = s₀) es (M.exec s₀ es) :=
  h.run.mono fun _ _ _ hs => ⟨hs.1.1, hs.1.2, hs.2⟩

/-- Where each step from a good state ends well exactly if it meets `ok`, a run is good all
along exactly if all its steps meet `ok`. -/
theorem always_iff_guarded {I G : σ → Prop} {ok : σ → ε → Prop} {s₀ : σ}
    (hI : I s₀) (hG : G s₀) (keep : ∀ s e t, I s → M.Step s e t → I t)
    (h : ∀ s e t, I s → G s → M.Step s e t → (G t ↔ ok s e)) {es : List ε} {s : σ}
    (r : Run M.Step (· = s₀) es s) :
    (∀ fs t, fs <+: es → Run M.Step (· = s₀) fs t → G t) ↔
      Run (Guarded M.Step ok) (· = s₀) es s := by
  have hinv : ∀ {fs t}, Run M.Step (· = s₀) fs t → I t := fun q =>
    q.invariant (fun _ h => h ▸ hI) keep
  constructor
  · intro hgood
    induction r with
    | nil hi => exact .nil hi
    | @snoc es s e t r hs ih =>
      have hpre : ∀ fs t, fs <+: es → Run M.Step (· = s₀) fs t → G t :=
        fun fs t hfs => hgood fs t (hfs.trans (List.prefix_append es [e]))
      have ht := hgood _ t (List.prefix_refl _) (r.snoc hs)
      exact .snoc (ih hpre) ⟨(h s e t (hinv r) (hpre es s (List.prefix_refl es) r) hs).mp ht, hs⟩
  · intro g
    clear r
    induction g with
    | nil hi =>
      intro fs t hfs q
      obtain rfl := List.prefix_nil.mp hfs
      obtain rfl := run_deterministic q (.nil hi)
      exact hi ▸ hG
    | @snoc es s e t g hs ih =>
      intro fs u hfs q
      rcases List.prefix_concat_iff.mp hfs with rfl | hfs
      · have r := g.unguarded
        obtain rfl := run_deterministic q (r.snoc hs.2)
        exact (h s e u (hinv r) (ih es s (List.prefix_refl es) r) hs.2).mpr hs.1
      · exact ih fs u hfs q

/-- Where each step is good exactly if it meets `ok`, all steps of a run are good exactly if they
all meet `ok`. -/
theorem steps_iff_guarded {I : σ → Prop} (G : σ → ε → σ → Prop) (ok : σ → ε → Prop) {s₀ : σ}
    (inv : ∀ fs u, Run M.Step (· = s₀) fs u → I u)
    (h : ∀ s e t, I s → M.Step s e t → (G s e t ↔ ok s e)) {es : List ε} {s : σ}
    (r : Run M.Step (· = s₀) es s) :
    (∀ fs e u v, fs ++ [e] <+: es → Run M.Step (· = s₀) fs u → M.Step u e v → G u e v) ↔
      Run (Guarded M.Step ok) (· = s₀) es s := by
  constructor
  · intro hgood
    induction r with
    | nil hi => exact .nil hi
    | @snoc es s e t r hs ih =>
      have hprev := ih fun fs e' u v hfs => hgood fs e' u v (hfs.trans (List.prefix_append ..))
      have hlast := hgood es e s t (List.prefix_refl _) r hs
      exact .snoc hprev ⟨(h s e t (inv es s r) hs).mp hlast, hs⟩
  · intro g
    clear r
    induction g with
    | nil hi =>
      intro fs e u v hfs
      exact absurd (List.prefix_nil.mp hfs) (by simp)
    | @snoc es s e t g hs ih =>
      intro fs e' u v hfs hu hstep
      rcases List.prefix_concat_iff.mp hfs with heq | hfs
      · obtain ⟨rfl, he⟩ := List.append_inj' heq rfl
        obtain rfl : e' = e := List.singleton_inj.mp he
        obtain rfl := run_deterministic hu g.unguarded
        exact (h u e' v (inv fs u hu) hstep).mpr hs.1
      · exact ih fs e' u v hfs hu hstep

end Machine

/-! The parties of a concrete run of two. -/

abbrev p0 : Fin 2 := ⟨0, Nat.zero_lt_two⟩
abbrev p1 : Fin 2 := ⟨1, Nat.one_lt_two⟩

end TransitionSystem
