import Mathlib.Data.List.Basic

/-! Programs that print through a function which they are given. They do not look at its state, so
that what they do with any such function follows from the list of what they print. -/
namespace OutputPrograms

variable {γ ε α β : Type}

/-- A program, for each function `putch` and the state that it changes. -/
abbrev Program (γ ε α : Type) := (σ : Type) → (γ → σ → σ) → StateT σ (Except ε) α

def emit {σ : Type} (putch : γ → σ → σ) (cs : List γ) (s : σ) : σ :=
  cs.foldl (fun s c => putch c s) s

/-- The function that keeps all it is given. -/
def collect (c : γ) (out : List γ) : List γ := out ++ [c]

theorem emit_append {σ : Type} (putch : γ → σ → σ) (cs ds : List γ) (s : σ) :
    emit putch (cs ++ ds) s = emit putch ds (emit putch cs s) := List.foldl_append

theorem emit_collect (cs out : List γ) : emit collect cs out = out ++ cs := by
  induction cs generalizing out with
  | nil => exact (List.append_nil out).symm
  | cons c cs ih =>
    change emit collect cs (collect c out) = _
    rw [ih, collect, List.append_assoc, List.singleton_append]

/-- The program returns `a` after it has printed `cs`. -/
def Prints (p : Program γ ε α) (a : α) (cs : List γ) : Prop :=
  ∀ (σ : Type) (putch : γ → σ → σ) (s : σ), (p σ putch).run s = .ok (a, emit putch cs s)

/-- The program does with any function what it prints for the one that keeps all. -/
def Uniform (p : Program γ ε α) : Prop :=
  ∀ (σ : Type) (putch : γ → σ → σ) (s : σ), (p σ putch).run s =
    ((p (List γ) collect).run []).map fun r => (r.1, emit putch r.2 s)

variable {p : Program γ ε α} {q : (σ : Type) → (γ → σ → σ) → α → StateT σ (Except ε) β}
  {a : α} {b : β} {cs ds : List γ}

namespace Prints

theorem pure (a : α) :
    Prints (fun σ (_ : γ → σ → σ) => (Pure.pure a : StateT σ (Except ε) α)) a [] :=
  fun _ _ _ => rfl

theorem putch (c : γ) :
    Prints (fun σ putch => (modify (putch c) : StateT σ (Except ε) Unit)) () [c] :=
  fun _ _ _ => rfl

theorem lift {x : Except ε α} (h : x = .ok a) :
    Prints (fun σ (_ : γ → σ → σ) => (liftM x : StateT σ (Except ε) α)) a [] := by
  subst h
  exact fun _ _ _ => rfl

theorem bind (hp : Prints p a cs) (hq : Prints (fun σ putch => q σ putch a) b ds) :
    Prints (fun σ putch => p σ putch >>= q σ putch) b (cs ++ ds) := by
  intro σ putch s
  rw [StateT.run_bind, hp σ putch s, emit_append]
  exact hq σ putch _

theorem lift_bind {x : Except ε α} (h : x = .ok a)
    (hq : Prints (fun σ putch => q σ putch a) b ds) :
    Prints (fun σ putch => (liftM x : StateT σ (Except ε) α) >>= q σ putch) b ds :=
  (lift h).bind hq

theorem congr (hp : Prints p a cs) (h : cs = ds) : Prints p a ds := h ▸ hp

theorem collected (hp : Prints p a cs) : (p (List γ) collect).run [] = .ok (a, cs) := by
  rw [hp, emit_collect, List.nil_append]

theorem unique {a' : α} (hp : Prints p a cs) (hp' : Prints p a' ds) : a = a' ∧ cs = ds := by
  have h := hp.collected.symm.trans hp'.collected
  exact ⟨congrArg Prod.fst (Except.ok.inj h), congrArg Prod.snd (Except.ok.inj h)⟩

end Prints

namespace Uniform

theorem of_prints (h : Prints p a cs) : Uniform p := by
  intro σ putch s
  rw [h.collected, h σ putch s]
  rfl

theorem lift (x : Except ε α) :
    Uniform (fun σ (_ : γ → σ → σ) => (liftM x : StateT σ (Except ε) α)) := by
  intro σ putch s
  cases x <;> rfl

theorem pure (a : α) :
    Uniform (fun σ (_ : γ → σ → σ) => (Pure.pure a : StateT σ (Except ε) α)) :=
  of_prints (.pure a)

theorem putch (c : γ) :
    Uniform (fun σ putch => (modify (putch c) : StateT σ (Except ε) Unit)) :=
  of_prints (.putch c)

theorem throw (e : ε) :
    Uniform (fun σ (_ : γ → σ → σ) => (throw e : StateT σ (Except ε) α)) :=
  fun _ _ _ => rfl

theorem ite {c : Prop} [Decidable c] {p' : Program γ ε α} (hp : c → Uniform p)
    (hp' : ¬ c → Uniform p') : Uniform fun σ putch => if c then p σ putch else p' σ putch := by
  intro σ putch s
  by_cases h : c
  · simp only [if_pos h]
    exact hp h σ putch s
  · simp only [if_neg h]
    exact hp' h σ putch s

/-- From any list on. -/
theorem run_collect (h : Uniform p) (out : List γ) : (p (List γ) collect).run out =
    ((p (List γ) collect).run []).map fun r => (r.1, out ++ r.2) := by
  rw [h (List γ) collect out]
  cases (p (List γ) collect).run [] with
  | error e => rfl
  | ok r =>
    change Except.ok (r.1, emit collect r.2 out) = Except.ok (r.1, out ++ r.2)
    rw [emit_collect]

theorem bind (hp : Uniform p) (hq : ∀ a, Uniform fun σ putch => q σ putch a) :
    Uniform fun σ putch => p σ putch >>= q σ putch := by
  intro σ putch s
  rw [StateT.run_bind, StateT.run_bind, hp σ putch s]
  cases (p (List γ) collect).run [] with
  | error e => rfl
  | ok r =>
    obtain ⟨a, cs⟩ := r
    change (q σ putch a).run (emit putch cs s) =
      ((q (List γ) collect a).run cs).map fun r => (r.1, emit putch r.2 s)
    rw [hq a σ putch, (hq a).run_collect cs]
    cases (q (List γ) collect a).run [] with
    | error e => rfl
    | ok r =>
      change Except.ok (r.1, emit putch r.2 (emit putch cs s)) =
        Except.ok (r.1, emit putch (cs ++ r.2) s)
      rw [emit_append]

end Uniform

end OutputPrograms
