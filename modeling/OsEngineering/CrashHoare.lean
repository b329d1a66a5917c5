import Mathlib.Data.List.Basic

/-! Code over volatile memory `μ` and a durable state `δ` that changes in atomic writes.
An outcome keeps every durable state the code passed through, so that a power failure can
be placed before any write or after the last one. Triples carry a crash condition. -/
namespace CrashHoare

structure Outcome (μ δ α : Type) where
  passed : List δ
  mem : μ
  disk : δ
  result : Except String α

/-- The durable states a crash can leave behind. -/
def Outcome.crash {μ δ α : Type} (o : Outcome μ δ α) : List δ := o.disk :: o.passed

def Code (μ δ α : Type) := μ → δ → Outcome μ δ α

variable {μ δ α β : Type}

namespace Code

def ret (a : α) : Code μ δ α := fun m d => ⟨[], m, d, .ok a⟩

def andThen (c : Code μ δ α) (f : α → Code μ δ β) : Code μ δ β := fun m d =>
  match c m d with
  | ⟨ps, m, d, .ok a⟩ => { f a m d with passed := ps ++ (f a m d).passed }
  | ⟨ps, m, d, .error e⟩ => ⟨ps, m, d, .error e⟩

instance : Monad (Code μ δ) where
  pure := ret
  bind := andThen

def panic (msg : String) : Code μ δ α := fun m d => ⟨[], m, d, .error msg⟩

/-- Reads both states and changes memory only. -/
def step (f : μ → δ → α × μ) : Code μ δ α := fun m d => ⟨[], (f m d).2, d, .ok (f m d).1⟩

def get : Code μ δ μ := step fun m _ => (m, m)

def modify (f : μ → μ) : Code μ δ Unit := step fun m _ => ((), f m)

/-- One atomic durable write, then a change of memory. -/
def write (f : δ → δ) (g : μ → μ) : Code μ δ Unit := fun m d => ⟨[d], g m, f d, .ok ()⟩

/-- `for (i = lo; i < lo + k; i++) body(i)`. -/
def loop (body : ℕ → Code μ δ Unit) : ℕ → ℕ → Code μ δ Unit
  | _, 0 => ret ()
  | lo, k + 1 => andThen (body lo) fun _ => loop body (lo + 1) k

def each (f : α → Code μ δ Unit) : List α → Code μ δ Unit
  | [] => ret ()
  | a :: as => andThen (f a) fun _ => each f as

end Code

open Code

/-- From `P`, every crash leaves `C`, and a run to the end establishes `Q`. -/
def Triple (P : μ → δ → Prop) (c : Code μ δ α) (Q : α → μ → δ → Prop) (C : δ → Prop) : Prop :=
  ∀ m d, P m d → (∀ x ∈ (c m d).crash, C x) ∧
    ∀ a, (c m d).result = .ok a → Q a (c m d).mem (c m d).disk

variable {P P' : μ → δ → Prop} {Q Q' : α → μ → δ → Prop} {C C' : δ → Prop}

theorem triple_conseq {c : Code μ δ α} (h : Triple P' c Q' C')
    (hp : ∀ m d, P m d → P' m d) (hq : ∀ a m d, Q' a m d → Q a m d)
    (hc : ∀ d, C' d → C d) : Triple P c Q C := by
  intro m d hP
  obtain ⟨h1, h2⟩ := h m d (hp m d hP)
  exact ⟨fun x hx => hc x (h1 x hx), fun a ha => hq a _ _ (h2 a ha)⟩

theorem triple_ret {a : α} (h : ∀ m d, P m d → C d ∧ Q a m d) :
    Triple P (pure a : Code μ δ α) Q C := by
  intro m d hP
  obtain ⟨hC, hQ⟩ := h m d hP
  refine ⟨fun x hx => ?_, fun b hb => ?_⟩
  · obtain rfl : x = d := by simpa [Outcome.crash, pure, ret] using hx
    exact hC
  · cases hb
    exact hQ

theorem triple_bind {R : α → μ → δ → Prop} {Q : β → μ → δ → Prop} {c : Code μ δ α}
    {f : α → Code μ δ β} (hc : Triple P c R C) (hf : ∀ a, Triple (R a) (f a) Q C) :
    Triple P (c >>= f) Q C := by
  intro m d hP
  obtain ⟨h1, h2⟩ := hc m d hP
  change (∀ x ∈ (andThen c f m d).crash, C x) ∧ ∀ b, (andThen c f m d).result = .ok b →
    Q b (andThen c f m d).mem (andThen c f m d).disk
  unfold andThen
  generalize c m d = o at h1 h2
  obtain ⟨ps, m', d', r⟩ := o
  cases r with
  | error e => exact ⟨h1, fun b hb => by cases hb⟩
  | ok a =>
    obtain ⟨k1, k2⟩ := hf a m' d' (h2 a rfl)
    refine ⟨fun x hx => ?_, k2⟩
    simp only [Outcome.crash, List.mem_cons, List.mem_append] at hx h1 k1
    rcases hx with hx | hx | hx
    · exact k1 x (Or.inl hx)
    · exact h1 x (Or.inr hx)
    · exact k1 x (Or.inr hx)

theorem triple_panic {msg : String} (h : ∀ m d, P m d → C d) :
    Triple P (Code.panic msg : Code μ δ α) Q C := by
  intro m d hP
  refine ⟨fun x hx => ?_, fun b hb => by cases hb⟩
  obtain rfl : x = d := by simpa [Outcome.crash, Code.panic] using hx
  exact h m x hP

theorem triple_step {f : μ → δ → α × μ}
    (h : ∀ m d, P m d → C d ∧ Q (f m d).1 (f m d).2 d) : Triple P (step f) Q C := by
  intro m d hP
  obtain ⟨hC, hQ⟩ := h m d hP
  refine ⟨fun x hx => ?_, fun b hb => ?_⟩
  · obtain rfl : x = d := by simpa [Outcome.crash, step] using hx
    exact hC
  · cases hb
    exact hQ

/-- A fact the precondition forces may be assumed. -/
theorem triple_assume {φ : Prop} {c : Code μ δ α} (hφ : ∀ m d, P m d → φ)
    (h : φ → Triple P c Q C) : Triple P c Q C :=
  fun m d hP => h (hφ m d hP) m d hP

theorem triple_get {Q : β → μ → δ → Prop} {f : μ → Code μ δ β}
    (h : ∀ m₀, Triple (fun m d => m = m₀ ∧ P m d) (f m₀) Q C) :
    Triple P (Code.get >>= f) Q C :=
  fun m d hP => h m m d ⟨rfl, hP⟩

theorem triple_write {f : δ → δ} {g : μ → μ} {Q : Unit → μ → δ → Prop}
    (h : ∀ m d, P m d → C d ∧ C (f d) ∧ Q () (g m) (f d)) : Triple P (write f g) Q C := by
  intro m d hP
  obtain ⟨hC, hC', hQ⟩ := h m d hP
  refine ⟨fun x hx => ?_, fun _ _ => hQ⟩
  simp only [Outcome.crash, write, List.mem_cons, List.not_mem_nil, or_false] at hx
  rcases hx with rfl | rfl
  · exact hC'
  · exact hC

/-- The loop rule: `I i` holds before the round of index `i`. -/
theorem triple_loop {I : ℕ → μ → δ → Prop} {body : ℕ → Code μ δ Unit} {l k : ℕ}
    (hcrash : ∀ m d, I (l + k) m d → C d)
    (h : ∀ i, l ≤ i → i < l + k → Triple (I i) (body i) (fun _ => I (i + 1)) C) :
    Triple (I l) (loop body l k) (fun _ => I (l + k)) C := by
  induction k generalizing l with
  | zero => exact triple_ret fun m d hI => ⟨hcrash m d hI, hI⟩
  | succ k ih =>
    refine triple_bind (h l (Nat.le_refl l) (by omega)) fun _ => ?_
    have hl : l + 1 + k = l + (k + 1) := by omega
    have := ih (l := l + 1) (by rwa [hl]) fun i hi hk => h i (by omega) (by omega)
    rwa [hl] at this

/-- Every run ends without a panic. -/
def Total (c : Code μ δ α) : Prop := ∀ m d, ∃ a, (c m d).result = .ok a

theorem total_step (f : μ → δ → α × μ) : Total (step f) := fun m d => ⟨(f m d).1, rfl⟩

theorem total_write (f : δ → δ) (g : μ → μ) : Total (write f g : Code μ δ Unit) :=
  fun _ _ => ⟨(), rfl⟩

theorem total_bind {c : Code μ δ α} {f : α → Code μ δ β} (hc : Total c)
    (hf : ∀ a, Total (f a)) : Total (c >>= f) := by
  intro m d
  obtain ⟨a, ha⟩ := hc m d
  change ∃ b, (andThen c f m d).result = .ok b
  unfold andThen
  generalize c m d = o at ha
  obtain ⟨ps, m', d', r⟩ := o
  obtain rfl : r = .ok a := ha
  exact hf a m' d'

theorem total_loop {body : ℕ → Code μ δ Unit} (h : ∀ i, Total (body i)) (lo k : ℕ) :
    Total (loop body lo k) := by
  induction k generalizing lo with
  | zero => exact fun _ _ => ⟨(), rfl⟩
  | succ k ih => exact total_bind (h lo) fun _ => ih (lo + 1)

/-- Booting and running `code` until a run of it completes. -/
inductive Recovers (boot : μ) (code : Code μ δ α) : δ → δ → Prop where
  | complete {d a} : (code boot d).result = .ok a → Recovers boot code d (code boot d).disk
  | crashed {d x y} : x ∈ (code boot d).crash → Recovers boot code x y →
      Recovers boot code d y

/-- A crash condition that recovery itself keeps survives any number of crashes. -/
theorem Recovers.sound {boot : μ} {code : Code μ δ α} {d y : δ} (r : Recovers boot code d y)
    (h : Triple (fun m d => m = boot ∧ C d) code Q C) (hd : C d) : ∃ a m, Q a m y := by
  induction r with
  | complete ha => exact ⟨_, _, (h boot _ ⟨rfl, hd⟩).2 _ ha⟩
  | crashed hx _ ih => exact ih ((h boot _ ⟨rfl, hd⟩).1 _ hx)

end CrashHoare
