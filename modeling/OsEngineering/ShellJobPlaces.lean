import OsEngineering.ShellJobs
import Mathlib.Data.List.Infix

/-! The places the processes of the shell have been at: each has one visitor. -/
namespace ShellJobs

variable {s t : State} {p q r : ℕ} {x y : Path} {turn : Turn} {c k : Control}

/-- A process makes these turns by itself. -/
def Turn.Stays : Turn → Bool
  | .sub | .next => true
  | _ => false

/-- The turns a process may have forked for in its command. -/
def Control.begun : Control → List Turn
  | .join _ => [.first]
  | .fork2 _ => [.left]
  | .waits _ => [.left, .right, .back]
  | _ => []

def State.Visits (s : State) (p : ℕ) (x : Path) : Prop :=
  p < s.count ∧ (s.proc p).origin <:+ x ∧ x <:+ (s.proc p).path

structure Places (s : State) : Prop where
  path : ∀ p < s.count, ∃ ts, (∀ turn ∈ ts, turn.Stays) ∧ (s.proc p).path = ts ++ (s.proc p).origin
  forked : ∀ p < s.count, ∀ turn x, (s.proc p).origin = turn :: x →
    turn.Stays = false ∧ ∃ r, s.Visits r x
  once : ∀ p q x, s.Visits p x → s.Visits q x → p = q
  begun : ∀ r q turn, s.Alive r → q < s.count → (s.proc q).origin = turn :: (s.proc r).path →
    turn ∈ (s.proc r).control.begun

theorem cons_not_suffix (turn : Turn) (x : Path) : ¬ turn :: x <:+ x := by
  intro h
  have hlen := h.length_le
  simp only [List.length_cons] at hlen
  omega

namespace Places

theorem visits_path (h : Places s) (hp : p < s.count) : s.Visits p (s.proc p).path := by
  obtain ⟨ts, -, hpath⟩ := h.path p hp
  exact ⟨hp, ⟨ts, hpath.symm⟩, List.suffix_rfl⟩

/-- A command is begun by a process of its own, or by one that comes from the command around. -/
theorem visits_cons (h : Places s) (hv : s.Visits q (turn :: x)) :
    (s.proc q).origin = turn :: x ∨ (s.Visits q x ∧ turn.Stays) := by
  obtain ⟨hq, horigin, hpath⟩ := hv
  rcases List.suffix_cons_iff.mp horigin with heq | hdown
  · exact Or.inl heq
  · have hx : x <:+ (s.proc q).path := (List.suffix_cons turn x).trans hpath
    refine Or.inr ⟨⟨hq, hdown, hx⟩, ?_⟩
    obtain ⟨ts, hts, heq⟩ := h.path q hq
    obtain ⟨w, hw⟩ := hdown
    obtain ⟨u, hu⟩ := hpath
    have hsplit : u ++ turn :: w = ts := by
      have happ : u ++ turn :: w ++ (s.proc q).origin = ts ++ (s.proc q).origin := by
        simpa [← hw, heq] using hu
      exact List.append_cancel_right happ
    exact hts turn (by simp [← hsplit])

/-- Somebody has been at every command on the way. -/
theorem visited (h : Places s) (hp : p < s.count) (hy : y <:+ (s.proc p).path) :
    ∃ r, s.Visits r y := by
  generalize hn : (s.proc p).origin.length = n
  induction n using Nat.strong_induction_on generalizing p with
  | _ n ih =>
    obtain ⟨-, horigin, -⟩ := h.visits_path hp
    rcases List.suffix_or_suffix_of_suffix horigin hy with hdown | hup
    · exact ⟨p, hp, hdown, hy⟩
    · rcases ho : (s.proc p).origin with _ | ⟨turn, x⟩
      · refine ⟨p, hp, ?_, hy⟩
        simp [ho]
      · rw [ho] at hup
        rcases List.suffix_cons_iff.mp hup with heq | hlow
        · refine ⟨p, hp, ?_, hy⟩
          simp [ho, heq]
        · obtain ⟨-, r, hr, hor, hpr⟩ := h.forked p hp turn x ho
          have hlt : (s.proc r).origin.length < n := by
            have hle := hor.length_le
            simp only [ho, List.length_cons] at hn
            omega
          exact ih _ hlt hr (hlow.trans hpr) rfl

/-- What a process has not begun nobody has. -/
theorem unvisited (h : Places s) (hp : s.Alive p) (hturn : turn ∉ (s.proc p).control.begun) :
    ∀ r, ¬ s.Visits r (turn :: (s.proc p).path) := by
  intro r hr
  rcases h.visits_cons hr with horigin | ⟨hup, -⟩
  · exact hturn (h.begun p r turn hp hr.1 horigin)
  · obtain rfl : r = p := h.once r p _ hup (h.visits_path hp.1)
    exact cons_not_suffix turn _ hr.2.2

theorem no_origin (h : Places s) (hx : ∀ r, ¬ s.Visits r x) (hq : q < s.count) :
    (s.proc q).origin ≠ turn :: x := by
  intro horigin
  obtain ⟨-, r, hr⟩ := h.forked q hq turn x horigin
  exact hx r hr

/-- One process gets to one place more. -/
theorem once_more (h : Places s) {z : Path} (hnew : ∀ r, ¬ s.Visits r z)
    (hv : ∀ r y, t.Visits r y ↔ s.Visits r y ∨ (r = p ∧ y = z)) (a b : ℕ) (y : Path)
    (ha : t.Visits a y) (hb : t.Visits b y) : a = b := by
  rcases (hv a y).mp ha with hsa | ⟨rfl, rfl⟩ <;> rcases (hv b _).mp hb with hsb | ⟨rfl, hz⟩
  · exact h.once a b y hsa hsb
  · exact absurd (hz ▸ hsa) (hnew a)
  · exact absurd hsb (hnew b)
  · rfl

/-- Nobody has moved, and what has been begun still counts. -/
theorem congr (h : Places s) (hcount : t.count = s.count)
    (horigin : ∀ q, (t.proc q).origin = (s.proc q).origin)
    (hpath : ∀ q, (t.proc q).path = (s.proc q).path)
    (hbegun : ∀ r, t.Alive r → s.Alive r ∧ (s.proc r).control.begun ⊆ (t.proc r).control.begun) :
    Places t := by
  have hv : ∀ r x, t.Visits r x ↔ s.Visits r x := by
    simp [State.Visits, hcount, horigin, hpath]
  constructor
  · simpa [hcount, horigin, hpath] using h.path
  · simpa [hcount, horigin, hv] using h.forked
  · simpa [hv] using h.once
  · intro r q turn hr hq heq
    obtain ⟨hs, hsub⟩ := hbegun r hr
    rw [hcount] at hq
    rw [horigin, hpath] at heq
    exact hsub (h.begun r q turn hs hq heq)

theorem exit (h : Places s) (p : ℕ) : Places (s.exit p) := by
  refine h.congr rfl (fun q => (s.exit_same p q).1) (fun q => (s.exit_same p q).2.1) ?_
  rintro r ⟨hr, hlife⟩
  rcases eq_or_ne r p with rfl | hne
  · simp [State.exit_self] at hlife
  · simp only [State.exit_of_ne hne] at hlife ⊢
    exact ⟨⟨hr, hlife⟩, List.Subset.refl _⟩

theorem bury (h : Places s) (q : ℕ) : Places (s.bury q) := by
  have hsame := State.bury_same (s := s) q
  refine h.congr rfl (fun r => (hsame r).2.1) (fun r => (hsame r).2.2.1) ?_
  rintro r ⟨hr, hlife⟩
  rcases eq_or_ne r q with rfl | hne
  · simp [State.bury_self] at hlife
  · rw [State.bury_of_ne hne] at hlife ⊢
    exact ⟨⟨hr, hlife⟩, List.Subset.refl _⟩

/-- A process stays in its command. -/
theorem control (h : Places s) (hp : s.Alive p) (hk : (s.proc p).control.begun ⊆ k.begun) :
    Places (s.advance p (s.proc p).path k) := by
  refine h.congr rfl (fun q => (State.advance_same p q).2.2) ?_ ?_
  · intro q
    rcases eq_or_ne q p with rfl | hne
    · rw [State.advance_self]
    · rw [State.advance_of_ne hne]
  · rintro r ⟨hr, hlife⟩
    rcases eq_or_ne r p with rfl | hne
    · rw [State.advance_self]
      exact ⟨hp, hk⟩
    · rw [State.advance_of_ne hne] at hlife ⊢
      exact ⟨⟨hr, hlife⟩, List.Subset.refl _⟩

theorem stays_not_begun (hturn : turn.Stays) (k : Control) : turn ∉ k.begun := by
  cases turn <;> cases k <;> simp_all [Turn.Stays, Control.begun]

theorem visits_advance (h : Places s) (hp : p < s.count) :
    (s.advance p (turn :: (s.proc p).path) k).Visits r y ↔
      s.Visits r y ∨ (r = p ∧ y = turn :: (s.proc p).path) := by
  rcases eq_or_ne r p with rfl | hne
  · have hdown := (h.visits_path hp).2.1
    simp only [State.Visits, State.advance_self, State.advance_count, true_and]
    constructor
    · rintro ⟨hr, hor, hpr⟩
      rcases List.suffix_cons_iff.mp hpr with heq | hlow
      · exact Or.inr heq
      · exact Or.inl ⟨hr, hor, hlow⟩
    · rintro (⟨hr, hor, hpr⟩ | rfl)
      · exact ⟨hr, hor, hpr.trans (List.suffix_cons ..)⟩
      · exact ⟨hp, hdown.trans (List.suffix_cons ..), List.suffix_rfl⟩
  · simp [State.Visits, State.advance_of_ne hne, hne]

/-- A process goes on to the next command. -/
theorem advance (h : Places s) (hp : s.Alive p) (hturn : turn.Stays) (k : Control) :
    Places (s.advance p (turn :: (s.proc p).path) k) := by
  have hnew := h.unvisited hp (stays_not_begun hturn _)
  have horigin : ∀ q, ((s.advance p (turn :: (s.proc p).path) k).proc q).origin =
      (s.proc q).origin := fun q => (State.advance_same p q).2.2
  have hother : ∀ q, q ≠ p → (s.advance p (turn :: (s.proc p).path) k).proc q = s.proc q :=
    fun _ => State.advance_of_ne
  have hself : ((s.advance p (turn :: (s.proc p).path) k).proc p).path =
      turn :: (s.proc p).path := by
    rw [State.advance_self]
  have hv : ∀ r y, (s.advance p (turn :: (s.proc p).path) k).Visits r y ↔
      s.Visits r y ∨ (r = p ∧ y = turn :: (s.proc p).path) :=
    fun _ _ => h.visits_advance hp.1
  constructor
  · intro q hq
    obtain ⟨ts, hts, heq⟩ := h.path q hq
    rcases eq_or_ne q p with rfl | hne
    · refine ⟨turn :: ts, ?_, ?_⟩
      · simpa [hturn] using hts
      · rw [hself, horigin, heq, List.cons_append]
    · rw [hother q hne]
      exact ⟨ts, hts, heq⟩
  · intro q hq turn' z heq
    rw [horigin] at heq
    obtain ⟨hforks, r, hr⟩ := h.forked q hq turn' z heq
    exact ⟨hforks, r, (hv r z).mpr (Or.inl hr)⟩
  · exact h.once_more hnew hv
  · intro r q turn' hr hq heq
    rw [horigin] at heq
    rcases eq_or_ne r p with rfl | hne
    · rw [hself] at heq
      exact absurd heq (h.no_origin hnew hq)
    · rw [hother r hne] at heq ⊢
      have hlife : (s.proc r).life = .alive := by simpa [hother r hne] using hr.2
      exact h.begun r q turn' ⟨hr.1, hlife⟩ hq heq

theorem visits_fork : (s.fork p turn c k).Visits r y ↔
    s.Visits r y ∨ (r = s.count ∧ y = turn :: (s.proc p).path) := by
  simp only [State.Visits, State.lt_fork_count]
  rcases lt_trichotomy r s.count with hr | rfl | hr
  · simp [State.fork_old hr, hr, hr.ne]
  · simp only [State.fork_child, lt_irrefl, false_or, true_and, false_and]
    constructor
    · rintro ⟨hdown, hup⟩
      exact hup.eq_of_length_le hdown.length_le
    · rintro rfl
      exact ⟨List.suffix_rfl, List.suffix_rfl⟩
  · simp [hr.not_gt, hr.ne']

theorem fork (h : Places s) (hp : s.Alive p) (hturn : turn.Stays = false)
    (hnot : turn ∉ (s.proc p).control.begun)
    (hk : ∀ a, a = turn ∨ a ∈ (s.proc p).control.begun → a ∈ k.begun) (c : Control) :
    Places (s.fork p turn c k) := by
  have hnew := h.unvisited hp hnot
  have hold : ∀ q < s.count, ((s.fork p turn c k).proc q).origin = (s.proc q).origin ∧
      ((s.fork p turn c k).proc q).path = (s.proc q).path ∧
      ((s.fork p turn c k).proc q).life = (s.proc q).life := by
    intro q hq
    obtain ⟨hlife, -, horigin, hpath⟩ := State.fork_old (p := p) (c := c) (k := k) hq
    exact ⟨horigin, hpath, hlife⟩
  have hchild : (s.fork p turn c k).proc s.count =
      ⟨some p, turn :: (s.proc p).path, turn :: (s.proc p).path, c, .alive⟩ := State.fork_child
  have hcount : ∀ q, q < (s.fork p turn c k).count ↔ q < s.count ∨ q = s.count :=
    fun _ => State.lt_fork_count
  have hv : ∀ r y, (s.fork p turn c k).Visits r y ↔
      s.Visits r y ∨ (r = s.count ∧ y = turn :: (s.proc p).path) := fun _ _ => visits_fork
  constructor
  · intro q hq
    rcases (hcount q).mp hq with hq | rfl
    · simpa [hold q hq] using h.path q hq
    · exact ⟨[], by simp, by simp [hchild]⟩
  · intro q hq turn' z heq
    rcases (hcount q).mp hq with hq | rfl
    · rw [(hold q hq).1] at heq
      obtain ⟨hforks, r, hr⟩ := h.forked q hq turn' z heq
      exact ⟨hforks, r, (hv r z).mpr (Or.inl hr)⟩
    · simp only [hchild, List.cons.injEq] at heq
      obtain ⟨rfl, rfl⟩ := heq
      exact ⟨hturn, p, (hv p _).mpr (Or.inl (h.visits_path hp.1))⟩
  · exact h.once_more hnew hv
  · intro r q turn' hr hq heq
    have hlife := hr.2
    rcases (hcount r).mp hr.1 with hlt | rfl
    · rw [(hold r hlt).2.1] at heq
      rw [(hold r hlt).2.2] at hlife
      have hbegun : ∀ a, (a = turn ∧ r = p) ∨ a ∈ (s.proc r).control.begun →
          a ∈ ((s.fork p turn c k).proc r).control.begun := by
        intro a ha
        rcases eq_or_ne r p with rfl | hne
        · rw [State.fork_self hlt]
          exact hk a (by simpa using ha)
        · rw [State.fork_of_ne hne hlt]
          simpa [hne] using ha
      rcases (hcount q).mp hq with hq | rfl
      · rw [(hold q hq).1] at heq
        exact hbegun _ (Or.inr (h.begun r q turn' ⟨hlt, hlife⟩ hq heq))
      · simp only [hchild, List.cons.injEq] at heq
        obtain ⟨rfl, hsame⟩ := heq
        have hrp : r = p := by
          refine h.once r p _ (h.visits_path hlt) ?_
          rw [← hsame]
          exact h.visits_path hp.1
        exact hbegun _ (Or.inl ⟨rfl, hrp⟩)
    · rw [hchild] at heq
      rcases (hcount q).mp hq with hq | rfl
      · rw [(hold q hq).1] at heq
        exact absurd heq (h.no_origin hnew hq)
      · rw [hchild] at heq
        simp at heq

end Places

end ShellJobs
