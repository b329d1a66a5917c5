import OsEngineering.KernelParams
import OsEngineering.TransitionSystem
import Mathlib.Data.Fintype.Card
import Mathlib.Data.List.Sort
import Mathlib.Logic.Function.Basic

/-! The rounds of scheduler() on any CPUs. A process that waits to run is passed over at most
once by each CPU for each other process. -/
namespace SchedulerRounds

open TransitionSystem KernelParams

abbrev ProcNo := Fin NPROC

inductive ProcState where
  | unused
  | embryo
  | sleeping
  | runnable
  | running
  | zombie
  deriving DecidableEq, Repr

/-- Where a CPU is: outside of the loop over the process table, at an entry or the end of it, or
in the process it has switched to. -/
inductive Place where
  | outside
  | visiting (i : ℕ)
  | running (p : ProcNo)
  deriving DecidableEq, Repr

/-- `dispatched` and `rounds` are history: what each scheduler() has switched to, and how often
it has come to the end of the table. -/
structure State (κ : Type) where
  state : ProcNo → ProcState
  place : κ → Place
  holder : Option κ
  dispatched : κ → List ProcNo
  rounds : κ → ℕ

inductive Event (κ : Type) where
  | enter (c : κ)
  | visit (c : κ)
  | leave (c : κ)
  | acquire (c : κ)
  | release (c : κ)
  | change (c : κ) (p : ProcNo) (st : ProcState)
  | sched (c : κ)
  deriving DecidableEq

/-- What the process `q` does to p->state: yield(), sleep() and exit() to its own, and
allocproc(), fork(), wakeup1(), kill() and wait() to that of others. -/
inductive Changes (q p : ProcNo) : ProcState → ProcState → Prop where
  | yield : p = q → Changes q p .running .runnable
  | sleep : p = q → Changes q p .running .sleeping
  | exit : p = q → Changes q p .running .zombie
  | allocproc : Changes q p .unused .embryo
  | fork : Changes q p .embryo .runnable
  | forkFails : Changes q p .embryo .unused
  | wakeup : Changes q p .sleeping .runnable
  | wait : Changes q p .zombie .unused

variable {κ : Type} [DecidableEq κ]

def Enabled (s : State κ) : Event κ → Prop
  | .enter c => s.place c = .outside ∧ s.holder = none
  | .visit c => ∃ i < NPROC, s.place c = .visiting i
  | .leave c => s.place c = .visiting NPROC
  | .acquire c => (∃ q, s.place c = .running q) ∧ s.holder = none
  | .release c => (∃ q, s.place c = .running q) ∧ s.holder = some c
  | .change c p st => ∃ q, s.place c = .running q ∧ s.holder = some c ∧ Changes q p (s.state p) st
  | .sched c => ∃ q, s.place c = .running q ∧ s.holder = some c ∧ s.state q ≠ .running

namespace State

def goto (s : State κ) (c : κ) (x : Place) : State κ :=
  { s with place := Function.update s.place c x }

/-- One round of the loop over the process table. -/
def visit (s : State κ) (c : κ) (p : ProcNo) : State κ :=
  if s.state p ≠ .runnable then s.goto c (.visiting (p + 1))
  else { s.goto c (.running p) with
    state := Function.update s.state p .running
    dispatched := Function.update s.dispatched c (s.dispatched c ++ [p]) }

end State

def next (s : State κ) : Event κ → State κ
  | .enter c => { s.goto c (.visiting 0) with holder := some c }
  | .visit c =>
    match s.place c with
    | .visiting i => if h : i < NPROC then s.visit c ⟨i, h⟩ else s
    | _ => s
  | .leave c => { s.goto c .outside with
      holder := none
      rounds := Function.update s.rounds c (s.rounds c + 1) }
  | .acquire c => { s with holder := some c }
  | .release _ => { s with holder := none }
  | .change _ p st => { s with state := Function.update s.state p st }
  | .sched c =>
    match s.place c with
    | .running q => s.goto c (.visiting (q + 1))
    | _ => s

def machine : Machine (State κ) (Event κ) := ⟨Enabled, next⟩

/-! Waiting -/

variable {s t : State κ} {q : ProcNo} {c : κ}

/-- What a CPU has dispatched while `q` waits: entries above `q` in the round it was in, and then
entries below it in the next one. -/
def Passed (q : ProcNo) (x : Place) (above below : List ProcNo) (rounds : ℕ) : Prop :=
  match x with
  | .outside => below = [] ∧ rounds ≤ 1
  | .visiting i => (q.val < i ∧ below = [] ∧ (∀ p ∈ above, p.val < i) ∧ rounds = 0) ∨
      (i ≤ q.val ∧ (∀ p ∈ below, p.val < i) ∧ rounds ≤ 1)
  | .running r => (q ≤ r ∧ below = [] ∧ (∀ p ∈ above, p ≤ r) ∧ rounds = 0) ∨
      (r < q ∧ (∀ p ∈ below, p ≤ r) ∧ rounds ≤ 1)

structure Split (q : ProcNo) (x : Place) (l above below : List ProcNo) (rounds : ℕ) : Prop where
  append : l = above ++ below
  above_sorted : above.Pairwise (· < ·)
  below_sorted : below.Pairwise (· < ·)
  later : ∀ p ∈ above, q < p
  earlier : ∀ p ∈ below, p < q
  passed : Passed q x above below rounds

/-- `q` waits to run, and nobody has passed it over twice. -/
structure Waiting (q : ProcNo) (s : State κ) : Prop where
  runnable : s.state q = .runnable
  split : ∀ c, ∃ above below, Split q (s.place c) (s.dispatched c) above below (s.rounds c)

omit [DecidableEq κ] in
theorem Waiting.of_same (h : Waiting q s) (hs : t.state q = s.state q) (hp : t.place = s.place)
    (hd : t.dispatched = s.dispatched) (hr : t.rounds = s.rounds) : Waiting q t := by
  refine ⟨hs.trans h.runnable, ?_⟩
  rw [hp, hd, hr]
  exact h.split

/-- One CPU goes on. -/
theorem Waiting.move {x : Place} {l : List ProcNo} {n : ℕ} (h : Waiting q s)
    (hs : t.state q = s.state q) (hp : t.place = Function.update s.place c x)
    (hd : t.dispatched = Function.update s.dispatched c l)
    (hr : t.rounds = Function.update s.rounds c n)
    (hc : ∃ above below, Split q x l above below n) : Waiting q t := by
  refine ⟨hs.trans h.runnable, ?_⟩
  intro d
  rw [hp, hd, hr]
  by_cases hdc : d = c
  · simpa [hdc] using hc
  · simpa [hdc] using h.split d

theorem Waiting.goto {x : Place} (h : Waiting q s)
    (hc : ∀ above below, Passed q (s.place c) above below (s.rounds c) →
      Passed q x above below (s.rounds c)) : Waiting q (s.goto c x) := by
  obtain ⟨above, below, hsplit⟩ := h.split c
  refine h.move rfl rfl (Function.update_eq_self c _).symm (Function.update_eq_self c _).symm
    ⟨above, below, ?_⟩
  exact { hsplit with passed := hc above below hsplit.passed }

theorem pairwise_snoc {l : List ProcNo} {p : ProcNo} (h : l.Pairwise (· < ·))
    (hp : ∀ x ∈ l, x.val < p) : (l ++ [p]).Pairwise (· < ·) :=
  List.pairwise_append.mpr ⟨h, List.pairwise_singleton _ _, by simpa using hp⟩

/-- The loop comes to an entry: that of `q`, or one that it may run. -/
theorem visit_waiting {i : ℕ} (h : Waiting q s) (hx : s.place c = .visiting i) (hi : i < NPROC) :
    q ∈ (s.visit c ⟨i, hi⟩).dispatched c ∨ Waiting q (s.visit c ⟨i, hi⟩) := by
  by_cases hrun : s.state ⟨i, hi⟩ = .runnable
  · by_cases hq : q = ⟨i, hi⟩
    · left
      simp [State.visit, hrun, hq]
    · right
      have hiq : i ≠ q.val := fun heq => hq (Fin.ext heq.symm)
      obtain ⟨above, below, hsplit⟩ := h.split c
      have hpassed := hsplit.passed
      rw [hx] at hpassed
      rw [State.visit, if_neg (not_not.mpr hrun)]
      refine h.move ?_ rfl rfl (Function.update_eq_self c _).symm ?_
      · exact Function.update_of_ne hq _ _
      rcases hpassed with ⟨hlt, rfl, habove, hr⟩ | ⟨hle, hbelow, hr⟩
      · refine ⟨above ++ [⟨i, hi⟩], [], ?_, pairwise_snoc hsplit.above_sorted habove,
          List.Pairwise.nil, ?_, by simp, Or.inl ⟨?_, rfl, ?_, hr⟩⟩
        · simp [hsplit.append]
        · intro p hp
          rcases List.mem_append.mp hp with hp | hp
          · exact hsplit.later p hp
          · rw [List.mem_singleton.mp hp]
            exact hlt
        · exact le_of_lt hlt
        · intro p hp
          rcases List.mem_append.mp hp with hp | hp
          · exact le_of_lt (habove p hp)
          · exact le_of_eq (List.mem_singleton.mp hp)
      · have hlt : i < q.val := by omega
        refine ⟨above, below ++ [⟨i, hi⟩], ?_, hsplit.above_sorted,
          pairwise_snoc hsplit.below_sorted hbelow, hsplit.later, ?_, Or.inr ⟨hlt, ?_, hr⟩⟩
        · simp [hsplit.append]
        · intro p hp
          rcases List.mem_append.mp hp with hp | hp
          · exact hsplit.earlier p hp
          · rw [List.mem_singleton.mp hp]
            exact hlt
        · intro p hp
          rcases List.mem_append.mp hp with hp | hp
          · exact le_of_lt (hbelow p hp)
          · exact le_of_eq (List.mem_singleton.mp hp)
  · right
    have hiq : i ≠ q.val := by
      intro heq
      have hsame : (⟨i, hi⟩ : ProcNo) = q := Fin.ext heq
      exact hrun (hsame ▸ h.runnable)
    rw [State.visit, if_pos hrun]
    apply h.goto
    intro above below hpassed
    rw [hx] at hpassed
    rcases hpassed with ⟨hlt, hnil, habove, hr⟩ | ⟨hle, hbelow, hr⟩
    · exact Or.inl ⟨Nat.lt_succ_of_lt hlt, hnil, fun p hp => Nat.lt_succ_of_lt (habove p hp), hr⟩
    · exact Or.inr ⟨Nat.lt_of_le_of_ne hle hiq, fun p hp => Nat.lt_succ_of_lt (hbelow p hp), hr⟩

theorem next_waiting {e : Event κ} (h : Waiting q s) (he : Enabled s e) :
    (∃ c, q ∈ (next s e).dispatched c) ∨ Waiting q (next s e) := by
  cases e with
  | enter c =>
    right
    refine Waiting.of_same (s := s.goto c (.visiting 0)) (h.goto ?_) rfl rfl rfl rfl
    rw [he.1]
    rintro above below ⟨rfl, hr⟩
    exact Or.inr ⟨Nat.zero_le _, by simp, hr⟩
  | visit c =>
    obtain ⟨i, hi, hx⟩ := he
    simp only [next, hx, hi, dif_pos]
    exact (visit_waiting h hx hi).imp_left fun hq => ⟨c, hq⟩
  | leave c =>
    right
    obtain ⟨above, below, hsplit⟩ := h.split c
    have hpassed := hsplit.passed
    rw [he] at hpassed
    rcases hpassed with ⟨-, hnil, -, hr⟩ | ⟨hle, -⟩
    · refine h.move rfl rfl (Function.update_eq_self c _).symm rfl ⟨above, below, ?_⟩
      exact { hsplit with passed := ⟨hnil, by omega⟩ }
    · exact absurd hle (Nat.not_le_of_lt q.isLt)
  | acquire c => exact Or.inr (h.of_same rfl rfl rfl rfl)
  | release c => exact Or.inr (h.of_same rfl rfl rfl rfl)
  | change c p st =>
    right
    obtain ⟨r, -, -, hch⟩ := he
    refine h.of_same (Function.update_of_ne ?_ _ _) rfl rfl rfl
    -- nobody changes the state of a process that waits to run
    rintro rfl
    rw [h.runnable] at hch
    cases hch
  | sched c =>
    right
    obtain ⟨r, hx, -⟩ := he
    simp only [next, hx]
    apply h.goto
    intro above below hpassed
    rw [hx] at hpassed
    rcases hpassed with ⟨hle, hnil, habove, hr⟩ | ⟨hlt, hbelow, hr⟩
    · exact Or.inl ⟨Nat.lt_succ_of_le hle, hnil, fun p hp => Nat.lt_succ_of_le (habove p hp), hr⟩
    · exact Or.inr ⟨hlt, fun p hp => Nat.lt_succ_of_le (hbelow p hp), hr⟩

theorem dispatched_kept {e : Event κ} (hq : q ∈ s.dispatched c) : q ∈ (next s e).dispatched c := by
  cases e with
  | visit d =>
    cases hx : s.place d with
    | visiting i =>
      simp only [next, hx]
      split
      · unfold State.visit
        split
        · exact hq
        · by_cases hcd : c = d
          · subst hcd
            simp [hq]
          · simpa [hcd] using hq
      · exact hq
    | outside => simpa only [next, hx] using hq
    | running r => simpa only [next, hx] using hq
  | sched d =>
    cases hx : s.place d with
    | running r =>
      simp only [next, hx]
      exact hq
    | outside => simpa only [next, hx] using hq
    | visiting i => simpa only [next, hx] using hq
  | enter d => exact hq
  | leave d => exact hq
  | acquire d => exact hq
  | release d => exact hq
  | change d p st => exact hq

/-- A process that is RUNNABLE stays so until a CPU runs it, and before that each CPU runs each
other process once at most, and comes to the end of the table once at most. -/
theorem passed_over_once {s₀ : State κ} {es : List (Event κ)} (hw : s₀.state q = .runnable)
    (hd : ∀ c, s₀.dispatched c = []) (hr : ∀ c, s₀.rounds c = 0)
    (r : Run machine.Step (· = s₀) es s) (hq : ∀ c, q ∉ s.dispatched c) :
    s.state q = .runnable ∧
      ∀ c, (s.dispatched c).Nodup ∧ (s.dispatched c).length < NPROC ∧ s.rounds c ≤ 1 := by
  have hinv : (∃ c, q ∈ s.dispatched c) ∨ Waiting q s := by
    refine r.invariant (I := fun s => (∃ c, q ∈ s.dispatched c) ∨ Waiting q s) ?_ ?_
    · rintro s rfl
      refine Or.inr ⟨hw, fun c => ⟨[], [], hd c, List.Pairwise.nil, List.Pairwise.nil, by simp,
        by simp, ?_⟩⟩
      rw [hr c]
      cases s.place c with
      | outside => exact ⟨rfl, Nat.zero_le _⟩
      | visiting i =>
        by_cases hi : q.val < i
        · exact Or.inl ⟨hi, rfl, by simp, rfl⟩
        · exact Or.inr ⟨by omega, by simp, Nat.zero_le _⟩
      | running p =>
        by_cases hp : q ≤ p
        · exact Or.inl ⟨hp, rfl, by simp, rfl⟩
        · exact Or.inr ⟨lt_of_not_ge hp, by simp, Nat.zero_le _⟩
    · rintro s e t (⟨c, hc⟩ | h) ⟨he, rfl⟩
      · exact Or.inl ⟨c, dispatched_kept hc⟩
      · exact next_waiting h he
  rcases hinv with ⟨c, hc⟩ | h
  · exact absurd hc (hq c)
  refine ⟨h.runnable, fun c => ?_⟩
  obtain ⟨above, below, hsplit⟩ := h.split c
  have hnodup : (s.dispatched c).Nodup := by
    rw [hsplit.append]
    refine List.nodup_append.mpr ⟨hsplit.above_sorted.imp ne_of_lt,
      hsplit.below_sorted.imp ne_of_lt, ?_⟩
    intro a ha b hb
    exact ne_of_gt ((hsplit.earlier b hb).trans (hsplit.later a ha))
  have hcount := (List.nodup_cons.mpr ⟨hq c, hnodup⟩).length_le_card
  rw [Fintype.card_fin, List.length_cons] at hcount
  refine ⟨hnodup, hcount, ?_⟩
  have hpassed := hsplit.passed
  unfold Passed at hpassed
  split at hpassed
  · exact hpassed.2
  · rcases hpassed with ⟨-, -, -, hr⟩ | ⟨-, -, hr⟩
    · omega
    · exact hr
  · rcases hpassed with ⟨-, -, -, hr⟩ | ⟨-, -, hr⟩
    · omega
    · exact hr

/-- The first process gives up the CPU, the next two wait to run. -/
def twoWaiting : State (Fin 2) where
  state p := if p.val = 0 then .running else if p.val < 3 then .runnable else .unused
  place c := if c = p0 then .running ⟨0, NPROC_pos⟩ else .outside
  holder := some p0
  dispatched _ := []
  rounds _ := 0

def yielded : List (Event (Fin 2)) := [.change p0 ⟨0, NPROC_pos⟩ .runnable, .sched p0, .visit p0]

theorem passed_over_once_yielded :
    (yielded.foldl next twoWaiting).dispatched p0 = [⟨1, one_lt_NPROC⟩] ∧
      (yielded.foldl next twoWaiting).state ⟨2, by decide⟩ = .runnable ∧
      ∀ c, ((yielded.foldl next twoWaiting).dispatched c).Nodup ∧
        ((yielded.foldl next twoWaiting).dispatched c).length < NPROC ∧
        (yielded.foldl next twoWaiting).rounds c ≤ 1 := by
  have hyield : machine.Step twoWaiting (.change p0 ⟨0, NPROC_pos⟩ .runnable) _ :=
    ⟨⟨_, rfl, rfl, .yield rfl⟩, rfl⟩
  have hsched : machine.Step (next twoWaiting (.change p0 ⟨0, NPROC_pos⟩ .runnable)) (.sched p0) _ :=
    ⟨⟨_, rfl, rfl, by decide⟩, rfl⟩
  have hvisit : machine.Step (next (next twoWaiting (.change p0 ⟨0, NPROC_pos⟩ .runnable))
      (.sched p0)) (.visit p0) _ := ⟨⟨1, by decide, rfl⟩, rfl⟩
  have r₀ : Run machine.Step (· = twoWaiting) [] twoWaiting := .nil rfl
  have r : Run machine.Step (· = twoWaiting) yielded (yielded.foldl next twoWaiting) :=
    .snoc (.snoc (.snoc r₀ hyield) hsched) hvisit
  refine ⟨by decide, passed_over_once (by decide) (fun _ => rfl) (fun _ => rfl) r ?_⟩
  decide

end SchedulerRounds
