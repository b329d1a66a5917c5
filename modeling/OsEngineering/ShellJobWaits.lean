import OsEngineering.ShellJobPlaces
import Mathlib.Data.Finset.Card
import Mathlib.Order.Interval.Finset.Nat

/-! What the processes of the shell wait for. -/
namespace ShellJobs

variable {s t : State} {p q r : ℕ} {x y : Path} {turn : Turn} {c k : Control}

/-- The calls of wait() that are still to come. -/
def Control.owed : Control → ℕ
  | .join _ | .fork2 _ => 1
  | .waits n => n
  | _ => 0

/-- `q` is a child of `r`, and not one of a BACK. -/
def State.Job (s : State) (r q : ℕ) : Prop :=
  (s.proc q).life ≠ .gone ∧ (s.proc q).parent = some r ∧ (s.proc q).origin.head? ≠ some .back

instance (s : State) (r q : ℕ) : Decidable (s.Job r q) := inferInstanceAs (Decidable (_ ∧ _))

def State.jobs (s : State) (r : ℕ) : Finset ℕ := (Finset.range s.count).filter (s.Job r)

/-- The process has ended before it could wait for its children: it was killed, or its second
fork() has failed. -/
def State.Early (s : State) (r : ℕ) : Prop :=
  r < s.count ∧ (s.proc r).life ≠ .alive ∧ 0 < (s.proc r).control.owed

structure Waits (s : State) : Prop where
  owed : ∀ r, s.Alive r → (s.jobs r).card = (s.proc r).control.owed
  parent : ∀ q r, s.Unreaped q → (s.proc q).parent = some r → r < q ∧ s.Alive r ∧
    ∃ turn, (s.proc q).origin = turn :: (s.proc r).path ∧
      (turn = .back → (s.proc r).control = .waits 0)
  held : ∀ q turn x, s.Unreaped q → (s.proc q).origin = turn :: x → turn ≠ .back →
    ∃ r < s.count, (s.proc r).path = x ∧
      ((s.Alive r ∧ (s.proc q).parent = some r) ∨ s.Early r)

theorem mem_jobs : q ∈ s.jobs r ↔ q < s.count ∧ s.Job r q := by
  simp [State.jobs]

namespace State

theorem Alive.ne_zombie (hr : s.Alive r) (hlife : (s.proc q).life = .zombie) : r ≠ q := by
  rintro rfl
  simp [hr.2] at hlife

theorem Early.ne_alive (hr : s.Early r) (hp : s.Alive p) : r ≠ p := by
  rintro rfl
  exact hr.2.1 hp.2

theorem jobs_advance : (s.advance p y k).jobs r = s.jobs r := by
  ext q
  simp [mem_jobs, Job, advance_same]

theorem jobs_bury : (s.bury q).jobs r = (s.jobs r).erase q := by
  ext a
  rcases eq_or_ne a q with rfl | hne
  · simp [mem_jobs, Job, bury_self]
  · simp [mem_jobs, Job, bury_of_ne hne, hne]

/-- The child of a fork() is a child to wait for, unless it is one of a BACK. -/
theorem jobs_fork : (s.fork p turn c k).jobs r =
    if r = p ∧ turn ≠ .back then insert s.count (s.jobs r) else s.jobs r := by
  ext q
  rcases lt_trichotomy q s.count with hq | rfl | hq
  · have hne := hq.ne
    have hjob : (s.fork p turn c k).Job r q ↔ s.Job r q := by simp [Job, fork_old hq]
    split <;> simp [mem_jobs, lt_fork_count, hjob, hq, hne]
  · have hnew : (s.fork p turn c k).Job r s.count ↔ r = p ∧ turn ≠ .back := by
      simp [Job, fork_child, eq_comm]
    split <;> simp_all [mem_jobs, lt_fork_count]
  · have hne := hq.ne'
    have hnot := hq.not_gt
    split <;> simp [mem_jobs, lt_fork_count, hne, hnot]

end State

namespace Waits

theorem job (h : Waits s) (hq : s.Unreaped q) (hr : (s.proc q).parent = some r)
    (hk : (s.proc r).control ≠ .waits 0) : q ∈ s.jobs r := by
  obtain ⟨-, -, turn, horigin, hback⟩ := h.parent q r hq hr
  rw [mem_jobs]
  refine ⟨hq.1, hq.2, hr, ?_⟩
  simpa [horigin] using fun heq => hk (hback heq)

/-- Where nothing is owed there are no children. -/
theorem childless (h : Waits s) (hp : s.Alive p) (howed : (s.proc p).control.owed = 0)
    (hk : (s.proc p).control ≠ .waits 0) (hq : s.Unreaped q) : (s.proc q).parent ≠ some p := by
  intro hpar
  have hmem := h.job hq hpar hk
  rw [← h.owed p hp, Finset.card_eq_zero] at howed
  simp [howed] at hmem

theorem exists_child (h : Waits s) (hp : s.Alive p) (howed : 0 < (s.proc p).control.owed) :
    ∃ q, s.Unreaped q ∧ (s.proc q).parent = some p := by
  rw [← h.owed p hp, Finset.card_pos] at howed
  obtain ⟨q, hq⟩ := howed
  obtain ⟨hlt, hlife, hpar, -⟩ := mem_jobs.mp hq
  exact ⟨q, ⟨hlt, hlife⟩, hpar⟩

/-- A process goes on with its children, or it has none. -/
theorem advance (h : Waits s) (hp : s.Alive p) (hk : k.owed = (s.proc p).control.owed)
    (h0 : (s.proc p).control ≠ .waits 0)
    (hpath : y = (s.proc p).path ∨ (s.proc p).control.owed = 0) : Waits (s.advance p y k) := by
  have hself : (s.advance p y k).proc p = { s.proc p with path := y, control := k } :=
    State.advance_self
  have hother : ∀ q, q ≠ p → (s.advance p y k).proc q = s.proc q := fun _ => State.advance_of_ne
  have hsame : ∀ q, ((s.advance p y k).proc q).life = (s.proc q).life ∧
      ((s.advance p y k).proc q).parent = (s.proc q).parent ∧
      ((s.advance p y k).proc q).origin = (s.proc q).origin ∧
      ((s.advance p y k).proc q).control.owed = (s.proc q).control.owed := by
    intro q
    rcases eq_or_ne q p with rfl | hne
    · simp [hself, hk]
    · simp [hother q hne]
  have halive : ∀ q, (s.advance p y k).Alive q ↔ s.Alive q := fun _ => State.alive_advance
  have hun : ∀ q, (s.advance p y k).Unreaped q ↔ s.Unreaped q := fun _ => State.unreaped_advance
  -- a child still comes from the place its parent is at
  have hplace : ∀ q r, s.Unreaped q → (s.proc q).parent = some r →
      ((s.advance p y k).proc r).path = (s.proc r).path := by
    intro q r hq hr
    rcases eq_or_ne r p with rfl | hne
    · rcases hpath with rfl | hzero
      · simp [hself]
      · exact absurd hr (h.childless hp hzero h0 hq)
    · rw [hother r hne]
  constructor
  · intro r hr
    rw [State.jobs_advance, (hsame r).2.2.2]
    exact h.owed r ((halive r).mp hr)
  · intro q r hq hr
    rw [hun] at hq
    rw [(hsame q).2.1] at hr
    obtain ⟨hlt, hr', turn, horigin, hback⟩ := h.parent q r hq hr
    refine ⟨hlt, (halive r).mpr hr', turn, ?_, ?_⟩
    · rw [(hsame q).2.2.1, hplace q r hq hr]
      exact horigin
    · intro heq
      have hne : r ≠ p := by
        rintro rfl
        exact h0 (hback heq)
      rw [hother r hne]
      exact hback heq
  · intro q turn x hq horigin hne
    rw [hun] at hq
    rw [(hsame q).2.2.1] at horigin
    obtain ⟨r, hr, hx, hheld⟩ := h.held q turn x hq horigin hne
    rcases hheld with ⟨ha, hpar⟩ | hearly
    · refine ⟨r, hr, ?_, Or.inl ⟨(halive r).mpr ha, ?_⟩⟩
      · rw [hplace q r hq hpar, hx]
      · rw [(hsame q).2.1, hpar]
    · refine ⟨r, hr, ?_, Or.inr ?_⟩
      · rw [hother r (hearly.ne_alive hp), hx]
      · simpa [State.Early, hsame] using hearly

theorem fork (h : Waits s) (hp : s.Alive p) (h0 : (s.proc p).control ≠ .waits 0)
    (hk : k.owed = (s.proc p).control.owed + if turn = .back then 0 else 1)
    (hback : turn = .back → k = .waits 0) (hc : c.owed = 0) : Waits (s.fork p turn c k) := by
  have hself : (s.fork p turn c k).proc p = { s.proc p with control := k } := State.fork_self hp.1
  have hother : ∀ q < s.count, q ≠ p → (s.fork p turn c k).proc q = s.proc q :=
    fun _ hq hne => State.fork_of_ne hne hq
  have hchild : (s.fork p turn c k).proc s.count =
      ⟨some p, turn :: (s.proc p).path, turn :: (s.proc p).path, c, .alive⟩ := State.fork_child
  have hold : ∀ q < s.count, ((s.fork p turn c k).proc q).life = (s.proc q).life ∧
      ((s.fork p turn c k).proc q).parent = (s.proc q).parent ∧
      ((s.fork p turn c k).proc q).origin = (s.proc q).origin ∧
      ((s.fork p turn c k).proc q).path = (s.proc q).path := fun _ => State.fork_old
  have hcount : ∀ q, q < (s.fork p turn c k).count ↔ q < s.count ∨ q = s.count :=
    fun _ => State.lt_fork_count
  have halive : ∀ q < s.count, (s.fork p turn c k).Alive q ↔ s.Alive q :=
    fun _ => State.alive_fork
  have hun : ∀ q < s.count, (s.fork p turn c k).Unreaped q ↔ s.Unreaped q :=
    fun _ => State.unreaped_fork
  constructor
  · intro r hr
    rcases (hcount r).mp hr.1 with hlt | rfl
    · rw [halive r hlt] at hr
      rcases eq_or_ne r p with rfl | hne
      · have hfresh : s.count ∉ s.jobs r := by simp [mem_jobs]
        rw [State.jobs_fork, hself, hk, ← h.owed r hr]
        by_cases hb : turn = .back
        · simp [hb]
        · simp [hb, hfresh]
      · rw [State.jobs_fork, if_neg (by simp [hne]), hother r hlt hne]
        exact h.owed r hr
    · have hp' : s.count ≠ p := hp.1.ne'
      rw [State.jobs_fork, if_neg (by simp [hp']), hchild]
      rw [hc, Finset.card_eq_zero, Finset.eq_empty_iff_forall_notMem]
      intro q hq
      obtain ⟨hlt, hlife, hpar, -⟩ := mem_jobs.mp hq
      have hrange := (h.parent q _ ⟨hlt, hlife⟩ hpar).1
      omega
  · intro q r hq hr
    rcases (hcount q).mp hq.1 with hlt | rfl
    · rw [hun q hlt] at hq
      rw [(hold q hlt).2.1] at hr
      obtain ⟨hrq, hr', turn', horigin, hback'⟩ := h.parent q r hq hr
      refine ⟨hrq, (halive r hr'.1).mpr hr', turn', ?_, ?_⟩
      · rw [(hold q hlt).2.2.1, (hold r hr'.1).2.2.2, horigin]
      · intro heq
        have hne : r ≠ p := by
          rintro rfl
          exact h0 (hback' heq)
        rw [hother r hr'.1 hne]
        exact hback' heq
    · rw [hchild] at hr
      obtain rfl : p = r := Option.some.inj hr
      refine ⟨hp.1, (halive p hp.1).mpr hp, turn, ?_, ?_⟩
      · rw [hchild, hself]
      · simpa [hself] using hback
  · intro q turn' x hq horigin hne
    rcases (hcount q).mp hq.1 with hlt | rfl
    · rw [hun q hlt] at hq
      rw [(hold q hlt).2.2.1] at horigin
      obtain ⟨r, hr, hx, hheld⟩ := h.held q turn' x hq horigin hne
      refine ⟨r, (hcount r).mpr (Or.inl hr), (hold r hr).2.2.2.trans hx, ?_⟩
      rcases hheld with ⟨ha, hpar⟩ | hearly
      · exact Or.inl ⟨(halive r hr).mpr ha, (hold q hlt).2.1.trans hpar⟩
      · have hkeep := hother r hr (hearly.ne_alive hp)
        exact Or.inr ⟨(hcount r).mpr (Or.inl hr), by rw [hkeep]; exact hearly.2.1, by
          rw [hkeep]; exact hearly.2.2⟩
    · simp only [hchild, List.cons.injEq] at horigin
      refine ⟨p, (hcount p).mpr (Or.inl hp.1), ?_, Or.inl ⟨(halive p hp.1).mpr hp, ?_⟩⟩
      · rw [hself]
        exact horigin.2
      · rw [hchild]

/-- exit() leaves its children to init. -/
theorem parent_exit (h : Waits s) (hq : s.Unreaped q) :
    ((s.exit p).proc q).parent = some r ↔ (s.proc q).parent = some r ∧ r ≠ p := by
  rcases eq_or_ne q p with rfl | hne
  · simp only [State.exit_self, iff_self_and]
    intro hr
    exact (h.parent q r hq hr).1.ne
  · rw [State.exit_of_ne hne]
    by_cases heq : (s.proc q).parent = some p
    · simp [heq, eq_comm]
    · simp only [if_neg heq, iff_self_and]
      rintro hr rfl
      exact heq hr

theorem jobs_exit (h : Waits s) (hp : s.Alive p) (hne : r ≠ p) :
    (s.exit p).jobs r = s.jobs r := by
  ext q
  simp only [mem_jobs, State.Job, (s.exit_same p q).1]
  constructor
  · rintro ⟨hlt, hl, hpar, hhead⟩
    have hu : s.Unreaped q := (State.unreaped_exit hp).mp ⟨hlt, hl⟩
    exact ⟨hlt, hu.2, ((h.parent_exit hu).mp hpar).1, hhead⟩
  · rintro ⟨hlt, hl, hpar, hhead⟩
    have hu : s.Unreaped q := ⟨hlt, hl⟩
    exact ⟨hlt, ((State.unreaped_exit hp).mpr hu).2, (h.parent_exit hu).mpr ⟨hpar, hne⟩, hhead⟩

theorem exit (h : Waits s) (hp : s.Alive p) : Waits (s.exit p) := by
  have halive : ∀ q, (s.exit p).Alive q ↔ s.Alive q ∧ q ≠ p := fun _ => State.alive_exit
  have hun : ∀ q, (s.exit p).Unreaped q ↔ s.Unreaped q := fun _ => State.unreaped_exit hp
  constructor
  · intro r hr
    obtain ⟨hr, hne⟩ := (halive r).mp hr
    rw [h.jobs_exit hp hne, (s.exit_same p r).2.2]
    exact h.owed r hr
  · intro q r hq hr
    rw [hun] at hq
    obtain ⟨hpar, hne⟩ := (h.parent_exit hq).mp hr
    obtain ⟨hlt, hr', hplace⟩ := h.parent q r hq hpar
    refine ⟨hlt, (halive r).mpr ⟨hr', hne⟩, ?_⟩
    simpa only [(s.exit_same p q).1, (s.exit_same p r).2.1, (s.exit_same p r).2.2] using hplace
  · intro q turn x hq horigin hne
    rw [hun] at hq
    rw [(s.exit_same p q).1] at horigin
    obtain ⟨r, hr, hx, hheld⟩ := h.held q turn x hq horigin hne
    refine ⟨r, hr, (s.exit_same p r).2.1.trans hx, ?_⟩
    rcases hheld with ⟨ha, hpar⟩ | hearly
    · rcases eq_or_ne r p with rfl | hrp
      · -- its child is left behind
        have hjob : q ∈ s.jobs r := by
          rw [mem_jobs]
          exact ⟨hq.1, hq.2, hpar, by simpa [horigin] using hne⟩
        have hpos := Finset.card_pos.mpr ⟨q, hjob⟩
        rw [h.owed r ha] at hpos
        exact Or.inr ⟨hr, by simp [State.exit_self], by simpa [State.exit_self] using hpos⟩
      · exact Or.inl ⟨(halive r).mpr ⟨ha, hrp⟩, (h.parent_exit hq).mpr ⟨hpar, hrp⟩⟩
    · refine Or.inr ⟨hr, ?_, ?_⟩
      · rw [State.exit_of_ne (hearly.ne_alive hp)]
        exact hearly.2.1
      · rw [(s.exit_same p r).2.2]
        exact hearly.2.2

theorem adopt (h : Waits s) (hlife : (s.proc q).life = .zombie) (hpar : (s.proc q).parent = none) :
    Waits (s.bury q) := by
  have halive : ∀ r, (s.bury q).Alive r ↔ s.Alive r := fun _ => State.alive_bury hlife
  have hun : ∀ r, (s.bury q).Unreaped r → s.Unreaped r ∧ r ≠ q := fun _ => State.unreaped_bury.mp
  have hsame : ∀ r, ((s.bury q).proc r).path = (s.proc r).path ∧
      ((s.bury q).proc r).control = (s.proc r).control := fun r => (State.bury_same q r).2.2
  constructor
  · intro r hr
    have hnot : q ∉ s.jobs r := by simp [mem_jobs, State.Job, hpar]
    rw [State.jobs_bury, Finset.erase_eq_of_notMem hnot, (hsame r).2]
    exact h.owed r ((halive r).mp hr)
  · intro a r ha hr
    obtain ⟨hu, hne⟩ := hun a ha
    rw [State.bury_of_ne hne] at hr ⊢
    simpa only [halive, hsame] using h.parent a r hu hr
  · intro a turn x ha horigin hturn
    obtain ⟨hu, hne⟩ := hun a ha
    rw [State.bury_of_ne hne] at horigin ⊢
    obtain ⟨r, hr, hx, hheld⟩ := h.held a turn x hu horigin hturn
    refine ⟨r, hr, (hsame r).1.trans hx, ?_⟩
    rcases hheld with ⟨hlive, hpar'⟩ | ⟨-, hdead, howed⟩
    · exact Or.inl ⟨(halive r).mpr hlive, hpar'⟩
    · refine Or.inr ⟨hr, ?_, ?_⟩
      · exact fun hlive => hdead ((halive r).mp ⟨hr, hlive⟩).2
      · rw [(hsame r).2]
        exact howed

/-- wait() returns a child, and the process goes on. -/
theorem reap (h : Waits s) (hp : s.Alive p) (hq : q < s.count) (hlife : (s.proc q).life = .zombie)
    (hpar : (s.proc q).parent = some p) (h0 : (s.proc p).control ≠ .waits 0)
    (hk : k.owed + 1 = (s.proc p).control.owed) (hpath : y = (s.proc p).path ∨ k.owed = 0) :
    Waits ((s.bury q).advance p y k) := by
  have hqu : s.Unreaped q := ⟨hq, by simp [hlife]⟩
  have hjob := h.job hqu hpar h0
  have hpq := hp.ne_zombie hlife
  have hself : ((s.bury q).advance p y k).proc p = { s.proc p with path := y, control := k } := by
    rw [State.advance_self, State.bury_of_ne hpq]
  have hgone : ((s.bury q).advance p y k).proc q = { s.proc q with life := .gone } := by
    rw [State.advance_of_ne hpq.symm, State.bury_self]
  have hother : ∀ r, r ≠ p → r ≠ q → ((s.bury q).advance p y k).proc r = s.proc r := by
    intro r hrp hrq
    rw [State.advance_of_ne hrp, State.bury_of_ne hrq]
  have hsame : ∀ r, ((s.bury q).advance p y k).Unreaped r ↔ s.Unreaped r ∧ r ≠ q :=
    fun _ => State.unreaped_advance.trans State.unreaped_bury
  have halive : ∀ r, ((s.bury q).advance p y k).Alive r ↔ s.Alive r :=
    fun _ => State.alive_advance.trans (State.alive_bury hlife)
  have horigin : ∀ r, (((s.bury q).advance p y k).proc r).origin = (s.proc r).origin ∧
      (((s.bury q).advance p y k).proc r).parent = (s.proc r).parent := by
    intro r
    obtain ⟨-, hparent, horigin⟩ := State.advance_same p r (s := s.bury q) (x := y) (k := k)
    obtain ⟨hparent', horigin', -⟩ := State.bury_same q r (s := s)
    exact ⟨horigin.trans horigin', hparent.trans hparent'⟩
  have hjobs : ∀ r, ((s.bury q).advance p y k).jobs r = (s.jobs r).erase q :=
    fun _ => State.jobs_advance.trans State.jobs_bury
  -- the other children are waited for at the same place
  have hplace : ∀ a r, s.Unreaped a → a ≠ q → (s.proc a).parent = some r →
      (((s.bury q).advance p y k).proc r).path = (s.proc r).path := by
    intro a r ha hne har
    rcases eq_or_ne r p with rfl | hrp
    · rcases hpath with rfl | hzero
      · rw [hself]
      · have hcard := Finset.card_erase_of_mem hjob
        rw [h.owed r hp, ← hk, hzero, Nat.zero_add, Nat.sub_self, Finset.card_eq_zero] at hcard
        have hmem := Finset.mem_erase.mpr ⟨hne, h.job ha har h0⟩
        simp [hcard] at hmem
    · obtain ⟨-, hr, -⟩ := h.parent a r ha har
      rw [hother r hrp (hr.ne_zombie hlife)]
  constructor
  · intro r hr
    rw [halive] at hr
    rw [hjobs]
    rcases eq_or_ne r p with rfl | hrp
    · rw [Finset.card_erase_of_mem hjob, h.owed r hr, hself, ← hk, Nat.add_sub_cancel]
    · have hnot : q ∉ s.jobs r := by
        intro hmem
        obtain ⟨-, -, hpar', -⟩ := mem_jobs.mp hmem
        rw [hpar] at hpar'
        exact hrp (Option.some.inj hpar').symm
      rw [Finset.erase_eq_of_notMem hnot, hother r hrp (hr.ne_zombie hlife)]
      exact h.owed r hr
  · intro a r ha hr
    obtain ⟨hu, hne⟩ := (hsame a).mp ha
    rw [(horigin a).2] at hr
    obtain ⟨hlt, hr', turn, ho, hback⟩ := h.parent a r hu hr
    refine ⟨hlt, (halive r).mpr hr', turn, ?_, ?_⟩
    · rw [(horigin a).1, hplace a r hu hne hr, ho]
    · intro hturn
      have hrp : r ≠ p := by
        rintro rfl
        exact h0 (hback hturn)
      rw [hother r hrp (hr'.ne_zombie hlife)]
      exact hback hturn
  · intro a turn x ha ho hturn
    obtain ⟨hu, hne⟩ := (hsame a).mp ha
    rw [(horigin a).1] at ho
    obtain ⟨r, hr, hx, hheld⟩ := h.held a turn x hu ho hturn
    rcases hheld with ⟨hlive, har⟩ | ⟨-, hdead, howed⟩
    · refine ⟨r, hr, ?_, Or.inl ⟨(halive r).mpr hlive, ?_⟩⟩
      · rw [hplace a r hu hne har, hx]
      · rw [(horigin a).2, har]
    · have hrp : r ≠ p := by
        rintro rfl
        exact hdead hp.2
      refine ⟨r, hr, ?_, Or.inr ⟨hr, ?_, ?_⟩⟩
      · rcases eq_or_ne r q with rfl | hrq
        · rw [hgone]
          exact hx
        · rw [hother r hrp hrq, hx]
      · exact fun hlive => hdead ((halive r).mp ⟨hr, hlive⟩).2
      · rcases eq_or_ne r q with rfl | hrq
        · rw [hgone]
          exact howed
        · rw [hother r hrp hrq]
          exact howed

end Waits

end ShellJobs
