import OsEngineering.WakeupDelivery

/-! What one event of sleep() and wakeup() changes: the process it is about, its CPU, and
nothing else of the others. -/
set_option linter.unusedSectionVars false

namespace SleepSteps

open TransitionSystem SleepWakeup SleepHandover WakeupDelivery

variable {π κ χ L : Type*}

/-- The process an event is a step of, with its CPU. The others are steps of a scheduler. -/
def runner : Event π κ χ L → Option (κ × π)
  | .acquire c p _ | .release c p _ | .sleep c p _ _ | .wakeup c p _ | .wakeup1 c p _
  | .kill c p _ | .fork c p _ | .exit c p | .proceed c p | .timer c p => some (c, p)
  | .schedAcquire _ | .schedRelease _ | .schedule _ _ => none

variable [DecidableEq π] [DecidableEq κ] [DecidableEq χ] [DecidableEq L]
variable {s t : State π κ χ L} {c : κ} {p : π} {e : Event π κ χ L}

theorem local_refl (s : State π κ χ L) (c : κ) (p : π) : Local c p s s :=
  ⟨fun _ _ => rfl, Or.inl rfl, fun _ _ _ => Iff.rfl, fun _ _ => Or.inl rfl, fun _ _ => rfl,
    fun _ _ => rfl, fun _ _ => rfl, fun _ _ => rfl, fun _ _ => rfl, fun _ _ => rfl⟩

theorem releasedAt_local (s : State π κ χ L) (c : κ) (p : π) (x : Option ℕ) :
    Local c p s { s with releasedAt := Function.update s.releasedAt p x } :=
  ⟨fun _ _ => rfl, Or.inl rfl, fun _ _ _ => Iff.rfl, fun _ _ => Or.inl rfl, fun _ _ => rfl,
    fun _ _ => rfl, fun _ _ => rfl, fun _ hq => Function.update_of_ne hq .., fun _ _ => rfl,
    fun _ _ => rfl⟩

/-- Another process is only made RUNNABLE. -/
theorem runnable_local (s : State π κ χ L) (c : κ) (p : π) {q : π} (hq : s.state q ≠ .running) :
    Local c p s (s.setState q .runnable) := by
  refine ⟨fun _ _ => rfl, Or.inl rfl, fun _ _ _ => Iff.rfl, ?_, fun _ _ => rfl, fun _ _ => rfl,
    fun _ _ => rfl, fun _ _ => rfl, fun _ _ => rfl, fun _ _ => rfl⟩
  intro w _
  rcases eq_or_ne w q with rfl | hw
  · exact Or.inr ⟨hq, by simp [State.setState]⟩
  · exact Or.inl (by simp [State.setState, hw])

theorem sleepTidy_local {l : Lock L} (hok : (sleepTidy s c p l).halted = none) :
    Local c p s (sleepTidy s c p l) := by
  have hchan := setChan_local s c p none
  simp only [sleepTidy] at hok ⊢
  split
  · exact hchan.trans (goto_local _ c p _)
  · next hl =>
    rw [if_neg hl] at hok
    exact (hchan.trans (release_local p hok)).trans (goto_local _ c p _)

theorem advance_local (hw : ∀ l ∈ wants .no (s.point p), CanAcquire s c l)
    (hok : (advance s c p (s.point p)).halted = none) :
    Local c p s (advance s c p (s.point p)) := by
  generalize hx : s.point p = x at hw hok
  cases x with
  | forkret => exact (release_local p hok).trans (goto_local _ c p _)
  | sleepLock ch l =>
    exact ((acquire_local p (hw _ rfl) hok).trans (note_local _ c p _)).trans (goto_local _ c p _)
  | sleepUnlock ch l =>
    exact ((release_local p hok).trans (markRelease_local _ c p)).trans (goto_local _ c p _)
  | sleepSwitch ch l => exact (fallAsleep_local s c p ch l).trans (sched_local hok)
  | asleep ch l => exact sleepTidy_local hok
  | relock l =>
    exact ((acquire_local p (hw _ rfl) hok).trans (note_local _ c p _)).trans (goto_local _ c p _)
  | wakeup ch =>
    exact (((acquire_local p (hw _ rfl) hok).trans (note_local _ c p _)).trans
      (wakeup1_local _ c p ch)).trans (goto_local _ c p _)
  | wakeupUnlock ch => exact (release_local p hok).trans (goto_local _ c p _)
  | wakeupReturn ch => exact goto_local _ c p _
  | code | exited => exact local_refl s c p

theorem setPreempt_after (k : Local c p s t) (ht : t.preempt = s.preempt) (x : Preempt) :
    Local c p s { t with preempt := Function.update s.preempt p x } := by
  rw [← ht]
  exact k.trans (setPreempt_local t c p x)

theorem proceed_local (hw : ∀ l ∈ wants (s.preempt p) (s.point p), CanAcquire s c l)
    (hok : (proceed s c p).halted = none) : Local c p s (proceed s c p) := by
  simp only [proceed] at hok ⊢
  cases hx : s.preempt p with
  | no =>
    simp only [hx] at hok hw ⊢
    exact advance_local hw hok
  | locked =>
    simp only [hx] at hok ⊢
    exact ((setPreempt_local s c p _).trans (setState_local _ c p _)).trans (sched_local hok)
  | switched =>
    simp only [hx] at hok ⊢
    exact setPreempt_after (release_local p hok) (by simp [(release_ok hok).2]) _

theorem update_local (he : Enabled s e) (hr : runner e = some (c, p))
    (hok : (update s e).halted = none) : Local c p s (update s e) := by
  obtain ⟨-, he⟩ := he
  cases e <;> simp only [runner, Option.some.injEq, Prod.mk.injEq, reduceCtorEq] at hr <;>
    obtain ⟨rfl, rfl⟩ := hr
  case acquire d q l => exact (acquire_local q he.2 hok).trans (note_local _ d q l)
  case release d q l => exact release_local q hok
  case sleep d q ch l => exact (releasedAt_local s d q none).trans (goto_local _ d q _)
  case wakeup d q ch => exact (markSince_local s d q).trans (goto_local _ d q _)
  case wakeup1 d q ch =>
    exact ((markSince_local s d q).trans (wakeup1_local _ d q ch)).trans (goto_local _ d q _)
  case kill d q v =>
    simp only [update]
    split
    · next hv => exact runnable_local s d q (by simp [hv])
    · exact local_refl s d q
  case fork d q np => exact runnable_local s d q (by simp [he.2.2])
  case exit d q =>
    exact ((setState_local s d q _).trans (goto_local _ d q _)).trans (sched_local hok)
  case proceed d q => exact proceed_local he.2 hok
  case timer d q =>
    exact setPreempt_after (acquire_local q he.2.2.2 hok) (by simp [(acquire_ok hok).2]) _

theorem panic_local (s : State π κ χ L) (c : κ) (p : π) (msg : String) :
    Local c p s { s.panic msg with clock := s.clock + 1 } :=
  ⟨fun _ _ => rfl, Or.inl rfl, fun _ _ _ => Iff.rfl, fun _ _ => Or.inl rfl, fun _ _ => rfl,
    fun _ _ => rfl, fun _ _ => rfl, fun _ _ => rfl, fun _ _ => rfl, fun _ _ => rfl⟩

theorem next_local (he : Enabled s e) (hr : runner e = some (c, p)) : Local c p s (next s e) := by
  rcases next_cases s e with ⟨hok, hn⟩ | ⟨msg, hn⟩
  · rw [hn]
    exact tick_local (update_local he hr hok)
  · rw [hn]
    exact panic_local s c p msg

/-! What the lock operations and sched() leave alone, whether they panic or not. -/

@[simp] theorem acquire_proc (s : State π κ χ L) (c : κ) (l : Lock L) :
    (s.acquire c l).proc = s.proc := by
  simp only [State.acquire]
  split <;> rfl

@[simp] theorem acquire_point (s : State π κ χ L) (c : κ) (l : Lock L) :
    (s.acquire c l).point = s.point := by
  simp only [State.acquire]
  split <;> rfl

@[simp] theorem release_proc (s : State π κ χ L) (c : κ) (l : Lock L) :
    (s.release c l).proc = s.proc := by
  simp only [State.release]
  split <;> rfl

@[simp] theorem release_point (s : State π κ χ L) (c : κ) (l : Lock L) :
    (s.release c l).point = s.point := by
  simp only [State.release]
  split <;> rfl

@[simp] theorem sched_point (s : State π κ χ L) (c : κ) (p : π) :
    (s.sched c p).point = s.point := by
  simp only [State.sched]
  split
  · rfl
  · split
    · rfl
    · split <;> rfl

@[simp] theorem sched_holder (s : State π κ χ L) (c : κ) (p : π) :
    (s.sched c p).holder = s.holder := by
  simp only [State.sched]
  split
  · rfl
  · split
    · rfl
    · split <;> rfl

theorem acquire_holder {l l' : Lock L} (h : (s.acquire c l).holder l' = some c) :
    l' = l ∨ s.holder l' = some c := by
  simp only [State.acquire] at h
  split at h
  · exact Or.inr h
  · rcases eq_or_ne l' l with rfl | hl
    · exact Or.inl rfl
    · exact Or.inr (by simpa [hl] using h)

theorem release_holder {l l' : Lock L} (h : (s.release c l).holder l' = some c) :
    s.holder l' = some c := by
  simp only [State.release] at h
  split at h
  · rcases eq_or_ne l' l with rfl | hl
    · simp at h
    · simpa [hl] using h
  · exact h

@[simp] theorem fallAsleep_proc (s : State π κ χ L) (p : π) (ch : χ) (l : Lock L) :
    (fallAsleep s p ch l).proc = s.proc := by
  simp only [fallAsleep]
  split <;> rfl

@[simp] theorem fallAsleep_holder (s : State π κ χ L) (p : π) (ch : χ) (l : Lock L) :
    (fallAsleep s p ch l).holder = s.holder := by
  simp only [fallAsleep]
  split <;> rfl

/-- A process leaves its CPU through sched() only. -/
def Leaves (s t : State π κ χ L) (c : κ) (p : π) : Prop :=
  ∃ u : State π κ χ L, u.proc = s.proc ∧ t = u.sched c p

theorem advance_proc (s : State π κ χ L) (c : κ) (p : π) (x : Point χ L) :
    (advance s c p x).proc = s.proc ∨ Leaves s (advance s c p x) c p := by
  cases x with
  | sleepSwitch ch l => exact Or.inr ⟨fallAsleep s p ch l, by simp, rfl⟩
  | asleep ch l =>
    simp only [advance, sleepTidy]
    split <;> simp [State.goto]
  | _ => simp [advance, State.goto, State.note, State.markRelease, State.wakeup1]

theorem update_proc (hr : runner e = some (c, p)) :
    (update s e).proc = s.proc ∨ Leaves s (update s e) c p := by
  cases e <;> simp only [runner, Option.some.injEq, Prod.mk.injEq, reduceCtorEq] at hr <;>
    obtain ⟨rfl, rfl⟩ := hr
  case exit d q => exact Or.inr ⟨(s.setState q .zombie).goto q .exited, rfl, rfl⟩
  case kill d q v =>
    simp only [update]
    split <;> simp [State.setState]
  case proceed d q =>
    simp only [update, proceed]
    split
    · exact advance_proc s d q _
    · refine Or.inr ⟨State.setState { s with preempt := Function.update s.preempt q .switched } q
        .runnable, rfl, rfl⟩
    · simp
  all_goals
    simp [update, State.note, sleep, State.goto, State.markSince, State.wakeup1, State.setState]

/-- sched() has left ptable.lock to the scheduler. -/
theorem sched_idle (hc : s.proc c = some p) (hnone : (s.sched c p).proc c = none) :
    (s.sched c p).ncli c = 1 ∧ (s.sched c p).holder .ptable = some c := by
  simp only [State.sched] at hnone ⊢
  split at hnone
  · simp [State.panic, hc] at hnone
  · next h1 =>
    split at hnone
    · simp [State.panic, hc] at hnone
    · next h2 =>
      split at hnone
      · simp [State.panic, hc] at hnone
      · next h3 => simp_all

theorem next_idle (hr : runner e = some (c, p)) (hc : s.proc c = some p)
    (hnone : (next s e).proc c = none) :
    (next s e).ncli c = 1 ∧ (next s e).holder .ptable = some c := by
  rcases next_cases s e with ⟨-, hn⟩ | ⟨msg, hn⟩
  · rw [hn] at hnone ⊢
    simp only [tick] at hnone ⊢
    rcases update_proc (s := s) hr with hp | ⟨u, hu, hs⟩
    · rw [hp, hc] at hnone
      simp at hnone
    · rw [hs] at hnone ⊢
      exact sched_idle (by rw [hu, hc]) hnone
  · rw [hn] at hnone
    simp [State.panic, hc] at hnone

/-! cli nests on the CPU of the step only. -/

theorem acquire_ncli {d : κ} (hd : d ≠ c) (l : Lock L) : (s.acquire c l).ncli d = s.ncli d := by
  simp only [State.acquire]
  split
  · rfl
  · simp [hd]

theorem release_ncli {d : κ} (hd : d ≠ c) (l : Lock L) : (s.release c l).ncli d = s.ncli d := by
  simp only [State.release]
  split
  · simp [hd]
  · rfl

theorem sched_ncli (s : State π κ χ L) (c : κ) (p : π) : (s.sched c p).ncli = s.ncli := by
  simp only [State.sched]
  split
  · rfl
  · split
    · rfl
    · split <;> rfl

theorem fallAsleep_ncli (s : State π κ χ L) (p : π) (ch : χ) (l : Lock L) :
    (fallAsleep s p ch l).ncli = s.ncli := by
  simp only [fallAsleep]
  split <;> rfl

/-- The CPU of an event. -/
def cpu : Event π κ χ L → κ
  | .acquire c _ _ | .release c _ _ | .sleep c _ _ _ | .wakeup c _ _ | .wakeup1 c _ _
  | .kill c _ _ | .fork c _ _ | .exit c _ | .proceed c _ | .timer c _
  | .schedAcquire c | .schedRelease c | .schedule c _ => c

theorem advance_ncli {d : κ} (hd : d ≠ c) (x : Point χ L) :
    (advance s c p x).ncli d = s.ncli d := by
  cases x with
  | forkret | wakeupUnlock ch => exact release_ncli hd _
  | sleepLock ch l | wakeup ch | relock l => exact acquire_ncli hd _
  | sleepUnlock ch l => exact release_ncli hd l
  | sleepSwitch ch l => simp [advance, sleepSwitch, sched_ncli, fallAsleep_ncli]
  | asleep ch l =>
    simp only [advance, sleepTidy]
    split
    · rfl
    · exact release_ncli (s := { s with chan := Function.update s.chan p none }) hd _
  | wakeupReturn ch | code | exited => rfl

theorem update_ncli {d : κ} (hd : d ≠ cpu e) : (update s e).ncli d = s.ncli d := by
  cases e with
  | acquire c p l | timer c p | schedAcquire c => exact acquire_ncli hd _
  | release c p l | schedRelease c => exact release_ncli hd _
  | sleep | wakeup | wakeup1 | fork | schedule => rfl
  | kill c p v =>
    simp only [update]
    split <;> rfl
  | exit c p => simp [update, sched_ncli, State.goto, State.setState]
  | proceed c p =>
    simp only [update, proceed]
    split
    · exact advance_ncli hd _
    · simp [sched_ncli, State.setState]
    · exact release_ncli hd _

theorem next_ncli {d : κ} (hd : d ≠ cpu e) : (next s e).ncli d = s.ncli d := by
  rcases next_cases s e with ⟨-, hn⟩ | ⟨msg, hn⟩
  · simpa [hn, tick] using update_ncli hd
  · simp [hn, State.panic]

theorem cpu_of_runner (hr : runner e = some (c, p)) : cpu e = c := by
  cases e <;> simp_all [runner, cpu]

/-! The steps in full, where they do not panic. -/

/-- A state without its history. -/
structure View (π κ χ L : Type*) where
  holder : Lock L → Option κ
  ncli : κ → ℕ
  proc : κ → Option π
  state : π → ProcState
  chan : π → Option χ
  point : π → Point χ L
  preempt : π → Preempt
  halted : Option String

def view (s : State π κ χ L) : View π κ χ L :=
  ⟨s.holder, s.ncli, s.proc, s.state, s.chan, s.point, s.preempt, s.halted⟩

theorem view_fields {v : View π κ χ L} (h : view s = v) : s.holder = v.holder ∧ s.ncli = v.ncli ∧
    s.proc = v.proc ∧ s.state = v.state ∧ s.chan = v.chan ∧ s.point = v.point ∧
    s.preempt = v.preempt ∧ s.halted = v.halted := by
  subst h
  simp [view]

section Views

variable (hh : s.halted = none)
include hh

theorem view_acquire {l : Lock L} (p : π) (hl : s.holder l ≠ some c) :
    view (next s (.acquire c p l)) = { view s with
      holder := Function.update s.holder l (some c)
      ncli := Function.update s.ncli c (s.ncli c + 1) } := by
  simp [next, update, State.acquire, hl, hh, State.note, view]

theorem view_release {l : Lock L} (p : π) (hl : s.holder l = some c) :
    view (next s (.release c p l)) = { view s with
      holder := Function.update s.holder l none
      ncli := Function.update s.ncli c (s.ncli c - 1) } := by
  simp [next, update, State.release, hl, hh, view]

theorem view_sleep (c : κ) (p : π) (ch : χ) {l : Lock L} (hl : l ≠ .ptable) :
    view (next s (.sleep c p ch l)) = { view s with
      point := Function.update s.point p (.sleepLock ch l) } := by
  simp [next, update, sleep, hl, hh, State.goto, view]

theorem view_wakeup (c : κ) (p : π) (ch : χ) :
    view (next s (.wakeup c p ch)) = { view s with
      point := Function.update s.point p (.wakeup ch) } := by
  simp [next, update, State.markSince, hh, State.goto, view]

theorem view_timer (p : π) (hl : s.holder .ptable ≠ some c) :
    view (next s (.timer c p)) = { view s with
      holder := Function.update s.holder .ptable (some c)
      ncli := Function.update s.ncli c (s.ncli c + 1)
      preempt := Function.update s.preempt p .locked } := by
  simp [next, update, State.acquire, hl, hh, view]

theorem view_schedAcquire (hl : s.holder .ptable ≠ some c) :
    view (next s (.schedAcquire c)) = { view s with
      holder := Function.update s.holder .ptable (some c)
      ncli := Function.update s.ncli c (s.ncli c + 1) } := by
  simp [next, update, State.acquire, hl, hh, view]

theorem view_schedRelease (hl : s.holder .ptable = some c) :
    view (next s (.schedRelease c)) = { view s with
      holder := Function.update s.holder .ptable none
      ncli := Function.update s.ncli c (s.ncli c - 1) } := by
  simp [next, update, State.release, hl, hh, view]

theorem view_schedule (c : κ) (p : π) :
    view (next s (.schedule c p)) = { view s with
      state := Function.update s.state p .running
      proc := Function.update s.proc c (some p) } := by
  simp [next, update, State.setState, State.note, hh, view]

section Proceed

variable (hx : s.preempt p = .no) {ch : χ} {l : Lock L}
include hx

theorem view_sleepLock (hz : s.point p = .sleepLock ch l) (hl : s.holder .ptable ≠ some c) :
    view (next s (.proceed c p)) = { view s with
      holder := Function.update s.holder .ptable (some c)
      ncli := Function.update s.ncli c (s.ncli c + 1)
      point := Function.update s.point p (.sleepUnlock ch l) } := by
  simp [next, update, proceed, hx, hz, advance, State.acquire, hl, hh, State.note, State.goto, view]

theorem view_sleepUnlock (hz : s.point p = .sleepUnlock ch l) (hl : s.holder l = some c) :
    view (next s (.proceed c p)) = { view s with
      holder := Function.update s.holder l none
      ncli := Function.update s.ncli c (s.ncli c - 1)
      point := Function.update s.point p (.sleepSwitch ch l) } := by
  simp [next, update, proceed, hx, hz, advance, State.release, hl, hh, State.markRelease,
    State.goto, view]

theorem view_sleepSwitch (hz : s.point p = .sleepSwitch ch l) (hl : l ≠ .ptable)
    (hheld : s.holder .ptable = some c) (hn : s.ncli c = 1) :
    view (next s (.proceed c p)) = { view s with
      proc := Function.update s.proc c none
      state := Function.update s.state p .sleeping
      chan := Function.update s.chan p (some ch)
      point := Function.update s.point p (.asleep ch l) } := by
  simp [next, update, proceed, hx, hz, advance, sleepSwitch, fallAsleep, State.sched, hl, hheld,
    hn, hh, State.setState, State.goto, view]

theorem view_asleep (hz : s.point p = .asleep ch l) (hl : l ≠ .ptable)
    (hheld : s.holder .ptable = some c) : view (next s (.proceed c p)) = { view s with
      holder := Function.update s.holder .ptable none
      ncli := Function.update s.ncli c (s.ncli c - 1)
      chan := Function.update s.chan p none
      point := Function.update s.point p (.relock l) } := by
  simp [next, update, proceed, hx, hz, advance, sleepTidy, State.release, hl, hheld, hh,
    State.goto, view]

theorem view_relock (hz : s.point p = .relock l) (hl : s.holder l ≠ some c) :
    view (next s (.proceed c p)) = { view s with
      holder := Function.update s.holder l (some c)
      ncli := Function.update s.ncli c (s.ncli c + 1)
      point := Function.update s.point p .code } := by
  simp [next, update, proceed, hx, hz, advance, State.acquire, hl, hh, State.note, State.goto, view]

theorem view_wakeupLock (hz : s.point p = .wakeup ch) (hl : s.holder .ptable ≠ some c) :
    view (next s (.proceed c p)) = { view s with
      holder := Function.update s.holder .ptable (some c)
      ncli := Function.update s.ncli c (s.ncli c + 1)
      state := (s.wakeup1 ch).state
      point := Function.update s.point p (.wakeupUnlock ch) } := by
  simp [next, update, proceed, hx, hz, advance, State.acquire, hl, hh, State.note, State.goto, view,
    State.wakeup1]

theorem view_wakeupUnlock (hz : s.point p = .wakeupUnlock ch) (hl : s.holder .ptable = some c) :
    view (next s (.proceed c p)) = { view s with
      holder := Function.update s.holder .ptable none
      ncli := Function.update s.ncli c (s.ncli c - 1)
      point := Function.update s.point p (.wakeupReturn ch) } := by
  simp [next, update, proceed, hx, hz, advance, State.release, hl, hh, State.goto, view]

theorem view_wakeupReturn (hz : s.point p = .wakeupReturn ch) :
    view (next s (.proceed c p)) = { view s with
      point := Function.update s.point p .code } := by
  simp [next, update, proceed, hx, hz, advance, hh, State.goto, view]

theorem view_code (hz : s.point p = .code) : view (next s (.proceed c p)) = view s := by
  simp [next, update, proceed, hx, hz, advance, hh, view]

end Proceed

theorem view_yieldSwitch (hx : s.preempt p = .locked) (hheld : s.holder .ptable = some c)
    (hn : s.ncli c = 1) : view (next s (.proceed c p)) = { view s with
      proc := Function.update s.proc c none
      state := Function.update s.state p .runnable
      preempt := Function.update s.preempt p .switched } := by
  simp [next, update, proceed, hx, State.sched, hheld, hn, hh, State.setState, view]

theorem view_yieldRelease (hx : s.preempt p = .switched) (hheld : s.holder .ptable = some c) :
    view (next s (.proceed c p)) = { view s with
      holder := Function.update s.holder .ptable none
      ncli := Function.update s.ncli c (s.ncli c - 1)
      preempt := Function.update s.preempt p .no } := by
  simp [next, update, proceed, hx, State.release, hheld, hh, view]

end Views

end SleepSteps
