import OsEngineering.SleepWakeup

/-! What the CPUs hand over. No wakeup is lost between sleep() and wakeup(): a process that has released its lock
keeps ptable.lock until it is SLEEPING, so a later wakeup() finds it. -/
set_option linter.unusedSectionVars false

namespace SleepHandover

open TransitionSystem SleepWakeup

variable {π κ χ L : Type*}

/-- sleep() between acquire(&ptable.lock) and sched(). -/
def InWindow : Point χ L → Prop
  | .sleepUnlock _ _ | .sleepSwitch _ _ => True
  | _ => False

/-- A sleep() that has come to its sched(). -/
def Pending (s : State π κ χ L) (p : π) (chan : χ) (lk : Lock L) : Prop :=
  s.point p = .sleepSwitch chan lk ∨ s.point p = .asleep chan lk

/-- wakeup1() of the current call of `q` is done. -/
def Woke (s : State π κ χ L) (q : π) (chan : χ) : Prop :=
  s.point q = .wakeupUnlock chan ∨ s.point q = .wakeupReturn chan

structure Handover (s : State π κ χ L) : Prop where
  single : ∀ c d p, s.proc c = some p → s.proc d = some p → c = d
  running : ∀ c p, s.proc c = some p → s.state p = .running
  window : ∀ p, InWindow (s.point p) →
    s.preempt p = .no ∧ ∃ c, s.proc c = some p ∧ s.holder .ptable = some c
  sleeper : ∀ p, s.state p = .sleeping →
    ∃ chan lk, s.point p = .asleep chan lk ∧ s.chan p = some chan
  other_lock : ∀ p chan lk,
    s.point p = .sleepLock chan lk ∨ s.point p = .sleepUnlock chan lk → lk ≠ .ptable
  since_lt : ∀ q l a, s.since q l = some a → a < s.clock
  acquired_lt : ∀ q l a, s.acquiredAt q l = some a → a < s.clock
  woken : ∀ q p chan lk r a, Woke s q chan → Pending s p chan lk → s.releasedAt p = some r →
    s.since q lk = some a → r < a → s.point p = .asleep chan lk ∧ s.state p ≠ .sleeping

/-- What code of `p` on `c` leaves alone: other processes may only become RUNNABLE, and
locks change hands between nobody and `c`. -/
structure Local (c : κ) (p : π) (s t : State π κ χ L) : Prop where
  proc : ∀ d, d ≠ c → t.proc d = s.proc d
  proc_self : t.proc c = s.proc c ∨ t.proc c = none
  holder : ∀ l d, d ≠ c → (t.holder l = some d ↔ s.holder l = some d)
  state : ∀ q, q ≠ p → t.state q = s.state q ∨ (s.state q ≠ .running ∧ t.state q = .runnable)
  point : ∀ q, q ≠ p → t.point q = s.point q
  chan : ∀ q, q ≠ p → t.chan q = s.chan q
  preempt : ∀ q, q ≠ p → t.preempt q = s.preempt q
  releasedAt : ∀ q, q ≠ p → t.releasedAt q = s.releasedAt q
  acquiredAt : ∀ q, q ≠ p → t.acquiredAt q = s.acquiredAt q
  since : ∀ q, q ≠ p → t.since q = s.since q

namespace Local

variable {s t u : State π κ χ L} {c : κ} {p : π}

theorem trans (h : Local c p s t) (k : Local c p t u) : Local c p s u where
  proc := fun d hd => (k.proc d hd).trans (h.proc d hd)
  proc_self := by
    rcases k.proc_self with hk | hk
    · rcases h.proc_self with hh | hh
      · exact Or.inl (hk.trans hh)
      · exact Or.inr (hk.trans hh)
    · exact Or.inr hk
  holder := fun l d hd => (k.holder l d hd).trans (h.holder l d hd)
  state := by
    intro q hq
    rcases k.state q hq with hk | ⟨hk, hr⟩
    · rw [hk]
      exact h.state q hq
    · refine Or.inr ⟨?_, hr⟩
      rcases h.state q hq with hh | ⟨hh, -⟩
      · exact hh ▸ hk
      · exact hh
  point := fun q hq => (k.point q hq).trans (h.point q hq)
  chan := fun q hq => (k.chan q hq).trans (h.chan q hq)
  preempt := fun q hq => (k.preempt q hq).trans (h.preempt q hq)
  releasedAt := fun q hq => (k.releasedAt q hq).trans (h.releasedAt q hq)
  acquiredAt := fun q hq => (k.acquiredAt q hq).trans (h.acquiredAt q hq)
  since := fun q hq => (k.since q hq).trans (h.since q hq)

theorem sleeping (k : Local c p s t) {q : π} (hq : q ≠ p) (h : t.state q = .sleeping) :
    s.state q = .sleeping := by
  rcases k.state q hq with hs | ⟨-, hs⟩
  · exact hs ▸ h
  · rw [hs] at h
    exact absurd h nofun

theorem proc_eq (k : Local c p s t) {d : κ} {q : π}
    (h : t.proc d = some q) : s.proc d = some q := by
  by_cases hd : d = c
  · subst hd
    rcases k.proc_self with hp | hp
    · exact hp ▸ h
    · rw [hp] at h
      exact absurd h nofun
  · exact k.proc d hd ▸ h

theorem window (k : Local c p s t) (h : Handover s) (hc : s.proc c = some p) {q : π} (hq : q ≠ p)
    (hw : InWindow (t.point q)) :
    t.preempt q = .no ∧ ∃ d, t.proc d = some q ∧ t.holder .ptable = some d := by
  rw [k.point q hq] at hw
  obtain ⟨hp, d, hd, hl⟩ := h.window q hw
  have hdc : d ≠ c := by
    rintro rfl
    rw [hc] at hd
    exact hq (Option.some.inj hd).symm
  exact ⟨(k.preempt q hq).trans hp, d, (k.proc d hdc).trans hd,
    (k.holder .ptable d hdc).mpr hl⟩

end Local

/-- What the step has to show of `p` itself: where it may be, what its sleep() has released,
and that its wakeup1(), once done, found every sleeper. -/
structure Own (s t : State π κ χ L) (c : κ) (p : π) : Prop where
  running : t.proc c = some p → t.state p = .running
  window : InWindow (t.point p) →
    t.preempt p = .no ∧ t.proc c = some p ∧ t.holder .ptable = some c
  sleeper : t.state p = .sleeping → ∃ chan lk, t.point p = .asleep chan lk ∧ t.chan p = some chan
  other_lock : ∀ chan lk,
    t.point p = .sleepLock chan lk ∨ t.point p = .sleepUnlock chan lk → lk ≠ .ptable
  since_lt : ∀ l a, t.since p l = some a → a < t.clock
  acquired_lt : ∀ l a, t.acquiredAt p l = some a → a < t.clock
  released : ∀ chan lk r, Pending t p chan lk → t.releasedAt p = some r → s.clock ≤ r ∨
    (Pending s p chan lk ∧ s.releasedAt p = some r ∧
      (s.point p = .asleep chan lk → t.point p = .asleep chan lk ∧
        (t.state p = .sleeping → s.state p = .sleeping)))
  woke : ∀ chan, Woke t p chan → (Woke s p chan ∧ t.since p = s.since p) ∨
    ((∀ q, q ≠ p → ¬ InWindow (t.point q)) ∧ ∀ q, t.state q = .sleeping → t.chan q ≠ some chan)

theorem Handover.step_local {s t : State π κ χ L} {c : κ} {p : π} (h : Handover s)
    (hc : s.proc c = some p) (k : Local c p s t) (hclock : t.clock = s.clock + 1)
    (o : Own s t c p) : Handover t where
  single := fun d e q hd he => h.single d e q (k.proc_eq hd) (k.proc_eq he)
  running := by
    intro d q hd
    have hs := k.proc_eq hd
    by_cases hq : q = p
    · subst hq
      have hdc := h.single d c q hs hc
      exact o.running (hdc ▸ hd)
    · rcases k.state q hq with hst | ⟨hst, -⟩
      · exact hst.trans (h.running d q hs)
      · exact absurd (h.running d q hs) hst
  window := by
    intro q hq
    by_cases hqp : q = p
    · subst hqp
      obtain ⟨h1, h2, h3⟩ := o.window hq
      exact ⟨h1, c, h2, h3⟩
    · exact k.window h hc hqp hq
  sleeper := by
    intro q hq
    by_cases hqp : q = p
    · subst hqp
      exact o.sleeper hq
    · rw [k.point q hqp, k.chan q hqp]
      exact h.sleeper q (k.sleeping hqp hq)
  other_lock := by
    intro q chan lk hq
    by_cases hqp : q = p
    · subst hqp
      exact o.other_lock chan lk hq
    · rw [k.point q hqp] at hq
      exact h.other_lock q chan lk hq
  since_lt := by
    intro q l a ha
    by_cases hqp : q = p
    · subst hqp
      exact o.since_lt l a ha
    · rw [k.since q hqp] at ha
      rw [hclock]
      exact Nat.lt_succ_of_lt (h.since_lt q l a ha)
  acquired_lt := by
    intro q l a ha
    by_cases hqp : q = p
    · subst hqp
      exact o.acquired_lt l a ha
    · rw [k.acquiredAt q hqp] at ha
      rw [hclock]
      exact Nat.lt_succ_of_lt (h.acquired_lt q l a ha)
  woken := by
    intro q w chan lk r a hq hw hr ha hlt
    by_cases hqp : q = p
    · subst hqp
      have hwq : w ≠ q := by
        rintro rfl
        rcases hq with hq | hq <;> rcases hw with hw | hw <;> rw [hq] at hw <;> exact absurd hw nofun
      rcases o.woke chan hq with ⟨hs, hsince⟩ | ⟨hno, hall⟩
      · rw [hsince] at ha
        rw [k.releasedAt w hwq] at hr
        have hpend : Pending s w chan lk := by
          rw [Pending, k.point w hwq] at hw
          exact hw
        obtain ⟨h1, h2⟩ := h.woken q w chan lk r a hs hpend hr ha hlt
        exact ⟨(k.point w hwq).trans h1, fun hsl => h2 (k.sleeping hwq hsl)⟩
      · rcases hw with hw | hw
        · exact absurd (by rw [hw]; trivial) (hno w hwq)
        · refine ⟨hw, fun hsl => hall w hsl ?_⟩
          obtain ⟨ch, l, hpt, hch⟩ := h.sleeper w (k.sleeping hwq hsl)
          rw [← k.point w hwq, hw] at hpt
          injection hpt with h1 _
          rw [k.chan w hwq, hch, h1]
    · have hwoke : Woke s q chan := by
        rw [Woke, k.point q hqp] at hq
        exact hq
      rw [k.since q hqp] at ha
      by_cases hwp : w = p
      · subst hwp
        rcases o.released chan lk r hw hr with hge | ⟨hpend, hrs, hkeep⟩
        · exact absurd (h.since_lt q lk a ha) (by omega)
        · obtain ⟨h1, h2⟩ := h.woken q w chan lk r a hwoke hpend hrs ha hlt
          obtain ⟨h3, h4⟩ := hkeep h1
          exact ⟨h3, fun hsl => h2 (h4 hsl)⟩
      · rw [k.releasedAt w hwp] at hr
        have hpend : Pending s w chan lk := by
          rw [Pending, k.point w hwp] at hw
          exact hw
        obtain ⟨h1, h2⟩ := h.woken q w chan lk r a hwoke hpend hr ha hlt
        exact ⟨(k.point w hwp).trans h1, fun hsl => h2 (k.sleeping hwp hsl)⟩

/-- Points that are neither in the window, nor at sched(), nor behind wakeup1(). -/
def Quiet : Point χ L → Prop
  | .forkret | .code | .relock _ | .wakeup _ | .exited => True
  | _ => False

theorem Own.quiet {s t : State π κ χ L} {c : κ} {p : π} (hq : Quiet (t.point p))
    (hrun : t.proc c = some p → t.state p = .running) (hs : t.state p ≠ .sleeping)
    (hsince : ∀ l a, t.since p l = some a → a < t.clock)
    (hacq : ∀ l a, t.acquiredAt p l = some a → a < t.clock) : Own s t c p where
  running := hrun
  window := by
    intro hw
    cases hp : t.point p <;> simp_all [Quiet, InWindow]
  sleeper := fun h => absurd h hs
  other_lock := by
    rintro chan lk (h | h) <;> simp [h, Quiet] at hq
  since_lt := hsince
  acquired_lt := hacq
  released := by
    rintro chan lk r (h | h) <;> simp [h, Quiet] at hq
  woke := by
    rintro chan (h | h) <;> simp [h, Quiet] at hq

/-- A step inside an interrupt: `p` stays where it was. -/
theorem Own.still {s t : State π κ χ L} {c : κ} {p : π} (h : Handover s)
    (hpoint : t.point p = s.point p) (hw : ¬ InWindow (s.point p))
    (hrun : t.proc c = some p → t.state p = .running) (hs : t.state p ≠ .sleeping)
    (hrel : t.releasedAt p = s.releasedAt p) (hsince : t.since p = s.since p)
    (hacq : t.acquiredAt p = s.acquiredAt p) (hclock : t.clock = s.clock + 1) : Own s t c p where
  running := hrun
  window := by
    intro hp
    exact absurd (hpoint ▸ hp) hw
  sleeper := fun hsl => absurd hsl hs
  other_lock := by
    rw [hpoint]
    exact h.other_lock p
  since_lt := by
    rw [hsince, hclock]
    exact fun l a ha => Nat.lt_succ_of_lt (h.since_lt p l a ha)
  acquired_lt := by
    rw [hacq, hclock]
    exact fun l a ha => Nat.lt_succ_of_lt (h.acquired_lt p l a ha)
  released := by
    intro chan lk r hp hr
    rw [Pending, hpoint] at hp
    rw [hrel] at hr
    exact Or.inr ⟨hp, hr, fun ha => ⟨hpoint.trans ha, fun hsl => absurd hsl hs⟩⟩
  woke := by
    intro chan hk
    rw [Woke, hpoint] at hk
    exact Or.inl ⟨hk, hsince⟩

/-! Steps of a scheduler, and panics. -/

theorem Handover.step_idle {s t : State π κ χ L} {c : κ} (h : Handover s) (hc : s.proc c = none)
    (hproc : t.proc = s.proc) (hholder : ∀ l d, d ≠ c → (t.holder l = some d ↔ s.holder l = some d))
    (hstate : t.state = s.state) (hpoint : t.point = s.point) (hchan : t.chan = s.chan)
    (hpre : t.preempt = s.preempt) (hrel : t.releasedAt = s.releasedAt)
    (hacq : t.acquiredAt = s.acquiredAt) (hsince : t.since = s.since)
    (hclock : t.clock = s.clock + 1) : Handover t where
  single := by
    rw [hproc]
    exact h.single
  running := by
    rw [hproc, hstate]
    exact h.running
  window := by
    intro p hp
    rw [hpoint] at hp
    obtain ⟨h1, d, h2, h3⟩ := h.window p hp
    have hdc : d ≠ c := by
      rintro rfl
      rw [hc] at h2
      exact absurd h2 nofun
    rw [hpre, hproc]
    exact ⟨h1, d, h2, (hholder .ptable d hdc).mpr h3⟩
  sleeper := by
    rw [hstate, hpoint, hchan]
    exact h.sleeper
  other_lock := by
    rw [hpoint]
    exact h.other_lock
  since_lt := by
    rw [hsince, hclock]
    exact fun q l a ha => Nat.lt_succ_of_lt (h.since_lt q l a ha)
  acquired_lt := by
    rw [hacq, hclock]
    exact fun q l a ha => Nat.lt_succ_of_lt (h.acquired_lt q l a ha)
  woken := by
    simp only [Woke, Pending, hpoint, hrel, hsince, hstate]
    exact h.woken

theorem Handover.step_panic {s : State π κ χ L} (h : Handover s) (msg : String) :
    Handover { s.panic msg with clock := s.clock + 1 } where
  single := h.single
  running := h.running
  window := h.window
  sleeper := h.sleeper
  other_lock := h.other_lock
  since_lt := fun q l a ha => Nat.lt_succ_of_lt (h.since_lt q l a ha)
  acquired_lt := fun q l a ha => Nat.lt_succ_of_lt (h.acquired_lt q l a ha)
  woken := h.woken

section Steps

variable [DecidableEq π] [DecidableEq κ] [DecidableEq χ] [DecidableEq L]

/-! The small steps are local, and say what they did where they did not panic. -/

theorem goto_local (s : State π κ χ L) (c : κ) (p : π) (x : Point χ L) :
    Local c p s (s.goto p x) where
  proc := fun _ _ => rfl
  proc_self := Or.inl rfl
  holder := fun _ _ _ => Iff.rfl
  state := fun _ _ => Or.inl rfl
  point := fun _ hq => Function.update_of_ne hq ..
  chan := fun _ _ => rfl
  preempt := fun _ _ => rfl
  releasedAt := fun _ _ => rfl
  acquiredAt := fun _ _ => rfl
  since := fun _ _ => rfl

theorem note_local (s : State π κ χ L) (c : κ) (p : π) (l : Lock L) :
    Local c p s (s.note p l) where
  proc := fun _ _ => rfl
  proc_self := Or.inl rfl
  holder := fun _ _ _ => Iff.rfl
  state := fun _ _ => Or.inl rfl
  point := fun _ _ => rfl
  chan := fun _ _ => rfl
  preempt := fun _ _ => rfl
  releasedAt := fun _ _ => rfl
  acquiredAt := fun _ hq => Function.update_of_ne hq ..
  since := fun _ _ => rfl

theorem markRelease_local (s : State π κ χ L) (c : κ) (p : π) :
    Local c p s (s.markRelease p) where
  proc := fun _ _ => rfl
  proc_self := Or.inl rfl
  holder := fun _ _ _ => Iff.rfl
  state := fun _ _ => Or.inl rfl
  point := fun _ _ => rfl
  chan := fun _ _ => rfl
  preempt := fun _ _ => rfl
  releasedAt := fun _ hq => Function.update_of_ne hq ..
  acquiredAt := fun _ _ => rfl
  since := fun _ _ => rfl

theorem setState_local (s : State π κ χ L) (c : κ) (p : π) (st : ProcState) :
    Local c p s (s.setState p st) where
  proc := fun _ _ => rfl
  proc_self := Or.inl rfl
  holder := fun _ _ _ => Iff.rfl
  state := fun _ hq => Or.inl (Function.update_of_ne hq ..)
  point := fun _ _ => rfl
  chan := fun _ _ => rfl
  preempt := fun _ _ => rfl
  releasedAt := fun _ _ => rfl
  acquiredAt := fun _ _ => rfl
  since := fun _ _ => rfl

theorem wakeup1_local (s : State π κ χ L) (c : κ) (p : π) (chan : χ) :
    Local c p s (s.wakeup1 chan) where
  proc := fun _ _ => rfl
  proc_self := Or.inl rfl
  holder := fun _ _ _ => Iff.rfl
  state := by
    intro q _
    by_cases h : s.state q = .sleeping ∧ s.chan q = some chan
    · exact Or.inr ⟨by rw [h.1]; nofun, if_pos h⟩
    · exact Or.inl (if_neg h)
  point := fun _ _ => rfl
  chan := fun _ _ => rfl
  preempt := fun _ _ => rfl
  releasedAt := fun _ _ => rfl
  acquiredAt := fun _ _ => rfl
  since := fun _ _ => rfl

theorem acquire_ok {s : State π κ χ L} {c : κ} {l : Lock L}
    (h : (s.acquire c l).halted = none) :
    s.holder l ≠ some c ∧ s.acquire c l = { s with
      holder := Function.update s.holder l (some c)
      ncli := Function.update s.ncli c (s.ncli c + 1) } := by
  simp only [State.acquire] at h ⊢
  split at h
  · exact absurd h nofun
  · next hne => exact ⟨hne, if_neg hne⟩

theorem acquire_local {s : State π κ χ L} {c : κ} {l : Lock L} (p : π) (hfree : CanAcquire s c l)
    (h : (s.acquire c l).halted = none) : Local c p s (s.acquire c l) := by
  obtain ⟨hne, he⟩ := acquire_ok h
  have hnone : s.holder l = none := hfree.resolve_right hne
  rw [he]
  refine ⟨fun _ _ => rfl, Or.inl rfl, ?_, fun _ _ => Or.inl rfl, fun _ _ => rfl, fun _ _ => rfl,
    fun _ _ => rfl, fun _ _ => rfl, fun _ _ => rfl, fun _ _ => rfl⟩
  intro l' d hd
  by_cases hl : l' = l
  · subst hl
    simp only [Function.update_self, hnone, Option.some.injEq, reduceCtorEq, iff_false]
    exact hd.symm
  · simp only [Function.update_of_ne hl]

theorem release_ok {s : State π κ χ L} {c : κ} {l : Lock L}
    (h : (s.release c l).halted = none) :
    s.holder l = some c ∧ s.release c l = { s with
      holder := Function.update s.holder l none
      ncli := Function.update s.ncli c (s.ncli c - 1) } := by
  simp only [State.release] at h ⊢
  split at h
  · next he => exact ⟨he, if_pos he⟩
  · exact absurd h nofun

theorem release_local {s : State π κ χ L} {c : κ} {l : Lock L} (p : π)
    (h : (s.release c l).halted = none) : Local c p s (s.release c l) := by
  obtain ⟨hheld, he⟩ := release_ok h
  rw [he]
  refine ⟨fun _ _ => rfl, Or.inl rfl, ?_, fun _ _ => Or.inl rfl, fun _ _ => rfl, fun _ _ => rfl,
    fun _ _ => rfl, fun _ _ => rfl, fun _ _ => rfl, fun _ _ => rfl⟩
  intro l' d hd
  by_cases hl : l' = l
  · subst hl
    simp only [Function.update_self, hheld, reduceCtorEq, Option.some.injEq, false_iff]
    exact hd.symm
  · simp only [Function.update_of_ne hl]

theorem sched_ok {s : State π κ χ L} {c : κ} {p : π} (h : (s.sched c p).halted = none) :
    s.sched c p = { s with proc := Function.update s.proc c none } := by
  simp only [State.sched] at h ⊢
  split at h
  · exact absurd h nofun
  · next h1 =>
    split at h
    · exact absurd h nofun
    · next h2 =>
      split at h
      · exact absurd h nofun
      · next h3 => rw [if_neg h1, if_neg h2, if_neg h3]

theorem sched_local {s : State π κ χ L} {c : κ} {p : π} (h : (s.sched c p).halted = none) :
    Local c p s (s.sched c p) := by
  rw [sched_ok h]
  refine ⟨fun _ hd => Function.update_of_ne hd .., Or.inr (Function.update_self ..),
    fun _ _ _ => Iff.rfl, fun _ _ => Or.inl rfl, fun _ _ => rfl, fun _ _ => rfl,
    fun _ _ => rfl, fun _ _ => rfl, fun _ _ => rfl, fun _ _ => rfl⟩

end Steps

end SleepHandover
