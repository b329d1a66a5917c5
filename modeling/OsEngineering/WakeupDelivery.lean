import OsEngineering.SleepHandover

/-! A wakeup() by a process that took the lock after sleep() gave it up wakes the sleeper. -/
set_option linter.unusedSectionVars false

namespace WakeupDelivery

open TransitionSystem SleepWakeup SleepHandover

variable {π κ χ L : Type*} [DecidableEq π] [DecidableEq κ] [DecidableEq χ] [DecidableEq L]

/-- The state after an event that did not panic. -/
def tick (s u : State π κ χ L) : State π κ χ L := { u with clock := s.clock + 1 }

theorem tick_local {s u : State π κ χ L} {c : κ} {p : π} (k : Local c p s u) :
    Local c p s (tick s u) :=
  ⟨k.1, k.2, k.3, k.4, k.5, k.6, k.7, k.8, k.9, k.10⟩

theorem update_acquired {s : State π κ χ L} (h : Handover s) (p : π) (l l' : Lock L) (a : ℕ)
    (ha : Function.update (s.acquiredAt p) l (some s.clock) l' = some a) : a < s.clock + 1 := by
  by_cases hl : l' = l
  · subst hl
    rw [Function.update_self] at ha
    exact Option.some.inj ha ▸ Nat.lt_succ_self _
  · rw [Function.update_of_ne hl] at ha
    exact Nat.lt_succ_of_lt (h.acquired_lt p l' a ha)

section InCode

variable {s : State π κ χ L} {c : κ} {p : π}

theorem awake (h : Handover s) (hc : s.proc c = some p) : s.state p ≠ .sleeping := by
  rw [h.running c p hc]
  rintro ⟨⟩

theorem acquire_handover (h : Handover s) (hp : InCode s c p) {l : Lock L}
    (hfree : CanAcquire s c l) (hok : (s.acquire c l).halted = none) :
    Handover (tick s ((s.acquire c l).note p l)) := by
  have he := (acquire_ok hok).2
  apply h.step_local hp.1 (tick_local ((acquire_local p hfree hok).trans (note_local _ c p l))) rfl
  rw [he]
  apply Own.quiet
  · simp only [tick, State.note, hp.2.1, Quiet]
  · exact fun _ => h.running c p hp.1
  · exact fun hsl => awake h hp.1 hsl
  · exact fun l' a ha => Nat.lt_succ_of_lt (h.since_lt p l' a ha)
  · intro l' a ha
    simp only [tick, State.note, Function.update_self] at ha
    exact update_acquired h p l l' a ha

theorem release_handover (h : Handover s) (hp : InCode s c p) {l : Lock L}
    (hok : (s.release c l).halted = none) : Handover (tick s (s.release c l)) := by
  have he := (release_ok hok).2
  apply h.step_local hp.1 (tick_local (release_local p hok)) rfl
  rw [he]
  apply Own.quiet
  · simp only [tick, hp.2.1, Quiet]
  · exact fun _ => h.running c p hp.1
  · exact fun hsl => awake h hp.1 hsl
  · exact fun l' a ha => Nat.lt_succ_of_lt (h.since_lt p l' a ha)
  · exact fun l' a ha => Nat.lt_succ_of_lt (h.acquired_lt p l' a ha)

/-- Entering sleep() forgets the release of the call before. -/
theorem sleep_handover (h : Handover s) (hp : InCode s c p) {chan : χ} {lk : Lock L}
    (hheld : s.holder lk = some c) : Handover (tick s (sleep s p chan lk)) := by
  have hrun := h.running c p hp.1
  have hk : Local c p s (sleep s p chan lk) := by
    refine Local.trans ?_ (goto_local _ c p _)
    exact ⟨fun _ _ => rfl, Or.inl rfl, fun _ _ _ => Iff.rfl, fun _ _ => Or.inl rfl,
      fun _ _ => rfl, fun _ _ => rfl, fun _ _ => rfl, fun _ hq => Function.update_of_ne hq ..,
      fun _ _ => rfl, fun _ _ => rfl⟩
  have hpoint : (tick s (sleep s p chan lk)).point p =
      if lk = .ptable then .sleepSwitch chan lk else .sleepLock chan lk := by
    simp [tick, sleep, State.goto]
  have hrel : (tick s (sleep s p chan lk)).releasedAt p = none := by
    simp [tick, sleep, State.goto]
  apply h.step_local hp.1 (tick_local hk) rfl
  constructor
  · exact fun _ => hrun
  · intro hw
    refine ⟨hp.2.2, hp.1, ?_⟩
    rw [hpoint] at hw
    split at hw
    · next hl => exact hl ▸ hheld
    · exact hw.elim
  · intro hsl
    cases hrun.symm.trans hsl
  · intro ch l hl
    rw [hpoint] at hl
    split at hl
    · rcases hl with hl | hl <;> cases hl
    · next hne =>
      rcases hl with hl | hl
      · injection hl with _ h2
        exact h2 ▸ hne
      · cases hl
  · exact fun l' a ha => Nat.lt_succ_of_lt (h.since_lt p l' a ha)
  · exact fun l' a ha => Nat.lt_succ_of_lt (h.acquired_lt p l' a ha)
  · intro ch l r _ hr
    rw [hrel] at hr
    cases hr
  · intro ch hk
    rw [Woke, hpoint] at hk
    split at hk <;> rcases hk with hk | hk <;> cases hk

theorem markSince_local (s : State π κ χ L) (c : κ) (p : π) : Local c p s (s.markSince p) :=
  ⟨fun _ _ => rfl, Or.inl rfl, fun _ _ _ => Iff.rfl, fun _ _ => Or.inl rfl,
    fun _ _ => rfl, fun _ _ => rfl, fun _ _ => rfl, fun _ _ => rfl,
    fun _ _ => rfl, fun _ hq => Function.update_of_ne hq ..⟩

theorem wakeup_handover (h : Handover s) (hp : InCode s c p) (chan : χ) :
    Handover (tick s ((s.markSince p).goto p (.wakeup chan))) := by
  apply h.step_local hp.1 (tick_local ((markSince_local s c p).trans (goto_local _ c p _))) rfl
  apply Own.quiet
  · simp [tick, State.goto, Quiet]
  · exact fun _ => h.running c p hp.1
  · exact fun hsl => awake h hp.1 hsl
  · intro l a ha
    simp only [tick, State.goto, State.markSince, Function.update_self] at ha
    exact Nat.lt_succ_of_lt (h.acquired_lt p l a ha)
  · exact fun l' a ha => Nat.lt_succ_of_lt (h.acquired_lt p l' a ha)

/-- While `p` holds ptable.lock no other process is in the window. -/
theorem no_window (h : Handover s) (hc : s.proc c = some p) (hheld : s.holder .ptable = some c)
    {q : π} (hq : q ≠ p) : ¬ InWindow (s.point q) := by
  intro hw
  obtain ⟨-, d, hd, hl⟩ := h.window q hw
  rw [hheld] at hl
  obtain rfl := Option.some.inj hl
  rw [hc] at hd
  exact hq (Option.some.inj hd).symm

theorem not_sleeping_wakeup1 (s : State π κ χ L) (chan : χ) (q : π)
    (h : (s.wakeup1 chan).state q = .sleeping) : s.chan q ≠ some chan := by
  intro hc
  by_cases hs : s.state q = .sleeping
  · simp [State.wakeup1, hs, hc] at h
  · simp [State.wakeup1, hs] at h

theorem wakeup1_running {q : π} (h : s.state q = .running) (chan : χ) :
    (s.wakeup1 chan).state q = .running := by
  simp [State.wakeup1, h]

theorem wakeup1_handover (h : Handover s) (hp : InCode s c p)
    (hheld : s.holder .ptable = some c) (chan : χ) :
    Handover (tick s (((s.markSince p).wakeup1 chan).goto p (.wakeupReturn chan))) := by
  have hrun := wakeup1_running (h.running c p hp.1) chan
  apply h.step_local hp.1 (tick_local (((markSince_local s c p).trans
    (wakeup1_local _ c p chan)).trans (goto_local _ c p _))) rfl
  constructor
  · exact fun _ => hrun
  · intro hw
    simp [tick, State.goto, InWindow] at hw
  · intro hsl
    cases hrun.symm.trans hsl
  · intro ch l hl
    simp [tick, State.goto] at hl
  · intro l a ha
    simp only [tick, State.goto, State.wakeup1, State.markSince, Function.update_self] at ha
    exact Nat.lt_succ_of_lt (h.acquired_lt p l a ha)
  · exact fun l' a ha => Nat.lt_succ_of_lt (h.acquired_lt p l' a ha)
  · intro ch l r hr
    simp [Pending, tick, State.goto] at hr
  · intro ch hk
    have hch : ch = chan := by
      simpa [Woke, tick, State.goto, eq_comm] using hk
    subst hch
    refine Or.inr ⟨?_, fun q hq => not_sleeping_wakeup1 s ch q hq⟩
    intro q hq
    have hpq : (tick s (((s.markSince p).wakeup1 ch).goto p (.wakeupReturn ch))).point q =
        s.point q := by
      simp [tick, State.goto, State.wakeup1, State.markSince, hq]
    rw [hpq]
    exact no_window h hp.1 hheld hq

theorem kill_handover (h : Handover s) (hp : InCode s c p) (victim : π) :
    Handover (tick s
      (if s.state victim = .sleeping then s.setState victim .runnable else s)) := by
  have hrun := h.running c p hp.1
  have hstate : (if s.state victim = .sleeping then s.setState victim .runnable else s).state p =
      .running := by
    split
    · next hv =>
      have hne : p ≠ victim := by
        rintro rfl
        rw [hrun] at hv
        exact absurd hv nofun
      simp [State.setState, hne, hrun]
    · exact hrun
  have hk : Local c p s
      (if s.state victim = .sleeping then s.setState victim .runnable else s) := by
    split
    · next hv =>
      refine ⟨fun _ _ => rfl, Or.inl rfl, fun _ _ _ => Iff.rfl, ?_, fun _ _ => rfl, fun _ _ => rfl,
        fun _ _ => rfl, fun _ _ => rfl, fun _ _ => rfl, fun _ _ => rfl⟩
      intro q _
      by_cases hq : q = victim
      · subst hq
        exact Or.inr ⟨by rw [hv]; nofun, Function.update_self ..⟩
      · exact Or.inl (Function.update_of_ne hq ..)
    · exact ⟨fun _ _ => rfl, Or.inl rfl, fun _ _ _ => Iff.rfl, fun _ _ => Or.inl rfl,
        fun _ _ => rfl, fun _ _ => rfl, fun _ _ => rfl, fun _ _ => rfl, fun _ _ => rfl,
        fun _ _ => rfl⟩
  have hpoint : (if s.state victim = .sleeping then s.setState victim .runnable else s).point p =
      .code := by
    split <;> exact hp.2.1
  have hsince : (if s.state victim = .sleeping then s.setState victim .runnable else s).since =
      s.since := by
    split <;> rfl
  have hacq : (if s.state victim = .sleeping then s.setState victim .runnable else s).acquiredAt =
      s.acquiredAt := by
    split <;> rfl
  apply h.step_local hp.1 (tick_local hk) rfl
  apply Own.quiet
  · simp only [tick, hpoint, Quiet]
  · exact fun _ => hstate
  · simp only [tick, hstate]
    nofun
  · simp only [tick, hsince]
    exact fun l' a ha => Nat.lt_succ_of_lt (h.since_lt p l' a ha)
  · simp only [tick, hacq]
    exact fun l' a ha => Nat.lt_succ_of_lt (h.acquired_lt p l' a ha)

theorem fork_handover (h : Handover s) (hp : InCode s c p) {np : π}
    (hnp : s.state np = .unused) : Handover (tick s (s.setState np .runnable)) := by
  have hrun := h.running c p hp.1
  have hne : p ≠ np := by
    rintro rfl
    rw [hrun] at hnp
    cases hnp
  have hstate : (s.setState np .runnable).state p = .running := by
    simp [State.setState, hne, hrun]
  apply h.step_local hp.1 (tick_local ?_) rfl
  · apply Own.quiet
    · simp only [tick, State.setState, hp.2.1, Quiet]
    · exact fun _ => hstate
    · intro hsl
      cases hstate.symm.trans hsl
    · exact fun l' a ha => Nat.lt_succ_of_lt (h.since_lt p l' a ha)
    · exact fun l' a ha => Nat.lt_succ_of_lt (h.acquired_lt p l' a ha)
  · refine ⟨fun _ _ => rfl, Or.inl rfl, fun _ _ _ => Iff.rfl, ?_, fun _ _ => rfl, fun _ _ => rfl,
      fun _ _ => rfl, fun _ _ => rfl, fun _ _ => rfl, fun _ _ => rfl⟩
    intro q _
    by_cases hq : q = np
    · subst hq
      exact Or.inr ⟨by rw [hnp]; rintro ⟨⟩, Function.update_self ..⟩
    · exact Or.inl (Function.update_of_ne hq ..)

theorem exit_handover (h : Handover s) (hp : InCode s c p)
    (hok : (((s.setState p .zombie).goto p .exited).sched c p).halted = none) :
    Handover (tick s (((s.setState p .zombie).goto p .exited).sched c p)) := by
  apply h.step_local hp.1 (tick_local (((setState_local s c p _).trans
    (goto_local _ c p _)).trans (sched_local hok))) rfl
  rw [sched_ok hok]
  apply Own.quiet
  · simp [tick, State.goto, State.setState, Quiet]
  · intro hc
    simp [tick] at hc
  · simp [tick, State.goto, State.setState]
  · exact fun l' a ha => Nat.lt_succ_of_lt (h.since_lt p l' a ha)
  · exact fun l' a ha => Nat.lt_succ_of_lt (h.acquired_lt p l' a ha)

end InCode

/-! Going on inside the modelled functions. -/

section Proceed

variable {s : State π κ χ L} {c : κ} {p : π}

/-- A CPU that gets a lock did not hold it. -/
theorem holder_none {l : Lock L} (hfree : CanAcquire s c l)
    (hok : (s.acquire c l).halted = none) : s.holder l = none :=
  hfree.resolve_right (acquire_ok hok).1

theorem no_window_of_free (h : Handover s) (hfree : s.holder .ptable = none) (q : π) :
    ¬ InWindow (s.point q) := by
  intro hw
  obtain ⟨-, d, -, hl⟩ := h.window q hw
  rw [hfree] at hl
  exact absurd hl nofun

theorem forkret_handover (h : Handover s) (hc : s.proc c = some p)
    (hok : (s.release c .ptable).halted = none) :
    Handover (tick s ((s.release c .ptable).goto p .code)) := by
  apply h.step_local hc (tick_local ((release_local p hok).trans (goto_local _ c p _))) rfl
  rw [(release_ok hok).2]
  apply Own.quiet
  · simp [tick, State.goto, Quiet]
  · exact fun _ => h.running c p hc
  · exact fun hsl => awake h hc hsl
  · exact fun l' a ha => Nat.lt_succ_of_lt (h.since_lt p l' a ha)
  · exact fun l' a ha => Nat.lt_succ_of_lt (h.acquired_lt p l' a ha)

theorem sleepLock_handover (h : Handover s) (hc : s.proc c = some p) {chan : χ} {lk : Lock L}
    (hp : s.preempt p = .no) (hpoint : s.point p = .sleepLock chan lk)
    (hfree : CanAcquire s c .ptable) (hok : (s.acquire c .ptable).halted = none) :
    Handover (tick s (((s.acquire c .ptable).note p .ptable).goto p (.sleepUnlock chan lk))) := by
  apply h.step_local hc (tick_local (((acquire_local p hfree hok).trans
    (note_local _ c p _)).trans (goto_local _ c p _))) rfl
  rw [(acquire_ok hok).2]
  constructor
  · exact fun _ => h.running c p hc
  · intro _
    refine ⟨hp, hc, ?_⟩
    simp only [tick, State.goto, State.note, Function.update_self]
  · exact fun hsl => absurd ((h.running c p hc).symm.trans hsl) nofun
  · intro ch l hl
    have hlk := h.other_lock p chan lk (Or.inl hpoint)
    simp only [tick, State.goto, Function.update_self, reduceCtorEq, false_or] at hl
    injection hl with _ h2
    exact h2 ▸ hlk
  · exact fun l' a ha => Nat.lt_succ_of_lt (h.since_lt p l' a ha)
  · intro l' a ha
    simp only [tick, State.note, State.goto, Function.update_self] at ha
    exact update_acquired h p .ptable l' a ha
  · intro ch l r hr
    simp [Pending, tick, State.goto] at hr
  · intro ch hk
    simp [Woke, tick, State.goto] at hk

/-- The lock of sleep() goes, ptable.lock stays. -/
theorem sleepUnlock_handover (h : Handover s) (hc : s.proc c = some p) {chan : χ} {lk : Lock L}
    (hpoint : s.point p = .sleepUnlock chan lk) (hok : (s.release c lk).halted = none) :
    Handover (tick s (((s.release c lk).markRelease p).goto p (.sleepSwitch chan lk))) := by
  obtain ⟨hp, d, hd, hheld⟩ := h.window p (by rw [hpoint]; trivial)
  obtain rfl := h.single c d p hc hd
  have hlk := h.other_lock p chan lk (Or.inr hpoint)
  apply h.step_local hc (tick_local (((release_local p hok).trans
    (markRelease_local _ c p)).trans (goto_local _ c p _))) rfl
  rw [(release_ok hok).2]
  constructor
  · exact fun _ => h.running c p hc
  · intro _
    refine ⟨hp, hc, ?_⟩
    simp only [tick, State.goto, State.markRelease, Function.update_of_ne hlk.symm, hheld]
  · exact fun hsl => absurd ((h.running c p hc).symm.trans hsl) nofun
  · intro ch l hl
    simp [tick, State.goto] at hl
  · exact fun l' a ha => Nat.lt_succ_of_lt (h.since_lt p l' a ha)
  · exact fun l' a ha => Nat.lt_succ_of_lt (h.acquired_lt p l' a ha)
  · intro ch l r _ hr
    simp only [tick, State.goto, State.markRelease, Function.update_self] at hr
    exact Or.inl (Option.some.inj hr).le
  · intro ch hk
    simp [Woke, tick, State.goto] at hk

theorem setChan_local (s : State π κ χ L) (c : κ) (p : π) (chan : Option χ) :
    Local c p s { s with chan := Function.update s.chan p chan } :=
  ⟨fun _ _ => rfl, Or.inl rfl, fun _ _ _ => Iff.rfl, fun _ _ => Or.inl rfl,
    fun _ _ => rfl, fun _ hq => Function.update_of_ne hq .., fun _ _ => rfl, fun _ _ => rfl,
    fun _ _ => rfl, fun _ _ => rfl⟩

theorem fallAsleep_local (s : State π κ χ L) (c : κ) (p : π) (chan : χ) (lk : Lock L) :
    Local c p s (fallAsleep s p chan lk) := by
  have hchan := setChan_local s c p (some chan)
  simp only [fallAsleep]
  split
  · exact ((hchan.trans (markRelease_local _ c p)).trans (setState_local _ c p _)).trans
      (goto_local _ c p _)
  · exact (hchan.trans (setState_local _ c p _)).trans (goto_local _ c p _)

theorem fallAsleep_self (s : State π κ χ L) (p : π) (chan : χ) (lk : Lock L) :
    (fallAsleep s p chan lk).point p = .asleep chan lk ∧
      (fallAsleep s p chan lk).chan p = some chan ∧
      (fallAsleep s p chan lk).since p = s.since p ∧
      (fallAsleep s p chan lk).acquiredAt p = s.acquiredAt p ∧
      (fallAsleep s p chan lk).releasedAt p =
        if lk = .ptable then some s.clock else s.releasedAt p := by
  simp only [fallAsleep]
  split <;> simp [State.goto, State.setState, State.markRelease]

/-- The state and the channel are set while the CPU still holds ptable.lock. -/
theorem sleepSwitch_handover (h : Handover s) (hc : s.proc c = some p) {chan : χ} {lk : Lock L}
    (hpoint : s.point p = .sleepSwitch chan lk)
    (hok : (sleepSwitch s c p chan lk).halted = none) :
    Handover (tick s (sleepSwitch s c p chan lk)) := by
  obtain ⟨hpt, hch, hsince, hacq, hrel⟩ := fallAsleep_self s p chan lk
  apply h.step_local hc (tick_local ((fallAsleep_local s c p chan lk).trans (sched_local hok))) rfl
  simp only [sleepSwitch] at hok ⊢
  rw [sched_ok hok]

  constructor
  · intro hcp
    simp [tick] at hcp
  · intro hw
    change InWindow ((fallAsleep s p chan lk).point p) at hw
    rw [hpt] at hw
    exact hw.elim
  · exact fun _ => ⟨chan, lk, hpt, hch⟩
  · intro ch l hl
    change (fallAsleep s p chan lk).point p = _ ∨ (fallAsleep s p chan lk).point p = _ at hl
    rw [hpt] at hl
    rcases hl with hl | hl <;> exact absurd hl nofun
  · change ∀ l a, (fallAsleep s p chan lk).since p l = some a → a < s.clock + 1
    rw [hsince]
    exact fun l' a ha => Nat.lt_succ_of_lt (h.since_lt p l' a ha)
  · change ∀ l a, (fallAsleep s p chan lk).acquiredAt p l = some a → a < s.clock + 1
    rw [hacq]
    exact fun l' a ha => Nat.lt_succ_of_lt (h.acquired_lt p l' a ha)
  · intro ch l r hpend hr
    change (fallAsleep s p chan lk).releasedAt p = some r at hr
    change (fallAsleep s p chan lk).point p = _ ∨ (fallAsleep s p chan lk).point p = _ at hpend
    rw [hrel] at hr
    split at hr
    · exact Or.inl (Option.some.inj hr).le
    · rw [hpt] at hpend
      rcases hpend with hpend | hpend
      · exact absurd hpend nofun
      · injection hpend with h1 h2
        refine Or.inr ⟨Or.inl (by rw [hpoint, h1, h2]), hr, fun ha => ?_⟩
        rw [hpoint] at ha
        exact absurd ha nofun
  · intro ch hwk
    change (fallAsleep s p chan lk).point p = _ ∨ (fallAsleep s p chan lk).point p = _ at hwk
    rw [hpt] at hwk
    rcases hwk with hwk | hwk <;> exact absurd hwk nofun

theorem sleepTidy_handover (h : Handover s) (hc : s.proc c = some p) {lk : Lock L}
    (hok : (sleepTidy s c p lk).halted = none) : Handover (tick s (sleepTidy s c p lk)) := by
  have hchan := setChan_local s c p none
  simp only [sleepTidy] at hok ⊢
  split at hok
  · next hl =>
    rw [if_pos hl]
    apply h.step_local hc (tick_local (hchan.trans (goto_local _ c p _))) rfl
    apply Own.quiet
    · simp [tick, State.goto, Quiet]
    · exact fun _ => h.running c p hc
    · exact fun hsl => awake h hc hsl
    · exact fun l' a ha => Nat.lt_succ_of_lt (h.since_lt p l' a ha)
    · exact fun l' a ha => Nat.lt_succ_of_lt (h.acquired_lt p l' a ha)
  · next hl =>
    rw [if_neg hl]
    apply h.step_local hc (tick_local ((hchan.trans (release_local p hok)).trans
      (goto_local _ c p _))) rfl
    rw [(release_ok hok).2]
    apply Own.quiet
    · simp [tick, State.goto, Quiet]
    · exact fun _ => h.running c p hc
    · exact fun hsl => awake h hc hsl
    · exact fun l' a ha => Nat.lt_succ_of_lt (h.since_lt p l' a ha)
    · exact fun l' a ha => Nat.lt_succ_of_lt (h.acquired_lt p l' a ha)

theorem relock_handover (h : Handover s) (hc : s.proc c = some p) {lk : Lock L}
    (hfree : CanAcquire s c lk) (hok : (s.acquire c lk).halted = none) :
    Handover (tick s (((s.acquire c lk).note p lk).goto p .code)) := by
  apply h.step_local hc (tick_local (((acquire_local p hfree hok).trans
    (note_local _ c p _)).trans (goto_local _ c p _))) rfl
  rw [(acquire_ok hok).2]
  apply Own.quiet
  · simp [tick, State.goto, Quiet]
  · exact fun _ => h.running c p hc
  · exact fun hsl => awake h hc hsl
  · exact fun l' a ha => Nat.lt_succ_of_lt (h.since_lt p l' a ha)
  · intro l' a ha
    simp only [tick, State.note, State.goto, Function.update_self] at ha
    exact update_acquired h p lk l' a ha

/-- wakeup() has ptable.lock: no process is in the window, so each sleeper is found. -/
theorem wakeupLocked_handover (h : Handover s) (hc : s.proc c = some p) {chan : χ}
    (hfree : CanAcquire s c .ptable) (hok : (s.acquire c .ptable).halted = none) :
    Handover (tick s ((((s.acquire c .ptable).note p .ptable).wakeup1 chan).goto p
      (.wakeupUnlock chan))) := by
  have hnone := holder_none hfree hok
  apply h.step_local hc (tick_local ((((acquire_local p hfree hok).trans
    (note_local _ c p _)).trans (wakeup1_local _ c p chan)).trans (goto_local _ c p _))) rfl
  rw [(acquire_ok hok).2]
  have hrun := wakeup1_running (s := s) (h.running c p hc) chan
  constructor
  · exact fun _ => hrun
  · intro hw
    simp [tick, State.goto, InWindow] at hw
  · exact fun hsl => by cases hrun.symm.trans hsl
  · intro ch l hl
    simp [tick, State.goto] at hl
  · exact fun l' a ha => Nat.lt_succ_of_lt (h.since_lt p l' a ha)
  · intro l' a ha
    simp only [tick, State.note, State.goto, State.wakeup1, Function.update_self] at ha
    exact update_acquired h p .ptable l' a ha
  · intro ch l r hr
    simp [Pending, tick, State.goto] at hr
  · intro ch hk
    have hch : ch = chan := by
      simpa [Woke, tick, State.goto, eq_comm] using hk
    subst hch
    refine Or.inr ⟨?_, fun q hq => not_sleeping_wakeup1 s ch q hq⟩
    intro q hq hw
    refine no_window_of_free h hnone q ?_
    simpa [tick, State.goto, State.wakeup1, State.note, hq] using hw

theorem wakeupUnlock_handover (h : Handover s) (hc : s.proc c = some p) {chan : χ}
    (hpoint : s.point p = .wakeupUnlock chan) (hok : (s.release c .ptable).halted = none) :
    Handover (tick s ((s.release c .ptable).goto p (.wakeupReturn chan))) := by
  apply h.step_local hc (tick_local ((release_local p hok).trans (goto_local _ c p _))) rfl
  rw [(release_ok hok).2]
  constructor
  · exact fun _ => h.running c p hc
  · intro hw
    simp [tick, State.goto, InWindow] at hw
  · exact fun hsl => (awake h hc hsl).elim
  · intro ch l hl
    simp [tick, State.goto] at hl
  · exact fun l' a ha => Nat.lt_succ_of_lt (h.since_lt p l' a ha)
  · exact fun l' a ha => Nat.lt_succ_of_lt (h.acquired_lt p l' a ha)
  · intro ch l r hr
    simp [Pending, tick, State.goto] at hr
  · intro ch hk
    have hch : chan = ch := by
      simpa [Woke, tick, State.goto] using hk
    exact Or.inl ⟨Or.inl (hch ▸ hpoint), rfl⟩

theorem goto_code_handover (h : Handover s) (hc : s.proc c = some p) :
    Handover (tick s (s.goto p .code)) := by
  apply h.step_local hc (tick_local (goto_local s c p _)) rfl
  apply Own.quiet
  · simp [tick, State.goto, Quiet]
  · exact fun _ => h.running c p hc
  · exact fun hsl => awake h hc hsl
  · exact fun l' a ha => Nat.lt_succ_of_lt (h.since_lt p l' a ha)
  · exact fun l' a ha => Nat.lt_succ_of_lt (h.acquired_lt p l' a ha)

theorem advance_handover (h : Handover s) (hc : s.proc c = some p) (hp : s.preempt p = .no)
    (hfree : ∀ l ∈ wants .no (s.point p), CanAcquire s c l)
    (hok : (advance s c p (s.point p)).halted = none) :
    Handover (tick s (advance s c p (s.point p))) := by
  cases hpoint : s.point p with
  | forkret =>
    rw [hpoint] at hok
    exact forkret_handover h hc hok
  | code =>
    apply h.step_local hc (tick_local ?_) rfl
    · exact Own.still h rfl (by rw [hpoint]; exact id) (fun _ => h.running c p hc)
        (fun hsl => absurd ((h.running c p hc).symm.trans hsl) nofun) rfl rfl rfl rfl
    · exact ⟨fun _ _ => rfl, Or.inl rfl, fun _ _ _ => Iff.rfl, fun _ _ => Or.inl rfl,
        fun _ _ => rfl, fun _ _ => rfl, fun _ _ => rfl, fun _ _ => rfl, fun _ _ => rfl,
        fun _ _ => rfl⟩
  | sleepLock chan lk =>
    rw [hpoint] at hok hfree
    exact sleepLock_handover h hc hp hpoint (hfree .ptable rfl) hok
  | sleepUnlock chan lk =>
    rw [hpoint] at hok
    exact sleepUnlock_handover h hc hpoint hok
  | sleepSwitch chan lk =>
    rw [hpoint] at hok
    exact sleepSwitch_handover h hc hpoint hok
  | asleep chan lk =>
    rw [hpoint] at hok
    exact sleepTidy_handover h hc hok
  | relock lk =>
    rw [hpoint] at hok hfree
    exact relock_handover h hc (hfree lk rfl) hok
  | wakeup chan =>
    rw [hpoint] at hok hfree
    exact wakeupLocked_handover h hc (hfree .ptable rfl) hok
  | wakeupUnlock chan =>
    rw [hpoint] at hok
    exact wakeupUnlock_handover h hc hpoint hok
  | wakeupReturn chan => exact goto_code_handover h hc
  | exited =>
    apply h.step_local hc (tick_local ?_) rfl
    · exact Own.still h rfl (by rw [hpoint]; exact id) (fun _ => h.running c p hc)
        (fun hsl => absurd ((h.running c p hc).symm.trans hsl) nofun) rfl rfl rfl rfl
    · exact ⟨fun _ _ => rfl, Or.inl rfl, fun _ _ _ => Iff.rfl, fun _ _ => Or.inl rfl,
        fun _ _ => rfl, fun _ _ => rfl, fun _ _ => rfl, fun _ _ => rfl, fun _ _ => rfl,
        fun _ _ => rfl⟩

/-! Interrupts. -/

theorem setPreempt_local (s : State π κ χ L) (c : κ) (p : π) (x : Preempt) :
    Local c p s { s with preempt := Function.update s.preempt p x } :=
  ⟨fun _ _ => rfl, Or.inl rfl, fun _ _ _ => Iff.rfl, fun _ _ => Or.inl rfl,
    fun _ _ => rfl, fun _ _ => rfl, fun _ hq => Function.update_of_ne hq .., fun _ _ => rfl,
    fun _ _ => rfl, fun _ _ => rfl⟩

theorem not_window_of_preempt (h : Handover s) (hp : s.preempt p ≠ .no) :
    ¬ InWindow (s.point p) := fun hw => hp (h.window p hw).1

theorem timer_handover (h : Handover s) (hc : s.proc c = some p)
    (hfree : CanAcquire s c .ptable) (hok : (s.acquire c .ptable).halted = none) :
    Handover (tick s
      { s.acquire c .ptable with preempt := Function.update s.preempt p .locked }) := by
  have hw := no_window_of_free h (holder_none hfree hok) p
  have hk : Local c p s
      { s.acquire c .ptable with preempt := Function.update s.preempt p .locked } := by
    have ha := acquire_local p hfree hok
    rw [(acquire_ok hok).2] at ha ⊢
    exact ha.trans (setPreempt_local _ c p .locked)
  apply h.step_local hc (tick_local hk) rfl
  rw [(acquire_ok hok).2]
  exact Own.still h rfl hw (fun _ => h.running c p hc)
    (fun hsl => absurd ((h.running c p hc).symm.trans hsl) nofun) rfl rfl rfl rfl

theorem yieldSwitch_handover (h : Handover s) (hc : s.proc c = some p)
    (hp : s.preempt p = .locked)
    (hok : ((State.setState { s with preempt := Function.update s.preempt p .switched } p
      .runnable).sched c p).halted = none) :
    Handover (tick s ((State.setState
      { s with preempt := Function.update s.preempt p .switched } p .runnable).sched c p)) := by
  have hw := not_window_of_preempt h (by rw [hp]; nofun)
  apply h.step_local hc (tick_local (((setPreempt_local s c p .switched).trans
    (setState_local _ c p _)).trans (sched_local hok))) rfl
  rw [sched_ok hok]
  refine Own.still h rfl hw ?_ ?_ rfl rfl rfl rfl
  · intro hcp
    simp [tick] at hcp
  · simp [tick, State.setState]

theorem yieldRelease_handover (h : Handover s) (hc : s.proc c = some p)
    (hp : s.preempt p = .switched) (hok : (s.release c .ptable).halted = none) :
    Handover (tick s
      { s.release c .ptable with preempt := Function.update s.preempt p .no }) := by
  have hw := not_window_of_preempt h (by rw [hp]; nofun)
  have hk : Local c p s
      { s.release c .ptable with preempt := Function.update s.preempt p .no } := by
    have ha := release_local p hok
    rw [(release_ok hok).2] at ha ⊢
    exact ha.trans (setPreempt_local _ c p .no)
  apply h.step_local hc (tick_local hk) rfl
  rw [(release_ok hok).2]
  exact Own.still h rfl hw (fun _ => h.running c p hc)
    (fun hsl => absurd ((h.running c p hc).symm.trans hsl) nofun) rfl rfl rfl rfl

theorem proceed_handover (h : Handover s) (hc : s.proc c = some p)
    (hfree : ∀ l ∈ wants (s.preempt p) (s.point p), CanAcquire s c l)
    (hok : (proceed s c p).halted = none) : Handover (tick s (proceed s c p)) := by
  simp only [proceed] at hok ⊢
  cases hp : s.preempt p with
  | no =>
    rw [hp] at hok hfree
    exact advance_handover h hc hp hfree hok
  | locked =>
    rw [hp] at hok
    exact yieldSwitch_handover h hc hp hok
  | switched =>
    rw [hp] at hok
    exact yieldRelease_handover h hc hp hok

end Proceed

/-! The schedulers. -/

section Scheduler

variable {s : State π κ χ L} {c : κ}

theorem schedAcquire_handover (h : Handover s) (hc : s.proc c = none)
    (hfree : CanAcquire s c .ptable) (hok : (s.acquire c .ptable).halted = none) :
    Handover (tick s (s.acquire c .ptable)) := by
  have he := (acquire_ok hok).2
  apply h.step_idle hc
  · rw [he]; rfl
  · intro l d hd
    rw [he]
    by_cases hl : l = .ptable
    · subst hl
      simp only [tick, Function.update_self, Option.some.injEq, holder_none hfree hok,
        reduceCtorEq, iff_false]
      exact hd.symm
    · simp only [tick, Function.update_of_ne hl]
  all_goals
    rw [he]
    rfl

theorem schedRelease_handover (h : Handover s) (hc : s.proc c = none)
    (hok : (s.release c .ptable).halted = none) :
    Handover (tick s (s.release c .ptable)) := by
  obtain ⟨hheld, he⟩ := release_ok hok
  apply h.step_idle hc
  · rw [he]; rfl
  · intro l d hd
    rw [he]
    by_cases hl : l = .ptable
    · subst hl
      simp only [tick, Function.update_self, reduceCtorEq, hheld, Option.some.injEq, false_iff]
      exact hd.symm
    · simp only [tick, Function.update_of_ne hl]
  all_goals
    rw [he]
    rfl

/-- The scheduler gives its CPU, and ptable.lock with it, to a process. -/
theorem schedule_handover (h : Handover s) {p : π} (hc : s.proc c = none)
    (hp : s.state p = .runnable) :
    Handover (tick s (State.note
      { s.setState p .running with proc := Function.update s.proc c (some p) } p .ptable)) := by
  have hoff : ∀ d, s.proc d ≠ some p := by
    intro d hd
    rw [h.running d p hd] at hp
    exact absurd hp nofun
  have hproc : ∀ d q, Function.update s.proc c (some p) d = some q →
      (d = c ∧ q = p) ∨ (q ≠ p ∧ s.proc d = some q) := by
    intro d q hd
    by_cases hdc : d = c
    · subst hdc
      rw [Function.update_self] at hd
      exact Or.inl ⟨rfl, (Option.some.inj hd).symm⟩
    · rw [Function.update_of_ne hdc] at hd
      refine Or.inr ⟨?_, hd⟩
      rintro rfl
      exact hoff d hd
  have hsleep : ∀ q, Function.update s.state p .running q = .sleeping → s.state q = .sleeping := by
    intro q hq
    by_cases hqp : q = p
    · subst hqp
      rw [Function.update_self] at hq
      exact absurd hq nofun
    · rwa [Function.update_of_ne hqp] at hq
  constructor
  · intro d e q hd he
    rcases hproc d q hd with ⟨rfl, rfl⟩ | ⟨hne, hd⟩
    · rcases hproc e q he with ⟨rfl, -⟩ | ⟨hne, -⟩
      · rfl
      · exact absurd rfl hne
    · rcases hproc e q he with ⟨-, rfl⟩ | ⟨-, he⟩
      · exact absurd rfl hne
      · exact h.single d e q hd he
  · intro d q hd
    change Function.update s.state p .running q = .running
    rcases hproc d q hd with ⟨-, rfl⟩ | ⟨hne, hd⟩
    · exact Function.update_self ..
    · rw [Function.update_of_ne hne]
      exact h.running d q hd
  · intro q hw
    obtain ⟨h1, d, h2, h3⟩ := h.window q hw
    refine ⟨h1, d, ?_, h3⟩
    have hdc : d ≠ c := by
      rintro rfl
      rw [hc] at h2
      exact absurd h2 nofun
    exact (Function.update_of_ne hdc ..).trans h2
  · exact fun q hq => h.sleeper q (hsleep q hq)
  · exact h.other_lock
  · exact fun q l a ha => Nat.lt_succ_of_lt (h.since_lt q l a ha)
  · intro q l a ha
    by_cases hqp : q = p
    · subst hqp
      simp only [tick, State.note, Function.update_self] at ha
      exact update_acquired h q .ptable l a ha
    · simp only [tick, State.note, Function.update_of_ne hqp] at ha
      exact Nat.lt_succ_of_lt (h.acquired_lt q l a ha)
  · intro q w chan lk r a hq hw hr ha hlt
    obtain ⟨h1, h2⟩ := h.woken q w chan lk r a hq hw hr ha hlt
    exact ⟨h1, fun hsl => h2 (hsleep w hsl)⟩

end Scheduler

theorem next_cases (s : State π κ χ L) (e : Event π κ χ L) :
    ((update s e).halted = none ∧ next s e = tick s (update s e)) ∨
      ∃ msg, next s e = { s.panic msg with clock := s.clock + 1 } := by
  simp only [next]
  split
  · next hok => exact Or.inl ⟨hok, rfl⟩
  · next msg _ => exact Or.inr ⟨msg, rfl⟩

theorem step_handover {s t : State π κ χ L} {e : Event π κ χ L} (h : Handover s)
    (hs : machine.Step s e t) : Handover t := by
  obtain ⟨⟨-, he⟩, rfl⟩ := hs
  change Handover (next s e)
  rcases next_cases s e with ⟨hok, hn⟩ | ⟨msg, hn⟩
  · rw [hn]
    cases e with
    | acquire c p l => exact acquire_handover h he.1 he.2 hok
    | release c p l => exact release_handover h he.1 hok
    | sleep c p chan lk => exact sleep_handover h he.1 he.2
    | wakeup c p chan => exact wakeup_handover h he chan
    | wakeup1 c p chan => exact wakeup1_handover h he.1 he.2 chan
    | kill c p victim => exact kill_handover h he.1 victim
    | fork c p np => exact fork_handover h he.1 he.2.2
    | exit c p => exact exit_handover h he.1 hok
    | proceed c p => exact proceed_handover h he.1 he.2 hok
    | timer c p => exact timer_handover h he.1 he.2.2.2 hok
    | schedAcquire c => exact schedAcquire_handover h he.1 he.2 hok
    | schedRelease c => exact schedRelease_handover h he.1 hok
    | schedule c p => exact schedule_handover h he.1 he.2.2
  · rw [hn]
    exact h.step_panic msg

theorem initial_handover (ready : π → Bool) :
    Handover (initial ready : State π κ χ L) where
  single := nofun
  running := nofun
  window := fun _ hw => hw.elim
  sleeper := by
    intro p hp
    simp only [initial] at hp
    split at hp <;> exact absurd hp nofun
  other_lock := by
    rintro p chan lk (h | h) <;> exact absurd h nofun
  since_lt := nofun
  acquired_lt := nofun
  woken := by
    rintro q p chan lk r a (h | h) <;> exact absurd h nofun

/-- Once wakeup(chan) or wakeup1(chan) is done in `q`, no process is SLEEPING on chan from a
sleep(chan, lk) that released lk before `q` took lk and called it. -/
structure Delivered (s : State π κ χ L) : Prop where
  woken : ∀ q chan, s.point q = .wakeupReturn chan → ∀ p lk r a, s.point p = .asleep chan lk →
    s.releasedAt p = some r → s.since q lk = some a → r < a → s.state p ≠ .sleeping
  on_chan : ∀ p, s.state p = .sleeping →
    ∃ chan lk, s.point p = .asleep chan lk ∧ s.chan p = some chan

theorem wakeup_delivered {ready : π → Bool} {es : List (Event π κ χ L)} {s : State π κ χ L}
    (r : Reaches ready es s) : Delivered s := by
  have h : Handover s := by
    refine r.invariant ?_ fun _ _ _ h hs => step_handover h hs
    rintro _ rfl
    exact initial_handover ready
  constructor
  · intro q chan hq p lk r a hp hr ha hlt
    exact (h.woken q p chan lk r a (Or.inr hq) (Or.inr hp) hr ha hlt).2
  · exact h.sleeper

/-- Process 1 wakes process 0, whose sleep() has let the lock go but is not asleep yet. -/
def wakeInWindow : List (Event (Fin 2) (Fin 2) Unit Unit) :=
  [.schedAcquire p0, .schedule p0 p0, .proceed p0 p0, .schedAcquire p1, .schedule p1 p1,
   .proceed p1 p1, .acquire p0 p0 (.spin ()), .sleep p0 p0 () (.spin ()), .proceed p0 p0,
   .proceed p0 p0, .acquire p1 p1 (.spin ()), .wakeup p1 p1 (), .proceed p0 p0, .schedRelease p0,
   .proceed p1 p1, .proceed p1 p1]

theorem wakeup_delivered_in_window :
    Delivered (machine.exec (initial fun _ => true) wakeInWindow) ∧
      (machine.exec (initial fun _ => true) wakeInWindow).point 0 = .asleep () (.spin ()) ∧
      (machine.exec (initial fun _ => true) wakeInWindow).point 1 = .wakeupReturn () ∧
      (machine.exec (initial fun _ => true) wakeInWindow).state 0 = .runnable :=
  ⟨wakeup_delivered (Machine.Valid.run (by decide +kernel)), by decide +kernel,
    by decide +kernel, by decide +kernel⟩

end WakeupDelivery
