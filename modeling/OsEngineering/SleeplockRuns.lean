import OsEngineering.SleeplockSteps

/-! The sleep locks exclude each other's owners, lose no waiter, and never panic. -/
set_option linter.unusedSectionVars false

namespace SleeplockRuns

open TransitionSystem SleepWakeup SleepHandover WakeupDelivery SleepSteps Sleeplocks SleeplockInvariant
  SleeplockSteps

variable {π κ K χ L : Type*}
variable [DecidableEq π] [DecidableEq κ] [DecidableEq K] [DecidableEq χ] [DecidableEq L]
variable {s t : Sleeplocks.State π κ K χ L} {c : κ} {p q : π} {k : K}

/-! Code elsewhere. -/

section Foreign

variable {u : Kernel π κ K χ L} {e : SleepWakeup.Event π κ (K ⊕ χ) (K ⊕ L)}

theorem lk_foreign {l : Lock (K ⊕ L)} (hl : ForeignLock l) : lk k ≠ l := by
  rintro rfl
  simp [ForeignLock, lk] at hl

theorem advance_stands (hst : Stands (.code : Place K) (u.point p)) :
    Stands (.code : Place K) ((SleepWakeup.advance u c p (u.point p)).point p) := by
  cases hz : u.point p with
  | asleep x l =>
    rw [hz] at hst
    simp only [SleepWakeup.advance, sleepTidy]
    split
    · simp [SleepWakeup.State.goto, Stands]
    · simpa [SleepWakeup.State.goto, Stands] using hst.2
  | sleepSwitch x l =>
    rw [hz] at hst
    simpa [SleepWakeup.advance, SleepWakeup.sleepSwitch, (fallAsleep_self u p x l).1, Stands]
      using hst
  | _ => simp_all [SleepWakeup.advance, SleepWakeup.State.goto, Stands]

theorem update_stands (hst : Stands (.code : Place K) (u.point p)) (hr : runner e = some (c, p))
    (hf : Foreign e) : Stands (.code : Place K) ((update u e).point p) := by
  cases e <;> simp only [runner, Option.some.injEq, Prod.mk.injEq, reduceCtorEq] at hr <;>
    obtain ⟨rfl, rfl⟩ := hr
  case acquire d q l | timer d q | release d q l | fork d q np =>
    simpa [update, SleepWakeup.State.note, SleepWakeup.State.setState] using hst
  case sleep d q x l =>
    simp only [update, sleep, SleepWakeup.State.goto, Function.update_self]
    split
    · exact hf
    · exact hf
  case wakeup d q x | wakeup1 d q x => simpa [update, SleepWakeup.State.goto, Foreign, Stands] using hf
  case kill d q v =>
    simp only [update]
    split <;> simpa [SleepWakeup.State.setState] using hst
  case exit d q => simp [update, SleepWakeup.State.goto, Stands]
  case proceed d q =>
    simp only [update, proceed]
    split
    · exact advance_stands hst
    · simpa [SleepWakeup.State.setState] using hst
    · simpa using hst

theorem advance_holder (hst : Stands (.code : Place K) (u.point p))
    (hl : (SleepWakeup.advance u c p (u.point p)).holder (lk k) = some c) :
    u.holder (lk k) = some c := by
  cases hz : u.point p with
  | sleepLock x l | wakeup x =>
    rw [hz] at hl
    exact (acquire_holder hl).resolve_left (lk_ne_ptable k)
  | relock l =>
    rw [hz] at hst hl
    exact (acquire_holder hl).resolve_left (lk_foreign hst)
  | forkret | sleepUnlock x l | wakeupUnlock x =>
    rw [hz] at hl
    exact release_holder hl
  | asleep x l =>
    rw [hz] at hl
    simp only [SleepWakeup.advance, sleepTidy] at hl
    split at hl
    · exact hl
    · exact release_holder (s := { u with chan := Function.update u.chan p none }) hl
  | sleepSwitch x l =>
    rw [hz] at hl
    simpa [SleepWakeup.advance, SleepWakeup.sleepSwitch] using hl
  | wakeupReturn x | code | exited =>
    rw [hz] at hl
    exact hl

theorem update_holder (hst : Stands (.code : Place K) (u.point p)) (hr : runner e = some (c, p))
    (hf : Foreign e) (hl : (update u e).holder (lk k) = some c) : u.holder (lk k) = some c := by
  cases e <;> simp only [runner, Option.some.injEq, Prod.mk.injEq, reduceCtorEq] at hr <;>
    obtain ⟨rfl, rfl⟩ := hr
  case acquire d q l => exact (acquire_holder hl).resolve_left (lk_foreign hf)
  case timer d q => exact (acquire_holder hl).resolve_left (lk_ne_ptable k)
  case release d q l => exact release_holder hl
  case sleep | wakeup | wakeup1 | fork => exact hl
  case kill d q v =>
    simp only [update] at hl
    split at hl <;> exact hl
  case exit d q => simpa [update, SleepWakeup.State.goto, SleepWakeup.State.setState] using hl
  case proceed d q =>
    simp only [update, proceed] at hl
    split at hl
    · exact advance_holder hst hl
    · simpa [SleepWakeup.State.setState] using hl
    · exact release_holder hl

theorem foreign_inv (h : Inv s) (hcode : s.place p = .code) (hc : s.kernel.proc c = some p)
    (he : SleepWakeup.Enabled s.kernel e) (hr : runner e = some (c, p)) (hf : Foreign e)
    (kt : Calls s t e p .code) : Inv t := by
  have hst : Stands (.code : Place K) (s.kernel.point p) := hcode ▸ (h.proper p).stands
  have hst' : Stands (.code : Place K) (t.kernel.point p) := by
    rw [kt.kernel]
    rcases next_cases s.kernel e with ⟨-, hn⟩ | ⟨msg, hn⟩
    · simpa [hn, tick] using update_stands hst hr hf
    · simpa [hn, SleepWakeup.State.panic] using hst
  have hnot : ∀ k, s.kernel.holder (lk k) ≠ some c := by
    intro k hl
    have hs := spins_of_holds h hc hl
    simp [hcode, Spins] at hs
  apply kernel_inv h hc he hr kt (Or.inl hcode.symm)
  · intro hnone
    rw [kt.kernel] at hnone ⊢
    exact next_idle hr hc hnone
  · intro k hl
    refine absurd ?_ (hnot k)
    rw [kt.kernel] at hl
    rcases next_cases s.kernel e with ⟨-, hn⟩ | ⟨msg, hn⟩
    · rw [hn] at hl
      exact update_holder hst hr hf hl
    · rw [hn] at hl
      exact hl
  · exact hst'
  · simp
  · simp
  · simp
  · simp [Spins]
  · intro k hk
    have := spins_of_busy hst' hk
    simp [Spins] at this
  · intro k
    refine Or.inr ⟨fun hw => ?_, ?_⟩
    · rcases hw with hw | ⟨hw, -⟩ <;> simp [hw, Stands, ForeignChan, chan] at hst'
    · rintro (ha | ⟨ha, -⟩) <;> simp [hcode] at ha

end Foreign

/-! The schedulers. -/

/-- Only the scheduler of `c` has run: every process is where it was, on the same CPU. -/
theorem idle_inv {u : Kernel π κ K χ L} (h : Inv s) (hc : s.kernel.proc c = none)
    (hu : Handover u) (hproc : u.proc = s.kernel.proc) (hpoint : u.point = s.kernel.point)
    (hpre : u.preempt = s.kernel.preempt) (hstate : u.state = s.kernel.state)
    (hncli : ∀ d, d ≠ c → u.ncli d = s.kernel.ncli d)
    (hholder : ∀ d, d ≠ c → (u.holder .ptable = some d ↔ s.kernel.holder .ptable = some d))
    (hlk : ∀ k, u.holder (lk k) = s.kernel.holder (lk k))
    (hidle : u.ncli c = if u.holder .ptable = some c then 1 else 0) :
    Inv { s with kernel := u } := by
  refine ⟨hu, ?_, ?_, ?_, ?_⟩
  · intro d hd
    rcases eq_or_ne d c with rfl | hdc
    · exact hidle
    · simp only [hproc] at hd
      simp [hncli d hdc, hholder d hdc, h.idle d hd]
  · intro d k hl
    simp only [hlk] at hl
    simpa [hproc, hpoint] using h.spun d k hl
  · intro p
    have hold := h.proper p
    constructor
    · simpa [hpoint] using hold.stands
    · simpa [hpre, hpoint] using hold.calm
    · intro d hd hcode
      simp only [hproc] at hd
      have hdc : d ≠ c := by
        rintro rfl
        simp [hc] at hd
      simpa [hncli d hdc, hholder d hdc, hpre, hpoint] using hold.on d hd hcode
    · simpa [hproc, hpre, hpoint] using hold.off
    · simpa [hproc, hlk, hpoint] using hold.spin
    · exact hold.free
    · simpa [hpoint] using hold.busy
    · exact hold.mine
    · exact hold.right
  · simpa [Waits, Announces, hpoint, hstate] using h.waits

/-- A process is taken where it left its CPU, with ptable.lock held. -/
theorem schedule_inv {u : Kernel π κ K χ L} (h : Inv s) (hc : s.kernel.proc c = none)
    (hl : s.kernel.holder .ptable = some c) (hoff : ∀ d, s.kernel.proc d ≠ some p)
    (hu : Handover u)
    (hv : view u = { view s.kernel with
      state := Function.update s.kernel.state p .running
      proc := Function.update s.kernel.proc c (some p) }) : Inv { s with kernel := u } := by
  obtain ⟨hholder, hncli, hproc, hstate, -, hpoint, hpre, -⟩ := view_fields hv
  simp only [view] at hholder hncli hpoint hpre
  have hn : s.kernel.ncli c = 1 := by simpa [hl] using h.idle c hc
  have hprc : ∀ d q, q ≠ p → (u.proc d = some q ↔ s.kernel.proc d = some q) := by
    intro d q hq
    rcases eq_or_ne d c with rfl | hdc
    · simp [hproc, hc, hq.symm]
    · simp [hproc, hdc]
  refine ⟨hu, ?_, ?_, ?_, ?_⟩
  · intro d hd
    rcases eq_or_ne d c with rfl | hdc
    · simp [hproc] at hd
    · simp only [hproc, Function.update_of_ne hdc] at hd
      simpa [hncli, hholder] using h.idle d hd
  · intro d k hlk
    simp only [hholder] at hlk
    obtain ⟨q, hq, hs⟩ := h.spun d k hlk
    have hqp : q ≠ p := by
      rintro rfl
      exact hoff d hq
    exact ⟨q, (hprc d q hqp).mpr hq, by simpa [hpoint] using hs⟩
  · intro q
    have hold := h.proper q
    refine ⟨?_, ?_, ?_, ?_, ?_, hold.free, ?_, hold.mine, hold.right⟩
    · simpa [hpoint] using hold.stands
    · simpa [hpre, hpoint] using hold.calm
    · intro d hd hcode
      rcases eq_or_ne q p with rfl | hq
      · have hdc : d = c := by
          by_contra hdc
          simp only [hproc, Function.update_of_ne hdc] at hd
          exact hoff d hd
        subst hdc
        -- it left in a timer interrupt or asleep
        rcases hold.off hoff hcode with hx | ⟨hx, x, l, hz⟩
        · simp [hncli, hholder, hpre, hpoint, hx, hn, hl, depth, atTable]
        · simp [hncli, hholder, hpre, hpoint, hx, hz, hn, hl, depth, atTable]
      · simpa [hncli, hholder, hpre, hpoint] using hold.on d ((hprc d q hq).mp hd) hcode
    · intro hall hcode
      rcases eq_or_ne q p with rfl | hq
      · exact absurd (by simp [hproc]) (hall c)
      · have hnone : ∀ d, s.kernel.proc d ≠ some q := fun d hd => hall d ((hprc d q hq).mpr hd)
        simpa [hpre, hpoint] using hold.off hnone hcode
    · intro k hs
      simp only [hpoint] at hs
      obtain ⟨d, hd, hlk⟩ := hold.spin k hs
      have hqp : q ≠ p := by
        rintro rfl
        exact hoff d hd
      exact ⟨d, (hprc d q hqp).mpr hd, by simpa [hholder] using hlk⟩
    · simpa [hpoint] using hold.busy
  · intro q k hw
    have hold : Waits s q k := by
      rcases hw with hw | ⟨hw, hsl⟩
      · exact Or.inl (by simpa [hpoint] using hw)
      · refine Or.inr ⟨by simpa [hpoint] using hw, ?_⟩
        rcases eq_or_ne q p with rfl | hq
        · simp [hstate] at hsl
        · simpa [hstate, view, hq] using hsl
    simpa [Announces, hpoint] using h.waits q k hold

theorem panic_inv (h : Inv s) (msg : String) :
    Inv { s with kernel := { s.kernel.panic msg with clock := s.kernel.clock + 1 } } where
  handover := h.handover.step_panic msg
  idle := h.idle
  spun := h.spun
  proper p := ⟨(h.proper p).stands, (h.proper p).calm, (h.proper p).on, (h.proper p).off,
    (h.proper p).spin, (h.proper p).free, (h.proper p).busy, (h.proper p).mine,
    (h.proper p).right⟩
  waits := h.waits

/-! Runs. -/

theorem initial_inv (ready : π → Bool) : Inv (Sleeplocks.initial ready : Sleeplocks.State π κ K χ L) where
  handover := initial_handover ready
  idle := by simp [Sleeplocks.initial, SleepWakeup.initial]
  spun := by simp [Sleeplocks.initial, SleepWakeup.initial]
  proper p := by
    constructor <;> simp [Sleeplocks.initial, SleepWakeup.initial, Stands, Spins]
  waits := by simp [Sleeplocks.initial, SleepWakeup.initial, Waits]

/-- A process takes its next step in sleeplock.c. -/
theorem advance_inv (h : Inv s) (he : Sleeplocks.Enabled s (.step c p)) :
    Inv (Sleeplocks.next s (.step c p)) ∧ (Sleeplocks.next s (.step c p)).kernel.halted = none := by
  obtain ⟨hhalt, hp, hcode, hw⟩ := he
  simp only [Sleeplocks.next]
  cases hplace : s.place p with
  | code => exact absurd hplace hcode
  | acquiring k =>
    have haw : awaits (s.place p) = some k := by simp [hplace, awaits]
    exact acquire_inv h hhalt hp haw (hw k haw) (calls_goto s _ p _)
      (by simp [Spins, eq_comm]) rfl (by simp) (by simp) (by simp)
  | testing k =>
    simp only [Sleeplocks.advance]
    split
    · next hl => exact sleep_inv h hhalt hp hplace hl (calls_call s _ p)
    · next hl => exact ⟨taking_inv h hp hplace (by simpa using hl), hhalt⟩
  | taking k => exact ⟨taken_inv h hp hplace, hhalt⟩
  | taken k =>
    exact release_inv h hhalt hp (by simp [hplace, Spins, eq_comm]) (by simp [hplace])
      (calls_goto s _ p _)
  | releasing k =>
    have haw : awaits (s.place p) = some k := by simp [hplace, awaits]
    have hmine := (h.proper p).mine k (Or.inl hplace)
    refine acquire_inv h hhalt hp haw (hw k haw) (calls_goto s _ p _)
      (by simp [Spins, eq_comm]) rfl (by simp) ?_ (by simp)
    intro j hj
    obtain rfl : k = j := by simpa using hj
    exact hmine
  | clearing k => exact ⟨waking_inv h hp hplace, hhalt⟩
  | waking k => exact wakeup_inv h hhalt hp hplace (calls_goto s _ p _)
  | cleared k =>
    exact release_inv h hhalt hp (by simp [hplace, Spins, eq_comm]) (by simp [hplace])
      (calls_goto s _ p _)
  | asking k =>
    have haw : awaits (s.place p) = some k := by simp [hplace, awaits]
    exact acquire_inv h hhalt hp haw (hw k haw) (calls_goto s _ p _)
      (by simp [Spins, eq_comm]) rfl (by simp) (by simp) (by simp)
  | checking k => exact ⟨checking_inv h hp hplace, hhalt⟩
  | checked k r =>
    exact release_inv h hhalt hp (by simp [hplace, Spins, eq_comm]) (by simp [hplace])
      (calls_goto s _ p _)

theorem scheduler_inv {e : SleepWakeup.Event π κ (K ⊕ χ) (K ⊕ L)} (h : Inv s)
    (he : SleepWakeup.Enabled s.kernel e) (hr : runner e = none) : Inv (s.call e) := by
  have hu : Handover (SleepWakeup.next s.kernel e) := step_handover h.handover ⟨he, rfl⟩
  cases e <;> simp only [runner, reduceCtorEq] at hr
  case schedAcquire c =>
    obtain ⟨hhalt, hc, hcan⟩ := he
    by_cases hl : s.kernel.holder .ptable = some c
    · rcases next_cases s.kernel (.schedAcquire c) with ⟨hok, -⟩ | ⟨msg, hn⟩
      · exact absurd hl (acquire_ok hok).1
      · simpa [Sleeplocks.State.call, hn] using panic_inv h msg
    · have hv := view_schedAcquire hhalt hl
      obtain ⟨hholder, hncli, hproc, hstate, -, hpoint, hpre, -⟩ := view_fields hv
      have hn : s.kernel.ncli c = 0 := by simpa [hl] using h.idle c hc
      have hnone : s.kernel.holder .ptable = none := hcan.resolve_right hl
      apply idle_inv h hc hu hproc hpoint hpre hstate
      · intro d hd
        simp [hncli, hd]
      · intro d hd
        simp [hholder, hnone, hd.symm]
      · simp [hholder]
      · simp [hncli, hholder, hn]
  case schedRelease c =>
    obtain ⟨hhalt, hc, hl⟩ := he
    have hv := view_schedRelease hhalt hl
    obtain ⟨hholder, hncli, hproc, hstate, -, hpoint, hpre, -⟩ := view_fields hv
    have hn : s.kernel.ncli c = 1 := by simpa [hl] using h.idle c hc
    apply idle_inv h hc hu hproc hpoint hpre hstate
    · intro d hd
      simp [hncli, hd]
    · intro d hd
      simp [hholder, hl, hd.symm]
    · simp [hholder]
    · simp [hncli, hholder, hn]
  case schedule c p =>
    obtain ⟨hhalt, hc, hl, hrun⟩ := he
    refine schedule_inv h hc hl ?_ hu (view_schedule hhalt c p)
    intro d hd
    simp [h.handover.running d p hd] at hrun

/-- An event of the kernel, of code elsewhere or of a process in a function it called. -/
theorem kernel_event_inv {e : SleepWakeup.Event π κ (K ⊕ χ) (K ⊕ L)} (h : Inv s)
    (he : Sleeplocks.Enabled s (.kernel e)) : Inv (s.call e) := by
  obtain ⟨he, ha, hf⟩ := he
  cases hr : runner e with
  | none => exact scheduler_inv h he hr
  | some x =>
    obtain ⟨c, p⟩ := x
    have hc : s.kernel.proc c = some p := by
      cases e <;> simp only [runner, Option.some.injEq, Prod.mk.injEq, reduceCtorEq] at hr <;>
        obtain ⟨rfl, rfl⟩ := hr
      case proceed d q | timer d q => exact he.2.1
      case wakeup d q x => exact he.2.1
      all_goals exact he.2.1.1
    by_cases hcode : s.place p = .code
    · exact foreign_inv h hcode hc he hr hf (hcode ▸ calls_call s e p)
    · cases e <;> simp only [runner, Option.some.injEq, Prod.mk.injEq, reduceCtorEq] at hr <;>
        obtain ⟨rfl, rfl⟩ := hr
      case proceed d q => exact (proceed_inv h he (calls_call s _ q) hcode).1
      case timer d q => exact (timer_inv h he (calls_call s _ q) hcode).1
      all_goals exact absurd (ha _ rfl) hcode

theorem next_inv {e : Sleeplocks.Event π κ K χ L} (h : Inv s) (he : Sleeplocks.Enabled s e)
    (hd : Disciplined s e) : Inv (Sleeplocks.next s e) := by
  cases e with
  | kernel e => exact kernel_event_inv h he
  | acquiresleep c p k => exact enter_inv h he.2.1 he.2.2 hd rfl (by simp)
  | releasesleep c p k => exact enter_inv h he.2.1 he.2.2 hd.1 rfl fun _ => hd.2
  | holdingsleep c p k => exact enter_inv h he.2.1 he.2.2 hd rfl (by simp)
  | step c p => exact (advance_inv h he).1

/-! What a sleep lock is for. -/

inductive Deal (π K : Type*) where
  | take (p : π) (k : K)
  | give (p : π) (k : K)

/-- Locks that one process at a time may own. -/
def exclusive : Machine (K → Option π) (Deal π K) where
  enabled o
    | .take _ k => o k = none
    | .give p k => o k = some p
  next o
    | .take p k => Function.update o k (some p)
    | .give _ k => Function.update o k none

/-- acquiresleep() takes the lock where it sets lk->locked, and releasesleep() gives it back
where it clears it. -/
def deal (s : Sleeplocks.State π κ K χ L) : Sleeplocks.Event π κ K χ L → Option (Deal π K)
  | .step _ p => match s.place p with
    | .taking k => some (.take p k)
    | .clearing k => some (.give p k)
    | _ => none
  | _ => none

def deals (s : Sleeplocks.State π κ K χ L) : List (Sleeplocks.Event π κ K χ L) → List (Deal π K)
  | [] => []
  | e :: es => (deal s e).toList ++ deals (Sleeplocks.next s e) es

theorem deals_snoc (s : Sleeplocks.State π κ K χ L) (es : List (Sleeplocks.Event π κ K χ L))
    (e : Sleeplocks.Event π κ K χ L) :
    deals s (es ++ [e]) = deals s es ++ (deal (Sleeplocks.machine.exec s es) e).toList := by
  induction es generalizing s with
  | nil => simp [deals, Machine.exec]
  | cons e' es ih =>
    simp only [List.cons_append, deals, ih, List.append_assoc]
    rfl

theorem owner_set (s : Sleeplocks.State π κ K χ L) (k : K) (b : Bool) (x : Option π) (p : π)
    (y : Place K) :
    owner ((s.set k b x).goto p y) = Function.update (owner s) k (if b then x else none) := by
  funext j
  rcases eq_or_ne j k with rfl | hj
  · simp [owner, Sleeplocks.State.set, Sleeplocks.State.goto]
  · simp [owner, Sleeplocks.State.set, Sleeplocks.State.goto, hj]

/-- Only taking and clearing change the owner, each where it may. -/
theorem deal_step {e : Sleeplocks.Event π κ K χ L} (h : Inv s) :
    match deal s e with
    | some d => exclusive.Step (owner s) d (owner (Sleeplocks.next s e))
    | none => owner (Sleeplocks.next s e) = owner s := by
  cases e with
  | step c p =>
    simp only [deal, Sleeplocks.next]
    cases hplace : s.place p with
    | taking k =>
      refine ⟨?_, ?_⟩
      · simp [exclusive, owner, (h.proper p).free k hplace]
      · simp [exclusive, Sleeplocks.advance, owner_set]
    | clearing k =>
      refine ⟨(h.proper p).mine k (Or.inr hplace), ?_⟩
      simp [exclusive, Sleeplocks.advance, owner_set]
    | testing k =>
      simp only [Sleeplocks.advance]
      split <;> rfl
    | _ => rfl
  | _ => rfl

/-- `waited`: nobody sleeps on a free lock, except before the wakeup() of its release.
`quiet`: a process in sleeplock.c, and in what that calls, does not panic. -/
structure Sound (s : Sleeplocks.State π κ K χ L) : Prop where
  waited : ∀ p k, s.kernel.state p = .sleeping → s.kernel.chan p = some (chan k) →
    s.locked k = false → ∃ q, Announces s q k
  answered : ∀ p k r, s.place p = .checked k r → (r = true ↔ owner s k = some p)
  quiet : ∀ c p e, s.place p ≠ .code →
    e = .step c p ∨ e = .kernel (.proceed c p) ∨ e = .kernel (.timer c p) →
    Sleeplocks.Enabled s e → (Sleeplocks.next s e).kernel.halted = none

theorem sound_of_inv (h : Inv s) : Sound s where
  waited := by
    intro p k hsl hch hfree
    obtain ⟨x, l, hz, hx⟩ := h.handover.sleeper p hsl
    obtain rfl : x = chan k := Option.some.inj (hx.symm.trans hch)
    have hst := (h.proper p).stands
    have hwait : Waits s p k := by
      refine Or.inr ⟨?_, hsl⟩
      cases hy : s.place p <;> simp_all [Stands, ForeignChan, chan]
    rcases h.waits p k hwait with hl | hann
    · simp [hfree] at hl
    · exact hann
  answered := fun p => (h.proper p).right
  quiet := by
    rintro c p e hcode (rfl | rfl | rfl) he
    · exact (advance_inv h he).2
    · exact (proceed_inv h he.1 (calls_call s _ p) hcode).2
    · exact (timer_inv h he.1 (calls_call s _ p) hcode).2

theorem run_inv {ready : π → Bool} {es : List (Sleeplocks.Event π κ K χ L)}
    (r : Run (Guarded Sleeplocks.machine.Step Disciplined) (· = Sleeplocks.initial ready) es s) :
    Inv s := by
  refine r.invariant ?_ ?_
  · rintro s rfl
    exact initial_inv ready
  · rintro s e t h ⟨hd, he, rfl⟩
    exact next_inv h he hd

/-- acquiresleep() and releasesleep() are an atomic lock of one owner, holdingsleep() tells
who that is, and a free lock leaves nobody asleep. -/
theorem sleeplocks_sound {ready : π → Bool} {es : List (Sleeplocks.Event π κ K χ L)}
    (r : Run (Guarded Sleeplocks.machine.Step Disciplined) (· = Sleeplocks.initial ready) es s) :
    Sound s ∧ Run exclusive.Step (· = fun _ => none) (deals (Sleeplocks.initial ready) es)
      (owner s) := by
  refine ⟨sound_of_inv (run_inv r), ?_⟩
  induction r with
  | nil hs =>
    subst hs
    exact .nil (by funext k; simp [owner, Sleeplocks.initial])
  | @snoc es s e t r hs ih =>
    obtain ⟨-, -, rfl⟩ := hs
    have hd := deal_step (e := e) (run_inv r)
    rw [deals_snoc, Machine.exec_of_run r.unguarded]
    cases hdeal : deal s e with
    | none =>
      have hsame : owner (Sleeplocks.next s e) = owner s := by simpa [hdeal] using hd
      change Run _ _ _ (owner (Sleeplocks.next s e))
      simpa [hsame] using ih
    | some d =>
      rw [hdeal] at hd
      exact ih.snoc hd

/-- Process 1 wants the lock process 0 owns, sleeps and gets it afterwards. -/
def handed : List (Sleeplocks.Event (Fin 2) (Fin 2) Unit Unit Unit) :=
  let boot (c : Fin 2) : List (Sleeplocks.Event (Fin 2) (Fin 2) Unit Unit Unit) :=
    [.kernel (.schedAcquire c), .kernel (.schedule c c), .kernel (.proceed c c)]
  boot p0 ++ boot p1 ++
    [.acquiresleep p0 p0 (), .step p0 p0, .step p0 p0, .step p0 p0, .step p0 p0,
     .acquiresleep p1 p1 (), .step p1 p1, .step p1 p1, .kernel (.proceed p1 p1),
     .kernel (.proceed p1 p1), .kernel (.proceed p1 p1), .kernel (.schedRelease p1),
     .releasesleep p0 p0 (), .step p0 p0, .step p0 p0, .step p0 p0, .kernel (.proceed p0 p0),
     .kernel (.proceed p0 p0), .kernel (.proceed p0 p0), .step p0 p0,
     .kernel (.schedAcquire p1), .kernel (.schedule p1 p1), .kernel (.proceed p1 p1),
     .kernel (.proceed p1 p1), .step p1 p1, .step p1 p1, .step p1 p1]

def afterHanded : Sleeplocks.State (Fin 2) (Fin 2) Unit Unit Unit :=
  Sleeplocks.machine.exec (Sleeplocks.initial fun _ => true) handed

theorem sleeplocks_sound_handed : owner afterHanded () = some p1 ∧ Sound afterHanded ∧
    Run exclusive.Step (· = fun _ => none) (deals (Sleeplocks.initial fun _ => true) handed)
      (owner afterHanded) :=
  ⟨by decide +kernel, sleeplocks_sound (Machine.Valid.guarded_run (by decide +kernel))⟩

end SleeplockRuns
