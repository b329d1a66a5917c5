import OsEngineering.SleeplockInvariant

/-! A process of sleeplock.c in acquire(), release(), sleep() and wakeup(), step by step. -/
set_option linter.unusedSectionVars false

namespace SleeplockSteps

open TransitionSystem SleepWakeup SleepHandover WakeupDelivery SleepSteps Sleeplocks SleeplockInvariant

variable {π κ K χ L : Type*}
variable [DecidableEq π] [DecidableEq κ] [DecidableEq K] [DecidableEq χ] [DecidableEq L]
variable {s t : Sleeplocks.State π κ K χ L} {c : κ} {p q : π} {k : K}

/-- `t` is `s` after the event of `p`, which is at `y` then. -/
structure Calls (s t : Sleeplocks.State π κ K χ L) (e : SleepWakeup.Event π κ (K ⊕ χ) (K ⊕ L))
    (p : π) (y : Place K) : Prop where
  kernel : t.kernel = SleepWakeup.next s.kernel e
  locked : t.locked = s.locked
  pid : t.pid = s.pid
  place : t.place = Function.update s.place p y

theorem calls_goto (s : Sleeplocks.State π κ K χ L) (e : SleepWakeup.Event π κ (K ⊕ χ) (K ⊕ L))
    (p : π) (y : Place K) : Calls s ((s.call e).goto p y) e p y :=
  ⟨rfl, rfl, rfl, rfl⟩

theorem calls_call (s : Sleeplocks.State π κ K χ L) (e : SleepWakeup.Event π κ (K ⊕ χ) (K ⊕ L))
    (p : π) : Calls s (s.call e) e p (s.place p) :=
  ⟨rfl, rfl, rfl, (Function.update_eq_self p s.place).symm⟩

section Calls

variable {e : SleepWakeup.Event π κ (K ⊕ χ) (K ⊕ L)} {y : Place K}

theorem Calls.apart (k : Calls s t e p y) (he : SleepWakeup.Enabled s.kernel e)
    (hr : runner e = some (c, p)) : Apart c p s t where
  kernel := k.kernel ▸ next_local he hr
  ncli d hd := by
    rw [k.kernel]
    exact next_ncli (by rwa [cpu_of_runner hr])
  place q hq := by simp [k.place, hq]
  lock j := Or.inl ⟨congrFun k.locked j, congrFun k.pid j⟩

theorem Calls.handover (k : Calls s t e p y) (h : Inv s) (he : SleepWakeup.Enabled s.kernel e) :
    Handover t.kernel := by
  rw [k.kernel]
  exact step_handover h.handover ⟨he, rfl⟩

theorem Calls.owner (k : Calls s t e p y) (j : K) : owner t j = owner s j :=
  owner_eq (congrFun k.locked j) (congrFun k.pid j)

/-- No lock changes hands, and `p` neither falls asleep nor ends its wakeup(). -/
theorem Calls.waits (k : Calls s t e p y) (hw : ∀ j, ¬ Waits t p j)
    (ha : ∀ j, Announces s p j → Announces t p j) (j : K) : (∀ q, ¬ Waits t q j) ∨
      ((Waits t p j → Waits s p j ∨ t.locked j = true) ∧
        (s.locked j = true → t.locked j = true ∨ Announces t p j) ∧
        (Announces s p j → Announces t p j)) := by
  refine Or.inr ⟨fun h => absurd h (hw j), ?_, ha j⟩
  rw [k.locked]
  exact Or.inl

end Calls

theorem lk_inj {j k : K} : (lk j : Lock (K ⊕ L)) = lk k ↔ j = k := by
  simp [lk]

@[simp] theorem lk_ne_ptable (k : K) : (lk k : Lock (K ⊕ L)) ≠ .ptable := by
  simp [lk]

@[simp] theorem ptable_ne_lk (k : K) : (.ptable : Lock (K ⊕ L)) ≠ lk k := by
  simp [lk]

theorem acquire_inv (h : Inv s) (hhalt : s.kernel.halted = none) (hp : InCode s.kernel c p)
    (hplace : awaits (s.place p) = some k) (hw : CanAcquire s.kernel c (lk k)) {y : Place K}
    (kt : Calls s t (.acquire c p (lk k)) p y)
    (hy : ∀ j, Spins j y (.code : Point (K ⊕ χ) (K ⊕ L)) ↔ j = k) (hno : awaits y = none)
    (hfree : ∀ j, y ≠ .taking j)
    (hmine : ∀ j, y = .releasing j ∨ y = .clearing j → owner s j = some p)
    (hright : ∀ j r, y ≠ .checked j r) : Inv t ∧ t.kernel.halted = none := by
  have hcode : s.place p ≠ .code := by
    intro hcode
    simp [hcode, awaits] at hplace
  have hspins : ∀ j, s.kernel.holder (lk j) ≠ some c := by
    intro j hl
    have hs := spins_of_holds h hp.1 hl
    cases hy : s.place p <;> simp_all [awaits, Spins]
  obtain ⟨hn, htab⟩ := proper_on h hp hcode
  have he : SleepWakeup.Enabled s.kernel (.acquire c p (lk k)) := ⟨hhalt, hp, hw⟩
  obtain ⟨hholder, hncli, hproc, -, -, hpoint, hpre, hok⟩ :=
    view_fields (kt.kernel ▸ view_acquire hhalt p (hspins k))
  have hself : t.place p = y := by simp [kt.place]
  have hp' : InCode t.kernel c p := by simpa [InCode, hproc, hpoint, hpre, view] using hp
  refine ⟨?_, hok.trans hhalt⟩
  apply h.step hp.1 (kt.apart he rfl)
  constructor
  · exact kt.handover h he
  · intro hnone
    simp [hp'.1] at hnone
  · intro j hl
    refine ⟨hp'.1, ?_⟩
    rw [hself, hp'.2.1, hy]
    by_contra hj
    have hne : (lk j : Lock (K ⊕ L)) ≠ lk k := by rwa [Ne, lk_inj]
    simp only [hholder, Function.update_of_ne hne] at hl
    exact hspins j hl
  · refine proper_code hp' ?_ ?_ ?_ ?_ ?_ ?_
    · intro d hd
      rw [hproc] at hd
      exact h.handover.single d c p hd hp.1
    · intro _
      rw [hself, hno, hncli, hholder]
      simpa [hn, hplace] using htab
    · intro j hj
      rw [hself, hy] at hj
      simp [hholder, hj]
    · exact fun j hj => absurd (hself ▸ hj) (hfree j)
    · intro j hj
      rw [kt.owner]
      exact hmine j (hself ▸ hj)
    · exact fun j r hj => absurd (hself ▸ hj) (hright j r)
  · apply kt.waits
    · exact fun j => not_waits_code hp'.2.1
    · rintro j (ha | ⟨ha, -⟩) <;> simp [ha, awaits] at hplace

theorem release_inv (h : Inv s) (hhalt : s.kernel.halted = none) (hp : InCode s.kernel c p)
    (hs : ∀ j, Spins j (s.place p) (.code : Point (K ⊕ χ) (K ⊕ L)) ↔ j = k)
    (hnot : ∀ j, s.place p ≠ .waking j) (kt : Calls s t (.release c p (lk k)) p .code) :
    Inv t ∧ t.kernel.halted = none := by
  have hheld : s.kernel.holder (lk k) = some c := (spins_iff h hp).mp ((hs k).mpr rfl)
  have he : SleepWakeup.Enabled s.kernel (.release c p (lk k)) := ⟨hhalt, hp, hheld⟩
  obtain ⟨hholder, hncli, hproc, -, -, hpoint, hpre, hok⟩ :=
    view_fields (kt.kernel ▸ view_release hhalt p hheld)
  have hself : t.place p = .code := by simp [kt.place]
  have hp' : InCode t.kernel c p := by simpa [InCode, hproc, hpoint, hpre, view] using hp
  refine ⟨?_, hok.trans hhalt⟩
  apply h.step hp.1 (kt.apart he rfl)
  constructor
  · exact kt.handover h he
  · intro hnone
    simp [hp'.1] at hnone
  · intro j hl
    rcases eq_or_ne j k with rfl | hj
    · simp [hholder] at hl
    · have hne : (lk j : Lock (K ⊕ L)) ≠ lk k := by rwa [Ne, lk_inj]
      simp only [hholder, Function.update_of_ne hne] at hl
      exact absurd ((hs j).mp ((spins_iff h hp).mpr hl)) hj
  · refine proper_code hp' ?_ ?_ ?_ ?_ ?_ ?_
    · intro d hd
      rw [hproc] at hd
      exact h.handover.single d c p hd hp.1
    · exact fun hcode => absurd hself hcode
    · intro j hj
      simp [hself, Spins] at hj
    · simp [hself]
    · simp [hself]
    · simp [hself]
  · apply kt.waits
    · exact fun j => not_waits_code hp'.2.1
    · rintro j (ha | ⟨-, ha⟩)
      · exact absurd ha (hnot j)
      · simp [hp.2.1] at ha

/-- A step of `p` in a function of the kernel. -/
theorem kernel_inv {e : SleepWakeup.Event π κ (K ⊕ χ) (K ⊕ L)} {y : Place K} (h : Inv s)
    (hc : s.kernel.proc c = some p) (he : SleepWakeup.Enabled s.kernel e)
    (hr : runner e = some (c, p)) (kt : Calls s t e p y)
    (hy : y = s.place p ∨ ∃ k, y = .cleared k)
    (hidle : t.kernel.proc c = none → t.kernel.ncli c = 1 ∧ t.kernel.holder .ptable = some c)
    (hspun : ∀ k, t.kernel.holder (lk k) = some c →
      t.kernel.proc c = some p ∧ Spins k y (t.kernel.point p))
    (hstands : Stands y (t.kernel.point p))
    (hcalm : t.kernel.preempt p ≠ .no → y ≠ .code →
      depth .no y (t.kernel.point p) = 0 ∧ atTable .no (t.kernel.point p) = false)
    (hon : t.kernel.proc c = some p → y ≠ .code →
      t.kernel.ncli c = depth (t.kernel.preempt p) y (t.kernel.point p) ∧
      (t.kernel.holder .ptable = some c ↔ atTable (t.kernel.preempt p) (t.kernel.point p) = true))
    (hoff : t.kernel.proc c = none → y ≠ .code → t.kernel.preempt p = .switched ∨
      (t.kernel.preempt p = .no ∧ ∃ x l, t.kernel.point p = .asleep x l))
    (hspin : ∀ k, Spins k y (t.kernel.point p) →
      t.kernel.proc c = some p ∧ t.kernel.holder (lk k) = some c)
    (hbusy : ∀ k, t.kernel.point p = .sleepLock (chan k) (lk k) ∨
      t.kernel.point p = .sleepUnlock (chan k) (lk k) → s.locked k = true)
    (hwaits : ∀ k, (∀ q, ¬ Waits t q k) ∨ ((Waits t p k → Waits s p k ∨ s.locked k = true) ∧
      (Announces s p k → Announces t p k))) : Inv t := by
  have hself : t.place p = y := by simp [kt.place]
  have a := kt.apart he hr
  apply h.step hc a
  refine ⟨kt.handover h he, hidle, by rwa [hself], ?_, ?_⟩
  · have hsingle : ∀ d, t.kernel.proc d = some p → d = c := fun d hd =>
      h.handover.single d c p (a.kernel.proc_eq hd) hc
    constructor
    · rwa [hself]
    · rwa [hself]
    · intro d hd
      obtain rfl := hsingle d hd
      rw [hself]
      exact hon hd
    · intro hall
      rw [hself]
      rcases a.kernel.proc_self with hpc | hpc
      · exact absurd (hpc.trans hc) (hall c)
      · exact hoff hpc
    · intro k hk
      rw [hself] at hk
      exact ⟨c, hspin k hk⟩
    · intro k hk
      rw [hself] at hk
      rcases hy with rfl | ⟨j, rfl⟩
      · rw [kt.locked]
        exact (h.proper p).free k hk
      · simp at hk
    · intro k hk
      rw [kt.locked]
      exact hbusy k hk
    · intro k hk
      rw [hself] at hk
      rcases hy with rfl | ⟨j, rfl⟩
      · rw [kt.owner]
        exact (h.proper p).mine k hk
      · simp at hk
    · intro k r hk
      rw [hself] at hk
      rcases hy with rfl | ⟨j, rfl⟩
      · rw [kt.owner]
        exact (h.proper p).right k r hk
      · simp at hk
  · intro k
    rcases hwaits k with hno | ⟨hw, ha⟩
    · exact Or.inl hno
    · refine Or.inr ⟨?_, ?_, ha⟩
      · rw [kt.locked]
        exact hw
      · rw [kt.locked]
        exact Or.inl

theorem sleep_inv (h : Inv s) (hhalt : s.kernel.halted = none) (hp : InCode s.kernel c p)
    (hplace : s.place p = .testing k) (hl : s.locked k = true)
    (kt : Calls s t (.sleep c p (chan k) (lk k)) p (s.place p)) : Inv t ∧ t.kernel.halted = none := by
  have hs : Spins k (s.place p) (.code : Point (K ⊕ χ) (K ⊕ L)) := by simp [hplace, Spins]
  have hheld : s.kernel.holder (lk k) = some c := (spins_iff h hp).mp hs
  obtain ⟨hn, htab⟩ := proper_on h hp (by simp [hplace])
  have he : SleepWakeup.Enabled s.kernel (.sleep c p (chan k) (lk k)) := ⟨hhalt, hp, hheld⟩
  obtain ⟨hholder, hncli, hproc, -, -, hpoint, hpre, hok⟩ :=
    view_fields (kt.kernel ▸ view_sleep hhalt c p (chan k) (lk_ne_ptable k))
  have hpt : t.kernel.point p = .sleepLock (chan k) (lk k) := by simp [hpoint]
  have hprc : t.kernel.proc c = some p := by simpa [hproc, view] using hp.1
  have hpr : t.kernel.preempt p = .no := by simpa [hpre, view] using hp.2.2
  refine ⟨?_, hok.trans hhalt⟩
  apply kernel_inv h hp.1 he rfl kt (Or.inl rfl)
  · simp [hprc]
  · intro j hj
    rw [hholder] at hj
    have hs' := (spins_iff h hp).mpr hj
    obtain rfl : k = j := by simpa [hplace, Spins] using hs'
    exact ⟨hprc, by simp [hplace, hpt, Spins]⟩
  · simp [hplace, hpt, Stands]
  · exact fun hne => absurd hpr hne
  · intro _ _
    rw [hpr, hpt, hncli, hholder]
    simpa [view, depth, atTable, hplace, awaits, htab] using hn
  · simp [hprc]
  · intro j hj
    obtain rfl : k = j := by
      rw [hplace, hpt] at hj
      exact hj.1
    exact ⟨hprc, by simpa [hholder, view] using hheld⟩
  · intro j hj
    obtain rfl : k = j := by simpa [hpt, lk_inj, chan] using hj
    exact hl
  · intro j
    refine Or.inr ⟨fun hw => ?_, ?_⟩
    · simp [Waits, hpt] at hw
    · rintro (ha | ⟨ha, -⟩) <;> simp [hplace] at ha

theorem wakeup_inv (h : Inv s) (hhalt : s.kernel.halted = none) (hp : InCode s.kernel c p)
    (hplace : s.place p = .waking k) (kt : Calls s t (.wakeup c p (chan k)) p (.cleared k)) :
    Inv t ∧ t.kernel.halted = none := by
  have hs : ∀ j, Spins j (s.place p) (.code : Point (K ⊕ χ) (K ⊕ L)) ↔ k = j := by
    simp [hplace, Spins]
  obtain ⟨hn, htab⟩ := proper_on h hp (by simp [hplace])
  have he : SleepWakeup.Enabled s.kernel (.wakeup c p (chan k)) := ⟨hhalt, hp⟩
  obtain ⟨hholder, hncli, hproc, -, -, hpoint, hpre, hok⟩ :=
    view_fields (kt.kernel ▸ view_wakeup hhalt c p (chan k))
  have hself : t.place p = .cleared k := by simp [kt.place]
  have hpt : t.kernel.point p = .wakeup (chan k) := by simp [hpoint]
  have hprc : t.kernel.proc c = some p := by simpa [hproc, view] using hp.1
  have hpr : t.kernel.preempt p = .no := by simpa [hpre, view] using hp.2.2
  refine ⟨?_, hok.trans hhalt⟩
  apply kernel_inv h hp.1 he rfl kt (Or.inr ⟨k, rfl⟩)
  · simp [hprc]
  · intro j hj
    rw [hholder] at hj
    exact ⟨hprc, (hs j).mp ((spins_iff h hp).mpr hj)⟩
  · simp [hpt, Stands]
  · exact fun hne => absurd hpr hne
  · intro _ _
    rw [hpr, hpt, hncli, hholder]
    simpa [view, depth, atTable, hplace, awaits, htab] using hn
  · simp [hprc]
  · intro j hj
    rw [hholder]
    exact ⟨hprc, (spins_iff h hp).mp ((hs j).mpr hj)⟩
  · simp [hpt]
  · intro j
    refine Or.inr ⟨fun hw => ?_, fun ha => ?_⟩
    · simp [Waits, hpt] at hw
    · rcases ha with ha | ⟨ha, -⟩
      · obtain rfl : k = j := by simpa [hplace] using ha
        exact Or.inr ⟨hself, hpt⟩
      · simp [hplace] at ha

/-! The functions of the kernel go on. -/

theorem eq_of_testing {j : K} {y : Place K} {z : Point (K ⊕ χ) (K ⊕ L)} (hy : y = .testing k)
    (hs : Spins j y z) : k = j := by
  subst hy
  exact hs.1

theorem cleared_spins {j : K} {y : Place K} {z z' : Point (K ⊕ χ) (K ⊕ L)} (hy : y = .cleared k)
    (hs : Spins j y z) : Spins j y z' := by
  subst hy
  exact hs

theorem not_spins (h : Inv s) (hcode : s.place p ≠ .code) (hx : s.kernel.preempt p ≠ .no) (j : K) :
    ¬ Spins j (s.place p) (s.kernel.point p) := by
  intro hs
  have hst := (h.proper p).stands
  have hd := ((h.proper p).calm hx hcode).1
  cases hy : s.place p <;> simp only [hy, Spins] at hs
  case testing k =>
    obtain ⟨rfl, hz | hz | hz⟩ := hs <;> simp [hy, hz, depth, awaits] at hd
  case cleared k =>
    rw [hy] at hst
    rcases hst with hz | hz | hz | hz <;> simp [hy, hz, depth, awaits] at hd
  all_goals
    have hz : s.kernel.point p = .code := by simpa [hy, Stands] using hst
    simp [hy, hz, depth, awaits] at hd

section Proceed

variable (h : Inv s) (he : SleepWakeup.Enabled s.kernel (.proceed c p))
  (kt : Calls s t (.proceed c p) p (s.place p))
include h he kt

section Testing

variable (hx : s.kernel.preempt p = .no) (hplace : s.place p = .testing k)
include hx hplace

theorem sleepLock_inv (hz : s.kernel.point p = .sleepLock (chan k) (lk k)) : Inv t ∧ t.kernel.halted = none := by
  have hc := he.2.1
  obtain ⟨hn, htab⟩ := (h.proper p).on c hc (by simp [hplace])
  have htab : s.kernel.holder .ptable ≠ some c := by simpa [hx, hz, atTable] using htab
  have hs : Spins k (s.place p) (s.kernel.point p) := by simp [hplace, hz, Spins]
  obtain ⟨hholder, hncli, hproc, -, -, hpoint, hpre, hok⟩ :=
    view_fields (kt.kernel ▸ view_sleepLock he.1 hx hz htab)
  have hpt : t.kernel.point p = .sleepUnlock (chan k) (lk k) := by simp [hpoint]
  have hprc : t.kernel.proc c = some p := by simpa [hproc, view] using hc
  have hpr : t.kernel.preempt p = .no := by simpa [hpre, view] using hx
  have hlk : ∀ j, t.kernel.holder (lk j) = s.kernel.holder (lk j) := by simp [hholder]
  refine ⟨?_, hok.trans he.1⟩
  apply kernel_inv h hc he rfl kt (Or.inl rfl)
  · simp [hprc]
  · intro j hj
    rw [hlk] at hj
    obtain rfl := eq_of_testing hplace (spins_of_holds h hc hj)
    exact ⟨hprc, by simp [hplace, hpt, Spins]⟩
  · simp [hplace, hpt, Stands]
  · exact fun hne => absurd hpr hne
  · intro _ _
    rw [hpr, hpt, hncli, hholder]
    simp [depth, atTable, hn, hx, hz]
  · simp [hprc]
  · intro j hj
    obtain rfl := eq_of_testing hplace hj
    exact ⟨hprc, (hlk k).trans (holds_of_spins h hc hs)⟩
  · intro j hj
    obtain rfl : k = j := by simpa [hpt, lk_inj, chan] using hj
    exact (h.proper p).busy k (Or.inl hz)
  · intro j
    refine Or.inr ⟨fun hw => ?_, ?_⟩
    · simp [Waits, hpt] at hw
    · rintro (ha | ⟨ha, -⟩) <;> simp [hplace] at ha

/-- The lock goes free, but ptable.lock stays until the process is SLEEPING. -/
theorem sleepUnlock_inv (hz : s.kernel.point p = .sleepUnlock (chan k) (lk k)) : Inv t ∧ t.kernel.halted = none := by
  have hc := he.2.1
  obtain ⟨hn, htab⟩ := (h.proper p).on c hc (by simp [hplace])
  have htab : s.kernel.holder .ptable = some c := by simpa [hx, hz, atTable] using htab
  have hs : Spins k (s.place p) (s.kernel.point p) := by simp [hplace, hz, Spins]
  have hheld := holds_of_spins h hc hs
  obtain ⟨hholder, hncli, hproc, -, -, hpoint, hpre, hok⟩ :=
    view_fields (kt.kernel ▸ view_sleepUnlock he.1 hx hz hheld)
  have hpt : t.kernel.point p = .sleepSwitch (chan k) (lk k) := by simp [hpoint]
  have hprc : t.kernel.proc c = some p := by simpa [hproc, view] using hc
  have hpr : t.kernel.preempt p = .no := by simpa [hpre, view] using hx
  refine ⟨?_, hok.trans he.1⟩
  apply kernel_inv h hc he rfl kt (Or.inl rfl)
  · simp [hprc]
  · intro j hj
    have hjk : j ≠ k := by
      rintro rfl
      simp [hholder] at hj
    have hne : (lk j : Lock (K ⊕ L)) ≠ lk k := by rwa [Ne, lk_inj]
    simp only [hholder, Function.update_of_ne hne] at hj
    exact absurd (eq_of_testing hplace (spins_of_holds h hc hj)).symm hjk
  · simp [hplace, hpt, Stands]
  · exact fun hne => absurd hpr hne
  · intro _ _
    rw [hpr, hpt, hncli, hholder]
    simp [depth, atTable, hn, hx, hz, htab]
  · simp [hprc]
  · intro j hj
    simp [hplace, hpt, Spins] at hj
  · simp [hpt]
  · intro j
    refine Or.inr ⟨fun hw => Or.inr ?_, ?_⟩
    · obtain rfl : k = j := by simpa [Waits, hpt, lk_inj, chan] using hw
      exact (h.proper p).busy k (Or.inr hz)
    · rintro (ha | ⟨ha, -⟩) <;> simp [hplace] at ha

theorem sleepSwitch_inv (hz : s.kernel.point p = .sleepSwitch (chan k) (lk k)) : Inv t ∧ t.kernel.halted = none := by
  have hc := he.2.1
  obtain ⟨hn, htab⟩ := (h.proper p).on c hc (by simp [hplace])
  have htab : s.kernel.holder .ptable = some c := by simpa [hx, hz, atTable] using htab
  have hn : s.kernel.ncli c = 1 := by simpa [hx, hz, depth] using hn
  obtain ⟨hholder, hncli, hproc, -, -, hpoint, hpre, hok⟩ :=
    view_fields (kt.kernel ▸ view_sleepSwitch he.1 hx hz (lk_ne_ptable k) htab hn)
  have hpt : t.kernel.point p = .asleep (chan k) (lk k) := by simp [hpoint]
  have hprc : t.kernel.proc c = none := by simp [hproc]
  have hpr : t.kernel.preempt p = .no := by simpa [hpre, view] using hx
  refine ⟨?_, hok.trans he.1⟩
  apply kernel_inv h hc he rfl kt (Or.inl rfl)
  · intro _
    simp [hncli, hholder, view, hn, htab]
  · intro j hj
    rw [hholder] at hj
    have hs := spins_of_holds h hc hj
    simp [hplace, hz, Spins] at hs
  · simp [hplace, hpt, Stands]
  · exact fun hne => absurd hpr hne
  · simp [hprc]
  · exact fun _ _ => Or.inr ⟨hpr, _, _, hpt⟩
  · intro j hj
    simp [hplace, hpt, Spins] at hj
  · simp [hpt]
  · intro j
    refine Or.inr ⟨fun hw => Or.inl ?_, ?_⟩
    · obtain ⟨hch, hlk⟩ : chan k = chan j ∧ lk k = lk j := by
        simpa [Waits, hpt] using hw.resolve_left (by simp [hpt]) |>.1
      exact Or.inl (by rw [hz, hch, hlk])
    · rintro (ha | ⟨ha, -⟩) <;> simp [hplace] at ha

theorem asleep_inv (hz : s.kernel.point p = .asleep (chan k) (lk k)) : Inv t ∧ t.kernel.halted = none := by
  have hc := he.2.1
  obtain ⟨hn, htab⟩ := (h.proper p).on c hc (by simp [hplace])
  have htab : s.kernel.holder .ptable = some c := by simpa [hx, hz, atTable] using htab
  obtain ⟨hholder, hncli, hproc, -, -, hpoint, hpre, hok⟩ :=
    view_fields (kt.kernel ▸ view_asleep he.1 hx hz (lk_ne_ptable k) htab)
  have hpt : t.kernel.point p = .relock (lk k) := by simp [hpoint]
  have hprc : t.kernel.proc c = some p := by simpa [hproc, view] using hc
  have hpr : t.kernel.preempt p = .no := by simpa [hpre, view] using hx
  refine ⟨?_, hok.trans he.1⟩
  apply kernel_inv h hc he rfl kt (Or.inl rfl)
  · simp [hprc]
  · intro j hj
    simp only [hholder, Function.update_of_ne (lk_ne_ptable j)] at hj
    have hs := spins_of_holds h hc hj
    simp [hplace, hz, Spins] at hs
  · simp [hplace, hpt, Stands]
  · exact fun hne => absurd hpr hne
  · intro _ _
    rw [hpr, hpt, hncli, hholder]
    simp [depth, atTable, hn, hx, hz]
  · simp [hprc]
  · intro j hj
    simp [hplace, hpt, Spins] at hj
  · simp [hpt]
  · intro j
    refine Or.inr ⟨fun hw => ?_, ?_⟩
    · simp [Waits, hpt] at hw
    · rintro (ha | ⟨ha, -⟩) <;> simp [hplace] at ha

theorem relock_inv (hz : s.kernel.point p = .relock (lk k)) : Inv t ∧ t.kernel.halted = none := by
  have hc := he.2.1
  obtain ⟨hn, htab⟩ := (h.proper p).on c hc (by simp [hplace])
  have htab : s.kernel.holder .ptable ≠ some c := by simpa [hx, hz, atTable] using htab
  have hspins : ∀ j, s.kernel.holder (lk j) ≠ some c := by
    intro j hj
    have hs := spins_of_holds h hc hj
    simp [hplace, hz, Spins] at hs
  obtain ⟨hholder, hncli, hproc, -, -, hpoint, hpre, hok⟩ :=
    view_fields (kt.kernel ▸ view_relock he.1 hx hz (hspins k))
  have hpt : t.kernel.point p = .code := by simp [hpoint]
  have hprc : t.kernel.proc c = some p := by simpa [hproc, view] using hc
  have hpr : t.kernel.preempt p = .no := by simpa [hpre, view] using hx
  refine ⟨?_, hok.trans he.1⟩
  apply kernel_inv h hc he rfl kt (Or.inl rfl)
  · simp [hprc]
  · intro j hj
    rcases eq_or_ne j k with rfl | hjk
    · exact ⟨hprc, by simp [hplace, hpt, Spins]⟩
    · have hne : (lk j : Lock (K ⊕ L)) ≠ lk k := by rwa [Ne, lk_inj]
      simp only [hholder, Function.update_of_ne hne] at hj
      exact absurd hj (hspins j)
  · simp [hplace, hpt, Stands]
  · exact fun hne => absurd hpr hne
  · intro _ _
    rw [hpr, hpt, hncli, hholder]
    simpa [view, depth, atTable, hn, hx, hz, hplace, awaits] using htab
  · simp [hprc]
  · intro j hj
    obtain rfl := eq_of_testing hplace hj
    exact ⟨hprc, by simp [hholder]⟩
  · simp [hpt]
  · intro j
    refine Or.inr ⟨fun hw => absurd hw (not_waits_code hpt), ?_⟩
    rintro (ha | ⟨ha, -⟩) <;> simp [hplace] at ha

end Testing

section Cleared

variable (hx : s.kernel.preempt p = .no) (hplace : s.place p = .cleared k)
include hx hplace

/-- wakeup() finds every waiter: none is between its release of the lock and its sched(). -/
theorem wakeupLock_inv (hz : s.kernel.point p = .wakeup (chan k)) : Inv t ∧ t.kernel.halted = none := by
  have hc := he.2.1
  obtain ⟨hn, htab⟩ := (h.proper p).on c hc (by simp [hplace])
  have htab : s.kernel.holder .ptable ≠ some c := by simpa [hx, hz, atTable] using htab
  have hfree : s.kernel.holder .ptable = none := by
    have hcan : CanAcquire s.kernel c .ptable := he.2.2 .ptable (by simp [hx, hz, wants])
    exact hcan.resolve_right htab
  obtain ⟨hholder, hncli, hproc, hstate, -, hpoint, hpre, hok⟩ :=
    view_fields (kt.kernel ▸ view_wakeupLock he.1 hx hz htab)
  have hpt : t.kernel.point p = .wakeupUnlock (chan k) := by simp [hpoint]
  have hprc : t.kernel.proc c = some p := by simpa [hproc, view] using hc
  have hpr : t.kernel.preempt p = .no := by simpa [hpre, view] using hx
  have hlk : ∀ j, t.kernel.holder (lk j) = s.kernel.holder (lk j) := by simp [hholder]
  refine ⟨?_, hok.trans he.1⟩
  apply kernel_inv h hc he rfl kt (Or.inl rfl)
  · simp [hprc]
  · intro j hj
    rw [hlk] at hj
    exact ⟨hprc, cleared_spins hplace (spins_of_holds h hc hj)⟩
  · simp [hplace, hpt, Stands]
  · exact fun hne => absurd hpr hne
  · intro _ _
    rw [hpr, hpt, hncli, hholder]
    simp [depth, atTable, hn, hx, hz]
  · simp [hprc]
  · intro j hj
    exact ⟨hprc, (hlk j).trans (holds_of_spins h hc (cleared_spins hplace hj))⟩
  · simp [hpt]
  · intro j
    rcases eq_or_ne j k with rfl | hj
    · left
      rintro q hwait
      have hq : q ≠ p := by
        rintro rfl
        simp [Waits, hpt] at hwait
      have hpq : t.kernel.point q = s.kernel.point q := by simp [hpoint, hq]
      rw [Waits, hpq] at hwait
      rcases hwait with hwait | ⟨hwait, hsl⟩
      · exact no_window_of_free h.handover hfree q (by simp [hwait, InWindow])
      · rw [hstate] at hsl
        have hchan := not_sleeping_wakeup1 s.kernel (chan j) q hsl
        have hsl' : s.kernel.state q = .sleeping := by
          by_contra hne
          simp [SleepWakeup.State.wakeup1, hne] at hsl
        obtain ⟨x, l, hxl, hch⟩ := h.handover.sleeper q hsl'
        obtain ⟨rfl, -⟩ : x = chan j ∧ l = lk j := by simpa [hwait, eq_comm] using hxl
        exact hchan hch
    · refine Or.inr ⟨fun hw => ?_, ?_⟩
      · simp [Waits, hpt] at hw
      · rintro (ha | ⟨ha, -⟩)
        · simp [hplace] at ha
        · exact absurd (by simpa [hplace] using ha : k = j).symm hj

theorem wakeupUnlock_inv (hz : s.kernel.point p = .wakeupUnlock (chan k)) : Inv t ∧ t.kernel.halted = none := by
  have hc := he.2.1
  obtain ⟨hn, htab⟩ := (h.proper p).on c hc (by simp [hplace])
  have htab : s.kernel.holder .ptable = some c := by simpa [hx, hz, atTable] using htab
  obtain ⟨hholder, hncli, hproc, -, -, hpoint, hpre, hok⟩ :=
    view_fields (kt.kernel ▸ view_wakeupUnlock he.1 hx hz htab)
  have hpt : t.kernel.point p = .wakeupReturn (chan k) := by simp [hpoint]
  have hprc : t.kernel.proc c = some p := by simpa [hproc, view] using hc
  have hpr : t.kernel.preempt p = .no := by simpa [hpre, view] using hx
  have hlk : ∀ j, t.kernel.holder (lk j) = s.kernel.holder (lk j) := by simp [hholder]
  refine ⟨?_, hok.trans he.1⟩
  apply kernel_inv h hc he rfl kt (Or.inl rfl)
  · simp [hprc]
  · intro j hj
    rw [hlk] at hj
    exact ⟨hprc, cleared_spins hplace (spins_of_holds h hc hj)⟩
  · simp [hplace, hpt, Stands]
  · exact fun hne => absurd hpr hne
  · intro _ _
    rw [hpr, hpt, hncli, hholder]
    simp [depth, atTable, hn, hx, hz]
  · simp [hprc]
  · intro j hj
    exact ⟨hprc, (hlk j).trans (holds_of_spins h hc (cleared_spins hplace hj))⟩
  · simp [hpt]
  · intro j
    refine Or.inr ⟨fun hw => ?_, ?_⟩
    · simp [Waits, hpt] at hw
    · rintro (ha | ⟨-, ha⟩)
      · simp [hplace] at ha
      · simp [hz] at ha

theorem wakeupReturn_inv (hz : s.kernel.point p = .wakeupReturn (chan k)) : Inv t ∧ t.kernel.halted = none := by
  have hc := he.2.1
  obtain ⟨hn, htab⟩ := (h.proper p).on c hc (by simp [hplace])
  have htab : s.kernel.holder .ptable ≠ some c := by simpa [hx, hz, atTable] using htab
  obtain ⟨hholder, hncli, hproc, -, -, hpoint, hpre, hok⟩ :=
    view_fields (kt.kernel ▸ view_wakeupReturn (c := c) he.1 hx hz)
  have hpt : t.kernel.point p = .code := by simp [hpoint]
  have hprc : t.kernel.proc c = some p := by simpa [hproc, view] using hc
  have hpr : t.kernel.preempt p = .no := by simpa [hpre, view] using hx
  have hlk : ∀ j, t.kernel.holder (lk j) = s.kernel.holder (lk j) := by simp [hholder, view]
  refine ⟨?_, hok.trans he.1⟩
  apply kernel_inv h hc he rfl kt (Or.inl rfl)
  · simp [hprc]
  · intro j hj
    rw [hlk] at hj
    exact ⟨hprc, cleared_spins hplace (spins_of_holds h hc hj)⟩
  · simp [hplace, hpt, Stands]
  · exact fun hne => absurd hpr hne
  · intro _ _
    rw [hpr, hpt, hncli, hholder]
    simpa [view, depth, atTable, hn, hx, hz, hplace, awaits] using htab
  · simp [hprc]
  · intro j hj
    exact ⟨hprc, (hlk j).trans (holds_of_spins h hc (cleared_spins hplace hj))⟩
  · simp [hpt]
  · intro j
    refine Or.inr ⟨fun hw => absurd hw (not_waits_code hpt), ?_⟩
    rintro (ha | ⟨-, ha⟩)
    · simp [hplace] at ha
    · simp [hz] at ha

end Cleared

/-- There is nothing to do between two steps of sleeplock.c. -/
theorem code_inv (hcode : s.place p ≠ .code) (hx : s.kernel.preempt p = .no)
    (hz : s.kernel.point p = .code) : Inv t ∧ t.kernel.halted = none := by
  have hc := he.2.1
  have hon := (h.proper p).on c hc hcode
  obtain ⟨hholder, hncli, hproc, -, -, hpoint, hpre, hok⟩ :=
    view_fields (kt.kernel ▸ view_code (c := c) he.1 hx hz)
  have hpt : t.kernel.point p = s.kernel.point p := by simp [hpoint, view]
  have hprc : t.kernel.proc c = some p := by simpa [hproc, view] using hc
  have hpr : t.kernel.preempt p = .no := by simpa [hpre, view] using hx
  have hlk : ∀ l, t.kernel.holder l = s.kernel.holder l := by simp [hholder, view]
  refine ⟨?_, hok.trans he.1⟩
  apply kernel_inv h hc he rfl kt (Or.inl rfl)
  · simp [hprc]
  · intro j hj
    rw [hlk] at hj
    rw [hpt]
    exact ⟨hprc, spins_of_holds h hc hj⟩
  · rw [hpt]
    exact (h.proper p).stands
  · exact fun hne => absurd hpr hne
  · intro _ _
    rw [hpr, hpt, hncli, hlk]
    simpa [view, hx] using hon
  · simp [hprc]
  · intro j hj
    rw [hpt] at hj
    exact ⟨hprc, (hlk _).trans (holds_of_spins h hc hj)⟩
  · simp [hpt, hz]
  · intro j
    refine Or.inr ⟨fun hw => absurd hw (not_waits_code (hpt.trans hz)), ?_⟩
    rintro (ha | ⟨-, ha⟩)
    · exact Or.inl (by simp [kt.place, ha])
    · simp [hz] at ha

theorem yieldSwitch_inv (hcode : s.place p ≠ .code) (hx : s.kernel.preempt p = .locked) :
    Inv t ∧ t.kernel.halted = none := by
  have hc := he.2.1
  have hnot := not_spins h hcode (by simp [hx])
  obtain ⟨hn, htab⟩ := (h.proper p).on c hc hcode
  have htab : s.kernel.holder .ptable = some c := by simpa [hx, atTable] using htab
  have hn : s.kernel.ncli c = 1 := by simpa [hx, depth] using hn
  obtain ⟨hholder, hncli, hproc, hstate, -, hpoint, hpre, hok⟩ :=
    view_fields (kt.kernel ▸ view_yieldSwitch he.1 hx htab hn)
  have hpt : t.kernel.point p = s.kernel.point p := by simp [hpoint, view]
  have hprc : t.kernel.proc c = none := by simp [hproc]
  have hpr : t.kernel.preempt p = .switched := by simp [hpre]
  refine ⟨?_, hok.trans he.1⟩
  apply kernel_inv h hc he rfl kt (Or.inl rfl)
  · intro _
    simp [hncli, hholder, view, hn, htab]
  · intro j hj
    rw [hholder] at hj
    exact absurd (spins_of_holds h hc hj) (hnot j)
  · rw [hpt]
    exact (h.proper p).stands
  · intro _ _
    rw [hpt]
    exact (h.proper p).calm (by simp [hx]) hcode
  · simp [hprc]
  · exact fun _ _ => Or.inl hpr
  · intro j hj
    rw [hpt] at hj
    exact absurd hj (hnot j)
  · intro j hj
    rw [hpt] at hj
    exact (h.proper p).busy j hj
  · intro j
    refine Or.inr ⟨?_, ?_⟩
    · rintro (hw | ⟨-, hw⟩)
      · exact Or.inl (Or.inl (hpt ▸ hw))
      · simp [hstate] at hw
    · rintro (ha | ⟨ha, hz⟩)
      · exact Or.inl (by simp [kt.place, ha])
      · exact Or.inr ⟨by simp [kt.place, ha], hpt.trans hz⟩

theorem yieldRelease_inv (hcode : s.place p ≠ .code) (hx : s.kernel.preempt p = .switched) :
    Inv t ∧ t.kernel.halted = none := by
  have hc := he.2.1
  have hnot := not_spins h hcode (by simp [hx])
  obtain ⟨hn, htab⟩ := (h.proper p).on c hc hcode
  have htab : s.kernel.holder .ptable = some c := by simpa [hx, atTable] using htab
  have hn : s.kernel.ncli c = 1 := by simpa [hx, depth] using hn
  have hcalm := (h.proper p).calm (by simp [hx]) hcode
  obtain ⟨hholder, hncli, hproc, hstate, -, hpoint, hpre, hok⟩ :=
    view_fields (kt.kernel ▸ view_yieldRelease he.1 hx htab)
  have hpt : t.kernel.point p = s.kernel.point p := by simp [hpoint, view]
  have hprc : t.kernel.proc c = some p := by simpa [hproc, view] using hc
  have hpr : t.kernel.preempt p = .no := by simp [hpre]
  refine ⟨?_, hok.trans he.1⟩
  apply kernel_inv h hc he rfl kt (Or.inl rfl)
  · simp [hprc]
  · intro j hj
    simp only [hholder, Function.update_of_ne (lk_ne_ptable j)] at hj
    exact absurd (spins_of_holds h hc hj) (hnot j)
  · rw [hpt]
    exact (h.proper p).stands
  · exact fun hne => absurd hpr hne
  · intro _ _
    rw [hpr, hpt, hncli, hholder, hcalm.1, hcalm.2]
    simp [hn]
  · simp [hprc]
  · intro j hj
    rw [hpt] at hj
    exact absurd hj (hnot j)
  · intro j hj
    rw [hpt] at hj
    exact (h.proper p).busy j hj
  · intro j
    refine Or.inr ⟨?_, ?_⟩
    · rintro (hw | ⟨hw, hsl⟩)
      · exact Or.inl (Or.inl (hpt ▸ hw))
      · exact Or.inl (Or.inr ⟨hpt ▸ hw, by simpa [hstate, view] using hsl⟩)
    · rintro (ha | ⟨ha, hz⟩)
      · exact Or.inl (by simp [kt.place, ha])
      · exact Or.inr ⟨by simp [kt.place, ha], hpt.trans hz⟩

end Proceed

/-- The timer interrupts no section. -/
theorem timer_inv (h : Inv s) (he : SleepWakeup.Enabled s.kernel (.timer c p))
    (kt : Calls s t (.timer c p) p (s.place p)) (hcode : s.place p ≠ .code) : Inv t ∧ t.kernel.halted = none := by
  have hc := he.2.1
  have hx := he.2.2.1
  have hzero := he.2.2.2.1
  obtain ⟨hn, htab⟩ := (h.proper p).on c hc hcode
  rw [hzero, hx] at hn
  have hplain : atTable .no (s.kernel.point p) = false := by
    cases hz : s.kernel.point p <;> simp [hz, depth, atTable] at hn ⊢
  have htab : s.kernel.holder .ptable ≠ some c := by simpa [hx, hplain] using htab
  obtain ⟨hholder, hncli, hproc, hstate, -, hpoint, hpre, hok⟩ :=
    view_fields (kt.kernel ▸ view_timer he.1 p htab)
  have hpt : t.kernel.point p = s.kernel.point p := by simp [hpoint, view]
  have hprc : t.kernel.proc c = some p := by simpa [hproc, view] using hc
  have hpr : t.kernel.preempt p = .locked := by simp [hpre]
  have hlk : ∀ j, t.kernel.holder (lk j) = s.kernel.holder (lk j) := by simp [hholder]
  refine ⟨?_, hok.trans he.1⟩
  apply kernel_inv h hc he rfl kt (Or.inl rfl)
  · simp [hprc]
  · intro j hj
    rw [hlk] at hj
    rw [hpt]
    exact ⟨hprc, spins_of_holds h hc hj⟩
  · rw [hpt]
    exact (h.proper p).stands
  · intro _ _
    rw [hpt]
    exact ⟨hn.symm, hplain⟩
  · intro _ _
    rw [hpr, hncli, hholder]
    simp [depth, atTable, hzero]
  · simp [hprc]
  · intro j hj
    rw [hpt] at hj
    exact ⟨hprc, (hlk j).trans (holds_of_spins h hc hj)⟩
  · intro j hj
    rw [hpt] at hj
    exact (h.proper p).busy j hj
  · intro j
    refine Or.inr ⟨?_, ?_⟩
    · rintro (hw | ⟨hw, hsl⟩)
      · exact Or.inl (Or.inl (hpt ▸ hw))
      · exact Or.inl (Or.inr ⟨hpt ▸ hw, by simpa [hstate, view] using hsl⟩)
    · rintro (ha | ⟨ha, hz⟩)
      · exact Or.inl (by simp [kt.place, ha])
      · exact Or.inr ⟨by simp [kt.place, ha], hpt.trans hz⟩

theorem proceed_inv (h : Inv s) (he : SleepWakeup.Enabled s.kernel (.proceed c p))
    (kt : Calls s t (.proceed c p) p (s.place p)) (hcode : s.place p ≠ .code) : Inv t ∧ t.kernel.halted = none := by
  have hst := (h.proper p).stands
  cases hx : s.kernel.preempt p with
  | locked => exact yieldSwitch_inv h he kt hcode hx
  | switched => exact yieldRelease_inv h he kt hcode hx
  | no =>
    cases hplace : s.place p with
    | testing k =>
      rw [hplace] at hst
      rcases hst with hz | hz | hz | hz | hz | hz
      · exact code_inv h he kt hcode hx hz
      · exact sleepLock_inv h he kt hx hplace hz
      · exact sleepUnlock_inv h he kt hx hplace hz
      · exact sleepSwitch_inv h he kt hx hplace hz
      · exact asleep_inv h he kt hx hplace hz
      · exact relock_inv h he kt hx hplace hz
    | cleared k =>
      rw [hplace] at hst
      rcases hst with hz | hz | hz | hz
      · exact code_inv h he kt hcode hx hz
      · exact wakeupLock_inv h he kt hx hplace hz
      · exact wakeupUnlock_inv h he kt hx hplace hz
      · exact wakeupReturn_inv h he kt hx hplace hz
    | code => exact absurd hplace hcode
    | _ =>
      rw [hplace] at hst
      exact code_inv h he kt hcode hx hst

end SleeplockSteps
