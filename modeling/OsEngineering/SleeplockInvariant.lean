import OsEngineering.Sleeplocks
import OsEngineering.SleepSteps

/-! What holds of sleeplock.c between two steps. A process that looks at a lock or changes
it holds the spinlock of it; one that goes to sleep keeps ptable.lock from there on, so the
wakeup() of a release comes after it is SLEEPING. -/
set_option linter.unusedSectionVars false

namespace SleeplockInvariant

open TransitionSystem SleepWakeup SleepHandover WakeupDelivery SleepSteps Sleeplocks

variable {π κ K χ L : Type*}

abbrev Kernel (π κ K χ L : Type*) := SleepWakeup.State π κ (K ⊕ χ) (K ⊕ L)

/-- The points of a process at each place; one elsewhere uses no sleep lock. -/
def Stands : Place K → Point (K ⊕ χ) (K ⊕ L) → Prop
  | .code, z => match z with
    | .sleepLock x l | .sleepUnlock x l | .sleepSwitch x l | .asleep x l =>
      ForeignChan x ∧ ForeignLock l
    | .relock l => ForeignLock l
    | .wakeup x | .wakeupUnlock x | .wakeupReturn x => ForeignChan x
    | .forkret | .code | .exited => True
  | .testing k, z => z = .code ∨ z = .sleepLock (chan k) (lk k) ∨
      z = .sleepUnlock (chan k) (lk k) ∨ z = .sleepSwitch (chan k) (lk k) ∨
      z = .asleep (chan k) (lk k) ∨ z = .relock (lk k)
  | .cleared k, z => z = .code ∨ z = .wakeup (chan k) ∨ z = .wakeupUnlock (chan k) ∨
      z = .wakeupReturn (chan k)
  | _, z => z = .code

/-- The process holds the spinlock of `k`. -/
def Spins (k : K) : Place K → Point (K ⊕ χ) (K ⊕ L) → Prop
  | .testing j, z => j = k ∧ (z = .code ∨ z = .sleepLock (chan k) (lk k) ∨
      z = .sleepUnlock (chan k) (lk k))
  | .taking j, _ | .taken j, _ | .clearing j, _ | .waking j, _ | .cleared j, _
  | .checking j, _ | .checked j _, _ => j = k
  | .code, _ | .acquiring _, _ | .releasing _, _ | .asking _, _ => False

/-- How many spinlocks it holds, and whether ptable.lock is one of them. -/
def depth : Preempt → Place K → Point (K ⊕ χ) (K ⊕ L) → ℕ
  | .no, y, .code => if awaits y = none then 1 else 0
  | .no, _, .relock _ => 0
  | .no, _, .sleepUnlock _ _ | .no, _, .wakeupUnlock _ => 2
  | _, _, _ => 1

def atTable : Preempt → Point (K ⊕ χ) (K ⊕ L) → Bool
  | .no, .sleepUnlock _ _ | .no, .sleepSwitch _ _ | .no, .asleep _ _ | .no, .wakeupUnlock _ => true
  | .no, _ => false
  | .locked, _ | .switched, _ => true

/-- The process will be found by the next wakeup() of `k`. -/
def Waits (s : State π κ K χ L) (p : π) (k : K) : Prop :=
  s.kernel.point p = .sleepSwitch (chan k) (lk k) ∨
    (s.kernel.point p = .asleep (chan k) (lk k) ∧ s.kernel.state p = .sleeping)

/-- The process is in releasesleep(), before its wakeup1(). -/
def Announces (s : State π κ K χ L) (p : π) (k : K) : Prop :=
  s.place p = .waking k ∨ (s.place p = .cleared k ∧ s.kernel.point p = .wakeup (chan k))

/-- What holds of a process in sleeplock.c. -/
structure Proper (s : State π κ K χ L) (p : π) : Prop where
  stands : Stands (s.place p) (s.kernel.point p)
  calm : s.kernel.preempt p ≠ .no → s.place p ≠ .code →
    depth .no (s.place p) (s.kernel.point p) = 0 ∧ atTable .no (s.kernel.point p) = false
  on : ∀ c, s.kernel.proc c = some p → s.place p ≠ .code →
    s.kernel.ncli c = depth (s.kernel.preempt p) (s.place p) (s.kernel.point p) ∧
      (s.kernel.holder .ptable = some c ↔ atTable (s.kernel.preempt p) (s.kernel.point p) = true)
  off : (∀ c, s.kernel.proc c ≠ some p) → s.place p ≠ .code → s.kernel.preempt p = .switched ∨
    (s.kernel.preempt p = .no ∧ ∃ x l, s.kernel.point p = .asleep x l)
  spin : ∀ k, Spins k (s.place p) (s.kernel.point p) →
    ∃ c, s.kernel.proc c = some p ∧ s.kernel.holder (lk k) = some c
  free : ∀ k, s.place p = .taking k → s.locked k = false
  busy : ∀ k, s.kernel.point p = .sleepLock (chan k) (lk k) ∨
    s.kernel.point p = .sleepUnlock (chan k) (lk k) → s.locked k = true
  mine : ∀ k, s.place p = .releasing k ∨ s.place p = .clearing k → owner s k = some p
  right : ∀ k r, s.place p = .checked k r → (r = true ↔ owner s k = some p)

section Frame

variable [DecidableEq π] [DecidableEq κ] [DecidableEq K] [DecidableEq χ] [DecidableEq L]

structure Inv (s : State π κ K χ L) : Prop where
  handover : Handover s.kernel
  idle : ∀ c, s.kernel.proc c = none →
    s.kernel.ncli c = if s.kernel.holder .ptable = some c then 1 else 0
  spun : ∀ c k, s.kernel.holder (lk k) = some c →
    ∃ p, s.kernel.proc c = some p ∧ Spins k (s.place p) (s.kernel.point p)
  proper : ∀ p, Proper s p
  waits : ∀ p k, Waits s p k → s.locked k = true ∨ ∃ q, Announces s q k

variable {s t : State π κ K χ L} {c : κ} {p q : π} {k : K}

/-- Only one process spins on a lock. -/
theorem spins_unique (h : Inv s) (hp : Spins k (s.place p) (s.kernel.point p))
    (hq : Spins k (s.place q) (s.kernel.point q)) : p = q := by
  obtain ⟨c, hc, hl⟩ := (h.proper p).spin k hp
  obtain ⟨d, hd, hl'⟩ := (h.proper q).spin k hq
  obtain rfl : c = d := Option.some.inj (hl.symm.trans hl')
  exact Option.some.inj (hc.symm.trans hd)

/-- What a step of `p` on `c` leaves alone. A lock is changed under its spinlock, by the
owner or where there is none. -/
structure Apart (c : κ) (p : π) (s t : State π κ K χ L) : Prop where
  kernel : Local c p s.kernel t.kernel
  ncli : ∀ d, d ≠ c → t.kernel.ncli d = s.kernel.ncli d
  place : ∀ q, q ≠ p → t.place q = s.place q
  lock : ∀ k, (t.locked k = s.locked k ∧ t.pid k = s.pid k) ∨
    (Spins k (s.place p) (s.kernel.point p) ∧ (owner s k = none ∨ owner s k = some p))

theorem owner_eq (hl : t.locked k = s.locked k) (hp : t.pid k = s.pid k) :
    owner t k = owner s k := by
  simp [owner, hl, hp]

theorem Apart.lock_eq (a : Apart c p s t) (h : Inv s) (hq : q ≠ p)
    (hs : Spins k (s.place q) (s.kernel.point q)) :
    t.locked k = s.locked k ∧ t.pid k = s.pid k := by
  rcases a.lock k with he | ⟨hp, -⟩
  · exact he
  · exact absurd (spins_unique h hs hp) hq

theorem Apart.proc (a : Apart c p s t) (hc : s.kernel.proc c = some p) (hq : q ≠ p) (d : κ) :
    t.kernel.proc d = some q ↔ s.kernel.proc d = some q := by
  rcases eq_or_ne d c with rfl | hd
  · constructor
    · exact fun ht => a.kernel.proc_eq ht
    · exact fun hs => absurd (Option.some.inj (hs.symm.trans hc)) hq
  · rw [a.kernel.proc d hd]

theorem spins_of_busy {y : Place K} {z : Point (K ⊕ χ) (K ⊕ L)} (hs : Stands y z)
    (hz : z = .sleepLock (chan k) (lk k) ∨ z = .sleepUnlock (chan k) (lk k)) : Spins k y z := by
  cases y <;> rcases hz with rfl | rfl <;>
    simp_all [Stands, Spins, ForeignChan, ForeignLock, chan, lk]

theorem Apart.proper (a : Apart c p s t) (h : Inv s) (hc : s.kernel.proc c = some p)
    (hq : q ≠ p) : Proper t q := by
  have hold := h.proper q
  have hpoint := a.kernel.point q hq
  have hpre := a.kernel.preempt q hq
  have hplace := a.place q hq
  have hne : ∀ d, s.kernel.proc d = some q → d ≠ c := by
    rintro d hd rfl
    exact hq (Option.some.inj (hd.symm.trans hc))
  constructor
  · simpa [hpoint, hplace] using hold.stands
  · simpa [hpoint, hplace, hpre] using hold.calm
  · intro d hd hcode
    have hd := (a.proc hc hq d).mp hd
    rw [hplace] at hcode
    have hon := hold.on d hd hcode
    rw [a.ncli d (hne d hd), a.kernel.holder _ d (hne d hd), hpoint, hpre, hplace]
    exact hon
  · intro hoff hcode
    rw [hplace] at hcode
    rw [hpre, hpoint]
    exact hold.off (fun d hd => hoff d ((a.proc hc hq d).mpr hd)) hcode
  · intro k hk
    rw [hpoint, hplace] at hk
    obtain ⟨d, hd, hl⟩ := hold.spin k hk
    exact ⟨d, (a.proc hc hq d).mpr hd, (a.kernel.holder _ d (hne d hd)).mpr hl⟩
  · intro k hk
    rw [hplace] at hk
    rw [(a.lock_eq h hq (by simp [hk, Spins])).1]
    exact hold.free k hk
  · intro k hk
    rw [hpoint] at hk
    rw [(a.lock_eq h hq (spins_of_busy hold.stands hk)).1]
    exact hold.busy k hk
  · intro k hk
    rw [hplace] at hk
    have hmine := hold.mine k hk
    rcases a.lock k with ⟨hl, hp⟩ | ⟨-, ho | ho⟩
    · rw [owner_eq hl hp]
      exact hmine
    · rw [ho] at hmine
      simp at hmine
    · rw [ho] at hmine
      exact absurd (Option.some.inj hmine).symm hq
  · intro k r hk
    rw [hplace] at hk
    have hs : Spins k (s.place q) (s.kernel.point q) := by simp [hk, Spins]
    obtain ⟨hl, hp⟩ := a.lock_eq h hq hs
    rw [owner_eq hl hp]
    exact hold.right k r hk

/-- What a step has to show of `p` itself. -/
structure Own (s t : State π κ K χ L) (c : κ) (p : π) : Prop where
  handover : Handover t.kernel
  idle : t.kernel.proc c = none → t.kernel.ncli c = 1 ∧ t.kernel.holder .ptable = some c
  spun : ∀ k, t.kernel.holder (lk k) = some c →
    t.kernel.proc c = some p ∧ Spins k (t.place p) (t.kernel.point p)
  proper : Proper t p
  waits : ∀ k, (∀ q, ¬ Waits t q k) ∨
    ((Waits t p k → Waits s p k ∨ t.locked k = true) ∧
      (s.locked k = true → t.locked k = true ∨ Announces t p k) ∧
      (Announces s p k → Announces t p k))

theorem Inv.step (h : Inv s) (hc : s.kernel.proc c = some p) (a : Apart c p s t)
    (o : Own s t c p) : Inv t where
  handover := o.handover
  idle := by
    intro d hd
    rcases eq_or_ne d c with rfl | hdc
    · obtain ⟨hn, hl⟩ := o.idle hd
      simp [hn, hl]
    · rw [a.kernel.proc d hdc] at hd
      rw [a.ncli d hdc, h.idle d hd]
      simp [a.kernel.holder .ptable d hdc]
  spun := by
    intro d k hl
    rcases eq_or_ne d c with rfl | hdc
    · exact ⟨p, o.spun k hl⟩
    · obtain ⟨q, hq, hs⟩ := h.spun d k ((a.kernel.holder _ d hdc).mp hl)
      have hqp : q ≠ p := by
        rintro rfl
        exact hdc (h.handover.single d c q hq hc)
      refine ⟨q, (a.proc hc hqp d).mpr hq, ?_⟩
      rw [a.place q hqp, a.kernel.point q hqp]
      exact hs
  proper := by
    intro q
    rcases eq_or_ne q p with rfl | hq
    · exact o.proper
    · exact a.proper h hc hq
  waits := by
    intro q k hw
    rcases o.waits k with hnone | ⟨hown, hlock, hann⟩
    · exact absurd hw (hnone q)
    · have hold : Waits s q k ∨ t.locked k = true := by
        rcases eq_or_ne q p with rfl | hq
        · exact hown hw
        · left
          rw [Waits, a.kernel.point q hq] at hw
          rcases hw with hw | ⟨hw, hsl⟩
          · exact Or.inl hw
          · exact Or.inr ⟨hw, a.kernel.sleeping hq hsl⟩
      rcases hold with hold | hl
      · rcases h.waits q k hold with hl | ⟨w, hann'⟩
        · rcases hlock hl with hl | ha
          · exact Or.inl hl
          · exact Or.inr ⟨p, ha⟩
        · rcases eq_or_ne w p with rfl | hwp
          · exact Or.inr ⟨w, hann hann'⟩
          · refine Or.inr ⟨w, ?_⟩
            rw [Announces, a.place w hwp, a.kernel.point w hwp]
            exact hann'
      · exact Or.inl hl

/-! A process that runs in sleeplock.c itself. -/

theorem stands_code (y : Place K) : Stands (χ := χ) (L := L) y .code := by
  cases y <;> simp [Stands]

theorem proper_code (hp : InCode t.kernel c p)
    (hc : ∀ d, t.kernel.proc d = some p → d = c)
    (hn : t.place p ≠ .code → t.kernel.ncli c = (if awaits (t.place p) = none then 1 else 0) ∧
      t.kernel.holder .ptable ≠ some c)
    (hs : ∀ k, Spins k (t.place p) (.code : Point (K ⊕ χ) (K ⊕ L)) →
      t.kernel.holder (lk k) = some c)
    (hfree : ∀ k, t.place p = .taking k → t.locked k = false)
    (hmine : ∀ k, t.place p = .releasing k ∨ t.place p = .clearing k → owner t k = some p)
    (hright : ∀ k r, t.place p = .checked k r → (r = true ↔ owner t k = some p)) :
    Proper t p := by
  obtain ⟨hproc, hpoint, hpre⟩ := hp
  constructor
  · rw [hpoint]
    exact stands_code _
  · exact fun hne => absurd hpre hne
  · intro d hd hcode
    obtain rfl := hc d hd
    simpa [hpoint, hpre, depth, atTable] using hn hcode
  · exact fun hoff _ => absurd hproc (hoff c)
  · intro k hk
    rw [hpoint] at hk
    exact ⟨c, hproc, hs k hk⟩
  · exact hfree
  · intro k hk
    simp [hpoint] at hk
  · exact hmine
  · exact hright

/-- The process runs in sleeplock.c. -/
theorem proper_on (h : Inv s) (hp : InCode s.kernel c p) (hcode : s.place p ≠ .code) :
    s.kernel.ncli c = (if awaits (s.place p) = none then 1 else 0) ∧
      s.kernel.holder .ptable ≠ some c := by
  have hon := (h.proper p).on c hp.1 hcode
  simpa [hp.2.1, hp.2.2, depth, atTable] using hon

theorem holds_of_spins (h : Inv s) (hp : s.kernel.proc c = some p)
    (hs : Spins k (s.place p) (s.kernel.point p)) : s.kernel.holder (lk k) = some c := by
  obtain ⟨d, hd, hl⟩ := (h.proper p).spin k hs
  obtain rfl := h.handover.single d c p hd hp
  exact hl

theorem spins_of_holds (h : Inv s) (hp : s.kernel.proc c = some p)
    (hl : s.kernel.holder (lk k) = some c) : Spins k (s.place p) (s.kernel.point p) := by
  obtain ⟨q, hq, hs⟩ := h.spun c k hl
  obtain rfl : q = p := Option.some.inj (hq.symm.trans hp)
  exact hs

theorem not_waits_code (hpoint : t.kernel.point p = .code) : ¬ Waits t p k := by
  simp [Waits, hpoint]

/-- A step inside sleeplock.c, under the spinlock of the lock it changes. -/
theorem inside_inv (h : Inv s) (hp : InCode s.kernel c p) (hk : t.kernel = s.kernel)
    (hplace : ∀ q, q ≠ p → t.place q = s.place q)
    (hlock : ∀ k, (t.locked k = s.locked k ∧ t.pid k = s.pid k) ∨
      (Spins k (s.place p) (s.kernel.point p) ∧ (owner s k = none ∨ owner s k = some p)))
    (hn : s.kernel.ncli c = (if awaits (t.place p) = none then 1 else 0) ∧
      s.kernel.holder .ptable ≠ some c)
    (hs : ∀ k, Spins k (t.place p) (.code : Point (K ⊕ χ) (K ⊕ L)) ↔
      s.kernel.holder (lk k) = some c)
    (hfree : ∀ k, t.place p = .taking k → t.locked k = false)
    (hmine : ∀ k, t.place p = .releasing k ∨ t.place p = .clearing k → owner t k = some p)
    (hright : ∀ k r, t.place p = .checked k r → (r = true ↔ owner t k = some p))
    (hclear : ∀ k, s.locked k = true → t.locked k = true ∨ t.place p = .waking k)
    (hann : ∀ k, s.place p ≠ .waking k) : Inv t := by
  have hc := hp.1
  apply h.step hc ⟨hk ▸ local_refl s.kernel c p, fun d _ => by rw [hk], hplace, hlock⟩
  have hpt : InCode t.kernel c p := hk ▸ hp
  refine ⟨hk ▸ h.handover, ?_, ?_, ?_, ?_⟩
  · intro hnone
    rw [hpt.1] at hnone
    simp at hnone
  · intro k hl
    rw [hk] at hl
    rw [hpt.2.1]
    exact ⟨hpt.1, (hs k).mpr hl⟩
  · refine proper_code hpt ?_ ?_ ?_ hfree hmine hright
    · intro d hd
      rw [hk] at hd
      exact h.handover.single d c p hd hc
    · intro _
      rw [hk]
      exact hn
    · intro k hsp
      rw [hk]
      exact (hs k).mp hsp
  · intro k
    right
    refine ⟨fun hw => absurd hw (not_waits_code hpt.2.1), ?_, ?_⟩
    · intro hl
      rcases hclear k hl with ht | ht
      · exact Or.inl ht
      · exact Or.inr (Or.inl ht)
    · rintro (ha | ⟨-, ha⟩)
      · exact absurd ha (hann k)
      · rw [hp.2.1] at ha
        simp at ha

theorem spins_iff (h : Inv s) (hp : InCode s.kernel c p) :
    Spins k (s.place p) (.code : Point (K ⊕ χ) (K ⊕ L)) ↔ s.kernel.holder (lk k) = some c := by
  rw [← hp.2.1]
  exact ⟨holds_of_spins h hp.1, spins_of_holds h hp.1⟩

/-- A function is entered without any spinlock. -/
theorem enter_inv (h : Inv s) (hp : InCode s.kernel c p) (hplace : s.place p = .code)
    (hbare : Bare s c) {y : Place K} (hy : awaits y = some k)
    (hmine : y = .releasing k → owner s k = some p) : Inv (s.goto p y) := by
  have hself : (s.goto p y).place p = y := by simp [Sleeplocks.State.goto]
  apply inside_inv h hp
  · rfl
  · exact fun q hq => by simp [Sleeplocks.State.goto, hq]
  · exact fun j => Or.inl ⟨rfl, rfl⟩
  · exact ⟨by simp [hself, hy, hbare.1], hbare.2 _⟩
  · intro j
    rw [hself]
    have hno := hbare.2 (lk j)
    cases y <;> simp_all [Spins, awaits]
  · intro j hj
    rw [hself] at hj
    simp [hj, awaits] at hy
  · intro j hj
    rw [hself] at hj
    rcases hj with rfl | rfl
    · obtain rfl : j = k := by simpa [awaits] using hy
      exact hmine rfl
    · simp [awaits] at hy
  · intro j r hj
    rw [hself] at hj
    simp [hj, awaits] at hy
  · exact fun j hl => Or.inl hl
  · intro j hj
    simp [hplace] at hj

theorem taking_inv (h : Inv s) (hp : InCode s.kernel c p) (hplace : s.place p = .testing k)
    (hl : s.locked k = false) : Inv (s.goto p (.taking k)) := by
  have hself : (s.goto p (.taking k)).place p = .taking k := by simp [Sleeplocks.State.goto]
  have hon := proper_on h hp (by simp [hplace])
  apply inside_inv h hp
  · rfl
  · exact fun q hq => by simp [Sleeplocks.State.goto, hq]
  · exact fun j => Or.inl ⟨rfl, rfl⟩
  · simpa [hself, hplace, awaits] using hon
  · intro j
    rw [hself, ← spins_iff h hp, hplace]
    simp [Spins]
  · intro j hj
    obtain rfl : k = j := by simpa [hself] using hj
    exact hl
  · simp [hself]
  · simp [hself]
  · exact fun j hl => Or.inl hl
  · simp [hplace]

theorem checking_inv (h : Inv s) (hp : InCode s.kernel c p) (hplace : s.place p = .checking k) :
    Inv (s.goto p (.checked k (s.locked k && decide (s.pid k = some p)))) := by
  have hon := proper_on h hp (by simp [hplace])
  apply inside_inv h hp
  · rfl
  · exact fun q hq => by simp [Sleeplocks.State.goto, hq]
  · exact fun j => Or.inl ⟨rfl, rfl⟩
  · simpa [Sleeplocks.State.goto, hplace, awaits] using hon
  · intro j
    rw [← spins_iff h hp, hplace]
    simp [Sleeplocks.State.goto, Spins]
  · simp [Sleeplocks.State.goto]
  · simp [Sleeplocks.State.goto]
  · intro j r hj
    simp only [Sleeplocks.State.goto, Function.update_self, Place.checked.injEq] at hj
    obtain ⟨rfl, rfl⟩ := hj
    cases hk : s.locked k <;> simp [owner, Sleeplocks.State.goto, hk]
  · exact fun j hl => Or.inl hl
  · simp [hplace]

theorem update_lock (s : Sleeplocks.State π κ K χ L) (p : π) (y : Place K) (b : Bool) (x : Option π)
    (hs : Spins k (s.place p) (s.kernel.point p))
    (ho : owner s k = none ∨ owner s k = some p) (j : K) :
    (((s.set k b x).goto p y).locked j = s.locked j ∧ ((s.set k b x).goto p y).pid j = s.pid j) ∨
      (Spins j (s.place p) (s.kernel.point p) ∧ (owner s j = none ∨ owner s j = some p)) := by
  rcases eq_or_ne j k with rfl | hj
  · exact Or.inr ⟨hs, ho⟩
  · simp [Sleeplocks.State.set, Sleeplocks.State.goto, hj]

theorem taken_inv (h : Inv s) (hp : InCode s.kernel c p) (hplace : s.place p = .taking k) :
    Inv ((s.set k true (some p)).goto p (.taken k)) := by
  have hon := proper_on h hp (by simp [hplace])
  have hfree := (h.proper p).free k hplace
  apply inside_inv h hp
  · rfl
  · exact fun q hq => by simp [Sleeplocks.State.goto, Sleeplocks.State.set, hq]
  · apply update_lock
    · simp [hplace, Spins]
    · exact Or.inl (by simp [owner, hfree])
  · simpa [Sleeplocks.State.goto, hplace, awaits] using hon
  · intro j
    rw [← spins_iff h hp, hplace]
    simp [Sleeplocks.State.goto, Spins]
  · simp [Sleeplocks.State.goto]
  · simp [Sleeplocks.State.goto]
  · simp [Sleeplocks.State.goto]
  · intro j hl
    rcases eq_or_ne j k with rfl | hj
    · simp [Sleeplocks.State.goto, Sleeplocks.State.set]
    · simp [Sleeplocks.State.goto, Sleeplocks.State.set, hj, hl]
  · simp [hplace]

theorem waking_inv (h : Inv s) (hp : InCode s.kernel c p) (hplace : s.place p = .clearing k) :
    Inv ((s.set k false none).goto p (.waking k)) := by
  have hon := proper_on h hp (by simp [hplace])
  have hmine := (h.proper p).mine k (Or.inr hplace)
  apply inside_inv h hp
  · rfl
  · exact fun q hq => by simp [Sleeplocks.State.goto, Sleeplocks.State.set, hq]
  · apply update_lock
    · simp [hplace, Spins]
    · exact Or.inr hmine
  · simpa [Sleeplocks.State.goto, hplace, awaits] using hon
  · intro j
    rw [← spins_iff h hp, hplace]
    simp [Sleeplocks.State.goto, Spins]
  · simp [Sleeplocks.State.goto]
  · simp [Sleeplocks.State.goto]
  · simp [Sleeplocks.State.goto]
  · intro j hl
    rcases eq_or_ne j k with rfl | hj
    · simp [Sleeplocks.State.goto]
    · simp [Sleeplocks.State.goto, Sleeplocks.State.set, hj, hl]
  · simp [hplace]

end Frame

end SleeplockInvariant
