import OsEngineering.ProcessTable

/-! Parents and children in the process table: who is alive while whom names it, and which
slots fork() is filling. -/
namespace ProcessFamilies

open KernelParams TransitionSystem ProcessTable

def Live (st : ProcState) : Prop := st = .sleeping ∨ st = .runnable ∨ st = .running

/-- SLEEPING in wait(). -/
def AsleepInWait (s : State) (p : Slot) : Prop :=
  (s.proc p).state = .sleeping ∧ s.control p = .wait

structure Family (s : State) : Prop where
  init_live : Live (s.proc initproc).state
  init_parent : (s.proc initproc).parent = none
  busy_live : ∀ p, s.control p ≠ .user → Live (s.proc p).state
  parent_live : ∀ i q, (s.proc i).parent = some q → Live (s.proc q).state
  irrefl : ∀ i, (s.proc i).parent ≠ some i
  has_parent : ∀ i, Live (s.proc i).state ∨ (s.proc i).state = .zombie → i ≠ initproc →
    (s.proc i).parent ≠ none
  unused_parent : ∀ i, (s.proc i).state = .unused → (s.proc i).parent = none
  embryo : ∀ p np f, s.control p = .fork np f → (s.proc np).state = .embryo
  forker : ∀ p q np f g, s.control p = .fork np f → s.control q = .fork np g → p = q
  forked : ∀ p np f, s.control p = .fork np f →
    (s.proc np).parent = if f = .setRunnable then some p else none
  channel : ∀ p, AsleepInWait s p → (s.proc p).chan = some (.proc p)
  no_zombie : ∀ p, AsleepInWait s p → ∀ c, (s.proc c).parent = some p →
    (s.proc c).state ≠ .zombie

@[simp] theorem setProc_control (s : State) (i : Slot) (x : Proc) :
    (s.setProc i x).control = s.control := rfl
@[simp] theorem move_proc (s : State) (p : Slot) (c : Control) : (s.move p c).proc = s.proc := rfl
@[simp] theorem setProc_self (s : State) (i : Slot) (x : Proc) :
    (s.setProc i x).proc i = x := Function.update_self ..
theorem setProc_of_ne (s : State) {i j : Slot} (x : Proc) (h : j ≠ i) :
    (s.setProc i x).proc j = s.proc j := Function.update_of_ne h ..
@[simp] theorem move_self (s : State) (p : Slot) (c : Control) : (s.move p c).control p = c :=
  Function.update_self ..
theorem move_of_ne (s : State) {p q : Slot} (c : Control) (h : q ≠ p) :
    (s.move p c).control q = s.control q := Function.update_of_ne h ..

theorem not_live_zombie : ¬ Live .zombie := by simp [Live]
theorem not_live_embryo : ¬ Live .embryo := by simp [Live]
theorem not_live_unused : ¬ Live .unused := by simp [Live]

/-! Changes that leave parents and controls alone: a slot keeps its state and channel, or
goes from one live state to another without falling asleep in wait(). -/

def Stirred (s t : State) (i : Slot) : Prop :=
  Live (s.proc i).state ∧ Live (t.proc i).state ∧
    ((t.proc i).state = .sleeping → s.control i ≠ .wait)

structure Stirs (s t : State) : Prop where
  control : t.control = s.control
  parent : ∀ i, (t.proc i).parent = (s.proc i).parent
  state : ∀ i, ((t.proc i).state = (s.proc i).state ∧ (t.proc i).chan = (s.proc i).chan) ∨
    Stirred s t i

namespace Stirs

variable {s t : State}

theorem live (h : Stirs s t) (i : Slot) : Live (t.proc i).state ↔ Live (s.proc i).state := by
  rcases h.state i with ⟨hs, -⟩ | ⟨hs, ht, -⟩
  · rw [hs]
  · exact iff_of_true ht hs

theorem state_of_not_live (h : Stirs s t) {i : Slot}
    (hi : ¬ Live (t.proc i).state) : (t.proc i).state = (s.proc i).state := by
  rcases h.state i with ⟨hs, -⟩ | ⟨-, ht, -⟩
  · exact hs
  · exact absurd ht hi

theorem state_of_not_live' (h : Stirs s t) {i : Slot}
    (hi : ¬ Live (s.proc i).state) : (t.proc i).state = (s.proc i).state :=
  h.state_of_not_live (mt (h.live i).mp hi)

theorem asleep (h : Stirs s t) {p : Slot} (hp : AsleepInWait t p) :
    AsleepInWait s p ∧ (t.proc p).chan = (s.proc p).chan := by
  have hc : s.control p = .wait := h.control ▸ hp.2
  rcases h.state p with ⟨hs, hch⟩ | ⟨-, -, hn⟩
  · exact ⟨⟨hs ▸ hp.1, hc⟩, hch⟩
  · exact absurd hc (hn hp.1)

end Stirs

theorem Family.stir {s t : State} (h : Family s) (k : Stirs s t) : Family t where
  init_live := (k.live initproc).mpr h.init_live
  init_parent := (k.parent initproc).trans h.init_parent
  busy_live := by
    intro p hp
    rw [k.control] at hp
    exact (k.live p).mpr (h.busy_live p hp)
  parent_live := by
    intro i q hq
    rw [k.parent] at hq
    exact (k.live q).mpr (h.parent_live i q hq)
  irrefl := by
    intro i
    rw [k.parent]
    exact h.irrefl i
  has_parent := by
    intro i hi hne
    rw [k.parent]
    refine h.has_parent i ?_ hne
    rcases hi with hi | hi
    · exact Or.inl ((k.live i).mp hi)
    · exact Or.inr (k.state_of_not_live (by rw [hi]; exact not_live_zombie) ▸ hi)
  unused_parent := by
    intro i hi
    rw [k.parent]
    exact h.unused_parent i (k.state_of_not_live (by rw [hi]; exact not_live_unused) ▸ hi)
  embryo := by
    intro p np f hp
    rw [k.control] at hp
    have he := h.embryo p np f hp
    rw [k.state_of_not_live' (by rw [he]; exact not_live_embryo), he]
  forker := by
    rw [k.control]
    exact h.forker
  forked := by
    intro p np f hp
    rw [k.control] at hp
    rw [k.parent]
    exact h.forked p np f hp
  channel := by
    intro p hp
    obtain ⟨hs, hc⟩ := k.asleep hp
    rw [hc]
    exact h.channel p hs
  no_zombie := by
    intro p hp c hc hz
    rw [k.parent] at hc
    refine h.no_zombie p (k.asleep hp).1 c hc ?_
    exact k.state_of_not_live (by rw [hz]; exact not_live_zombie) ▸ hz

theorem wake_parent (chan : Option Chan) (x : Proc) : (wake chan x).parent = x.parent := by
  unfold wake
  split <;> rfl

theorem wakeup1_stirs (s : State) (chan : Option Chan) : Stirs s (wakeup1 s chan) where
  control := rfl
  parent := fun i => wake_parent chan (s.proc i)
  state := by
    intro i
    by_cases hw : (s.proc i).state = .sleeping ∧ (s.proc i).chan = chan
    · refine Or.inr ⟨Or.inl hw.1, ?_, ?_⟩
      · simp [wakeup1, wake, hw, Live]
      · simp [wakeup1, wake, hw]
    · exact Or.inl (by simp [wakeup1, wake, hw])

/-- Changing one slot between live states. -/
theorem setProc_stirs (s : State) (i : Slot) {x : Proc} (hp : x.parent = (s.proc i).parent)
    (hx : (x.state = (s.proc i).state ∧ x.chan = (s.proc i).chan) ∨
      Live (s.proc i).state ∧ Live x.state ∧ (x.state = .sleeping → s.control i ≠ .wait)) :
    Stirs s (s.setProc i x) where
  control := rfl
  parent := by
    intro j
    by_cases hj : j = i
    · subst hj
      rw [setProc_self, hp]
    · rw [setProc_of_ne s x hj]
  state := by
    intro j
    by_cases hj : j = i
    · subst hj
      rw [Stirred, setProc_self]
      exact hx
    · rw [setProc_of_ne s x hj]
      exact Or.inl ⟨rfl, rfl⟩

/-! Changes of one control. -/

theorem Family.move_user {s : State} (h : Family s) (p : Slot) : Family (s.move p .user) := by
  have hc : ∀ q c, (s.move p .user).control q = c → c ≠ .user → s.control q = c := by
    intro q c hq hne
    by_cases hqp : q = p
    · subst hqp
      rw [move_self] at hq
      exact absurd hq.symm hne
    · rwa [move_of_ne s .user hqp] at hq
  have hw : ∀ q, AsleepInWait (s.move p .user) q → AsleepInWait s q :=
    fun q hq => ⟨hq.1, hc q .wait hq.2 nofun⟩
  exact {
    init_live := h.init_live
    init_parent := h.init_parent
    busy_live := fun q hq => h.busy_live q (by rwa [hc q _ rfl hq])
    parent_live := h.parent_live
    irrefl := h.irrefl
    has_parent := h.has_parent
    unused_parent := h.unused_parent
    embryo := fun q np f hq => h.embryo q np f (hc q _ hq nofun)
    forker := fun q r np f g hq hr => h.forker q r np f g (hc q _ hq nofun) (hc r _ hr nofun)
    forked := fun q np f hq => h.forked q np f (hc q _ hq nofun)
    channel := fun q hq => h.channel q (hw q hq)
    no_zombie := fun q hq => h.no_zombie q (hw q hq) }

theorem Family.congr {s t : State} (h : Family s) (hp : t.proc = s.proc)
    (hc : t.control = s.control) : Family t := by
  refine h.stir ⟨hc, ?_, ?_⟩
  · intro i
    rw [hp]
  · intro i
    rw [hp]
    exact Or.inl ⟨rfl, rfl⟩

theorem Family.finish {s : State} (h : Family s) (p : Slot) (r : Pid) : Family (s.finish p r) :=
  (h.move_user p).congr rfl rfl

/-- `p` goes to sleep in wait() without a zombie child. -/
theorem Family.sleep_in_wait {s : State} (h : Family s) {p : Slot} (hp : Live (s.proc p).state)
    (hz : ∀ c, (s.proc c).parent = some p → (s.proc c).state ≠ .zombie) :
    Family ((s.setProc p
      { s.proc p with chan := some (.proc p), state := .sleeping }).move p .wait) := by
  have k := (h.move_user p).stir (setProc_stirs _ p
    (x := { s.proc p with chan := some (.proc p), state := .sleeping }) rfl
    (Or.inr ⟨hp, Or.inl rfl, fun _ => by simp⟩))
  have hc : ∀ q c, ((s.setProc p { s.proc p with chan := some (.proc p), state := .sleeping }).move
      p .wait).control q = c → c ≠ .wait → ((s.move p .user).setProc p
        { s.proc p with chan := some (.proc p), state := .sleeping }).control q = c := by
    intro q c hq hne
    by_cases hqp : q = p
    · subst hqp
      rw [move_self] at hq
      exact absurd hq.symm hne
    · rw [move_of_ne _ .wait hqp] at hq
      rw [setProc_control, move_of_ne _ .user hqp]
      exact hq
  constructor
  · exact k.init_live
  · exact k.init_parent
  · intro q hq
    by_cases hqp : q = p
    · subst hqp
      rw [move_proc, setProc_self]
      exact Or.inl rfl
    · refine k.busy_live q ?_
      rw [move_of_ne _ .wait hqp] at hq
      rw [setProc_control, move_of_ne _ .user hqp]
      exact hq
  · exact k.parent_live
  · exact k.irrefl
  · exact k.has_parent
  · exact k.unused_parent
  · exact fun q np f hq => k.embryo q np f (hc q _ hq nofun)
  · exact fun q r np f g hq hr => k.forker q r np f g (hc q _ hq nofun) (hc r _ hr nofun)
  · exact fun q np f hq => k.forked q np f (hc q _ hq nofun)
  · rintro q ⟨hs, hq⟩
    by_cases hqp : q = p
    · subst hqp
      rw [move_proc, setProc_self]
    · rw [move_of_ne _ .wait hqp, setProc_control] at hq
      rw [move_proc, setProc_of_ne s _ hqp] at hs ⊢
      exact h.channel q ⟨hs, hq⟩
  · rintro q ⟨hs, hq⟩ c hcq
    have hstate : ∀ c, ((s.setProc p
        { s.proc p with chan := some (.proc p), state := .sleeping }).proc c).parent =
          (s.proc c).parent ∧ (((s.setProc p
        { s.proc p with chan := some (.proc p), state := .sleeping }).proc c).state = .zombie →
          (s.proc c).state = .zombie) := by
      intro c
      by_cases hcp : c = p
      · subst hcp
        rw [setProc_self]
        exact ⟨rfl, nofun⟩
      · rw [setProc_of_ne s _ hcp]
        exact ⟨rfl, id⟩
    rw [move_proc, (hstate c).1] at hcq
    intro hzc
    have hzs := (hstate c).2 hzc
    by_cases hqp : q = p
    · exact hz c (hqp ▸ hcq) hzs
    · rw [move_of_ne _ .wait hqp, setProc_control] at hq
      rw [move_proc, setProc_of_ne s _ hqp] at hs
      exact h.no_zombie q ⟨hs, hq⟩ c hcq hzs

/-! fork(). -/

def NotForked (s : State) (np : Slot) : Prop := ∀ q g, s.control q ≠ .fork np g

/-- fork() of `p` takes or fills the slot `np`, which no other fork() has. -/
theorem Family.fill {s : State} (h : Family s) {p np : Slot} {f : ForkPoint} {x : Proc}
    (hp : Live (s.proc p).state) (hnp : (s.proc np).state = .unused ∨ (s.proc np).state = .embryo)
    (hx : x.state = .embryo) (hpar : x.parent = if f = .setRunnable then some p else none)
    (honly : ∀ q g, s.control q = .fork np g → q = p) :
    Family ((s.setProc np x).move p (.fork np f)) := by
  have hnl : ¬ Live (s.proc np).state := by
    rcases hnp with hnp | hnp
    · rw [hnp]
      exact not_live_unused
    · rw [hnp]
      exact not_live_embryo
  have hnot : ∀ {i}, Live (s.proc i).state → i ≠ np := by
    rintro i hi rfl
    exact hnl hi
  have hlive : ∀ i, Live (s.proc i).state → Live ((s.setProc np x).proc i).state := by
    intro i hi
    rw [setProc_of_ne s x (hnot hi)]
    exact hi
  have hw : ∀ q, AsleepInWait ((s.setProc np x).move p (.fork np f)) q →
      AsleepInWait s q ∧ q ≠ np := by
    rintro q ⟨hs, hq⟩
    have hqp : q ≠ p := by
      rintro rfl
      rw [move_self] at hq
      exact absurd hq nofun
    rw [move_of_ne _ _ hqp, setProc_control] at hq
    have hqn : q ≠ np := hnot (h.busy_live q (by rw [hq]; nofun))
    rw [move_proc, setProc_of_ne s x hqn] at hs
    exact ⟨⟨hs, hq⟩, hqn⟩
  have hctl : ∀ q i g, ((s.setProc np x).move p (.fork np f)).control q = .fork i g →
      (q = p ∧ i = np ∧ g = f) ∨ (q ≠ p ∧ i ≠ np ∧ s.control q = .fork i g) := by
    intro q i g hq
    by_cases hqp : q = p
    · subst hqp
      rw [move_self] at hq
      injection hq with h1 h2
      exact Or.inl ⟨rfl, h1.symm, h2.symm⟩
    · rw [move_of_ne _ _ hqp, setProc_control] at hq
      refine Or.inr ⟨hqp, ?_, hq⟩
      rintro rfl
      exact hqp (honly q g hq)
  have hparent : ∀ {i q}, ((s.setProc np x).proc i).parent = some q →
      (i = np ∧ q = p) ∨ (i ≠ np ∧ (s.proc i).parent = some q) := by
    intro i q hq
    by_cases hi : i = np
    · subst hi
      rw [setProc_self, hpar] at hq
      split at hq
      · exact Or.inl ⟨rfl, (Option.some.inj hq).symm⟩
      · exact absurd hq nofun
    · rw [setProc_of_ne s x hi] at hq
      exact Or.inr ⟨hi, hq⟩
  constructor
  · exact hlive initproc h.init_live
  · rw [move_proc, setProc_of_ne s x (hnot h.init_live)]
    exact h.init_parent
  · intro q hq
    by_cases hqp : q = p
    · exact hqp ▸ hlive p hp
    · rw [move_of_ne _ _ hqp, setProc_control] at hq
      exact hlive q (h.busy_live q hq)
  · intro i q hq
    rcases hparent hq with ⟨-, rfl⟩ | ⟨-, hq⟩
    · exact hlive q hp
    · exact hlive q (h.parent_live i q hq)
  · intro i hi
    rcases hparent hi with ⟨rfl, rfl⟩ | ⟨-, hi⟩
    · exact hnl hp
    · exact h.irrefl i hi
  · intro i hi hne
    by_cases hin : i = np
    · subst hin
      rw [move_proc, setProc_self, hx] at hi
      rcases hi with hi | hi
      · exact absurd hi not_live_embryo
      · exact absurd hi nofun
    · rw [move_proc, setProc_of_ne s x hin] at hi ⊢
      exact h.has_parent i hi hne
  · intro i hi
    by_cases hin : i = np
    · subst hin
      rw [move_proc, setProc_self, hx] at hi
      exact absurd hi nofun
    · rw [move_proc, setProc_of_ne s x hin] at hi ⊢
      exact h.unused_parent i hi
  · intro q i g hq
    rcases hctl q i g hq with ⟨-, rfl, -⟩ | ⟨-, hi, hq⟩
    · rw [move_proc, setProc_self, hx]
    · rw [move_proc, setProc_of_ne s x hi]
      exact h.embryo q i g hq
  · intro q r i g g' hq hr
    rcases hctl q i g hq with ⟨rfl, rfl, -⟩ | ⟨-, hi, hq⟩
    · rcases hctl r i g' hr with ⟨rfl, -⟩ | ⟨-, hi, -⟩
      · rfl
      · exact absurd rfl hi
    · rcases hctl r i g' hr with ⟨-, rfl, -⟩ | ⟨-, -, hr⟩
      · exact absurd rfl hi
      · exact h.forker q r i g g' hq hr
  · intro q i g hq
    rcases hctl q i g hq with ⟨rfl, rfl, rfl⟩ | ⟨-, hi, hq⟩
    · rw [move_proc, setProc_self, hpar]
    · rw [move_proc, setProc_of_ne s x hi]
      exact h.forked q i g hq
  · intro q hq
    obtain ⟨hs, hqn⟩ := hw q hq
    rw [move_proc, setProc_of_ne s x hqn]
    exact h.channel q hs
  · intro q hq c hc hz
    obtain ⟨hs, -⟩ := hw q hq
    rcases hparent hc with ⟨rfl, -⟩ | ⟨hcn, hc⟩
    · rw [move_proc, setProc_self, hx] at hz
      exact absurd hz nofun
    · rw [move_proc, setProc_of_ne s x hcn] at hz
      exact h.no_zombie q hs c hc hz

/-- A slot that is not live, and that no fork() is filling, is given back. -/
theorem Family.release {s : State} (h : Family s) {i : Slot} {x : Proc}
    (hi : ¬ Live (s.proc i).state) (hn : NotForked s i) (hx : x.state = .unused)
    (hpar : x.parent = none) : Family (s.setProc i x) := by
  have hlive : ∀ {j}, Live (s.proc j).state → (s.setProc i x).proc j = s.proc j := by
    intro j hj
    rw [setProc_of_ne]
    rintro rfl
    exact hi hj
  have hparent : ∀ {j q}, ((s.setProc i x).proc j).parent = some q →
      j ≠ i ∧ (s.proc j).parent = some q := by
    intro j q hq
    have hj : j ≠ i := by
      rintro rfl
      rw [setProc_self, hpar] at hq
      exact absurd hq nofun
    rw [setProc_of_ne s x hj] at hq
    exact ⟨hj, hq⟩
  have hw : ∀ q, AsleepInWait (s.setProc i x) q → AsleepInWait s q ∧ q ≠ i := by
    rintro q ⟨hs, hq⟩
    have hqi : q ≠ i := by
      rintro rfl
      exact hi (h.busy_live q (by rw [setProc_control] at hq; rw [hq]; nofun))
    rw [setProc_of_ne s x hqi] at hs
    exact ⟨⟨hs, hq⟩, hqi⟩
  constructor
  · rw [hlive h.init_live]
    exact h.init_live
  · rw [hlive h.init_live]
    exact h.init_parent
  · intro q hq
    rw [hlive (h.busy_live q hq)]
    exact h.busy_live q hq
  · intro j q hq
    have hl := h.parent_live j q (hparent hq).2
    rw [hlive hl]
    exact hl
  · intro j hj
    exact h.irrefl j (hparent hj).2
  · intro j hj hne
    have hji : j ≠ i := by
      rintro rfl
      rw [setProc_self, hx] at hj
      rcases hj with hj | hj
      · exact not_live_unused hj
      · exact absurd hj nofun
    rw [setProc_of_ne s x hji] at hj ⊢
    exact h.has_parent j hj hne
  · intro j hj
    by_cases hji : j = i
    · subst hji
      rw [setProc_self, hpar]
    · rw [setProc_of_ne s x hji] at hj ⊢
      exact h.unused_parent j hj
  · intro q np f hq
    have hne : np ≠ i := by
      rintro rfl
      exact hn q f hq
    rw [setProc_of_ne s x hne]
    exact h.embryo q np f hq
  · exact h.forker
  · intro q np f hq
    have hne : np ≠ i := by
      rintro rfl
      exact hn q f hq
    rw [setProc_of_ne s x hne]
    exact h.forked q np f hq
  · intro q hq
    obtain ⟨hs, hqi⟩ := hw q hq
    rw [setProc_of_ne s x hqi]
    exact h.channel q hs
  · intro q hq c hc hz
    obtain ⟨hci, hc⟩ := hparent hc
    rw [setProc_of_ne s x hci] at hz
    exact h.no_zombie q (hw q hq).1 c hc hz

/-- The filled slot becomes a process. -/
theorem Family.grow {s : State} (h : Family s) {np : Slot}
    (hnp : (s.proc np).state = .embryo) (hpar : (s.proc np).parent ≠ none) (hn : NotForked s np) :
    Family (s.setState np .runnable) := by
  have hother : ∀ {j}, j ≠ np → (s.setState np .runnable).proc j = s.proc j :=
    fun hj => setProc_of_ne s _ hj
  have hself : (s.setState np .runnable).proc np = { s.proc np with state := .runnable } :=
    setProc_self ..
  have hparent : ∀ j, ((s.setState np .runnable).proc j).parent = (s.proc j).parent := by
    intro j
    by_cases hj : j = np
    · rw [hj, hself]
    · rw [hother hj]
  have hlive : ∀ j, Live (s.proc j).state → Live ((s.setState np .runnable).proc j).state := by
    intro j hj
    by_cases hjn : j = np
    · rw [hjn, hself]
      exact Or.inr (Or.inl rfl)
    · rw [hother hjn]
      exact hj
  have hw : ∀ q, AsleepInWait (s.setState np .runnable) q → AsleepInWait s q ∧ q ≠ np := by
    rintro q ⟨hs, hq⟩
    have hqn : q ≠ np := by
      rintro rfl
      rw [hself] at hs
      exact absurd hs nofun
    rw [hother hqn] at hs
    exact ⟨⟨hs, hq⟩, hqn⟩
  constructor
  · exact hlive initproc h.init_live
  · rw [hparent]
    exact h.init_parent
  · exact fun q hq => hlive q (h.busy_live q hq)
  · intro j q hq
    rw [hparent] at hq
    exact hlive q (h.parent_live j q hq)
  · intro j
    rw [hparent]
    exact h.irrefl j
  · intro j hj hne
    rw [hparent]
    by_cases hjn : j = np
    · exact hjn ▸ hpar
    · rw [hother hjn] at hj
      exact h.has_parent j hj hne
  · intro j hj
    have hjn : j ≠ np := by
      rintro rfl
      rw [hself] at hj
      exact absurd hj nofun
    rw [hother hjn] at hj ⊢
    exact h.unused_parent j hj
  · intro q i f hq
    have hin : i ≠ np := by
      rintro rfl
      exact hn q f hq
    rw [hother hin]
    exact h.embryo q i f hq
  · exact h.forker
  · intro q i f hq
    rw [hparent]
    exact h.forked q i f hq
  · intro q hq
    obtain ⟨hs, hqn⟩ := hw q hq
    rw [hother hqn]
    exact h.channel q hs
  · intro q hq c hc hz
    rw [hparent] at hc
    have hcn : c ≠ np := by
      rintro rfl
      rw [hself] at hz
      exact absurd hz nofun
    rw [hother hcn] at hz
    exact h.no_zombie q (hw q hq).1 c hc hz

/-! exit(). -/

/-- A child of `p` goes to init, which is awake if the child is a zombie. -/
theorem Family.reparent {s : State} (h : Family s) {p i : Slot}
    (hi : (s.proc i).parent = some p) (hp : s.control p = .user)
    (hz : (s.proc i).state = .zombie → ¬ AsleepInWait s initproc) :
    Family (s.setProc i { s.proc i with parent := some initproc }) := by
  have hother : ∀ {j}, j ≠ i →
      (s.setProc i { s.proc i with parent := some initproc }).proc j = s.proc j :=
    fun hj => setProc_of_ne s _ hj
  have hstate : ∀ j, ((s.setProc i { s.proc i with parent := some initproc }).proc j).state =
      (s.proc j).state := by
    intro j
    by_cases hj : j = i
    · rw [hj, setProc_self]
    · rw [hother hj]
  have hchan : ∀ j, ((s.setProc i { s.proc i with parent := some initproc }).proc j).chan =
      (s.proc j).chan := by
    intro j
    by_cases hj : j = i
    · rw [hj, setProc_self]
    · rw [hother hj]
  have hne : i ≠ initproc := by
    rintro rfl
    rw [h.init_parent] at hi
    exact absurd hi nofun
  have hnf : NotForked s i := by
    intro q f hq
    have hf := h.forked q i f hq
    rw [hi] at hf
    split at hf
    · rw [Option.some.inj hf, hq] at hp
      exact absurd hp nofun
    · exact absurd hf nofun
  have hparent : ∀ {j q},
      ((s.setProc i { s.proc i with parent := some initproc }).proc j).parent = some q →
        (j = i ∧ q = initproc) ∨ (s.proc j).parent = some q := by
    intro j q hq
    by_cases hj : j = i
    · rw [hj, setProc_self] at hq
      exact Or.inl ⟨hj, (Option.some.inj hq).symm⟩
    · rw [hother hj] at hq
      exact Or.inr hq
  have hw : ∀ {q}, AsleepInWait (s.setProc i { s.proc i with parent := some initproc }) q →
      AsleepInWait s q := by
    rintro q ⟨hs, hq⟩
    rw [hstate] at hs
    exact ⟨hs, hq⟩
  constructor
  · rw [hstate]
    exact h.init_live
  · rw [hother hne.symm]
    exact h.init_parent
  · intro q hq
    rw [hstate]
    exact h.busy_live q hq
  · intro j q hq
    rw [hstate]
    rcases hparent hq with ⟨-, rfl⟩ | hq
    · exact h.init_live
    · exact h.parent_live j q hq
  · intro j hj
    rcases hparent hj with ⟨rfl, rfl⟩ | hj
    · exact hne rfl
    · exact h.irrefl j hj
  · intro j hj hji
    rw [hstate] at hj
    by_cases hjc : j = i
    · rw [hjc, setProc_self]
      nofun
    · rw [hother hjc]
      exact h.has_parent j hj hji
  · intro j hj
    rw [hstate] at hj
    have hjc : j ≠ i := by
      rintro rfl
      rw [h.unused_parent j hj] at hi
      exact absurd hi nofun
    rw [hother hjc]
    exact h.unused_parent j hj
  · intro q np f hq
    rw [hstate]
    exact h.embryo q np f hq
  · exact h.forker
  · intro q np f hq
    have hni : np ≠ i := by
      rintro rfl
      exact hnf q f hq
    rw [hother hni]
    exact h.forked q np f hq
  · intro q hq
    rw [hchan]
    exact h.channel q (hw hq)
  · intro q hq c hc hzc
    rw [hstate] at hzc
    rcases hparent hc with ⟨rfl, rfl⟩ | hc
    · exact hz hzc (hw hq)
    · exact h.no_zombie q (hw hq) c hc hzc

/-- A process whose children are gone becomes a zombie; its parent is awake. -/
theorem Family.die {s : State} (h : Family s) {p : Slot} (hp : s.control p = .user)
    (hinit : p ≠ initproc) (hl : Live (s.proc p).state)
    (hchild : ∀ i, (s.proc i).parent ≠ some p)
    (hawake : ∀ q, (s.proc p).parent = some q → ¬ AsleepInWait s q) :
    Family (s.setState p .zombie) := by
  have hother : ∀ {j}, j ≠ p → (s.setState p .zombie).proc j = s.proc j :=
    fun hj => setProc_of_ne s _ hj
  have hself : (s.setState p .zombie).proc p = { s.proc p with state := .zombie } :=
    setProc_self ..
  have hparent : ∀ j, ((s.setState p .zombie).proc j).parent = (s.proc j).parent := by
    intro j
    by_cases hj : j = p
    · rw [hj, hself]
    · rw [hother hj]
  have hw : ∀ {q}, AsleepInWait (s.setState p .zombie) q → AsleepInWait s q ∧ q ≠ p := by
    rintro q ⟨hs, hq⟩
    have hqp : q ≠ p := by
      rintro rfl
      rw [hself] at hs
      exact absurd hs nofun
    rw [hother hqp] at hs
    exact ⟨⟨hs, hq⟩, hqp⟩
  constructor
  · rw [hother hinit.symm]
    exact h.init_live
  · rw [hparent]
    exact h.init_parent
  · intro q hq
    have hqp : q ≠ p := by
      rintro rfl
      exact hq hp
    rw [hother hqp]
    exact h.busy_live q hq
  · intro j q hq
    rw [hparent] at hq
    have hqp : q ≠ p := by
      rintro rfl
      exact hchild j hq
    rw [hother hqp]
    exact h.parent_live j q hq
  · intro j
    rw [hparent]
    exact h.irrefl j
  · intro j hj hne
    rw [hparent]
    by_cases hjp : j = p
    · exact hjp ▸ h.has_parent p (Or.inl hl) hinit
    · rw [hother hjp] at hj
      exact h.has_parent j hj hne
  · intro j hj
    rw [hparent]
    have hjp : j ≠ p := by
      rintro rfl
      rw [hself] at hj
      exact absurd hj nofun
    rw [hother hjp] at hj
    exact h.unused_parent j hj
  · intro q np f hq
    have he := h.embryo q np f hq
    have hnp : np ≠ p := by
      rintro rfl
      rw [he] at hl
      exact not_live_embryo hl
    rw [hother hnp]
    exact he
  · exact h.forker
  · intro q np f hq
    rw [hparent]
    exact h.forked q np f hq
  · intro q hq
    obtain ⟨hs, hqp⟩ := hw hq
    rw [hother hqp]
    exact h.channel q hs
  · intro q hq c hc hz
    rw [hparent] at hc
    by_cases hcp : c = p
    · exact hawake q (hcp ▸ hc) (hw hq).1
    · rw [hother hcp] at hz
      exact h.no_zombie q (hw hq).1 c hc hz

end ProcessFamilies
