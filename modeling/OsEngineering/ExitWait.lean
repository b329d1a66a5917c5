import OsEngineering.ProcessFamilies

/-! exit() and wait(): parents outlive their children, no parent sleeps over a zombie, and
each process is reaped, with its stack and page directory, once. -/
namespace ExitWait

open KernelParams TransitionSystem ProcessTable ProcessFamilies

theorem scan_some {found : Slot → Bool} {i : Slot} (h : scan found = some i) : found i = true :=
  List.find?_some h

theorem scan_none {found : Slot → Bool} (h : scan found = none) (i : Slot) : found i = false := by
  have := List.find?_eq_none.mp h i (List.mem_finRange i)
  simpa using this

theorem boot_family : Family boot where
  init_live := Or.inr (Or.inl rfl)
  init_parent := rfl
  busy_live := by
    intro p hp
    exact absurd rfl hp
  parent_live := by
    intro i q hq
    simp only [boot] at hq
    split at hq <;> exact absurd hq nofun
  irrefl := by
    intro i hi
    simp only [boot] at hi
    split at hi <;> exact absurd hi nofun
  has_parent := by
    intro i hi hne
    simp only [boot, if_neg hne] at hi
    rcases hi with hi | hi
    · exact absurd hi not_live_unused
    · exact absurd hi nofun
  unused_parent := by
    intro i _
    simp only [boot]
    split <;> rfl
  embryo := nofun
  forker := nofun
  forked := nofun
  channel := by
    rintro p ⟨-, hp⟩
    exact absurd hp nofun
  no_zombie := by
    rintro p ⟨-, hp⟩
    exact absurd hp nofun

theorem running_live {st : ProcState} (h : st = .running) : Live st := Or.inr (Or.inr h)

/-! fork(). -/

theorem allocproc_family {s : State} (h : Family s) {p : Slot}
    (hp : (s.proc p).state = .running) : Family (allocproc s p) := by
  unfold allocproc
  split
  · exact h.finish p _
  · next np hnp =>
    have hu : (s.proc np).state = .unused := by simpa using scan_some hnp
    refine (h.fill (running_live hp) (Or.inl hu)
      (x := { s.proc np with state := .embryo, pid := s.nextpid, birth := s.births })
      (f := .kalloc) rfl (h.unused_parent np hu) ?_).congr rfl rfl
    intro q g hq
    have he := h.embryo q np g hq
    rw [hu] at he
    exact absurd he nofun

/-- A failed fork() gives its slot back. -/
theorem giveBack_family {s : State} (h : Family s) {p np : Slot} {f : ForkPoint}
    (hp : s.control p = .fork np f) (hf : f ≠ .setRunnable) {x : Proc} (hx : x.state = .unused)
    (hpar : x.parent = (s.proc np).parent) (r : Pid) : Family ((s.setProc np x).finish p r) := by
  have he := h.embryo p np f hp
  have hn := h.forked p np f hp
  rw [if_neg hf] at hn
  refine ((h.move_user p).release (i := np) (x := x) ?_ ?_ hx (hpar.trans hn)).congr rfl rfl
  · rw [move_proc, he]
    exact not_live_embryo
  · intro q g hq
    by_cases hqp : q = p
    · subst hqp
      rw [move_self] at hq
      exact absurd hq nofun
    · rw [move_of_ne _ _ hqp] at hq
      exact hqp (h.forker q p np g f hq hp)

theorem allocKstack_family {s : State} (h : Family s) {p np : Slot} (ok : Bool)
    (hp : (s.proc p).state = .running) (hc : s.control p = .fork np .kalloc) :
    Family (allocKstack s p np ok) := by
  cases ok with
  | false =>
    exact giveBack_family h hc nofun
      (x := { s.proc np with kstack := none, state := .unused }) rfl rfl _
  | true =>
    have he := h.embryo p np _ hc
    exact h.fill (running_live hp) (Or.inr he) he (h.forked p np .kalloc hc)
      fun q g hq => h.forker q p np g _ hq hc

theorem copyPgdir_family {s : State} (h : Family s) {p np : Slot} (ok : Bool)
    (hp : (s.proc p).state = .running) (hc : s.control p = .fork np .copyuvm) :
    Family (copyPgdir s p np ok) := by
  cases ok with
  | false =>
    refine (giveBack_family h hc nofun (x :=
      { s.proc np with pgdir := none, kstack := none, state := .unused }) rfl rfl (-1)).congr ?_ rfl
    simp [copyPgdir, freeStack, State.setState, State.setProc, State.finish, State.move]
  | true =>
    have he := h.embryo p np _ hc
    exact h.fill (running_live hp) (Or.inr he) he (h.forked p np .copyuvm hc)
      fun q g hq => h.forker q p np g _ hq hc

theorem setParent_family {s : State} (h : Family s) {p np : Slot}
    (hp : (s.proc p).state = .running) (hc : s.control p = .fork np .setParent) :
    Family (setParent s p np) := by
  have he := h.embryo p np _ hc
  exact h.fill (running_live hp) (Or.inr he) he rfl fun q g hq => h.forker q p np g _ hq hc

theorem setRunnable_family {s : State} (h : Family s) {p np : Slot}
    (hc : s.control p = .fork np .setRunnable) : Family (setRunnable s p np) := by
  have hn := h.forked p np _ hc
  have he : ((s.move p .user).proc np).state = .embryo := h.embryo p np _ hc
  refine ((h.move_user p).grow he ?_ ?_).congr rfl rfl
  · rw [move_proc, hn]
    nofun
  · intro q g hq
    by_cases hqp : q = p
    · subst hqp
      rw [move_self] at hq
      exact absurd hq nofun
    · rw [move_of_ne _ _ hqp] at hq
      exact hqp (h.forker q p np g _ hq hc)

/-! wait(). -/

theorem notForked_of_zombie {s : State} (h : Family s) {i : Slot}
    (hi : (s.proc i).state = .zombie) : NotForked s i := by
  intro q g hq
  have he := h.embryo q i g hq
  rw [hi] at he
  exact absurd he nofun

theorem reap_family {s : State} (h : Family s) {i : Slot} (hi : (s.proc i).state = .zombie) :
    Family (reap s i) := by
  refine (h.release (i := i) (x := { s.proc i with
    kstack := none, pid := 0, parent := none, killed := false, state := .unused })
    (by rw [hi]; exact not_live_zombie) (notForked_of_zombie h hi) rfl rfl).congr ?_ rfl
  simp [reap, freeStack, State.setProc]

theorem wait_family {s : State} (h : Family s) {p : Slot} (hp : Live (s.proc p).state) :
    Family (wait s p) := by
  unfold wait
  split
  · next i hi =>
    have hz : (s.proc i).parent = some p ∧ (s.proc i).state = .zombie := by
      simpa using scan_some hi
    exact (reap_family h hz.2).finish p _
  · next hnone =>
    split
    · exact h.finish p _
    · refine h.sleep_in_wait hp ?_
      intro c hc hz
      have := scan_none hnone c
      simp [hc, hz] at this

/-! exit(). -/

/-- What the loop over the children of `p` keeps. -/
structure Leaving (p : Slot) (s : State) : Prop where
  family : Family s
  control : s.control p = .user
  live : Live (s.proc p).state
  awake : ∀ q, (s.proc p).parent = some q → ¬ AsleepInWait s q

theorem Leaving.stir {p : Slot} {s t : State} (h : Leaving p s) (k : Stirs s t) : Leaving p t where
  family := h.family.stir k
  control := by
    rw [k.control]
    exact h.control
  live := (k.live p).mpr h.live
  awake := by
    intro q hq hw
    rw [k.parent] at hq
    exact h.awake q hq (k.asleep hw).1

theorem Leaving.reparent {p : Slot} {s : State} (h : Leaving p s) {i : Slot}
    (hi : (s.proc i).parent = some p)
    (hz : (s.proc i).state = .zombie → ¬ AsleepInWait s initproc) :
    Leaving p (s.setProc i { s.proc i with parent := some initproc }) := by
  have hpi : p ≠ i := by
    rintro rfl
    exact h.family.irrefl p hi
  have hp : (s.setProc i { s.proc i with parent := some initproc }).proc p = s.proc p :=
    setProc_of_ne s _ hpi
  constructor
  · exact h.family.reparent hi h.control hz
  · exact h.control
  · rw [hp]
    exact h.live
  · intro q hq hw
    rw [hp] at hq
    refine h.awake q hq ⟨?_, hw.2⟩
    have hs := hw.1
    by_cases hqi : q = i
    · subst hqi
      rwa [setProc_self] at hs
    · rwa [setProc_of_ne s _ hqi] at hs

theorem not_asleep_wakeup1 {s : State} (h : Family s) (q : Slot) :
    ¬ AsleepInWait (wakeup1 s (some (.proc q))) q := by
  intro hw
  have hs := (wakeup1_stirs s _).asleep hw
  have hc := h.channel q hs.1
  have hst := hw.1
  simp [wakeup1, wake, hs.1.1, hc] at hst

/-- Waking init and the store to a zombie commute. -/
theorem wakeup1_setProc {s : State} {i : Slot} {x : Proc} (hx : x.state ≠ .sleeping)
    (chan : Option Chan) : wakeup1 (s.setProc i x) chan = (wakeup1 s chan).setProc i x := by
  simp only [wakeup1, State.setProc, State.mk.injEq, and_true]
  funext j
  by_cases hj : j = i
  · subst hj
    simp [wake, hx]
  · simp [hj]

theorem adopt_leaving {p : Slot} {s : State} (h : Leaving p s) (i : Slot) :
    Leaving p (adopt p s i) := by
  unfold adopt
  split
  · next hi =>
    dsimp only
    split
    · next hz =>
      rw [setProc_self] at hz
      have hzs : (s.proc i).state = .zombie := hz
      have hk := h.stir (wakeup1_stirs s (some (.proc initproc)))
      have hwi : (wakeup1 s (some (.proc initproc))).proc i = s.proc i := by
        simp [wakeup1, wake, hzs]
      rw [wakeup1_setProc (by simp [hzs]), ← hwi]
      refine hk.reparent ?_ fun _ => not_asleep_wakeup1 h.family initproc
      rw [hwi]
      exact hi
    · next hz =>
      rw [setProc_self] at hz
      exact h.reparent hi fun hzs => absurd hzs hz
  · exact h

theorem adopt_parent {p : Slot} (hp : p ≠ initproc) {s : State} (i j : Slot)
    (h : ((adopt p s i).proc j).parent = some p) : (s.proc j).parent = some p ∧ j ≠ i := by
  have hset : ∀ {u : State}, ((s.setProc i { s.proc i with parent := some initproc }).proc j).parent
      = some p → (s.proc j).parent = some p ∧ j ≠ i := by
    intro _ hj
    have hji : j ≠ i := by
      rintro rfl
      rw [setProc_self] at hj
      exact hp (Option.some.inj hj).symm
    rw [setProc_of_ne s _ hji] at hj
    exact ⟨hj, hji⟩
  unfold adopt at h
  split at h
  · dsimp only at h
    split at h
    · rw [(wakeup1_stirs _ _).parent] at h
      exact hset (u := s) h
    · exact hset (u := s) h
  · next hi =>
    refine ⟨h, ?_⟩
    rintro rfl
    exact hi h

theorem adopt_fold {p : Slot} (hp : p ≠ initproc) (l : List Slot) {s : State} (h : Leaving p s)
    (hrest : ∀ i, i ∉ l → (s.proc i).parent ≠ some p) :
    Leaving p (l.foldl (adopt p) s) ∧
      ∀ i, ((l.foldl (adopt p) s).proc i).parent ≠ some p := by
  induction l generalizing s with
  | nil => exact ⟨h, fun i => hrest i List.not_mem_nil⟩
  | cons i l ih =>
    refine ih (adopt_leaving h i) ?_
    intro j hj hpar
    obtain ⟨hs, hji⟩ := adopt_parent hp i j hpar
    exact hrest j (by simp [hji, hj]) hs

theorem abandon_leaving {p : Slot} (hp : p ≠ initproc) {s : State} (h : Leaving p s) :
    Leaving p (abandon s p) ∧ ∀ i, ((abandon s p).proc i).parent ≠ some p := by
  rw [abandon]
  exact adopt_fold hp (List.finRange NPROC) h fun i hi => absurd (List.mem_finRange i) hi

theorem exit_leaving {s : State} (h : Family s) {p : Slot} (hp : (s.proc p).state = .running)
    (hc : s.control p = .user) (hi : p ≠ initproc) :
    Leaving p (abandon (wakeup1 s ((s.proc p).parent.map .proc)) p) ∧
      ∀ i, ((abandon (wakeup1 s ((s.proc p).parent.map .proc)) p).proc i).parent ≠ some p := by
  have hk := wakeup1_stirs s ((s.proc p).parent.map .proc)
  refine abandon_leaving hi ⟨h.stir hk, hc, (hk.live p).mpr (running_live hp), ?_⟩
  intro q hq
  rw [hk.parent] at hq
  rw [hq]
  exact not_asleep_wakeup1 h q

theorem record_exit {s : State} (h : Family s) (ks : List ℕ) : Family { s with exited := ks } :=
  h.congr rfl rfl

theorem exit_family {s : State} (h : Family s) {p : Slot} (hp : (s.proc p).state = .running)
    (hc : s.control p = .user) (hi : p ≠ initproc) : Family (exit s p) := by
  obtain ⟨ha, hn⟩ := exit_leaving h hp hc hi
  exact record_exit (ha.family.die ha.control hi ha.live hn ha.awake) _

/-! Every step. -/

theorem hit_stirs (s : State) (i : Slot) : Stirs s (s.setProc i (hit (s.proc i))) := by
  refine setProc_stirs s i rfl ?_
  by_cases hs : (s.proc i).state = .sleeping
  · refine Or.inr ⟨Or.inl hs, ?_, ?_⟩
    · simp [hit, hs, Live]
    · simp [hit, hs]
  · exact Or.inl (by simp [hit, hs])

theorem kill_family {s : State} (h : Family s) (p : Slot) (pid : Pid) : Family (kill s p pid) := by
  unfold kill
  dsimp only
  split
  · next i _ => exact ((h.stir (hit_stirs s i)).finish p 0).congr rfl rfl
  · exact (h.finish p (-1)).congr rfl rfl

theorem schedule_family {s : State} (h : Family s) {p : Slot}
    (hp : (s.proc p).state = .runnable) : Family (schedule s p) := by
  have hk : Family (s.setProc p { s.proc p with state := .running, chan := none }) := by
    refine h.stir (setProc_stirs s p rfl (Or.inr ⟨Or.inr (Or.inl hp), running_live rfl, ?_⟩))
    exact nofun
  unfold schedule
  dsimp only
  split
  · refine wait_family hk ?_
    rw [setProc_self]
    exact running_live rfl
  · exact hk

theorem step_family {s t : State} {e : Event} (h : Family s) (hs : machine.Step s e t) :
    Family t := by
  obtain ⟨he, rfl⟩ := hs
  cases e with
  | allocproc p => exact allocproc_family h he.1
  | kalloc p np ok => exact allocKstack_family h ok he.1 he.2
  | copyuvm p np ok => exact copyPgdir_family h ok he.1 he.2
  | setParent p np => exact setParent_family h he.1 he.2
  | setRunnable p np => exact setRunnable_family h he.2
  | exit p => exact exit_family h he.1 he.2.1 he.2.2
  | wait p => exact wait_family h (running_live he.1)
  | kill p pid => exact kill_family h p pid
  | schedule p => exact schedule_family h he
  | yield p =>
    exact h.stir (setProc_stirs s p rfl
      (Or.inr ⟨running_live he, Or.inr (Or.inl rfl), nofun⟩))
  | sleep p addr =>
    refine h.stir (setProc_stirs s p rfl (Or.inr ⟨running_live he.1, Or.inl rfl, ?_⟩))
    intro _
    rw [show s.control p = .user from he.2]
    nofun
  | wakeup addr => exact h.stir (wakeup1_stirs s _)

end ExitWait
