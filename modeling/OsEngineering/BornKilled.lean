import OsEngineering.ProcessReaping

/-! killed and pid in slots that are used again. kill() scans every slot and allocproc()
leaves killed as it was, so a mark on an unused slot reaches the next process there. -/
namespace BornKilled

open KernelParams TransitionSystem ProcessTable ProcessFamilies ExitWait ProcessReaping

/-- fork() makes no killed process RUNNABLE unless its own pid was killed, and kill() returns
0 only for the pid of a slot in use. -/
def Sound (s : State) : Event → Prop
  | .setRunnable _ np => (s.proc np).killed = true → s.called np = true
  | .kill p pid => (next s (.kill p pid)).ret p = 0 →
      ∃ i, (s.proc i).state ≠ .unused ∧ (s.proc i).pid = pid
  | _ => True

/-- kill() does not find an unused slot, and no slot is given back with killed set. -/
def NoStaleMark (s : State) : Event → Prop
  | .kill _ pid => ∀ i, scan (fun i => (s.proc i).pid = pid) = some i → (s.proc i).state ≠ .unused
  | .kalloc _ np ok | .copyuvm _ np ok => ok = false → (s.proc np).killed = false
  | _ => True

/-- Slots not in use are unmarked, and an EMBRYO is marked only by its own pid. -/
structure Marks (s : State) : Prop where
  unused : ∀ i, (s.proc i).state = .unused → (s.proc i).killed = false
  embryo : ∀ i, (s.proc i).state = .embryo → (s.proc i).killed = true → s.called i = true

/-- A slot that is not in use keeps its mark. -/
structure SameMarks (s t : State) : Prop where
  unused : ∀ i, (t.proc i).state = .unused →
    (s.proc i).state = .unused ∧ (t.proc i).killed = (s.proc i).killed
  embryo : ∀ i, (t.proc i).state = .embryo →
    (s.proc i).state = .embryo ∧ (t.proc i).killed = (s.proc i).killed
  called : t.called = s.called

theorem SameMarks.refl (s : State) : SameMarks s s :=
  ⟨fun _ h => ⟨h, rfl⟩, fun _ h => ⟨h, rfl⟩, rfl⟩

theorem SameMarks.trans {s t u : State} (h : SameMarks s t) (k : SameMarks t u) :
    SameMarks s u where
  unused := by
    intro i hi
    obtain ⟨ht, hk⟩ := k.unused i hi
    obtain ⟨hs, hk'⟩ := h.unused i ht
    exact ⟨hs, hk.trans hk'⟩
  embryo := by
    intro i hi
    obtain ⟨ht, hk⟩ := k.embryo i hi
    obtain ⟨hs, hk'⟩ := h.embryo i ht
    exact ⟨hs, hk.trans hk'⟩
  called := k.called.trans h.called

theorem Marks.same {s t : State} (h : Marks s) (k : SameMarks s t) : Marks t where
  unused := by
    intro i hi
    obtain ⟨hs, hk⟩ := k.unused i hi
    rw [hk]
    exact h.unused i hs
  embryo := by
    intro i hi hm
    obtain ⟨hs, hk⟩ := k.embryo i hi
    rw [hk] at hm
    rw [k.called]
    exact h.embryo i hs hm

theorem setProc_sameMarks (s : State) (i : Slot) {x : Proc}
    (hu : x.state = .unused → (s.proc i).state = .unused ∧ x.killed = (s.proc i).killed)
    (he : x.state = .embryo → (s.proc i).state = .embryo ∧ x.killed = (s.proc i).killed) :
    SameMarks s (s.setProc i x) where
  unused := by
    intro j hj
    by_cases hji : j = i
    · subst hji
      rw [setProc_self] at hj ⊢
      exact hu hj
    · rw [setProc_of_ne s x hji] at hj ⊢
      exact ⟨hj, rfl⟩
  embryo := by
    intro j hj
    by_cases hji : j = i
    · subst hji
      rw [setProc_self] at hj ⊢
      exact he hj
    · rw [setProc_of_ne s x hji] at hj ⊢
      exact ⟨hj, rfl⟩
  called := rfl

/-- A slot whose new content is neither UNUSED nor EMBRYO. -/
theorem grown_sameMarks (s : State) (i : Slot) {x : Proc} (hu : x.state ≠ .unused)
    (he : x.state ≠ .embryo) : SameMarks s (s.setProc i x) :=
  setProc_sameMarks s i (fun h => absurd h hu) fun h => absurd h he

theorem finish_sameMarks (s : State) (p : Slot) (r : Pid) : SameMarks s (s.finish p r) :=
  ⟨fun _ h => ⟨h, rfl⟩, fun _ h => ⟨h, rfl⟩, rfl⟩

theorem move_sameMarks (s : State) (p : Slot) (c : Control) : SameMarks s (s.move p c) :=
  ⟨fun _ h => ⟨h, rfl⟩, fun _ h => ⟨h, rfl⟩, rfl⟩

theorem wakeup1_sameMarks (s : State) (chan : Option Chan) : SameMarks s (wakeup1 s chan) := by
  have hw : ∀ i, ((wakeup1 s chan).proc i = s.proc i) ∨
      ((wakeup1 s chan).proc i).state = .runnable := by
    intro i
    by_cases h : (s.proc i).state = .sleeping ∧ (s.proc i).chan = chan
    · exact Or.inr (by simp [wakeup1, wake, h])
    · exact Or.inl (by simp [wakeup1, wake, h])
  refine ⟨?_, ?_, rfl⟩
  · intro i hi
    rcases hw i with h | h
    · rw [h] at hi ⊢
      exact ⟨hi, rfl⟩
    · rw [h] at hi
      cases hi
  · intro i hi
    rcases hw i with h | h
    · rw [h] at hi ⊢
      exact ⟨hi, rfl⟩
    · rw [h] at hi
      cases hi

theorem adopt_fold_sameMarks (p : Slot) (l : List Slot) (s : State) :
    SameMarks s (l.foldl (adopt p) s) := by
  induction l generalizing s with
  | nil => exact .refl s
  | cons i l ih =>
    refine SameMarks.trans ?_ (ih _)
    have hset : SameMarks s (s.setProc i { s.proc i with parent := some initproc }) :=
      setProc_sameMarks s i (fun h => ⟨h, rfl⟩) fun h => ⟨h, rfl⟩
    unfold adopt
    split
    · dsimp only
      split
      · exact hset.trans (wakeup1_sameMarks _ _)
      · exact hset
    · exact .refl s

/-! The steps that change marks. -/

/-- A slot is given back unmarked. -/
theorem Marks.giveBack {s : State} (h : Marks s) (i : Slot) {x : Proc} (hx : x.state = .unused)
    (hk : x.killed = false) : Marks (s.setProc i x) where
  unused := by
    intro j hj
    by_cases hji : j = i
    · subst hji
      rw [setProc_self, hk]
    · rw [setProc_of_ne s x hji] at hj ⊢
      exact h.unused j hj
  embryo := by
    intro j hj hm
    by_cases hji : j = i
    · subst hji
      rw [setProc_self, hx] at hj
      exact absurd hj nofun
    · rw [setProc_of_ne s x hji] at hj hm
      exact h.embryo j hj hm

theorem allocproc_marks {s : State} (h : Marks s) (p : Slot) : Marks (allocproc s p) := by
  unfold allocproc
  split
  · exact h.same (finish_sameMarks s p _)
  · next np hnp =>
    have hu : (s.proc np).state = .unused := by simpa using scan_some hnp
    have hother : ∀ {j x}, j ≠ np → (s.setProc np x).proc j = s.proc j :=
      fun hj => setProc_of_ne s _ hj
    constructor
    · intro j hj
      change ((s.setProc np _).proc j).state = .unused at hj
      change ((s.setProc np _).proc j).killed = false
      by_cases hjn : j = np
      · subst hjn
        rw [setProc_self] at hj
        exact absurd hj nofun
      · rw [hother hjn] at hj ⊢
        exact h.unused j hj
    · intro j hj hm
      change ((s.setProc np _).proc j).state = .embryo at hj
      change ((s.setProc np _).proc j).killed = true at hm
      by_cases hjn : j = np
      · subst hjn
        rw [setProc_self] at hm
        change (s.proc j).killed = true at hm
        rw [h.unused j hu] at hm
        exact absurd hm nofun
      · rw [hother hjn] at hj hm
        change Function.update s.called np false j = true
        rw [Function.update_of_ne hjn]
        exact h.embryo j hj hm

theorem wait_marks {s : State} (h : Marks s) (p : Slot) : Marks (wait s p) := by
  unfold wait
  split
  · next i _ =>
    have hk : Marks (s.setProc i { s.proc i with
        kstack := none, pid := 0, parent := none, killed := false, state := .unused }) :=
      h.giveBack i rfl rfl
    have hp : (reap s i).proc = (s.setProc i { s.proc i with
        kstack := none, pid := 0, parent := none, killed := false, state := .unused }).proc := by
      simp [reap, freeStack, State.setProc]
    refine Marks.same (s := reap s i) ⟨?_, ?_⟩ (finish_sameMarks _ p _)
    · rw [hp]
      exact hk.unused
    · rw [hp]
      exact hk.embryo
  · split
    · exact h.same (finish_sameMarks s p _)
    · exact h.same ((grown_sameMarks s p (x := { s.proc p with
        chan := some (.proc p), state := .sleeping }) (by rintro ⟨⟩) (by rintro ⟨⟩)).trans
          (move_sameMarks _ p _))

theorem kill_marks {s : State} (h : Marks s) (p : Slot) {pid : Pid}
    (hok : ∀ i, scan (fun i => (s.proc i).pid = pid) = some i → (s.proc i).state ≠ .unused) :
    Marks (kill s p pid) := by
  have hcalled : ∀ i, (s.proc i).pid = pid ∨ s.called i = true →
      (s.called i || decide ((s.proc i).pid = pid)) = true := by
    rintro i (hi | hi)
    · simp [hi]
    · simp [hi]
  unfold kill
  dsimp only
  split
  · next i hi =>
    have hpid : (s.proc i).pid = pid := by simpa using scan_some hi
    have hu := hok i hi
    constructor
    · intro j hj
      change ((s.setProc i (hit (s.proc i))).proc j).state = .unused at hj
      change ((s.setProc i (hit (s.proc i))).proc j).killed = false
      by_cases hji : j = i
      · subst hji
        rw [setProc_self, hit] at hj
        dsimp only at hj
        split at hj
        · cases hj
        · exact absurd hj hu
      · rw [setProc_of_ne s _ hji] at hj ⊢
        exact h.unused j hj
    · intro j hj hm
      change ((s.setProc i (hit (s.proc i))).proc j).state = .embryo at hj
      change ((s.setProc i (hit (s.proc i))).proc j).killed = true at hm
      refine hcalled j ?_
      by_cases hji : j = i
      · exact Or.inl (hji ▸ hpid)
      · rw [setProc_of_ne s _ hji] at hj hm
        exact Or.inr (h.embryo j hj hm)
  · exact ⟨h.unused, fun j hj hm => hcalled j (Or.inr (h.embryo j hj hm))⟩

theorem copyPgdir_marks {s : State} (h : Marks s) {p np : Slot} (ok : Bool)
    (hok : ok = false → (s.proc np).killed = false) : Marks (copyPgdir s p np ok) := by
  cases ok with
  | true =>
    exact h.same ((setProc_sameMarks s np (x := { s.proc np with pgdir := some (s.proc np).birth })
      (fun hu => ⟨hu, rfl⟩) (fun he => ⟨he, rfl⟩)).trans (move_sameMarks _ p _))
  | false =>
    have hk : Marks (s.setProc np
        { s.proc np with pgdir := none, kstack := none, state := .unused }) :=
      h.giveBack np rfl (hok rfl)
    have hp : (copyPgdir s p np false).proc = (s.setProc np
        { s.proc np with pgdir := none, kstack := none, state := .unused }).proc := by
      simp [copyPgdir, freeStack, State.setState, State.setProc, State.finish, State.move]
    constructor
    · rw [hp]
      exact hk.unused
    · rw [hp]
      exact hk.embryo

theorem record_exit_marks {s : State} (h : Marks s) (ks : List ℕ) :
    Marks { s with exited := ks } := ⟨h.unused, h.embryo⟩

theorem step_marks {s t : State} {e : Event} (h : Marks s)
    (hs : Guarded machine.Step NoStaleMark s e t) : Marks t := by
  obtain ⟨hok, he, rfl⟩ := hs
  cases e with
  | allocproc p => exact allocproc_marks h p
  | kalloc p np ok =>
    cases ok with
    | true =>
      exact h.same ((setProc_sameMarks s np
        (x := { s.proc np with kstack := some (s.proc np).birth })
        (fun hu => ⟨hu, rfl⟩) (fun he => ⟨he, rfl⟩)).trans (move_sameMarks _ p _))
    | false =>
      exact (h.giveBack np (x := { s.proc np with kstack := none, state := .unused }) rfl
        (hok rfl)).same (finish_sameMarks _ p _)
  | copyuvm p np ok => exact copyPgdir_marks h ok hok
  | setParent p np =>
    exact h.same ((setProc_sameMarks s np (x := { s.proc np with parent := some p })
      (fun hu => ⟨hu, rfl⟩) (fun he => ⟨he, rfl⟩)).trans (move_sameMarks _ p _))
  | setRunnable p np =>
    exact h.same ((grown_sameMarks s np (x := { s.proc np with state := .runnable })
      nofun nofun).trans (finish_sameMarks _ p _))
  | exit p =>
    have ha : SameMarks s (abandon (wakeup1 s ((s.proc p).parent.map .proc)) p) :=
      (wakeup1_sameMarks s _).trans (adopt_fold_sameMarks p (List.finRange NPROC) _)
    have hz := grown_sameMarks (abandon (wakeup1 s ((s.proc p).parent.map .proc)) p) p
      (x := { (abandon (wakeup1 s ((s.proc p).parent.map .proc)) p).proc p with state := .zombie })
      nofun nofun
    exact record_exit_marks ((h.same ha).same hz) _
  | wait p => exact wait_marks h p
  | kill p pid => exact kill_marks h p hok
  | schedule p =>
    have hr : Marks (s.setProc p { s.proc p with state := .running, chan := none }) :=
      h.same (grown_sameMarks s p nofun nofun)
    change Marks (schedule s p)
    unfold schedule
    dsimp only
    split
    · exact wait_marks hr p
    · exact hr
  | yield p => exact h.same (grown_sameMarks s p nofun nofun)
  | sleep p addr => exact h.same (grown_sameMarks s p nofun nofun)
  | wakeup addr => exact h.same (wakeup1_sameMarks s _)

theorem boot_marks : Marks boot where
  unused := by
    intro i _
    simp only [boot]
    split <;> rfl
  embryo := by
    intro i hi
    by_cases h : i = initproc
    · simp [boot, h] at hi
    · simp [boot, h] at hi

theorem kill_ret {s : State} {p : Slot} {pid : Pid} (h : (kill s p pid).ret p = 0) :
    ∃ i, scan (fun i => (s.proc i).pid = pid) = some i := by
  unfold kill at h
  dsimp only at h
  split at h
  · next i hi => exact ⟨i, hi⟩
  · change Function.update s.ret p (-1) p = 0 at h
    rw [Function.update_self] at h
    exact absurd h (by decide)

/-- In a run without stale marks every step is sound. -/
theorem sound_of_no_stale_mark {es : List Event} {s : State}
    (r : Run (Guarded machine.Step NoStaleMark) (· = boot) es s) :
    Run (Guarded machine.Step Sound) (· = boot) es s := by
  induction r with
  | nil h => exact .nil h
  | @snoc es s e t r hs ih =>
    have hm : Marks s := by
      refine r.invariant ?_ fun _ _ _ h k => step_marks h k
      rintro _ rfl
      exact boot_marks
    have hf : Family s := (reaches_sound r.unguarded).1
    refine .snoc ih ⟨?_, hs.2⟩
    cases e with
    | setRunnable p np => exact hm.embryo np (hf.embryo p np _ hs.2.1.2)
    | kill p pid =>
      intro hret
      obtain ⟨i, hi⟩ := kill_ret hret
      exact ⟨i, hs.1 i hi, by simpa using scan_some hi⟩
    | _ => trivial

instance (s : State) (e : Event) : Decidable (NoStaleMark s e) := by
  induction e using Event.casesOn <;> unfold NoStaleMark <;> infer_instance

/-- init forks a child and kills it. -/
def killChild : List Event :=
  [.schedule 0, .allocproc 0, .kalloc 0 1 true, .copyuvm 0 1 true, .setParent 0 1,
   .setRunnable 0 1, .kill 0 2, .schedule 1, .exit 1]

theorem sound_of_no_stale_mark_child :
    Run (Guarded machine.Step Sound) (· = boot) killChild (machine.exec boot killChild) ∧
      ((machine.exec boot killChild).proc 1).killed = true :=
  ⟨sound_of_no_stale_mark (Machine.Valid.guarded_run (by decide +kernel)), by decide +kernel⟩

/-- kill(0) finds slot 1, which is unused; the child fork() puts there is born killed. -/
def killZero : List Event :=
  [.schedule 0, .kill 0 0, .allocproc 0, .kalloc 0 1 true, .copyuvm 0 1 true, .setParent 0 1]

theorem killed_before_birth :
    (∃ es s p np, Reaches es s ∧ Enabled s (.setRunnable p np) ∧ ¬ Sound s (.setRunnable p np)) ∧
      ∃ es s p pid, Reaches es s ∧ Enabled s (.kill p pid) ∧ ¬ Sound s (.kill p pid) := by
  constructor
  · refine ⟨killZero, _, 0, 1, Machine.Valid.run (by decide +kernel), by decide +kernel, ?_⟩
    intro h
    have hcalled := h (by decide +kernel)
    exact absurd hcalled (by decide +kernel)
  · refine ⟨[.schedule 0], _, 0, 0, Machine.Valid.run (by decide +kernel), by decide +kernel, ?_⟩
    intro h
    exact absurd (h (by decide +kernel)) (by decide +kernel)

end BornKilled
