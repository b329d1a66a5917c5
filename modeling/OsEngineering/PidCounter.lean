import OsEngineering.ProcessReaping
import Mathlib.Algebra.Group.Int.Defs

/-! The pids that fork() returns. nextpid is counted up without a check, so the pid of a process is
the number of its slot allocation modulo 2^32. -/
namespace PidCounter

open KernelParams TransitionSystem ProcessTable ProcessFamilies ExitWait ProcessReaping

/-- `births` counts the slots that were given out. -/
structure Numbered (s : State) : Prop where
  nextpid : s.nextpid = BitVec.ofNat 32 (s.births + 1)
  pid : ∀ i, (s.proc i).state ≠ .unused →
    (s.proc i).pid = BitVec.ofNat 32 ((s.proc i).birth + 1)

/-- No slot is given out, and the processes keep their numbers. -/
structure SamePids (s t : State) : Prop where
  nextpid : t.nextpid = s.nextpid
  births : t.births = s.births
  proc : ∀ i, (t.proc i).state ≠ .unused → (s.proc i).state ≠ .unused ∧
    (t.proc i).pid = (s.proc i).pid ∧ (t.proc i).birth = (s.proc i).birth

theorem SamePids.refl (s : State) : SamePids s s := ⟨rfl, rfl, fun _ h => ⟨h, rfl, rfl⟩⟩

theorem SamePids.trans {s t u : State} (h : SamePids s t) (k : SamePids t u) : SamePids s u where
  nextpid := k.nextpid.trans h.nextpid
  births := k.births.trans h.births
  proc := by
    intro i hi
    obtain ⟨ht, hpid, hbirth⟩ := k.proc i hi
    obtain ⟨hs, hpid', hbirth'⟩ := h.proc i ht
    exact ⟨hs, hpid.trans hpid', hbirth.trans hbirth'⟩

theorem Numbered.same {s t : State} (h : Numbered s) (k : SamePids s t) : Numbered t where
  nextpid := by rw [k.nextpid, k.births, h.nextpid]
  pid := by
    intro i hi
    obtain ⟨hs, hpid, hbirth⟩ := k.proc i hi
    rw [hpid, hbirth, h.pid i hs]

theorem setProc_samePids (s : State) (i : Slot) {x : Proc}
    (hx : x.state ≠ .unused → (s.proc i).state ≠ .unused ∧ x.pid = (s.proc i).pid ∧
      x.birth = (s.proc i).birth) : SamePids s (s.setProc i x) where
  nextpid := rfl
  births := rfl
  proc := by
    intro j hj
    by_cases hji : j = i
    · subst hji
      rw [setProc_self] at hj ⊢
      exact hx hj
    · rw [setProc_of_ne s x hji] at hj ⊢
      exact ⟨hj, rfl, rfl⟩

theorem procs_samePids {s t : State} (hn : t.nextpid = s.nextpid) (hb : t.births = s.births)
    (hp : t.proc = s.proc) : SamePids s t :=
  ⟨hn, hb, fun i hi => by rw [hp] at hi ⊢; exact ⟨hi, rfl, rfl⟩⟩

theorem finish_samePids (s : State) (p : Slot) (r : Pid) : SamePids s (s.finish p r) :=
  procs_samePids rfl rfl rfl

theorem move_samePids (s : State) (p : Slot) (c : Control) : SamePids s (s.move p c) :=
  procs_samePids rfl rfl rfl

theorem wakeup1_samePids (s : State) (chan : Option Chan) : SamePids s (wakeup1 s chan) where
  nextpid := rfl
  births := rfl
  proc := by
    intro i hi
    change (wake chan (s.proc i)).state ≠ .unused at hi
    change _ ∧ (wake chan (s.proc i)).pid = _ ∧ (wake chan (s.proc i)).birth = _
    unfold wake at *
    split at hi
    next hs =>
      rw [if_pos hs, hs.1]
      exact ⟨nofun, rfl, rfl⟩
    next hs =>
      rw [if_neg hs]
      exact ⟨hi, rfl, rfl⟩

theorem adopt_fold_samePids (p : Slot) (l : List Slot) (s : State) :
    SamePids s (l.foldl (adopt p) s) := by
  induction l generalizing s with
  | nil => exact .refl s
  | cons i l ih =>
    refine SamePids.trans ?_ (ih _)
    have hset : SamePids s (s.setProc i { s.proc i with parent := some initproc }) :=
      setProc_samePids s i fun h => ⟨h, rfl, rfl⟩
    unfold adopt
    split
    · dsimp only
      split
      · exact hset.trans (wakeup1_samePids _ _)
      · exact hset
    · exact .refl s

theorem reap_samePids (s : State) (i : Slot) : SamePids s (reap s i) := by
  have hp : (reap s i).proc = (s.setProc i { s.proc i with
      kstack := none, pid := 0, parent := none, killed := false, state := .unused }).proc := by
    simp [reap, freeStack, State.setProc]
  have hset : SamePids s (s.setProc i { s.proc i with
      kstack := none, pid := 0, parent := none, killed := false, state := .unused }) :=
    setProc_samePids s i fun h => absurd rfl h
  exact hset.trans (procs_samePids rfl rfl hp)

theorem wait_samePids {s : State} {p : Slot} (hp : (s.proc p).state ≠ .unused) :
    SamePids s (wait s p) := by
  unfold wait
  split
  · exact (reap_samePids s _).trans (finish_samePids _ p _)
  · split
    · exact finish_samePids s p _
    · exact (setProc_samePids s p (x := { s.proc p with chan := some (.proc p), state := .sleeping })
        fun _ => ⟨hp, rfl, rfl⟩).trans (move_samePids _ p _)

theorem exit_samePids {s : State} {p : Slot} (hp : (s.proc p).state ≠ .unused) :
    SamePids s (exit s p) := by
  unfold exit
  dsimp only
  generalize ha : abandon (wakeup1 s ((s.proc p).parent.map .proc)) p = a
  have hids : SamePids s a := by
    rw [← ha]
    exact (wakeup1_samePids s _).trans (adopt_fold_samePids p (List.finRange NPROC) _)
  have hkeeps : Keeps s a := by
    rw [← ha]
    exact (wakeup1_keeps s _).trans (adopt_fold_keeps p (List.finRange NPROC) _)
  have hused : (a.proc p).state ≠ .unused := fun hu => hp ((hkeeps.proc p).unused.mp hu)
  have hset : SamePids a (a.setState p .zombie) := setProc_samePids a p fun _ => ⟨hused, rfl, rfl⟩
  exact hids.trans (hset.trans (procs_samePids rfl rfl rfl))

theorem copyPgdir_samePids {s : State} {p np : Slot} (ok : Bool) :
    SamePids s (copyPgdir s p np ok) := by
  cases ok with
  | true =>
    exact (setProc_samePids s np (x := { s.proc np with pgdir := some (s.proc np).birth })
      fun h => ⟨h, rfl, rfl⟩).trans (move_samePids _ p _)
  | false =>
    have hp : (copyPgdir s p np false).proc = (s.setProc np
        { s.proc np with pgdir := none, kstack := none, state := .unused }).proc := by
      simp [copyPgdir, freeStack, State.setState, State.setProc, State.finish, State.move]
    have hset : SamePids s (s.setProc np
        { s.proc np with pgdir := none, kstack := none, state := .unused }) :=
      setProc_samePids s np fun h => absurd rfl h
    exact hset.trans (procs_samePids rfl rfl hp)

theorem kill_samePids (s : State) (p : Slot) (pid : Pid) : SamePids s (kill s p pid) := by
  unfold kill
  dsimp only
  split
  next i _ =>
    have hset : SamePids s (s.setProc i (hit (s.proc i))) := by
      refine setProc_samePids s i fun h => ⟨?_, rfl, rfl⟩
      intro hu
      rw [hit, hu] at h
      exact h rfl
    exact hset.trans (procs_samePids rfl rfl rfl)
  next => exact procs_samePids rfl rfl rfl

theorem schedule_samePids {s : State} {p : Slot} (hp : (s.proc p).state = .runnable) :
    SamePids s (schedule s p) := by
  have hset : SamePids s (s.setProc p { s.proc p with state := .running, chan := none }) :=
    setProc_samePids s p fun _ => ⟨by rw [hp]; nofun, rfl, rfl⟩
  unfold schedule
  dsimp only
  split
  · refine hset.trans (wait_samePids ?_)
    rw [setProc_self]
    nofun
  · exact hset

/-- Only allocproc() gives numbers. -/
theorem step_samePids {s t : State} {e : Event} (k : Family s) (hs : machine.Step s e t)
    (he : ∀ p, e ≠ .allocproc p) : SamePids s t := by
  obtain ⟨hen, rfl⟩ := hs
  have hrunning : ∀ {i}, (s.proc i).state = .running → (s.proc i).state ≠ .unused := by
    intro i hi
    rw [hi]
    nofun
  cases e with
  | allocproc p => exact absurd rfl (he p)
  | kalloc p np ok =>
    cases ok with
    | true =>
      exact (setProc_samePids s np (x := { s.proc np with kstack := some (s.proc np).birth })
        fun h => ⟨h, rfl, rfl⟩).trans (move_samePids _ p _)
    | false =>
      exact (setProc_samePids s np (x := { s.proc np with kstack := none, state := .unused })
        fun h => absurd rfl h).trans (finish_samePids _ p _)
  | copyuvm p np ok => exact copyPgdir_samePids ok
  | setParent p np =>
    exact (setProc_samePids s np (x := { s.proc np with parent := some p })
      fun h => ⟨h, rfl, rfl⟩).trans (move_samePids _ p _)
  | setRunnable p np =>
    have hembryo := k.embryo p np _ hen.2
    exact (setProc_samePids s np (x := { s.proc np with state := .runnable })
      fun _ => ⟨by rw [hembryo]; nofun, rfl, rfl⟩).trans (finish_samePids _ p _)
  | exit p => exact exit_samePids (hrunning hen.1)
  | wait p => exact wait_samePids (hrunning hen.1)
  | kill p pid => exact kill_samePids s p pid
  | schedule p => exact schedule_samePids hen
  | yield p => exact setProc_samePids s p fun _ => ⟨hrunning hen, rfl, rfl⟩
  | sleep p addr => exact setProc_samePids s p fun _ => ⟨hrunning hen.1, rfl, rfl⟩
  | wakeup addr => exact wakeup1_samePids s _

theorem allocproc_numbered {s : State} (h : Numbered s) (p : Slot) : Numbered (allocproc s p) := by
  unfold allocproc
  split
  next => exact h.same (finish_samePids s p _)
  next np _ =>
    constructor
    · change s.nextpid + 1 = BitVec.ofNat 32 (s.births + 1 + 1)
      rw [h.nextpid, BitVec.ofNat_add (s.births + 1) 1]
      rfl
    · intro i hi
      change ((s.setProc np _).proc i).state ≠ .unused at hi
      change ((s.setProc np _).proc i).pid = BitVec.ofNat 32 (((s.setProc np _).proc i).birth + 1)
      by_cases hin : i = np
      · subst hin
        rw [setProc_self]
        exact h.nextpid
      · rw [setProc_of_ne s _ hin] at hi ⊢
        exact h.pid i hi

theorem step_numbered {s t : State} {e : Event} (h : Numbered s) (k : Family s)
    (hs : machine.Step s e t) : Numbered t := by
  by_cases he : ∃ p, e = .allocproc p
  · obtain ⟨p, rfl⟩ := he
    obtain ⟨-, rfl⟩ := hs
    exact allocproc_numbered h p
  · exact h.same (step_samePids k hs fun p hp => he ⟨p, hp⟩)

theorem boot_numbered : Numbered boot where
  nextpid := rfl
  pid := by
    intro i hi
    by_cases h : i = initproc
    · simp [boot, h]
    · simp [boot, h] at hi

theorem reaches_numbered {es : List Event} {s : State} (r : Reaches es s) :
    Numbered s ∧ Family s ∧ Ledger s := by
  refine r.invariant (I := fun s => Numbered s ∧ Family s ∧ Ledger s) ?_ ?_
  · rintro _ rfl
    exact ⟨boot_numbered, boot_family, boot_ledger⟩
  · intro s e t h hs
    exact ⟨step_numbered h.1 h.2.1 hs, step_family h.2.1 hs, step_ledger h.2.2 h.2.1 hs⟩

/-! The result of fork(). -/

/-- Where this step is the end of a fork(), its result is positive and the pid of no process but the
child. -/
def Usable (_ : State) (e : Event) (t : State) : Prop :=
  ∀ p np, e = .setRunnable p np → 0 < (t.ret p).toInt ∧
    ∀ i, i ≠ np → (t.proc i).state ≠ .unused → (t.proc i).pid ≠ t.ret p

/-- Where this step is the end of a fork(), the child got its slot with the sign bit of nextpid
clear, nextpid not zero, and no other process got its slot a multiple of 2^32 allocations apart. -/
def Counted (s : State) (e : Event) : Prop :=
  ∀ p np, e = .setRunnable p np →
    (0 < ((s.proc np).birth + 1) % 2 ^ 32 ∧ ((s.proc np).birth + 1) % 2 ^ 32 < 2 ^ 31) ∧
    ∀ i, i ≠ np → (s.proc i).state ≠ .unused →
      (s.proc i).birth % 2 ^ 32 ≠ (s.proc np).birth % 2 ^ 32

def UsablePids (es : List Event) : Prop :=
  ∀ fs e u v, fs ++ [e] <+: es → Reaches fs u → machine.Step u e v → Usable u e v

theorem pid_pos_iff (n : ℕ) :
    0 < (BitVec.ofNat 32 n).toInt ↔ 0 < n % 2 ^ 32 ∧ n % 2 ^ 32 < 2 ^ 31 := by
  rw [BitVec.toInt_eq_toNat_cond, BitVec.toNat_ofNat]
  split <;> omega

theorem pid_eq_iff (m n : ℕ) :
    BitVec.ofNat 32 (m + 1) = BitVec.ofNat 32 (n + 1) ↔ m % 2 ^ 32 = n % 2 ^ 32 := by
  rw [← BitVec.toNat_inj, BitVec.toNat_ofNat, BitVec.toNat_ofNat]
  omega

theorem setRunnable_ret (s : State) (p np : Slot) :
    (setRunnable s p np).ret p = (s.proc np).pid :=
  Function.update_self (f := s.ret) ..

theorem usable_iff {s t : State} {e : Event} (h : Numbered s ∧ Family s ∧ Ledger s)
    (hs : machine.Step s e t) : Usable s e t ↔ Counted s e := by
  obtain ⟨hn, k, -⟩ := h
  obtain ⟨hen, rfl⟩ := hs
  refine forall₂_congr fun p np => forall_congr' fun he => ?_
  subst he
  have hused : (s.proc np).state ≠ .unused := by
    rw [k.embryo p np _ hen.2]
    nofun
  have hret : (machine.next s (.setRunnable p np)).ret p = (s.proc np).pid :=
    setRunnable_ret s p np
  have hproc : ∀ i, i ≠ np → (machine.next s (.setRunnable p np)).proc i = s.proc i :=
    fun i hi => setProc_of_ne s _ hi
  rw [hret, hn.pid np hused]
  refine and_congr (pid_pos_iff _) (forall₂_congr fun i hi => ?_)
  rw [hproc i hi]
  refine forall_congr' fun hiu => ?_
  rw [hn.pid i hiu, ne_eq, ne_eq, pid_eq_iff]

theorem step_births {s t : State} {e : Event} (k : Family s) (hs : machine.Step s e t) :
    s.births ≤ t.births := by
  by_cases he : ∃ p, e = .allocproc p
  · obtain ⟨p, rfl⟩ := he
    obtain ⟨-, rfl⟩ := hs
    change s.births ≤ (allocproc s p).births
    unfold allocproc
    split
    · exact le_rfl
    · exact Nat.le_succ _
  · exact (step_samePids k hs fun p hp => he ⟨p, hp⟩).births.ge

/-- The pids below 2^31 suffice for that many allocations. -/
theorem counted_of_few {s t : State} {e : Event} (h : Family s ∧ Ledger s)
    (hs : machine.Step s e t) (hb : s.births < 2 ^ 31) : Counted s e := by
  rintro p np rfl
  have hused : (s.proc np).state ≠ .unused := by
    rw [h.1.embryo p np _ hs.1.2]
    nofun
  have hnp := h.2.fresh np hused
  refine ⟨by omega, ?_⟩
  intro i hi hiu hbirth
  have hlt := h.2.fresh i hiu
  refine hi (h.2.distinct i np hiu hused ?_)
  omega

theorem run_counted {es : List Event} {s : State} (r : Reaches es s) (hb : s.births < 2 ^ 31) :
    Run (Guarded machine.Step Counted) (· = boot) es s := by
  induction r with
  | nil h => exact .nil h
  | @snoc es s e t r hs ih =>
    have h := (reaches_numbered r).2
    have hlt : s.births < 2 ^ 31 := lt_of_le_of_lt (step_births h.1 hs) hb
    exact .snoc (ih hlt) ⟨counted_of_few h hs hlt, hs⟩

theorem fork_pids_usable {es : List Event} {s : State} (r : Reaches es s) :
    (UsablePids es ↔ Run (Guarded machine.Step Counted) (· = boot) es s) ∧
      (s.births < 2 ^ 31 → UsablePids es) := by
  have hsteps : UsablePids es ↔ Run (Guarded machine.Step Counted) (· = boot) es s :=
    Machine.steps_iff_guarded Usable Counted (fun _ _ hu => reaches_numbered hu)
      (fun _ _ _ h hs => usable_iff h hs) r
  exact ⟨hsteps, fun hb => hsteps.mpr (run_counted r hb)⟩

/-- init makes a child, and the child one of its own. -/
def twoForks : List Event :=
  [.schedule 0, .allocproc 0, .kalloc 0 1 true, .copyuvm 0 1 true, .setParent 0 1,
   .setRunnable 0 1, .schedule 1, .allocproc 1, .kalloc 1 2 true, .copyuvm 1 2 true,
   .setParent 1 2, .setRunnable 1 2]

theorem fork_pids_usable_two :
    UsablePids twoForks ∧ (machine.exec boot twoForks).ret 0 = 2 ∧
      (machine.exec boot twoForks).ret 1 = 3 :=
  ⟨(fork_pids_usable (Machine.Valid.run (by decide +kernel))).2 (by decide +kernel),
    by decide +kernel, by decide +kernel⟩

/-! The run in which nextpid becomes negative. -/

/-- Only init is there, and it runs. -/
structure Alone (s : State) (n : ℕ) : Prop where
  running : (s.proc 0).state = .running
  user : s.control 0 = .user
  free : ∀ i, i ≠ 0 → (s.proc i).state = .unused
  nextpid : s.nextpid = BitVec.ofNat 32 n

theorem alone_scan {s : State} {n : ℕ} (h : Alone s n) :
    scan (fun i => (s.proc i).state = .unused) = some 1 := by
  have hsplit : List.finRange NPROC = 0 :: 1 :: (List.finRange NPROC).drop 2 := by decide +kernel
  unfold scan
  rw [hsplit, List.find?_cons_of_neg, List.find?_cons_of_pos]
  · simpa using h.free 1 (by decide)
  · rw [h.running]
    decide

/-- init is in a fork() whose child has the `n`th pid. -/
structure Forking (s : State) (point : ForkPoint) (n : ℕ) : Prop where
  running : (s.proc 0).state = .running
  control : s.control 0 = .fork 1 point
  pid : (s.proc 1).pid = BitVec.ofNat 32 n

theorem alone_allocproc {s : State} {n : ℕ} (h : Alone s n) :
    Forking (allocproc s 0) .kalloc n ∧ (allocproc s 0).nextpid = BitVec.ofNat 32 (n + 1) ∧
      ∀ i, i ≠ 0 → i ≠ 1 → ((allocproc s 0).proc i).state = .unused := by
  let x : Proc := { s.proc 1 with state := .embryo, pid := s.nextpid, birth := s.births }
  have hproc : (allocproc s 0).proc = (s.setProc 1 x).proc := by
    rw [allocproc, alone_scan h]
    rfl
  have hcontrol : (allocproc s 0).control = (s.move 0 (.fork 1 .kalloc)).control := by
    rw [allocproc, alone_scan h]
    rfl
  have hnext : (allocproc s 0).nextpid = s.nextpid + 1 := by
    rw [allocproc, alone_scan h]
  refine ⟨⟨?_, ?_, ?_⟩, ?_, ?_⟩
  · rw [hproc, setProc_of_ne s x (by decide)]
    exact h.running
  · rw [hcontrol, move_self]
  · rw [hproc, setProc_self]
    exact h.nextpid
  · rw [hnext, h.nextpid, BitVec.ofNat_add n 1]
    rfl
  · intro i h0 h1
    rw [hproc, setProc_of_ne s x h1]
    exact h.free i h0

/-- A fork() that finds no page for the kernel stack. -/
def failedFork : List Event := [.allocproc 0, .kalloc 0 1 false]

theorem alone_failedFork {s : State} {n : ℕ} (h : Alone s n) :
    machine.Valid s failedFork ∧ Alone (machine.exec s failedFork) (n + 1) := by
  obtain ⟨hf, hnext, hfree⟩ := alone_allocproc h
  refine ⟨⟨⟨h.running, h.user⟩, ⟨hf.running, hf.control⟩, trivial⟩, ?_⟩
  change Alone (allocKstack (allocproc s 0) 0 1 false) (n + 1)
  generalize allocproc s 0 = t at *
  let x : Proc := { t.proc 1 with kstack := none, state := .unused }
  have hproc : (allocKstack t 0 1 false).proc = (t.setProc 1 x).proc := rfl
  constructor
  · rw [hproc, setProc_of_ne t x (by decide)]
    exact hf.running
  · exact move_self (t.setProc 1 x) 0 .user
  · intro i hi
    rw [hproc]
    by_cases h1 : i = 1
    · rw [h1, setProc_self]
    · rw [setProc_of_ne t x h1]
      exact hfree i hi h1
  · exact hnext

def failedForks : ℕ → List Event
  | 0 => []
  | m + 1 => failedForks m ++ failedFork

theorem run_failedForks {es : List Event} {s : State} {n : ℕ} (r : Reaches es s) (h : Alone s n)
    (m : ℕ) : ∃ t, Reaches (es ++ failedForks m) t ∧ Alone t (n + m) := by
  induction m with
  | zero =>
    refine ⟨s, ?_, h⟩
    rw [failedForks, List.append_nil]
    exact r
  | succ m ih =>
    obtain ⟨t, rt, ht⟩ := ih
    obtain ⟨hvalid, hnext⟩ := alone_failedFork ht
    refine ⟨_, ?_, hnext⟩
    rw [failedForks, ← List.append_assoc]
    exact Machine.Valid.extend rt hvalid

theorem Forking.step {s : State} {f g : ForkPoint} {n : ℕ} {x : Proc} (h : Forking s f n)
    (hx : x.pid = (s.proc 1).pid) : Forking ((s.setProc 1 x).move 0 (.fork 1 g)) g n where
  running := by
    change ((s.setProc 1 x).proc 0).state = .running
    rw [setProc_of_ne s _ (by decide)]
    exact h.running
  control := move_self ..
  pid := by
    change ((s.setProc 1 x).proc 1).pid = _
    rw [setProc_self, hx]
    exact h.pid

/-- The events of a fork() before its last. -/
def makeChild : List Event :=
  [.allocproc 0, .kalloc 0 1 true, .copyuvm 0 1 true, .setParent 0 1]

theorem alone_makeChild {s : State} {n : ℕ} (h : Alone s n) :
    machine.Valid s makeChild ∧ Forking (machine.exec s makeChild) .setRunnable n := by
  obtain ⟨h₁, -, -⟩ := alone_allocproc h
  have h₂ : Forking (allocKstack _ 0 1 true) .copyuvm n := h₁.step rfl
  have h₃ : Forking (copyPgdir _ 0 1 true) .setParent n := h₂.step rfl
  have h₄ : Forking (setParent _ 0 1) .setRunnable n := h₃.step rfl
  exact ⟨⟨⟨h.running, h.user⟩, ⟨h₁.running, h₁.control⟩, ⟨h₂.running, h₂.control⟩,
    ⟨h₃.running, h₃.control⟩, trivial⟩, h₄⟩

/-- Where the next pid is `n`, a fork() returns it. -/
theorem alone_fork_ret {es : List Event} {s : State} {n : ℕ} (r : Reaches es s)
    (h : Alone s n) : ∃ u v, Reaches (es ++ makeChild) u ∧ machine.Step u (.setRunnable 0 1) v ∧
      v.ret 0 = BitVec.ofNat 32 n := by
  obtain ⟨hvalid, hf⟩ := alone_makeChild h
  refine ⟨_, _, Machine.Valid.extend r hvalid, ⟨⟨hf.running, hf.control⟩, rfl⟩, ?_⟩
  exact (setRunnable_ret _ 0 1).trans hf.pid

theorem scheduled_alone : Alone (machine.exec boot [.schedule 0]) 2 where
  running := by decide +kernel
  user := rfl
  free := by decide +kernel
  nextpid := rfl

/-- After any number of fork() calls that fail, the next one returns as many pids further on. -/
theorem run_fork_ret (m : ℕ) : ∃ u v,
    Reaches ([.schedule 0] ++ failedForks m ++ makeChild) u ∧
      machine.Step u (.setRunnable 0 1) v ∧ v.ret 0 = BitVec.ofNat 32 (2 + m) := by
  have hboot : Reaches [.schedule 0] (machine.exec boot [.schedule 0]) :=
    Machine.Valid.run (by decide +kernel)
  obtain ⟨t, rt, ht⟩ := run_failedForks hboot scheduled_alone m
  exact alone_fork_ret rt ht

theorem fork_returns_negative : ∃ u v,
    Reaches ([.schedule 0] ++ failedForks (2 ^ 31 - 2) ++ makeChild) u ∧
      machine.Step u (.setRunnable 0 1) v ∧ (v.ret 0).toInt = - 2 ^ 31 ∧
      ¬ Usable u (.setRunnable 0 1) v := by
  obtain ⟨u, v, hu, hv, hret⟩ := run_fork_ret (2 ^ 31 - 2)
  have hneg : (v.ret 0).toInt = - 2 ^ 31 := by
    rw [hret]
    decide
  refine ⟨u, v, hu, hv, hneg, ?_⟩
  intro h
  have hpos := (h 0 1 rfl).1
  omega

end PidCounter
