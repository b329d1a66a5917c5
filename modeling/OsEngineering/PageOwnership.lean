import OsEngineering.BoundedLoops
import OsEngineering.KernelBoot
import OsEngineering.PipePages
import Mathlib.Algebra.Order.BigOperators.Group.Finset

/-! Every page that main() gives to kalloc() is free or has one owner, whatever processes do. -/
namespace PageOwnership

open KernelParams ByteBlock FaultState FramedTriples FiniteTally TransitionSystem PageTables
open PageFrames
open UserProcesses (Proc Slot initproc child copyProc)
open UserProcessSteps (exec_ok)
open BoundedLoops ProcessFrames KernelBoot PhysicalPages PipePages

variable {img : KernelImage} {s t : State} {held held' : Multiset Frame} {α : Type}

def procsFrames (procs : Slot → Option Proc) : Multiset Frame := ∑ p, procFrames (procs p)

/-- The pages that are not free. -/
def owned (s : State) : Multiset Frame :=
  procsFrames s.procs + (pipeFrames s.kernel + (s.cpuStacks + frames s.kpgdir))

/-- `held` are the pages of the running system call. -/
structure Sound (img : KernelImage) (held : Multiset Frame) (s : State) : Prop where
  books : (s.kmem.freelist : Multiset Frame) + (held + owned s) = givenPages img
  sizes : ∀ p proc, s.procs p = some proc → proc.sz ≤ KERNBASE
  files : FilesOk s.kernel

def stateOf : Option Proc → FileTable.ProcState
  | none => .unused
  | some proc => if proc.zombie = true then .zombie else .live

/-- proc.c and file.c see the same processes. -/
def Matched (s : State) : Prop := ∀ p, states s.kernel p = stateOf (s.procs p)

/-! Pieces of system calls. -/

/-- Code of vm.c takes or gives back what its triple says. -/
theorem Sound.vm {c : VM α} {b : α → Multiset Frame} {r : α} {m : Kmem} (i : Sound img held s)
    (hc : Spec ⟨givenPages img, False⟩ held c b) (hrun : c s.kmem = .ok (r, m)) :
    Sound img (b r) { s with kmem := m } :=
  ⟨(hc (owned s) s.kmem r m ⟨i.books, False.elim⟩ hrun).total, i.sizes, i.files⟩

theorem put_self (s : State) (p : Slot) (x : Option Proc) : (s.put p x).procs p = x :=
  Function.update_self ..

theorem put_of_ne (s : State) {p q : Slot} (x : Option Proc) (h : q ≠ p) :
    (s.put p x).procs q = s.procs q := Function.update_of_ne h ..

/-- The entry of a process changes along with what the system call holds. -/
theorem Sound.put (i : Sound img held s) {p : Slot} {x : Option Proc}
    (hx : held' + procFrames x = held + procFrames (s.procs p))
    (hsz : ∀ proc, x = some proc → proc.sz ≤ KERNBASE) : Sound img held' (s.put p x) := by
  refine ⟨?_, ?_, i.files⟩
  · have hsum := sum_change (S := Finset.univ) (f := fun q => procFrames (s.procs q))
      (g := fun q => procFrames (Function.update s.procs p x q)) (Finset.mem_univ p) (by
        intro q _ hq
        rw [Function.update_of_ne hq])
    rw [Function.update_self] at hsum
    have hprocs : held' + procsFrames (s.put p x).procs = held + procsFrames s.procs := by
      apply add_right_cancel (b := procFrames (s.procs p))
      calc
        _ = held' + (procsFrames s.procs + procFrames x) := by
          rw [add_assoc]
          exact congrArg (held' + ·) hsum
        _ = held' + procFrames x + procsFrames s.procs := by abel
        _ = held + procsFrames s.procs + procFrames (s.procs p) := by
          rw [hx]
          abel
    rw [← i.books, owned, owned, ← add_assoc held, ← hprocs, add_assoc held']
    rfl
  · intro q proc hq
    by_cases hqp : q = p
    · subst hqp
      rw [put_self] at hq
      exact hsz proc hq
    · rw [put_of_ne s x hqp] at hq
      exact i.sizes q proc hq

theorem givenPages_nodup (img : KernelImage) : (givenPages img).Nodup := Finset.nodup _

theorem Sound.nodup (i : Sound img held s) :
    ((s.kmem.freelist : Multiset Frame) + pipeFrames s.kernel).Nodup := by
  have htotal : (s.kmem.freelist : Multiset Frame) + pipeFrames s.kernel +
      (held + (procsFrames s.procs + (s.cpuStacks + frames s.kpgdir))) = givenPages img := by
    rw [← i.books, owned]
    abel
  exact Multiset.nodup_of_le (Multiset.le_add_right _ _) (htotal ▸ givenPages_nodup img)

/-- What code on open files leaves behind. -/
def after (s : State) (k : FileTable.Kernel) : State :=
  { s with kmem := { s.kmem with freelist := freeFrames k }, kernel := k }

theorem Sound.files_run {c : FileTable.FileCode ℤ} (i : Sound img held s)
    (hwp : ∀ pool, FileReferences.Sound pool [] s.view →
      wp c (fun _ k => FileReferences.Sound pool [] k ∧ k.others = s.kernel.others)
        FileCalls.Impossible s.view) :
    ∃ r k, c s.view = .ok (r, k) ∧ (∀ f, s.files c f = f (after s k)) ∧
      Sound img held (after s k) := by
  obtain ⟨r, k, hrun, hfiles, hpages⟩ := files_books i.files i.nodup hwp
  refine ⟨r, k, hrun, fun f => ?_, ?_, i.sizes, hfiles⟩
  · simp only [State.files]
    rw [show c s.view = .ok (r, k) from hrun]
    rfl
  · have htotal := i.books
    simp only [owned, after] at htotal ⊢
    rw [← htotal]
    calc
      _ = (freeFrames k : Multiset Frame) + pipeFrames k +
          (held + (procsFrames s.procs + (s.cpuStacks + frames s.kpgdir))) := by abel
      _ = _ := by
        rw [hpages]
        abel

theorem vm_run {c : VM α} {k : State → α → State} (h : (s.vm c k).halted = none) :
    ∃ r m, c s.kmem = .ok (r, m) ∧ s.vm c k = k { s with kmem := m } r := by
  simp only [State.vm] at h ⊢
  cases hc : c s.kmem with
  | error f =>
    rw [hc] at h
    cases h
  | ok x => exact ⟨x.1, x.2, rfl, rfl⟩

/-! System calls. -/

theorem running {p : Slot} {cur : Proc} (hm : Matched s) (hcur : s.procs p = some cur)
    (hz : cur.zombie = false) : FileCalls.Running s.view p := by
  have hstate : (s.view.procs p).state = .live := by
    have h := hm p
    rw [hcur, stateOf, hz] at h
    exact h
  rw [FileCalls.Running, hstate]
  exact ⟨by rintro ⟨⟩, by rintro ⟨⟩⟩

theorem unused_slot {np : Slot} (hm : Matched s) (h : FileTable.allocproc s.kernel = some np) :
    s.procs np = none := by
  have hfind := List.find?_some h
  rw [decide_eq_true_eq] at hfind
  have hstate := hm np
  rw [states, hfind] at hstate
  cases hp : s.procs np with
  | none => rfl
  | some proc =>
    rw [hp, stateOf] at hstate
    split at hstate <;> cases hstate

theorem Matched.put {p : Slot} {x : Option Proc} (hm : Matched s) {k : FileTable.Kernel}
    (hk : states k = Function.update (states s.kernel) p (stateOf x)) (q : Slot) :
    states k q = stateOf ((s.put p x).procs q) := by
  rw [hk]
  by_cases hq : q = p
  · subst hq
    rw [Function.update_self, put_self]
  · rw [Function.update_of_ne hq, put_of_ne s x hq]
    exact hm q

/-- What is owned where the processes, the files and the pages of main() are the same. -/
theorem owned_congr (hp : t.procs = s.procs) (hf : t.kernel.files = s.kernel.files)
    (hc : t.cpuStacks = s.cpuStacks) (hk : t.kpgdir = s.kpgdir) : owned t = owned s := by
  simp only [owned, pipeFrames_congr hf, hp, hc, hk]

theorem fork_sound {p : Slot} {cur : Proc} (i : Sound img 0 s) (hm : Matched s)
    (hcur : s.procs p = some cur) (ht : (fork img s p cur).halted = none) :
    Sound img 0 (fork img s p cur) ∧ Matched (fork img s p cur) ∧
      ((fork img s p cur).procs = s.procs → owned (fork img s p cur) = owned s) := by
  simp only [fork] at ht ⊢
  cases ha : FileTable.allocproc s.kernel with
  | none => exact ⟨i, hm, fun _ => rfl⟩
  | some np =>
    rw [ha] at ht
    obtain ⟨r, m, hrun, heq⟩ := vm_run ht
    have j := i.vm (copyProc_spec (i.sizes p cur hcur)) hrun
    dsimp only
    rw [heq]
    cases r with
    | none =>
      obtain ⟨r, k, hf, hfiles, hk⟩ := j.files_run fun pool hpool => FileCalls.fork_wp (p := p)
        hpool false
      have hstates := fork_states (s := ({ s with kmem := m } : State).view) ha hf
      have hsame := fork_files (s := ({ s with kmem := m } : State).view) ha hf
      dsimp only
      rw [hfiles]
      exact ⟨hk, fun q => (congrFun hstates q).trans (hm q),
        fun _ => owned_congr rfl hsame rfl rfl⟩
    | some child =>
      obtain ⟨kstack, d⟩ := child
      obtain ⟨r, k, hf, hfiles, hk⟩ := j.files_run fun pool hpool => FileCalls.fork_wp (p := p)
        hpool true
      have hstates := fork_states (s := ({ s with kmem := m } : State).view) ha hf
      have hnone : s.procs np = none := unused_slot hm ha
      dsimp only
      rw [hfiles]
      refine ⟨hk.put ?_ ?_, fun q => Matched.put hm hstates q, fun hsame => ?_⟩
      · change 0 + ({kstack} + frames d) = childFrames (some (kstack, d)) +
          procFrames (s.procs np)
        rw [hnone, zero_add]
        exact (add_zero _).symm
      · intro proc hproc
        cases hproc
        exact i.sizes p cur hcur
      · have hnew := congrFun hsame np
        rw [put_self, hnone] at hnew
        cases hnew

theorem exec_sound {p : Slot} {cur : Proc} {file : Option Reader} {argv : List (List Byte)}
    (i : Sound img 0 s) (hm : Matched s) (hcur : s.procs p = some cur)
    (ht : (sysExec img s p cur file argv).halted = none) :
    Sound img 0 (sysExec img s p cur file argv) ∧ Matched (sysExec img s p cur file argv) ∧
      ((sysExec img s p cur file argv).procs = s.procs →
        owned (sysExec img s p cur file argv) = owned s) := by
  simp only [sysExec] at ht ⊢
  obtain ⟨r, m, hrun, heq⟩ := vm_run ht
  have j := i.vm (exec_spec file argv) hrun
  rw [heq] at ht ⊢
  cases r with
  | none => exact ⟨j, hm, fun hp => owned_congr hp rfl rfl rfl⟩
  | some im =>
    obtain ⟨_, m', hfree, heq'⟩ := vm_run ht
    have hbuilt := exec_ok hrun
    have hput : Sound img (frames cur.pgdir) (({ s with kmem := m } : State).put p
        (some { cur with pgdir := im.pgdir, sz := im.sz, built := im.sz })) := by
      apply j.put
      · change frames cur.pgdir + ({cur.kstack} + frames im.pgdir) =
          frames im.pgdir + procFrames (s.procs p)
        rw [hcur]
        simp only [procFrames]
        abel
      · intro proc hproc
        cases hproc
        have hlow := hbuilt.low
        rw [BitVec.le_def]
        simp only [PageTableMappings.up] at hlow
        dsimp only
        omega
    dsimp only
    rw [heq']
    refine ⟨hput.vm (b := fun _ => 0) (freevm_spec cur.pgdir) hfree, ?_,
      fun hp => owned_congr hp rfl rfl rfl⟩
    intro q
    change states s.kernel q = stateOf ((s.put p _).procs q)
    apply Matched.put hm
    have hp := hm p
    rw [hcur] at hp
    exact (Function.update_eq_self_iff.mpr hp.symm).symm

/-- What growproc() does to a process. -/
theorem resized {p : Slot} {cur : Proc} {c : VM (PageDir × Word)} (i : Sound img 0 s)
    (hm : Matched s) (hcur : s.procs p = some cur)
    (hc : Spec ⟨givenPages img, False⟩ (frames cur.pgdir) c fun r => frames r.1)
    (hsz : ∀ r m, c s.kmem = .ok (r, m) → r.2 ≤ KERNBASE)
    (ht : (s.vm c fun s r => s.put p (some (resize cur r))).halted = none) :
    Sound img 0 (s.vm c fun s r => s.put p (some (resize cur r))) ∧
      Matched (s.vm c fun s r => s.put p (some (resize cur r))) := by
  obtain ⟨r, m, hrun, heq⟩ := vm_run ht
  rw [heq]
  -- the page directory is in hand while the code runs
  have hlent : Sound img (frames cur.pgdir + {cur.kstack}) (s.put p none) := by
    apply i.put
    · rw [hcur]
      simp only [procFrames]
      abel
    · rintro proc ⟨⟩
  have hback := hlent.vm (triple_frame hc {cur.kstack}) hrun
  have hsame : ({ s with kmem := m } : State).put p (some (resize cur r)) =
      ({ s.put p none with kmem := m } : State).put p (some (resize cur r)) := by
    simp only [State.put, Function.update_idem]
  have hpgdir : (resize cur r).pgdir = r.1 ∧ (resize cur r).kstack = cur.kstack ∧
      (resize cur r).zombie = cur.zombie := by
    simp only [resize]
    split <;> exact ⟨rfl, rfl, rfl⟩
  refine ⟨?_, ?_⟩
  · rw [hsame]
    apply hback.put
    · rw [put_self]
      simp only [procFrames, hpgdir]
      abel
    · intro proc hproc
      cases hproc
      simp only [resize]
      split
      · exact i.sizes p cur hcur
      · exact hsz r m hrun
  · intro q
    apply Matched.put hm
    have hp := hm p
    rw [hcur] at hp
    have hx : stateOf (some (resize cur r)) = stateOf (some cur) := by
      simp only [stateOf, hpgdir]
    rw [hx]
    exact (Function.update_eq_self_iff.mpr hp.symm).symm

theorem allocFrom_size {oldsz newsz r a : Word} {k : ℕ} {d d' : PageDir} {m m' : Kmem}
    (h : allocFrom img oldsz newsz k d a m = .ok ((d', r), m')) : r = 0 ∨ r = newsz := by
  induction k generalizing d a m with
  | zero =>
    simp only [allocFrom] at h
    split at h
    · cases h
    · cases h
      exact Or.inr rfl
  | succ k ih =>
    simp only [allocFrom] at h
    split at h
    · obtain ⟨f, u, -, hrest⟩ := bind_ok h
      cases f with
      | none =>
        obtain ⟨_, v, -, hrest⟩ := bind_ok hrest
        cases hrest
        exact Or.inl rfl
      | some mem =>
        obtain ⟨_, v, -, hrest⟩ := bind_ok hrest
        obtain ⟨⟨e, ok⟩, w, -, hrest⟩ := bind_ok hrest
        cases ok with
        | true => exact ih hrest
        | false =>
          obtain ⟨_, w', -, hrest⟩ := bind_ok hrest
          obtain ⟨_, w'', -, hrest⟩ := bind_ok hrest
          cases hrest
          exact Or.inl rfl
    · cases h
      exact Or.inr rfl

theorem allocuvm_size {d : PageDir} {oldsz newsz : Word} {r : PageDir × Word} {m m' : Kmem}
    (h : allocuvm img d oldsz newsz m = .ok (r, m')) (hold : oldsz ≤ KERNBASE) :
    r.2 ≤ KERNBASE := by
  have hzero : (0 : Word) ≤ KERNBASE := by decide
  simp only [allocuvm] at h
  split at h
  · cases h
    exact hzero
  · next hnew =>
    split at h
    · cases h
      exact hold
    · obtain ⟨d', n⟩ := r
      rcases allocFrom_size h with rfl | rfl
      · exact hzero
      · exact BitVec.le_of_lt (BitVec.not_le.mp hnew)

theorem deallocuvm_size {d : PageDir} {oldsz newsz : Word} {r : PageDir × Word} {m m' : Kmem}
    (h : deallocuvm img d oldsz newsz m = .ok (r, m')) (hold : oldsz ≤ KERNBASE) :
    r.2 ≤ KERNBASE := by
  simp only [deallocuvm] at h
  split at h
  · cases h
    exact hold
  · next hnew =>
    obtain ⟨_, u, -, hrest⟩ := bind_ok h
    cases hrest
    exact BitVec.le_trans (BitVec.le_of_lt (BitVec.not_le.mp hnew)) hold

theorem growproc_sound {p : Slot} {cur : Proc} {n : Word} (i : Sound img 0 s) (hm : Matched s)
    (hcur : s.procs p = some cur) (ht : (growproc img s p cur n).halted = none) :
    Sound img 0 (growproc img s p cur n) ∧ Matched (growproc img s p cur n) := by
  have hold := i.sizes p cur hcur
  simp only [growproc] at ht ⊢
  by_cases hpos : 0 < n.toInt
  · rw [if_pos hpos] at ht ⊢
    exact resized i hm hcur (allocuvm_spec _ _ _) (fun r m h => allocuvm_size h hold) ht
  · rw [if_neg hpos] at ht ⊢
    by_cases hneg : n.toInt < 0
    · rw [if_pos hneg] at ht ⊢
      exact resized i hm hcur (deallocuvm_spec hold _) (fun r m h => deallocuvm_size h hold) ht
    · rw [if_neg hneg]
      exact ⟨i, hm⟩

theorem procFrames_adopt (p : Slot) (x : Option Proc) :
    procFrames (x.map (adopt p)) = procFrames x ∧ stateOf (x.map (adopt p)) = stateOf x := by
  cases x with
  | none => exact ⟨rfl, rfl⟩
  | some proc =>
    simp only [Option.map_some, adopt]
    split <;> exact ⟨rfl, rfl⟩

theorem procsFrames_adopt (p : Slot) (procs : Slot → Option Proc) :
    procsFrames (fun q => (procs q).map (adopt p)) = procsFrames procs :=
  Finset.sum_congr rfl fun q _ => (procFrames_adopt p (procs q)).1

theorem exit_sound {p : Slot} {cur : Proc} (i : Sound img 0 s) (hm : Matched s)
    (hcur : s.procs p = some cur) (ht : (exit s p cur).halted = none) :
    Sound img 0 (exit s p cur) ∧ Matched (exit s p cur) := by
  simp only [PhysicalPages.exit] at ht ⊢
  split at ht
  · cases ht
  · next hp =>
    obtain ⟨r, k, hrun, hfiles, hk⟩ := i.files_run fun pool hpool =>
      FileCalls.exit_wp (p := p) hpool
    have hstates := exit_states hrun
    rw [if_neg hp, hfiles]
    have hput : Sound img 0 ((after s k).put p (some { cur with zombie := true })) := by
      apply hk.put
      · change _ = 0 + procFrames (s.procs p)
        rw [hcur]
        rfl
      · intro proc hproc
        cases hproc
        exact i.sizes p cur hcur
    have hmatch : Matched ((after s k).put p (some { cur with zombie := true })) := fun q =>
      Matched.put hm hstates q
    refine ⟨⟨?_, ?_, hput.files⟩, ?_⟩
    · rw [← hput.books, owned, procsFrames_adopt]
      rfl
    · intro q proc hq
      obtain ⟨old, hold, rfl⟩ := Option.map_eq_some_iff.mp hq
      have hsz := hput.sizes q old hold
      simp only [adopt]
      split <;> exact hsz
    · intro q
      exact (hmatch q).trans (procFrames_adopt p _).2.symm

theorem child_zombie {x : UserProcesses.State} {p q : Slot} {proc : Proc}
    (h : child x p = some q) (hq : x.procs q = some proc) : proc.zombie = true := by
  have hfind := List.find?_some h
  rw [hq, Option.any_some, decide_eq_true_eq] at hfind
  exact hfind.2

theorem reap_spec (proc : Proc) : Spec ⟨givenPages img, False⟩ (procFrames (some proc)) (do
    kfree img proc.kstack
    freevm img proc.pgdir) fun _ => 0 :=
  triple_give rfl (kfree_spec proc.kstack) fun _ => freevm_spec proc.pgdir

theorem wait_sound {p : Slot} (i : Sound img 0 s) (hm : Matched s)
    (ht : (wait img s p).halted = none) :
    Sound img 0 (wait img s p) ∧ Matched (wait img s p) ∧
      ∀ q, (wait img s p).procs q ≠ s.procs q →
        ((wait img s p).kmem.freelist : Multiset Frame) =
          s.kmem.freelist + procFrames (s.procs q) := by
  simp only [wait] at ht ⊢
  cases hc : child ⟨s.kmem, s.procs, s.halted⟩ p with
  | none => exact ⟨i, hm, fun q hq => absurd rfl hq⟩
  | some q =>
    rw [hc] at ht
    dsimp only at ht ⊢
    cases hq : s.procs q with
    | none => exact ⟨i, hm, fun r hr => absurd rfl hr⟩
    | some proc =>
      rw [hq] at ht
      obtain ⟨_, m, hrun, heq⟩ := vm_run ht
      dsimp only
      rw [heq]
      have hstate : (s.kernel.procs q).state = .zombie := by
        have h := hm q
        rw [hq, stateOf, child_zombie hc hq] at h
        exact h
      -- the pages of the child are in hand while they are given back
      have hlent : Sound img (procFrames (some proc)) (s.put q none) := by
        apply i.put
        · rw [hq, add_comm]
          rfl
        · rintro proc ⟨⟩
      have hback := hlent.vm (b := fun _ => 0) (reap_spec proc) hrun
      refine ⟨⟨hback.books, hback.sizes, ?_⟩, fun r =>
        Matched.put (x := none) hm (states_setState _ q _) r, fun r hr => ?_⟩
      · have hclosed := i.files.counted.closed q (Or.inr hstate)
        exact ⟨i.files.counted.setState fun _ => hclosed, i.files.one, i.files.flags,
          i.files.small, i.files.others⟩
      · have hrq : r = q := by
          by_contra hne
          exact hr (put_of_ne s none hne)
        have htotal : (m.freelist : Multiset Frame) + owned (s.put q none) =
            s.kmem.freelist + procFrames (some proc) + owned (s.put q none) := by
          have hall := hback.books.trans hlent.books.symm
          rw [zero_add, ← add_assoc] at hall
          exact hall
        rw [hrq, hq]
        exact add_right_cancel htotal

/-- The other calls on open files. -/
theorem call_sound {c : FileTable.FileCode ℤ} (i : Sound img held s) (hm : Matched s)
    (hwp : ∀ pool, FileReferences.Sound pool [] s.view →
      wp c (fun _ k => FileReferences.Sound pool [] k ∧ k.others = s.kernel.others)
        FileCalls.Impossible s.view)
    (hkeeps : Keeps states c) :
    ∃ k, (∀ f, s.files c f = f (after s k)) ∧ Sound img held (after s k) ∧
      Matched (after s k) := by
  obtain ⟨r, k, hrun, hfiles, hk⟩ := i.files_run hwp
  have hstates := hkeeps s.view r k hrun
  exact ⟨k, hfiles, hk, fun q => (congrFun hstates q).trans (hm q)⟩

theorem sysPipe_sound {p : Slot} {cur : Proc} (arg : Bool) (i : Sound img 0 s) (hm : Matched s)
    (hcur : s.procs p = some cur) (hz : cur.zombie = false) :
    Sound img 0 (sysPipe s p arg) ∧ Matched (sysPipe s p arg) := by
  have hp := running hm hcur hz
  have hcall : ∀ pool (k : FileTable.Kernel), FileCalls.Running k p →
      FileReferences.Sound pool [] k →
      wp (FileTable.sysPipe p arg) (fun _ t => FileReferences.Sound pool [] t ∧
        t.others = k.others) FileCalls.Impossible k := fun pool k hk hpool =>
    wp_mono (FileCalls.sysPipe_wp hpool hk arg) fun _ _ h => ⟨h.1, h.2.1⟩
  simp only [sysPipe]
  split
  · -- the free pages are out of reach during the call
    have hlent : Sound img s.kmem.freelist { s with kmem :=
        { s.kmem with refuse := s.kmem.refuse.tail, freelist := [] } } := by
      refine ⟨?_, i.sizes, i.files⟩
      have htotal := i.books
      rw [zero_add] at htotal
      rw [← htotal]
      exact zero_add _
    obtain ⟨k, hfiles, hk, hmk⟩ := call_sound hlent hm (fun pool hpool => hcall pool _ hp hpool)
      (keeps_sysPipe p arg)
    rw [hfiles]
    refine ⟨⟨?_, hk.sizes, hk.files⟩, hmk⟩
    have htotal := hk.books
    rw [← add_assoc] at htotal
    rw [zero_add]
    exact htotal
  · have hsame : Sound img 0 { s with kmem := { s.kmem with refuse := s.kmem.refuse.tail } } :=
      ⟨i.books, i.sizes, i.files⟩
    obtain ⟨k, hfiles, hk, hmk⟩ := call_sound hsame hm (fun pool hpool => hcall pool _ hp hpool)
      (keeps_sysPipe p arg)
    rw [hfiles]
    exact ⟨hk, hmk⟩

theorem step_sound {e : Event} (i : Sound img 0 s) (hm : Matched s)
    (hstep : (machine img).Step s e t) (ht : t.halted = none) : Sound img 0 t ∧ Matched t := by
  obtain ⟨⟨-, cur, hcur, hz⟩, rfl⟩ := hstep
  simp only [machine, next, hcur] at ht ⊢
  cases e with
  | fork p =>
    obtain ⟨hi, hmatch, -⟩ := fork_sound i hm hcur ht
    exact ⟨hi, hmatch⟩
  | exec p file argv =>
    obtain ⟨hi, hmatch, -⟩ := exec_sound i hm hcur ht
    exact ⟨hi, hmatch⟩
  | growproc p n => exact growproc_sound i hm hcur ht
  | exit p => exact exit_sound i hm hcur ht
  | wait p =>
    obtain ⟨hi, hmatch, -⟩ := wait_sound i hm ht
    exact ⟨hi, hmatch⟩
  | pipe p arg => exact sysPipe_sound arg i hm hcur hz
  | «open» p ip readable writable =>
    change s.procs p = some cur at hcur
    obtain ⟨k, hfiles, hk, hmk⟩ := call_sound i hm (fun pool hpool =>
      FileCalls.sysOpen_wp hpool (running hm hcur hz) ip readable writable)
      (keeps_sysOpen p ip readable writable)
    dsimp only
    rw [hfiles]
    exact ⟨hk, hmk⟩
  | dup p fd =>
    change s.procs p = some cur at hcur
    obtain ⟨k, hfiles, hk, hmk⟩ := call_sound i hm (fun pool hpool =>
      FileCalls.sysDup_wp hpool (running hm hcur hz) fd) (keeps_sysDup p fd)
    dsimp only
    rw [hfiles]
    exact ⟨hk, hmk⟩
  | close p fd =>
    change s.procs p = some cur at hcur
    obtain ⟨k, hfiles, hk, hmk⟩ := call_sound i hm (fun pool hpool =>
      FileCalls.sysClose_wp hpool fd) (keeps_sysClose p fd)
    dsimp only
    rw [hfiles]
    exact ⟨hk, hmk⟩

/-! No call gets stuck in a loop. -/

theorem vm_ends {c : VM α} {k : State → α → State} (hc : Ends c)
    (hk : ∀ r m, c s.kmem = .ok (r, m) → (k { s with kmem := m } r).halted ≠ some .loop) :
    (s.vm c k).halted ≠ some .loop := by
  simp only [State.vm]
  cases hrun : c s.kmem with
  | error f =>
    intro h
    exact hc s.kmem f hrun (Option.some.inj h)
  | ok x => exact hk x.1 x.2 hrun

theorem files_ends {c : FileTable.FileCode ℤ} {k : State → State} (hs : s.halted ≠ some .loop)
    (hk : ∀ t, (k t).halted = t.halted) : (s.files c k).halted ≠ some .loop := by
  simp only [State.files]
  cases c s.view with
  | error msg => exact fun h => nomatch Option.some.inj h
  | ok x =>
    dsimp only
    rw [hk]
    exact hs

theorem step_ends {e : Event} (i : Sound img 0 s) (hstep : (machine img).Step s e t) :
    t.halted ≠ some .loop := by
  obtain ⟨⟨hrun, cur, hcur, -⟩, rfl⟩ := hstep
  have hnone : s.halted ≠ some .loop := by
    rw [hrun]
    nofun
  have hold := i.sizes _ cur hcur
  simp only [machine, next, hcur]
  cases e with
  | fork p =>
    simp only [fork]
    split
    · exact hnone
    · apply vm_ends (ends_copyProc hold)
      intro r m _
      cases r with
      | none => exact files_ends hnone fun _ => rfl
      | some child => exact files_ends hnone fun _ => rfl
  | exec p file argv =>
    simp only [sysExec]
    apply vm_ends (ends_exec file argv)
    intro r m _
    cases r with
    | none => exact hnone
    | some im => exact vm_ends (ends_freevm cur.pgdir) fun _ _ _ => hnone
  | growproc p n =>
    simp only [growproc]
    split
    · exact vm_ends (ends_allocuvm _ _ _) fun _ _ _ => hnone
    · split
      · exact vm_ends (ends_deallocuvm _ hold _) fun _ _ _ => hnone
      · exact hnone
  | exit p =>
    simp only [PhysicalPages.exit]
    split
    · exact fun h => nomatch Option.some.inj h
    · exact files_ends hnone fun _ => rfl
  | wait p =>
    simp only [wait]
    split
    · exact hnone
    · split
      · exact hnone
      · next proc _ =>
        have hends : Ends (do
            kfree img proc.kstack
            freevm img proc.pgdir) := faults_bind (ends_kfree _) fun _ => ends_freevm _
        exact vm_ends hends fun _ _ _ => hnone
  | pipe p arg =>
    simp only [sysPipe]
    split
    · exact files_ends hnone fun _ => rfl
    · exact files_ends hnone fun _ => rfl
  | «open» p ip readable writable => exact files_ends hnone fun _ => rfl
  | dup p fd => exact files_ends hnone fun _ => rfl
  | close p fd => exact files_ends hnone fun _ => rfl

/-! Whole runs. -/

theorem booted_sound {ncpu : ℕ} (h : Booted img ncpu s) : Sound img 0 s ∧ Matched s := by
  obtain ⟨initcode, kmem, m, proc, pipes, hlist, hcalm, hmain, hfree, -, hprocs, hkernel, -⟩ := h
  obtain ⟨htotal, hsz, hz⟩ := main_books hlist hcalm hmain
  have hnofile : ∀ f, s.kernel.files f = ⟨0, .none⟩ := by
    rw [hkernel]
    exact fun _ => rfl
  have hnofd : ∀ p fd, (s.kernel.procs p).ofile fd = none := by
    rw [hkernel]
    exact fun _ _ => rfl
  have hnoend : ∀ q w f, ¬ FileReferences.End s.kernel q w f := by
    rintro q w f ⟨r, hr⟩
    rw [hnofile f] at hr
    cases hr
  have hother : ∀ p, p ≠ initproc → s.procs p = none := by
    intro p hp
    rw [hprocs, Function.update_of_ne hp]
  have hinit : s.procs initproc = some proc := by
    rw [hprocs, Function.update_self]
  refine ⟨⟨?_, ?_, ?_⟩, ?_⟩
  · have hpipes : pipeFrames s.kernel = 0 := by
      apply Multiset.eq_zero_of_forall_notMem
      intro f hf
      obtain ⟨w, g, hg⟩ := mem_pipeFrames.mp hf
      exact hnoend _ w g hg
    have hsum : procsFrames s.procs = procFrames (some proc) := by
      rw [← hinit]
      apply Finset.sum_eq_single initproc
      · intro p _ hp
        rw [hother p hp]
        rfl
      · exact fun h => absurd (Finset.mem_univ _) h
    rw [owned, hpipes, hsum, zero_add, zero_add, hfree]
    exact htotal
  · intro p cur hcur
    by_cases hp : p = initproc
    · rw [hp, hinit] at hcur
      cases hcur
      rw [hsz]
      decide
    · rw [hother p hp] at hcur
      cases hcur
  · constructor
    · refine ⟨fun f => ?_, fun f _ => by rw [hnofile f], fun p _ fd => hnofd p fd⟩
      have hzero : tally (FileReferences.slots s.kernel) f = 0 :=
        by_contra fun hne => (exists_of_tally hne).elim fun x hx =>
          nomatch (hnofd x.1 x.2).symm.trans hx
      rw [hnofile f, hzero]
      rfl
    · exact fun q w f g hf => absurd hf (hnoend q w f)
    · rintro q ⟨w, f, hf⟩
      exact absurd hf (hnoend q w f)
    · rintro q ⟨w, f, hf⟩
      exact absurd hf (hnoend q w f)
    · rw [hkernel]
  · intro p
    by_cases hp : p = initproc
    · rw [hp, hinit, stateOf, hz, hkernel]
      rfl
    · rw [hother p hp, states, hkernel]
      exact if_neg hp

theorem run_sound {ncpu : ℕ} {es : List Event}
    (r : Run (machine img).Step (Booted img ncpu) es s) (hs : s.halted = none) :
    Sound img 0 s ∧ Matched s := by
  induction r with
  | nil h => exact booted_sound h
  | snoc _ hstep ih =>
    obtain ⟨i, hm⟩ := ih hstep.1.1
    exact step_sound i hm hstep hs

/-- The user address space of `d` has the page `f`. -/
def Maps (d : PageDir) (f : Frame) : Prop :=
  ∃ va, va < KERNBASE ∧ d.present va ∧ frameAt (PTE_ADDR (d.pte va)) = f

theorem count_frames {d : PageDir} {f : Frame} (h : Maps d f) : 0 < (frames d).count f := by
  obtain ⟨va, hva, hpresent, hf⟩ := h
  have hentry : 0 < (entryFrames (PDX va) (d.pde (PDX va))).count f := by
    simp only [PageDir.present, PageDir.pte] at hpresent hf
    cases ht : d.pde (PDX va) with
    | none =>
      rw [ht] at hpresent
      exact (hpresent BitVec.zero_and).elim
    | some tab =>
      rw [ht] at hpresent hf
      have hpage : (mapped (tab.pte (PTX va))).count f = 1 := by
        rw [mapped_present hpresent, hf, Multiset.count_singleton_self]
      have hle := Finset.single_le_sum (f := fun j => (mapped (tab.pte j)).count f)
        (fun _ _ => Nat.zero_le _) (Finset.mem_univ (PTX va))
      rw [entryFrames, if_pos ((user_iff va).mpr hva), Multiset.count_add, Multiset.count_sum']
      omega
  have hle := Finset.single_le_sum (f := fun i => (entryFrames i (d.pde i)).count f)
    (fun _ _ => Nat.zero_le _) (Finset.mem_univ (PDX va))
  rw [frames, Multiset.count_add, Multiset.count_sum']
  omega

/-- Every page of main() is in the free list once, or has one of these owners: the kernel page
directory, another CPU's scheduler, a process or an open pipe. -/
structure Conserved (img : KernelImage) (s : State) : Prop where
  once : ∀ f, s.kmem.freelist.count f + (frames s.kpgdir).count f + s.cpuStacks.count f +
    ∑ p, (procFrames (s.procs p)).count f + (pipeFrames s.kernel).count f =
      if Given img f then 1 else 0
  unshared : ∀ p q cur other f, s.procs p = some cur → s.procs q = some other →
    Maps cur.pgdir f → Maps other.pgdir f → p = q

theorem Sound.conserved (i : Sound img 0 s) : Conserved img s := by
  have honce : ∀ f, s.kmem.freelist.count f + (frames s.kpgdir).count f + s.cpuStacks.count f +
      ∑ p, (procFrames (s.procs p)).count f + (pipeFrames s.kernel).count f =
        if Given img f then 1 else 0 := by
    intro f
    have htotal := congrArg (Multiset.count f) i.books
    rw [givenPages, count_filter, owned, procsFrames] at htotal
    simp only [Multiset.count_add, Multiset.count_zero, Multiset.coe_count,
      Multiset.count_sum'] at htotal
    omega
  refine ⟨honce, ?_⟩
  intro p q cur other f hp hq hf hg
  by_contra hpq
  have hin : ∀ {r proc}, s.procs r = some proc → Maps proc.pgdir f →
      1 ≤ (procFrames (s.procs r)).count f := by
    intro r proc hr hmap
    have hpos := count_frames hmap
    rw [hr, procFrames, Multiset.count_add]
    omega
  have htwo := Finset.sum_le_sum_of_subset (f := fun r => (procFrames (s.procs r)).count f)
    (Finset.subset_univ {p, q})
  rw [Finset.sum_pair hpq] at htwo
  have h1 := hin hp hf
  have h2 := hin hq hg
  have h3 := honce f
  split at h3 <;> omega

/-- What a call gives back: fork() and exec() that fail everything they took, and wait() the
pages of the child. -/
structure Returned (s : State) (e : Event) (t : State) : Prop where
  failed : ∀ p, e = .fork p ∨ (∃ file argv, e = .exec p file argv) → t.procs = s.procs →
    t.kmem.freelist.Perm s.kmem.freelist
  reaped : ∀ p q, e = .wait p → t.procs q ≠ s.procs q →
    (t.kmem.freelist : Multiset Frame) = s.kmem.freelist + procFrames (s.procs q)

theorem freelist_perm (i : Sound img 0 s) (j : Sound img 0 t) (h : owned t = owned s) :
    t.kmem.freelist.Perm s.kmem.freelist := by
  have htotal := j.books.trans i.books.symm
  rw [h] at htotal
  exact Multiset.coe_eq_coe.mp (add_right_cancel htotal)

theorem step_returned {e : Event} (i : Sound img 0 s) (hm : Matched s)
    (hstep : (machine img).Step s e t) (ht : t.halted = none) : Returned s e t := by
  have j := (step_sound i hm hstep ht).1
  obtain ⟨⟨-, cur, hcur, -⟩, rfl⟩ := hstep
  constructor
  · intro p he hprocs
    apply freelist_perm i j
    rcases he with rfl | ⟨file, argv, rfl⟩
    · simp only [machine, next, hcur] at ht hprocs ⊢
      exact (fork_sound i hm hcur ht).2.2 hprocs
    · simp only [machine, next, hcur] at ht hprocs ⊢
      exact (exec_sound i hm hcur ht).2.2 hprocs
  · rintro p q rfl hq
    simp only [machine, next, hcur] at ht hq ⊢
    exact (wait_sound i hm ht).2.2 q hq

theorem run_ends {ncpu : ℕ} {es : List Event}
    (r : Run (machine img).Step (Booted img ncpu) es s) : s.halted ≠ some .loop := by
  cases r with
  | nil h =>
    obtain ⟨_, _, _, _, _, -, -, -, -, -, -, -, hrun⟩ := h
    rw [hrun]
    nofun
  | snoc r hstep => exact step_ends (run_sound r hstep.1.1).1 hstep

/-- No page is lost, freed twice or shared as long as the kernel runs, and a call that fails or
reaps a child gives back its pages. -/
theorem pages_conserved {ncpu : ℕ} {es : List Event}
    (r : Run (machine img).Step (Booted img ncpu) es s) :
    s.halted ≠ some .loop ∧ (s.halted = none → Conserved img s ∧
      ∀ e t, (machine img).Step s e t → t.halted = none → Returned s e t) := by
  refine ⟨run_ends r, fun hs => ?_⟩
  obtain ⟨i, hm⟩ := run_sound r hs
  exact ⟨i.conserved, fun e t hstep ht => step_returned i hm hstep ht⟩

/-- Boot with two CPUs, with the calls to kalloc() refused after it as `refuse` says. -/
theorem booted_exists (refuse : List Bool) : ∃ s stack proc,
    Booted UserProcessSteps.pc 2 s ∧ s.cpuStacks = [stack] ∧ s.kmem.refuse = refuse ∧
      s.procs initproc = some proc ∧ proc.zombie = false ∧ s.halted = none := by
  obtain ⟨kpgdir, stack, proc, m, hmain⟩ := main_runs UserProcessSteps.pc
    ⟨[], [], fun _ => zeros⟩ zeros rfl rfl (by decide) (by decide)
  obtain ⟨-, -, hz⟩ := main_books rfl rfl hmain
  refine ⟨{
    kmem := ⟨m.freelist, refuse, m.mem⟩
    kpgdir := kpgdir
    cpuStacks := [stack]
    procs := Function.update (fun _ => none) initproc (some proc)
    kernel := {
      procs := fun p => ⟨if p = initproc then .live else .unused, fun _ => none⟩
      files := fun _ => ⟨0, .none⟩
      pipes := fun _ => ⟨false, false⟩
      free := []
      others := [] }
    halted := none }, stack, proc, ?_, rfl, rfl, ?_, hz, rfl⟩
  · exact ⟨zeros, _, m, proc, _, rfl, rfl, hmain, rfl, rfl, rfl, rfl, rfl⟩
  · change Function.update (fun _ => none) initproc (some proc) initproc = some proc
    exact Function.update_self ..

/-- fork() that does not get a kernel stack. -/
theorem fork_refused (p : Slot) (cur : Proc) {bs : List Bool} (i : Sound img 0 s)
    (h : s.kmem.refuse = true :: bs) :
    (fork img s p cur).procs = s.procs ∧ (fork img s p cur).halted = s.halted := by
  simp only [fork]
  cases FileTable.allocproc s.kernel with
  | none => exact ⟨rfl, rfl⟩
  | some np =>
    have hcopy : copyProc img cur s.kmem = .ok (none, { s.kmem with refuse := bs }) := by
      simp only [copyProc, bind_run, PageTables.kalloc, Kmem.take, h]
      rfl
    have j : Sound img 0 { s with kmem := { s.kmem with refuse := bs } } :=
      ⟨i.books, i.sizes, i.files⟩
    obtain ⟨r, k, -, hfiles, -⟩ := j.files_run fun pool hpool =>
      FileCalls.fork_wp (p := p) hpool false
    simp only [State.vm, hcopy, hfiles]
    exact ⟨rfl, rfl⟩

theorem pages_conserved_boot : ∃ s t, Booted UserProcessSteps.pc 2 s ∧
    (machine UserProcessSteps.pc).Step s (.fork initproc) t ∧ t.halted = none ∧
      t.kmem.freelist.Perm s.kmem.freelist ∧ Conserved UserProcessSteps.pc t := by
  obtain ⟨s, stack, proc, hboot, -, hrefuse, hinit, hz, hs⟩ := booted_exists [true]
  obtain ⟨i, -⟩ := booted_sound hboot
  obtain ⟨hprocs, hhalted⟩ := fork_refused initproc proc i hrefuse
  have hnext : (machine UserProcessSteps.pc).next s (.fork initproc) =
      fork UserProcessSteps.pc s initproc proc := by
    simp only [machine, next, Event.caller, hinit]
  have hstep : (machine UserProcessSteps.pc).Step s (.fork initproc)
      (fork UserProcessSteps.pc s initproc proc) := ⟨⟨hs, proc, hinit, hz⟩, hnext.symm⟩
  have hrun : (fork UserProcessSteps.pc s initproc proc).halted = none := hhalted.trans hs
  have hreturned := ((pages_conserved (.nil hboot)).2 hs).2 _ _ hstep hrun
  refine ⟨s, _, hboot, hstep, hrun, hreturned.failed initproc (Or.inl rfl) hprocs, ?_⟩
  exact ((pages_conserved ((Run.nil hboot).snoc hstep)).2 hrun).1

/-- The stack that startothers() allocates for another CPU is given to kinit1(), but it is neither
free nor part of a process, a pipe or the kernel page directory. -/
theorem scheduler_stack_unlisted : ¬ ∀ ncpu es s,
    Run (machine UserProcessSteps.pc).Step (Booted UserProcessSteps.pc ncpu) es s →
    s.halted = none → ∀ f, Given UserProcessSteps.pc f →
      s.kmem.freelist.count f + (frames s.kpgdir).count f +
        ∑ p, (procFrames (s.procs p)).count f + (pipeFrames s.kernel).count f = 1 := by
  intro h
  obtain ⟨s, stack, proc, hboot, hstacks, -, -, -, hs⟩ := booted_exists []
  have honce := (booted_sound hboot).1.conserved.once stack
  rw [hstacks, List.count_singleton_self] at honce
  by_cases hgiven : Given UserProcessSteps.pc stack
  · have hone := h 2 [] s (.nil hboot) hs stack hgiven
    rw [if_pos hgiven] at honce
    omega
  · rw [if_neg hgiven] at honce
    omega

end PageOwnership
