import OsEngineering.FileReferences

/-! The system calls on open files, one after the other. -/
namespace FileCalls

open FaultState FiniteTally KernelParams TransitionSystem FileTable FileReferences

variable {pool : List Page} {hand : List FileNo} {s t : Kernel} {p : ProcNo} {fd : Fd}
  {f g : FileNo}

/-- What fileclose() of a file in use leaves. -/
def closed (s : Kernel) (f : FileNo) : Kernel :=
  if 0 < (s.files f).ref - 1 then s.setFile f ⟨(s.files f).ref - 1, (s.files f).type⟩
  else
    match (s.files f).type with
    | .pipe q _ w => closeEnd (s.setFile f ⟨0, .none⟩) q w
    | _ => s.setFile f ⟨0, .none⟩

theorem pipeclose_run (s : Kernel) (q : Page) (w : Bool) :
    pipeclose q w s = .ok ((), closeEnd s q w) := by
  simp only [pipeclose, closeEnd, bind_run, modify_run, get_run]
  split <;> rfl

theorem fileclose_run (h : 0 < (s.files f).ref) : fileclose f s = .ok ((), closed s f) := by
  have hnot : ¬ (s.files f).ref < 1 := by omega
  simp only [fileclose, closed, bind_run, get_run]
  rw [if_neg hnot]
  split
  · rfl
  · simp only [bind_run, modify_run]
    cases (s.files f).type with
    | pipe q r w => exact pipeclose_run ..
    | _ => rfl

theorem closed_procs (s : Kernel) (f : FileNo) : (closed s f).procs = s.procs := by
  simp only [closed]
  split
  · rfl
  · split
    · exact (closeEnd_fields _ _ _).2.1
    · rfl

theorem closed_others (s : Kernel) (f : FileNo) : (closed s f).others = s.others := by
  simp only [closed]
  split
  · rfl
  · split
    · exact (closeEnd_fields _ _ _).2.2.1
    · rfl

/-- fileclose() does not look at descriptors. -/
theorem closed_setFd (s : Kernel) (f : FileNo) (p : ProcNo) (fd : Fd) (x : Option FileNo) :
    closed (s.setFd p fd x) f = (closed s f).setFd p fd x := by
  simp only [closed]
  change (if 0 < (s.files f).ref - 1 then _ else _) = Kernel.setFd (if _ then _ else _) p fd x
  split
  · rfl
  · change (match (s.files f).type with
      | .pipe q _ w => _
      | _ => _ : Kernel) = Kernel.setFd (match (s.files f).type with
        | .pipe q _ w => _
        | _ => _) p fd x
    cases (s.files f).type with
    | pipe q r w => exact closeEnd_setFd (s.setFile f ⟨0, .none⟩) q w p fd x
    | _ => rfl

theorem sound_closed (k : Sound pool (f :: hand) s) : Sound pool hand (closed s f) := by
  have hpos := k.counted.pos List.mem_cons_self
  have hcount : (f :: hand).count f = hand.count f + 1 := List.count_cons_self
  have hother : ∀ e, e ≠ f → hand.count e = (f :: hand).count e :=
    fun e he => (count_cons_ne hand he).symm
  simp only [FileCalls.closed]
  split
  · next h =>
    refine ⟨k.counted.setFile ?_ hother fun hz => ?_, k.pages.congr ?_ rfl rfl⟩
    · change (s.files f).ref - 1 + _ = _
      rw [hcount]
      omega
    · change (s.files f).ref - 1 = 0 at hz
      omega
    · exact end_setFile fun _ _ _ => Iff.rfl
  · next h =>
    have hone : (s.files f).ref = 1 := by omega
    have hcounted : Counted hand (s.setFile f ⟨0, .none⟩) := by
      refine k.counted.setFile ?_ hother fun _ => rfl
      change 0 + _ = _
      rw [hcount, hone]
      omega
    split
    · next q r w ht =>
      obtain ⟨hfiles, hprocs, -⟩ := closeEnd_fields (s.setFile f ⟨0, .none⟩) q w
      refine ⟨⟨fun e => ?_, fun e => ?_, fun e => ?_⟩, k.pages.closeEnd ht⟩
      · have hslots : slots (closeEnd (s.setFile f ⟨0, .none⟩) q w) = slots (s.setFile f ⟨0, .none⟩) :=
          funext fun x => by rw [slots, slots, hprocs]
        rw [hfiles, hslots]
        exact hcounted.refs e
      · rw [hfiles]
        exact hcounted.blank e
      · rw [hprocs]
        exact hcounted.closed e
    · next ht =>
      refine ⟨hcounted, k.pages.congr ?_ rfl rfl⟩
      refine end_setFile fun q r w => iff_of_false (by rintro ⟨⟩) (ht q r w)

theorem counted_perm {hand' : List FileNo} (k : Counted hand s) (h : hand.Perm hand') :
    Counted hand' s := by
  refine ⟨fun e => ?_, k.blank, k.closed⟩
  rw [← h.count_eq e]
  exact k.refs e

/-! filealloc() and fdalloc(). -/

theorem filealloc_run (k : Sound pool hand s) : filealloc s = .ok (none, s) ∨
    ∃ f, s.files f = ⟨0, .none⟩ ∧ filealloc s = .ok (some f, s.setFile f ⟨1, .none⟩) ∧
      Sound pool (f :: hand) (s.setFile f ⟨1, .none⟩) := by
  cases h : (List.finRange NFILE).find? fun f => (s.files f).ref = 0 with
  | none =>
    left
    simp only [filealloc, h]
  | some f =>
    right
    have hz : (s.files f).ref = 0 := by simpa using List.find?_some h
    have hn := k.counted.blank f hz
    refine ⟨f, ?_, ?_, ?_, k.pages.congr ?_ rfl rfl⟩
    · cases hx : s.files f with
      | mk ref type =>
        rw [hx] at hz hn
        rw [show ref = 0 from hz, show type = .none from hn]
    · simp only [filealloc, h, hn]
    · refine k.counted.setFile ?_ (fun e he => count_cons_ne hand he) fun hz => absurd hz nofun
      change 1 + _ = _
      rw [List.count_cons_self, hz]
      omega
    · refine end_setFile fun q r w => ?_
      rw [hn]

theorem fdalloc_run (s : Kernel) (p : ProcNo) (f : FileNo) : fdalloc p f s = .ok (none, s) ∨
    ∃ fd, (s.procs p).ofile fd = none ∧ fdalloc p f s = .ok (some fd, s.setFd p fd (some f)) := by
  cases h : (List.finRange NOFILE).find? fun fd => (s.procs p).ofile fd = none with
  | none =>
    left
    simp only [fdalloc, h]
  | some fd =>
    right
    refine ⟨fd, ?_, ?_⟩
    · simpa using List.find?_some h
    · simp only [fdalloc, h]

theorem sound_fillFd (k : Sound pool (f :: hand) s) (h : (s.procs p).ofile fd = none)
    (hp : (s.procs p).state ≠ .unused ∧ (s.procs p).state ≠ .zombie) :
    Sound pool hand (s.setFd p fd (some f)) :=
  ⟨k.counted.fillFd h hp, k.pages.congr (fun _ _ _ => Iff.rfl) rfl rfl⟩

theorem sound_clearFd (k : Sound pool hand s) (h : (s.procs p).ofile fd = some f) :
    Sound pool (f :: hand) (s.setFd p fd none) :=
  ⟨k.counted.clearFd h, k.pages.congr (fun _ _ _ => Iff.rfl) rfl rfl⟩

/-- filedup() of a file in use. -/
theorem filedup_run (k : Sound pool hand s) (h : 0 < (s.files f).ref) :
    filedup f s = .ok ((), s.setFile f ⟨(s.files f).ref + 1, (s.files f).type⟩) ∧
      Sound pool (f :: hand) (s.setFile f ⟨(s.files f).ref + 1, (s.files f).type⟩) := by
  have hnot : ¬ (s.files f).ref < 1 := by omega
  refine ⟨?_, k.counted.setFile ?_ (fun e he => count_cons_ne hand he) fun hz => ?_,
    k.pages.congr (end_setFile fun _ _ _ => Iff.rfl) rfl rfl⟩
  · simp only [filedup, bind_run, get_run]
    rw [if_neg hnot]
    rfl
  · change (s.files f).ref + 1 + _ = _
    rw [List.count_cons_self]
    omega
  · change (s.files f).ref + 1 = 0 at hz
    omega

/-- A file in hand gets the type it is opened with; the types of pipes come from pipealloc(). -/
theorem sound_setType (k : Sound pool hand s) (h : 0 < (s.files f).ref) {ty : FileType}
    (hold : (s.files f).type = .none) (hty : ∀ q r w, ty ≠ .pipe q r w) :
    Sound pool hand (s.setFile f ⟨(s.files f).ref, ty⟩) := by
  refine ⟨k.counted.setFile rfl (fun _ _ => rfl) fun hz => ?_, k.pages.congr ?_ rfl rfl⟩
  · change (s.files f).ref = 0 at hz
    omega
  · refine end_setFile fun q r w => iff_of_false (hty q r w) ?_
    rw [hold]
    nofun

def Running (s : Kernel) (p : ProcNo) : Prop :=
  (s.procs p).state ≠ .unused ∧ (s.procs p).state ≠ .zombie

abbrev Impossible : String → Prop := fun _ => False

theorem sysOpen_wp (k : Sound pool [] s) (hp : Running s p) (ip : Option ℕ)
    (readable writable : Bool) :
    wp (sysOpen p ip readable writable) (fun _ t => Sound pool [] t ∧ t.others = s.others)
      Impossible s := by
  cases ip with
  | none => exact wp_pure ⟨k, rfl⟩
  | some ip =>
    rcases filealloc_run k with h | ⟨f, -, h, hk⟩
    · exact wp_bind_run h (wp_pure ⟨k, rfl⟩)
    · refine wp_bind_run h ?_
      dsimp only
      rcases fdalloc_run (s.setFile f ⟨1, .none⟩) p f with hf | ⟨fd, hfd, hf⟩
      · refine wp_bind_run hf (wp_bind_run (fileclose_run ?_) (wp_pure ⟨sound_closed hk, ?_⟩))
        · exact hk.counted.pos List.mem_cons_self
        · exact closed_others ..
      · refine wp_bind_run hf ?_
        have hfill := sound_fillFd hk hfd hp
        have hself : ((s.setFile f ⟨1, .none⟩).setFd p fd (some f)).files f = ⟨1, .none⟩ :=
          setFile_self s f _
        refine wp_bind_run (modify_run ..) (wp_pure ⟨?_, rfl⟩)
        refine sound_setType hfill ?_ ?_ nofun
        · rw [hself]
          exact one_pos
        · rw [hself]

theorem argfd_some {n : ℤ} (h : argfd s p n = some (fd, f)) : (s.procs p).ofile fd = some f := by
  unfold argfd at h
  split at h
  · next hn =>
    obtain ⟨e, he, heq⟩ := Option.map_eq_some_iff.mp h
    injection heq with h1 h2
    rw [← h1, ← h2]
    exact he
  · exact absurd h nofun

theorem sysDup_wp (k : Sound pool [] s) (hp : Running s p) (n : ℤ) :
    wp (sysDup p n) (fun _ t => Sound pool [] t ∧ t.others = s.others) Impossible s := by
  refine wp_bind_run (get_run s) ?_
  cases ha : argfd s p n with
  | none => exact wp_pure ⟨k, rfl⟩
  | some x =>
    obtain ⟨fd, f⟩ := x
    have hpos := k.counted.pos_of_fd (argfd_some ha)
    dsimp only
    rcases fdalloc_run s p f with hf | ⟨new, hnew, hf⟩
    · exact wp_bind_run hf (wp_pure ⟨k, rfl⟩)
    · -- the descriptor is filled before the count goes up; the order does not show
      obtain ⟨-, hdup⟩ := filedup_run k hpos
      refine wp_bind_run hf (wp_bind_run (t := (s.setFile f ⟨(s.files f).ref + 1,
        (s.files f).type⟩).setFd p new (some f)) (a := ()) ?_ (wp_pure ⟨?_, rfl⟩))
      · have hnot : ¬ (s.files f).ref < 1 := by omega
        simp only [filedup, bind_run, get_run]
        change (if (s.files f).ref < 1 then _ else _ : FileCode Unit) _ = _
        rw [if_neg hnot]
        rfl
      · exact sound_fillFd hdup hnew hp

theorem sysClose_wp (k : Sound pool [] s) (n : ℤ) :
    wp (sysClose p n) (fun _ t => Sound pool [] t ∧ t.others = s.others) Impossible s := by
  refine wp_bind_run (get_run s) ?_
  cases ha : argfd s p n with
  | none => exact wp_pure ⟨k, rfl⟩
  | some x =>
    obtain ⟨fd, f⟩ := x
    have hclear := sound_clearFd k (argfd_some ha)
    refine wp_bind_run (modify_run ..) (wp_bind_run (fileclose_run ?_)
      (wp_pure ⟨sound_closed hclear, ?_⟩))
    · exact hclear.counted.pos List.mem_cons_self
    · exact closed_others ..

/-! exit() and fork(). -/

theorem closeAll_wp (fds : List Fd) (k : Sound pool [] s) :
    wp (closeAll p fds) (fun _ t => Sound pool [] t ∧ t.others = s.others ∧
      ∀ e, e ∈ fds ∨ (s.procs p).ofile e = none → (t.procs p).ofile e = none) Impossible s := by
  induction fds generalizing s with
  | nil =>
    refine wp_pure ⟨k, rfl, ?_⟩
    rintro e (he | he)
    · exact absurd he List.not_mem_nil
    · exact he
  | cons fd fds ih =>
    refine wp_bind_run (get_run s) ?_
    cases hfd : (s.procs p).ofile fd with
    | none =>
      refine wp_mono (ih k) ?_
      rintro - t ⟨hk, ho, hnone⟩
      refine ⟨hk, ho, ?_⟩
      rintro e (he | he)
      · rcases List.mem_cons.mp he with rfl | he
        · exact hnone e (Or.inr hfd)
        · exact hnone e (Or.inl he)
      · exact hnone e (Or.inr he)
    | some f =>
      have hclear := sound_closed (sound_clearFd k hfd)
      rw [closed_setFd] at hclear
      refine wp_bind_run (fileclose_run (k.counted.pos_of_fd hfd))
        (wp_bind_run (modify_run ..) (wp_mono (ih hclear) ?_))
      rintro - t ⟨hk, ho, hnone⟩
      refine ⟨hk, ho.trans (closed_others s f), ?_⟩
      rintro e (he | he)
      · rcases List.mem_cons.mp he with rfl | he
        · exact hnone e (Or.inr (setFd_self ..))
        · exact hnone e (Or.inl he)
      · refine hnone e (Or.inr ?_)
        by_cases hee : e = fd
        · rw [hee]
          exact setFd_self ..
        · rw [setFd_of_ne _ _ _ hee, closed_procs]
          exact he

theorem exit_wp (k : Sound pool [] s) :
    wp (FileTable.exit p) (fun _ t => Sound pool [] t ∧ t.others = s.others) Impossible s := by
  refine wp_bind (wp_mono (closeAll_wp (List.finRange NOFILE) k) ?_)
  rintro - t ⟨hk, ho, hnone⟩
  refine wp_bind_run (modify_run ..) (wp_pure ⟨⟨?_, ?_⟩, ho⟩)
  · exact hk.counted.setState fun _ e => hnone e (Or.inl (List.mem_finRange e))
  · exact hk.pages.congr (fun _ _ _ => Iff.rfl) rfl rfl

theorem dupAll_wp {np : ProcNo} (fds : List Fd) (hnd : fds.Nodup)
    (k : Sound pool [] s) (hp : Running s np) (hfree : ∀ e ∈ fds, (s.procs np).ofile e = none) :
    wp (dupAll p np fds) (fun _ t => Sound pool [] t ∧ t.others = s.others) Impossible s := by
  induction fds generalizing s with
  | nil => exact wp_pure ⟨k, rfl⟩
  | cons fd fds ih =>
    obtain ⟨hfd, hnd⟩ := List.nodup_cons.mp hnd
    refine wp_bind_run (get_run s) ?_
    cases hf : (s.procs p).ofile fd with
    | none => exact ih hnd k hp fun e he => hfree e (List.mem_cons_of_mem fd he)
    | some f =>
      obtain ⟨hrun, hdup⟩ := filedup_run k (k.counted.pos_of_fd hf)
      have hfill := sound_fillFd hdup (hfree fd List.mem_cons_self) hp
      refine wp_bind_run hrun (wp_bind_run (modify_run ..) (ih hnd hfill ?_ ?_))
      · rw [Running, setFd_state]
        exact hp
      · intro e he
        have hee : e ≠ fd := fun heq => hfd (heq ▸ he)
        rw [setFd_of_ne _ _ _ hee]
        exact hfree e (List.mem_cons_of_mem fd he)

theorem sound_setState (k : Sound pool hand s) {x : ProcState}
    (hx : x = .unused ∨ x = .zombie → ∀ e, (s.procs p).ofile e = none) :
    Sound pool hand (s.setState p x) :=
  ⟨k.counted.setState hx, k.pages.congr (fun _ _ _ => Iff.rfl) rfl rfl⟩

theorem fork_wp (k : Sound pool [] s) (memory : Bool) :
    wp (FileTable.fork p memory) (fun _ t => Sound pool [] t ∧ t.others = s.others) Impossible s := by
  refine wp_bind_run (get_run s) ?_
  cases ha : allocproc s with
  | none => exact wp_pure ⟨k, rfl⟩
  | some np =>
    have hun : (s.procs np).state = .unused := by simpa using List.find?_some ha
    have hnull := k.counted.closed np (Or.inl hun)
    have hofile : ∀ (x : ProcState) e, ((s.setState np x).procs np).ofile e = none := by
      intro x e
      simp only [Kernel.setState, Function.update_self]
      exact hnull e
    have hembryo : Sound pool [] (s.setState np .embryo) := sound_setState k fun _ => hnull
    refine wp_bind_run (modify_run ..) ?_
    split
    · refine wp_bind_run (modify_run ..) (wp_pure ⟨sound_setState hembryo fun _ => ?_, rfl⟩)
      exact hofile .embryo
    · have hrun : Running (s.setState np .embryo) np := by
        simp only [Running, Kernel.setState, Function.update_self]
        exact ⟨by rintro ⟨⟩, by rintro ⟨⟩⟩
      refine wp_bind (wp_mono (dupAll_wp (List.finRange NOFILE) (List.nodup_finRange NOFILE)
        hembryo hrun fun e _ => hofile .embryo e) ?_)
      rintro - t ⟨hk, ho⟩
      refine wp_bind_run (modify_run ..) (wp_pure ⟨sound_setState hk ?_, ho⟩)
      rintro (h | h) <;> cases h

/-! pipe() -/

theorem setFile_again (s : Kernel) (f : FileNo) (x y : File) :
    (s.setFile f x).setFile f y = s.setFile f y := by
  simp only [Kernel.setFile, Function.update_idem]

theorem setFile_comm (s : Kernel) (x y : File) (h : g ≠ f) :
    (s.setFile f x).setFile g y = (s.setFile g y).setFile f x := by
  simp only [Kernel.setFile, Function.update_comm h.symm]

theorem setFile_same {x : File} (h : s.files f = x) : s.setFile f x = s := by
  rw [← h, Kernel.setFile, Function.update_eq_self]

theorem setFd_restore {x : Option FileNo} (h : (s.procs p).ofile fd = none) :
    (s.setFd p fd x).setFd p fd none = s := by
  have hproc : (s.setFd p fd x).procs p =
      { s.procs p with ofile := Function.update (s.procs p).ofile fd x } := Function.update_self ..
  have hofile : Function.update (s.procs p).ofile fd none = (s.procs p).ofile := by
    rw [← h, Function.update_eq_self]
  rw [Kernel.setFd, hproc]
  simp only [Kernel.setFd, Function.update_idem, hofile, Function.update_eq_self]

/-- fileclose() undoes filealloc(). -/
theorem closed_fresh (h : s.files f = ⟨0, .none⟩) : closed (s.setFile f ⟨1, .none⟩) f = s := by
  have hself : (s.setFile f ⟨1, .none⟩).files f = ⟨1, .none⟩ := setFile_self ..
  simp only [closed, hself]
  rw [if_neg (by decide), setFile_again, setFile_same h]

theorem closed_fresh_other (h : s.files f = ⟨0, .none⟩) (hg : g ≠ f) (x : File) :
    closed ((s.setFile f ⟨1, .none⟩).setFile g x) f = s.setFile g x := by
  rw [setFile_comm s _ _ hg]
  exact closed_fresh ((setFile_of_ne s x hg.symm).trans h)

theorem pipealloc_run (k : Sound pool [] s) : pipealloc s = .ok (none, s) ∨
    ∃ f0 f1 q free, s.files f0 = ⟨0, .none⟩ ∧ s.files f1 = ⟨0, .none⟩ ∧ f1 ≠ f0 ∧
      s.free = q :: free ∧
      pipealloc s = .ok (some (f0, f1),
        newPipe ((s.setFile f0 ⟨1, .none⟩).setFile f1 ⟨1, .none⟩) q free f0 f1) ∧
      Sound pool [f0, f1]
        (newPipe ((s.setFile f0 ⟨1, .none⟩).setFile f1 ⟨1, .none⟩) q free f0 f1) := by
  rcases filealloc_run k with h | ⟨f0, h0, ha0, k0⟩
  · left
    rw [pipealloc, run_bind h]
    rfl
  rcases filealloc_run k0 with h | ⟨f1, h1, ha1, k1⟩
  · left
    rw [pipealloc, run_bind ha0]
    dsimp only
    rw [run_bind h]
    dsimp only
    rw [run_bind (fileclose_run (k0.counted.pos List.mem_cons_self)), closed_fresh h0]
    rfl
  have hne : f1 ≠ f0 := by
    rintro rfl
    rw [setFile_self] at h1
    injection h1 with h1 _
    exact absurd h1 (by decide)
  have h1' : s.files f1 = ⟨0, .none⟩ := (setFile_of_ne s _ hne).symm.trans h1
  cases hfree : s.free with
  | nil =>
    left
    have hk : kalloc ((s.setFile f0 ⟨1, .none⟩).setFile f1 ⟨1, .none⟩) =
        .ok (none, (s.setFile f0 ⟨1, .none⟩).setFile f1 ⟨1, .none⟩) := by
      have hnil : ((s.setFile f0 ⟨1, .none⟩).setFile f1 ⟨1, .none⟩).free = [] := hfree
      simp only [kalloc, hnil]
    have hpos0 := k1.counted.pos (f := f0) (List.mem_cons_of_mem f1 List.mem_cons_self)
    have hclosed := closed_fresh_other h0 hne ⟨1, .none⟩
    rw [pipealloc, run_bind ha0]
    dsimp only
    rw [run_bind ha1]
    dsimp only
    rw [run_bind hk]
    dsimp only
    rw [run_bind (fileclose_run hpos0), hclosed, run_bind (fileclose_run ?_), closed_fresh h1']
    · rfl
    · rw [setFile_self]
      exact one_pos
  | cons q free =>
    right
    have hk : kalloc ((s.setFile f0 ⟨1, .none⟩).setFile f1 ⟨1, .none⟩) = .ok (some q,
        { (s.setFile f0 ⟨1, .none⟩).setFile f1 ⟨1, .none⟩ with free := free }) := by
      have hcons : ((s.setFile f0 ⟨1, .none⟩).setFile f1 ⟨1, .none⟩).free = q :: free := hfree
      simp only [kalloc, hcons]
    refine ⟨f0, f1, q, free, h0, h1', hne, rfl, ?_, ?_, ?_⟩
    · rw [pipealloc, run_bind ha0]
      dsimp only
      rw [run_bind ha1]
      dsimp only
      rw [run_bind hk]
      dsimp only
      rw [run_bind (modify_run ..), run_bind (modify_run ..), run_bind (modify_run ..),
        setFile_of_ne _ _ hne]
      rfl
    · generalize hs : (s.setFile f0 ⟨1, .none⟩).setFile f1 ⟨1, .none⟩ = s2 at k1
      have hc : Counted [f1, f0] (({ s2 with free := free }).setPipe q ⟨true, true⟩) :=
        ⟨k1.counted.refs, k1.counted.blank, k1.counted.closed⟩
      have hpos1 := k1.counted.pos (f := f1) List.mem_cons_self
      have hpos0 := k1.counted.pos (f := f0) (List.mem_cons_of_mem f1 List.mem_cons_self)
      have hc0 := hc.setFile (f := f0) (x := ⟨(s2.files f0).ref, .pipe q true false⟩) rfl
        (fun _ _ => rfl) fun hz => absurd hz hpos0.ne'
      refine counted_perm (hc0.setFile (f := f1) (x := ⟨(s2.files f1).ref, .pipe q false true⟩)
        ?_ (fun _ _ => rfl) fun hz => absurd hz hpos1.ne') (List.Perm.swap f0 f1 [])
      rw [setFile_of_ne _ _ hne]
      rfl
    · refine k1.pages.newPipe hfree ?_ ?_ hne.symm
      · rw [setFile_of_ne _ _ hne.symm, setFile_self]
      · rw [setFile_self]

/-- Closing both ends of a pipe that was just made. -/
theorem closed_pipe {q : Page} {f0 f1 : FileNo} {free : List Page} (hne : f1 ≠ f0)
    (h0 : s.files f0 = ⟨0, .none⟩) (h1 : s.files f1 = ⟨0, .none⟩) (hfree : s.free = q :: free) :
    let t := closed (closed
      (newPipe ((s.setFile f0 ⟨1, .none⟩).setFile f1 ⟨1, .none⟩) q free f0 f1) f0) f1
    t.procs = s.procs ∧ t.files = s.files ∧ t.free = s.free := by
  generalize hu : newPipe ((s.setFile f0 ⟨1, .none⟩).setFile f1 ⟨1, .none⟩) q free f0 f1 = u
  have hfiles1 : u.files f1 = ⟨1, .pipe q false true⟩ := by
    rw [← hu, newPipe, setFile_self, setFile_self]
  have hfiles0 : u.files f0 = ⟨1, .pipe q true false⟩ := by
    rw [← hu, newPipe, setFile_of_ne _ _ hne.symm, setFile_self, setFile_of_ne _ _ hne.symm,
      setFile_self]
  have hothers : ∀ e, e ≠ f0 → e ≠ f1 → u.files e = s.files e := by
    intro e he0 he1
    rw [← hu, newPipe, setFile_of_ne _ _ he1, setFile_of_ne _ _ he0]
    exact (setFile_of_ne _ _ he1).trans (setFile_of_ne _ _ he0)
  have hrest : u.procs = s.procs ∧ u.free = free ∧ u.pipes q = ⟨true, true⟩ := by
    rw [← hu]
    exact ⟨rfl, rfl, Function.update_self ..⟩
  have hc0 : closed u f0 = closeEnd (u.setFile f0 ⟨0, .none⟩) q false := by
    simp only [closed, hfiles0]
    exact if_neg (by decide)
  generalize hv : closeEnd (u.setFile f0 ⟨0, .none⟩) q false = v at hc0
  obtain ⟨hvf, hvp, -, hvq, hvfree⟩ := closeEnd_fields (u.setFile f0 ⟨0, .none⟩) q false
  rw [hv] at hvf hvp hvq hvfree
  have hvf1 : v.files f1 = ⟨1, .pipe q false true⟩ := by
    rw [hvf, setFile_of_ne _ _ hne]
    exact hfiles1
  have hc1 : closed v f1 = closeEnd (v.setFile f1 ⟨0, .none⟩) q true := by
    simp only [closed, hvf1]
    exact if_neg (by decide)
  obtain ⟨htf, htp, -, -, htfree⟩ := closeEnd_fields (v.setFile f1 ⟨0, .none⟩) q true
  have hsame : (u.setFile f0 ⟨0, .none⟩).pipes q = ⟨true, true⟩ := hrest.2.2
  have hvpipe : (v.setFile f1 ⟨0, .none⟩).pipes q = ⟨false, true⟩ := by
    change v.pipes q = _
    rw [hvq, Function.update_self, hsame]
    rfl
  intro t
  have ht : t = closeEnd (v.setFile f1 ⟨0, .none⟩) q true := by
    rw [← hc1, ← hc0]
  rw [ht]
  refine ⟨?_, ?_, ?_⟩
  · rw [htp]
    change v.procs = _
    rw [hvp]
    exact hrest.1
  · rw [htf]
    funext e
    by_cases he1 : e = f1
    · rw [he1, setFile_self, h1]
    · rw [setFile_of_ne _ _ he1, hvf]
      by_cases he0 : e = f0
      · rw [he0, setFile_self, h0]
      · rw [setFile_of_ne _ _ he0, hothers e he0 he1]
  · have hlast : isopen ⟨false, true⟩ (!true) = false := rfl
    have hfirst : isopen ⟨true, true⟩ (!false) ≠ false := by decide
    rw [htfree, hvpipe, if_pos hlast]
    change q :: v.free = _
    rw [hvfree, hsame, if_neg hfirst]
    change q :: u.free = _
    rw [hrest.2.1, hfree]

theorem sysPipe_wp (k : Sound pool [] s) (hp : Running s p) (arg : Bool) :
    wp (sysPipe p arg) (fun r t => Sound pool [] t ∧ t.others = s.others ∧
      (r = -1 → t.procs = s.procs ∧ t.files = s.files ∧ t.free = s.free)) Impossible s := by
  unfold sysPipe
  split
  · exact wp_pure ⟨k, rfl, fun _ => ⟨rfl, rfl, rfl⟩⟩
  rcases pipealloc_run k with h | ⟨rf, wf, q, free, h0, h1, hne, hfree, h, hk⟩
  · exact wp_bind_run h (wp_pure ⟨k, rfl, fun _ => ⟨rfl, rfl, rfl⟩⟩)
  have hback := closed_pipe hne h0 h1 hfree
  have hprocs : (newPipe ((s.setFile rf ⟨1, .none⟩).setFile wf ⟨1, .none⟩) q free rf wf).procs =
      s.procs := rfl
  have hothers : (newPipe ((s.setFile rf ⟨1, .none⟩).setFile wf ⟨1, .none⟩) q free rf wf).others =
      s.others := rfl
  refine wp_bind_run h ?_
  generalize newPipe ((s.setFile rf ⟨1, .none⟩).setFile wf ⟨1, .none⟩) q free rf wf = u at *
  have hpos : 0 < (u.files rf).ref ∧ 0 < ((closed u rf).files wf).ref :=
    ⟨hk.counted.pos List.mem_cons_self, (sound_closed hk).counted.pos List.mem_cons_self⟩
  have hundo : Sound pool [] (closed (closed u rf) wf) ∧
      (closed (closed u rf) wf).others = s.others ∧
      ((-1 : ℤ) = -1 → (closed (closed u rf) wf).procs = s.procs ∧
        (closed (closed u rf) wf).files = s.files ∧ (closed (closed u rf) wf).free = s.free) := by
    refine ⟨sound_closed (sound_closed hk), ?_, fun _ => hback⟩
    rw [closed_others, closed_others, hothers]
  have hrun : Running u p := by
    rw [Running, hprocs]
    exact hp
  dsimp only
  rcases fdalloc_run u p rf with hf | ⟨fd0, hfd0, hf⟩
  · exact wp_bind_run hf (wp_bind_run (fileclose_run hpos.1)
      (wp_bind_run (fileclose_run hpos.2) (wp_pure hundo)))
  · have hfill := sound_fillFd hk hfd0 hrun
    refine wp_bind_run hf ?_
    dsimp only
    rcases fdalloc_run (u.setFd p fd0 (some rf)) p wf with hg | ⟨fd1, hfd1, hg⟩
    · refine wp_bind_run hg (wp_bind_run (modify_run ..) ?_)
      rw [setFd_restore hfd0]
      exact wp_bind_run (fileclose_run hpos.1)
        (wp_bind_run (fileclose_run hpos.2) (wp_pure hundo))
    · refine wp_bind_run hg (wp_pure ⟨sound_fillFd hfill hfd1 ?_, hothers, nofun⟩)
      rw [setFd_state]
      exact hrun

end FileCalls
