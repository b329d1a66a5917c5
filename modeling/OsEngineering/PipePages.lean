import OsEngineering.FileCalls
import OsEngineering.PhysicalPages
import Mathlib.Data.FinEnum

/-! The calls on open files as steps of the whole machine: a pipe's page comes from the free list
and goes back there, and processes change their state only by fork() and exit(). -/
namespace PipePages

open FaultState KernelParams PageTables FileTable FileReferences FileCalls
open PhysicalPages (State)

variable {k t : Kernel} {l : List Frame} {α : Type}

instance (k : Kernel) (q : ℕ) : Decidable (PipeOpen k q) :=
  inferInstanceAs (Decidable (∃ writable f readable, (k.files f).type = .pipe q readable writable))

/-- The pages of the open pipes. -/
def pipeFrames (k : Kernel) : Multiset Frame :=
  (Finset.univ.filter fun f : Frame => PipeOpen k f.toNat).val

theorem mem_pipeFrames {f : Frame} : f ∈ pipeFrames k ↔ PipeOpen k f.toNat := by
  rw [pipeFrames, Finset.mem_val, Finset.mem_filter]
  exact and_iff_right (Finset.mem_univ f)

theorem pipeFrames_congr (h : t.files = k.files) : pipeFrames t = pipeFrames k := by
  have hopen : ∀ q, PipeOpen t q ↔ PipeOpen k q := by
    intro q
    simp only [PipeOpen, End, h]
  exact congrArg Finset.val (Finset.filter_congr fun f _ => hopen f.toNat)

theorem pipeFrames_nodup (k : Kernel) : (pipeFrames k).Nodup := Finset.nodup _

/-- What holds of the open files whatever is free. -/
structure FilesOk (k : Kernel) : Prop where
  counted : Counted [] k
  one : ∀ q w f g, End k q w f → End k q w g → f = g
  flags : ∀ q, PipeOpen k q → ∀ w, isopen (k.pipes q) w = true ↔ ∃ f, End k q w f
  small : ∀ q, PipeOpen k q → q < 2 ^ 20
  others : k.others = []

/-- `k` with the frames in `l` free. -/
def withFree (k : Kernel) (l : List Frame) : Kernel := { k with free := l.map BitVec.toNat }

theorem toNat_ofNat {q : ℕ} (h : q < 2 ^ 20) : (BitVec.ofNat 20 q).toNat = q := by
  rw [BitVec.toNat_ofNat, Nat.mod_eq_of_lt h]

theorem mem_toNat {f : Frame} : f.toNat ∈ l.map BitVec.toNat ↔ f ∈ l := by
  rw [List.mem_map]
  constructor
  · rintro ⟨g, hg, heq⟩
    rwa [← BitVec.toNat_inj.mp heq]
  · intro hf
    exact ⟨f, hf, rfl⟩

theorem sound_of (ok : FilesOk k) (hnd : ((l : Multiset Frame) + pipeFrames k).Nodup) :
    ∃ pool, Sound pool [] (withFree k l) := by
  obtain ⟨hl, -, hdisj⟩ := Multiset.nodup_add.mp hnd
  have hmem : (withFree k l).free ++ (withFree k l).others = l.map BitVec.toNat := by
    change l.map BitVec.toNat ++ k.others = _
    rw [ok.others, List.append_nil]
  refine ⟨l.map BitVec.toNat ++ (pipeFrames k).toList.map BitVec.toNat,
    ⟨ok.counted.refs, ok.counted.blank, ok.counted.closed⟩, ok.one, ok.flags, ?_, ?_, ?_⟩
  · rw [hmem]
    exact (Multiset.coe_nodup.mp hl).map fun f g h => BitVec.toNat_inj.mp h
  · intro q hq hin
    rw [hmem, List.mem_map] at hin
    obtain ⟨f, hf, rfl⟩ := hin
    exact Multiset.disjoint_left.mp hdisj (Multiset.mem_coe.mpr hf) (mem_pipeFrames.mpr hq)
  · intro q
    rw [hmem, List.mem_append, List.mem_map (l := (pipeFrames k).toList)]
    apply or_congr_right
    constructor
    · rintro ⟨f, hf, rfl⟩
      exact mem_pipeFrames.mp (Multiset.mem_toList (s := pipeFrames k).mp hf)
    · intro hq
      have hsmall := toNat_ofNat (ok.small q hq)
      refine ⟨BitVec.ofNat 20 q, Multiset.mem_toList.mpr (mem_pipeFrames.mpr ?_), hsmall⟩
      rw [hsmall]
      exact hq

/-- What a call leaves free, as frames. -/
def freeFrames (t : Kernel) : List Frame := t.free.map (BitVec.ofNat 20)

theorem filesOk_of_sound {pool : List ℕ} (ok : FilesOk k)
    (hnd : ((l : Multiset Frame) + pipeFrames k).Nodup) (before : Sound pool [] (withFree k l))
    (after : Sound pool [] t) (ho : t.others = []) :
    FilesOk t ∧ (freeFrames t : Multiset Frame) + pipeFrames t = l + pipeFrames k := by
  have hpool : ∀ q, q ∈ t.free ∨ PipeOpen t q ↔ q ∈ l.map BitVec.toNat ∨ PipeOpen k q := by
    intro q
    have ha := after.pages.pool q
    have hb := before.pages.pool q
    rw [ho, List.append_nil] at ha
    rw [← ha, hb]
    change q ∈ l.map BitVec.toNat ++ k.others ∨ PipeOpen k q ↔ _
    rw [ok.others, List.append_nil]
  have hsmall : ∀ q, q ∈ t.free ∨ PipeOpen t q → q < 2 ^ 20 := by
    intro q hq
    rcases (hpool q).mp hq with hin | hopen
    · obtain ⟨f, -, rfl⟩ := List.mem_map.mp hin
      exact f.isLt
    · exact ok.small q hopen
  have hfree : ∀ f : Frame, f ∈ freeFrames t ↔ f.toNat ∈ t.free := by
    intro f
    rw [freeFrames, List.mem_map]
    constructor
    · rintro ⟨q, hq, rfl⟩
      rwa [toNat_ofNat (hsmall q (Or.inl hq))]
    · intro hf
      refine ⟨f.toNat, hf, ?_⟩
      rw [BitVec.ofNat_toNat, BitVec.setWidth_eq]
  refine ⟨⟨after.counted, after.pages.one, after.pages.flags,
    fun q hq => hsmall q (Or.inr hq), ho⟩, ?_⟩
  have hnodup := after.pages.nodup
  have hapart := after.pages.apart
  rw [ho, List.append_nil] at hnodup
  simp only [ho, List.append_nil] at hapart
  apply (Multiset.Nodup.ext _ hnd).mpr
  · intro f
    rw [Multiset.mem_add, Multiset.mem_add, Multiset.mem_coe, Multiset.mem_coe, mem_pipeFrames,
      mem_pipeFrames, hfree, hpool, mem_toNat]
  · refine Multiset.nodup_add.mpr ⟨?_, pipeFrames_nodup t, ?_⟩
    · apply Multiset.coe_nodup.mpr
      apply hnodup.map_on
      intro q hq r hr heq
      rw [← toNat_ofNat (hsmall q (Or.inl hq)), heq, toNat_ofNat (hsmall r (Or.inl hr))]
    · apply Multiset.disjoint_left.mpr
      intro f hf hopen
      exact hapart f.toNat (mem_pipeFrames.mp hopen) ((hfree f).mp (Multiset.mem_coe.mp hf))

/-- A call that keeps the references and the pages in order cannot panic. -/
theorem files_books {c : FileCode α} (ok : FilesOk k)
    (hnd : ((l : Multiset Frame) + pipeFrames k).Nodup)
    (hwp : ∀ pool, Sound pool [] (withFree k l) →
      wp c (fun _ t => Sound pool [] t ∧ t.others = k.others) Impossible (withFree k l)) :
    ∃ r t, c (withFree k l) = .ok (r, t) ∧ FilesOk t ∧
      (freeFrames t : Multiset Frame) + pipeFrames t = l + pipeFrames k := by
  obtain ⟨pool, before⟩ := sound_of ok hnd
  have hrun := hwp pool before
  cases hc : c (withFree k l) with
  | error msg => exact (wp_error hrun hc).elim
  | ok x =>
    obtain ⟨r, t⟩ := x
    obtain ⟨after, ho⟩ := wp_ok hrun hc
    rw [ok.others] at ho
    exact ⟨r, t, rfl, filesOk_of_sound ok hnd before after ho⟩

/-! The states of the processes. -/

def states (s : Kernel) (q : ProcNo) : ProcState := (s.procs q).state

theorem keeps_setFd (p : ProcNo) (fd : Fd) (x : Option FileNo) :
    Keeps states (modify fun s : Kernel => s.setFd p fd x : FileCode Unit) := by
  apply keeps_modify
  intro s
  funext q
  exact setFd_state s p fd x q

theorem keeps_filealloc : Keeps states filealloc := by
  intro s r t h
  simp only [filealloc] at h
  split at h <;> cases h <;> rfl

theorem keeps_filedup (f : FileNo) : Keeps states (filedup f) := by
  apply keeps_bind keeps_get
  intro s
  split
  · exact keeps_throw _
  · exact keeps_modify fun _ => rfl

theorem keeps_kalloc : Keeps states FileTable.kalloc := by
  intro s r t h
  simp only [FileTable.kalloc] at h
  split at h <;> cases h <;> rfl

theorem keeps_pipeclose (q : ℕ) (writable : Bool) : Keeps states (pipeclose q writable) := by
  refine keeps_bind (keeps_modify fun _ => rfl) ?_
  intro _
  apply keeps_bind keeps_get
  intro s
  split
  · exact keeps_modify fun _ => rfl
  · exact keeps_pure _

theorem keeps_fileclose (f : FileNo) : Keeps states (fileclose f) := by
  apply keeps_bind keeps_get
  intro s
  split
  · exact keeps_throw _
  · split
    · exact keeps_modify fun _ => rfl
    · refine keeps_bind (keeps_modify fun _ => rfl) ?_
      intro _
      cases (s.files f).type with
      | none => exact keeps_pure _
      | inode ip readable writable => exact keeps_pure _
      | pipe q readable writable => exact keeps_pipeclose q writable

theorem keeps_pipealloc : Keeps states pipealloc := by
  apply keeps_bind keeps_filealloc
  intro r0
  cases r0 with
  | none => exact keeps_pure _
  | some f0 =>
    apply keeps_bind keeps_filealloc
    intro r1
    cases r1 with
    | none =>
      apply keeps_bind (keeps_fileclose f0)
      intro _
      exact keeps_pure _
    | some f1 =>
      apply keeps_bind keeps_kalloc
      intro r
      cases r with
      | none =>
        apply keeps_bind (keeps_fileclose f0)
        intro _
        apply keeps_bind (keeps_fileclose f1)
        intro _
        exact keeps_pure _
      | some q =>
        refine keeps_bind (keeps_modify fun _ => rfl) ?_
        intro _
        refine keeps_bind (keeps_modify fun _ => rfl) ?_
        intro _
        refine keeps_bind (keeps_modify fun _ => rfl) ?_
        intro _
        exact keeps_pure _

theorem keeps_fdalloc (p : ProcNo) (f : FileNo) : Keeps states (fdalloc p f) := by
  intro s r t h
  rcases fdalloc_run s p f with hrun | ⟨fd, -, hrun⟩
  · rw [hrun] at h
    cases h
    rfl
  · rw [hrun] at h
    cases h
    funext q
    exact setFd_state s p fd _ q

theorem keeps_sysDup (p : ProcNo) (n : ℤ) : Keeps states (sysDup p n) := by
  apply keeps_bind keeps_get
  intro s
  cases argfd s p n with
  | none => exact keeps_pure _
  | some x =>
    apply keeps_bind (keeps_fdalloc p x.2)
    intro r
    cases r with
    | none => exact keeps_pure _
    | some new =>
      apply keeps_bind (keeps_filedup x.2)
      intro _
      exact keeps_pure _

theorem keeps_sysClose (p : ProcNo) (n : ℤ) : Keeps states (sysClose p n) := by
  apply keeps_bind keeps_get
  intro s
  cases argfd s p n with
  | none => exact keeps_pure _
  | some x =>
    apply keeps_bind (keeps_setFd p x.1 none)
    intro _
    apply keeps_bind (keeps_fileclose x.2)
    intro _
    exact keeps_pure _

theorem keeps_sysOpen (p : ProcNo) (ip : Option ℕ) (readable writable : Bool) :
    Keeps states (sysOpen p ip readable writable) := by
  cases ip with
  | none => exact keeps_pure _
  | some ip =>
    apply keeps_bind keeps_filealloc
    intro r
    cases r with
    | none => exact keeps_pure _
    | some f =>
      apply keeps_bind (keeps_fdalloc p f)
      intro r
      cases r with
      | none =>
        apply keeps_bind (keeps_fileclose f)
        intro _
        exact keeps_pure _
      | some fd =>
        refine keeps_bind (keeps_modify fun _ => rfl) ?_
        intro _
        exact keeps_pure _

theorem keeps_sysPipe (p : ProcNo) (arg : Bool) : Keeps states (sysPipe p arg) := by
  -- the two files are closed where a descriptor is missing
  have hclose : ∀ f g, Keeps states (do
      fileclose f
      fileclose g
      pure (-1) : FileCode ℤ) := by
    intro f g
    apply keeps_bind (keeps_fileclose f)
    intro _
    apply keeps_bind (keeps_fileclose g)
    intro _
    exact keeps_pure _
  simp only [sysPipe]
  split
  · exact keeps_pure _
  · apply keeps_bind keeps_pipealloc
    intro r
    cases r with
    | none => exact keeps_pure _
    | some fs =>
      apply keeps_bind (keeps_fdalloc p fs.1)
      intro r0
      cases r0 with
      | none => exact hclose fs.1 fs.2
      | some fd0 =>
        apply keeps_bind (keeps_fdalloc p fs.2)
        intro r1
        cases r1 with
        | none =>
          apply keeps_bind (keeps_setFd p fd0 none)
          intro _
          exact hclose fs.1 fs.2
        | some _ => exact keeps_pure _

theorem keeps_dupAll (p np : ProcNo) (fds : List Fd) : Keeps states (dupAll p np fds) := by
  induction fds with
  | nil => exact keeps_pure _
  | cons fd fds ih =>
    apply keeps_bind keeps_get
    intro s
    cases (s.procs p).ofile fd with
    | none => exact ih
    | some f =>
      apply keeps_bind (keeps_filedup f)
      intro _
      apply keeps_bind (keeps_setFd np fd (some f))
      intro _
      exact ih

theorem keeps_closeAll (p : ProcNo) (fds : List Fd) : Keeps states (closeAll p fds) := by
  induction fds with
  | nil => exact keeps_pure _
  | cons fd fds ih =>
    apply keeps_bind keeps_get
    intro s
    cases (s.procs p).ofile fd with
    | none => exact ih
    | some f =>
      apply keeps_bind (keeps_fileclose f)
      intro _
      apply keeps_bind (keeps_setFd p fd none)
      intro _
      exact ih

theorem states_setState (s : Kernel) (p : ProcNo) (x : ProcState) :
    states (s.setState p x) = Function.update (states s) p x := by
  funext q
  by_cases hq : q = p
  · subst hq
    simp only [states, Kernel.setState, Function.update_self]
  · simp only [states, Kernel.setState, Function.update_of_ne hq]

theorem exit_states {p : ProcNo} {s : Kernel} {r : ℤ} (h : FileTable.exit p s = .ok (r, t)) :
    states t = Function.update (states s) p .zombie := by
  obtain ⟨_, u, hclose, hrest⟩ := bind_ok h
  cases hrest
  rw [states_setState, keeps_closeAll p _ s _ u hclose]

/-- fork() makes the process of allocproc() a live one, or leaves it unused. -/
theorem fork_states {p np : ProcNo} {memory : Bool} {s : Kernel} {r : ℤ}
    (hp : allocproc s = some np) (h : FileTable.fork p memory s = .ok (r, t)) :
    states t = if memory = true then Function.update (states s) np .live else states s := by
  have hunused : states s np = .unused := by
    have hfind := List.find?_some hp
    rw [decide_eq_true_eq] at hfind
    exact hfind
  simp only [FileTable.fork, bind_run, get_run, hp, modify_run] at h
  cases memory with
  | false =>
    cases h
    rw [states_setState, states_setState, Function.update_idem, if_neg Bool.false_ne_true,
      ← hunused, Function.update_eq_self]
  | true =>
    rw [if_neg (by decide)] at h
    obtain ⟨_, u, hdup, hrest⟩ := bind_ok h
    cases hrest
    rw [states_setState, keeps_dupAll p np _ _ _ u hdup, states_setState, Function.update_idem,
      if_pos rfl]

theorem fork_files {p np : ProcNo} {s : Kernel} {r : ℤ} (hp : allocproc s = some np)
    (h : FileTable.fork p false s = .ok (r, t)) : t.files = s.files := by
  simp only [FileTable.fork, bind_run, get_run, hp, modify_run, if_pos] at h
  cases h
  rfl

end PipePages
