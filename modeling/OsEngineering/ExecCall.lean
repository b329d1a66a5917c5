import OsEngineering.ElfLoading
import OsEngineering.FailedCalls

/-! exec() with the log, the inode and the process that calls it: a call that returns -1 leaves
everything as it was. -/
namespace ExecCall

open ByteBlock FaultState PageTables PageClearing PageMapping KernelMap CopyOut UserProcesses ElfLoading
open DirectoryTree (Fs FsCode Path namei ilock iunlockput)
open InodeReferences FailedCalls

/-- What exec() sets in the process that calls it; `eip` and `esp` are in its trap frame. -/
structure Caller where
  pgdir : PageDir
  sz : Word
  name : List Char
  eip : Word
  esp : Word

/-- `outstanding` is that of the log, and the descriptors are in `fs`. -/
structure State where
  fs : Fs
  kmem : Kmem
  outstanding : ℤ
  caller : Caller

inductive Fault where
  | fs (e : DirectoryTree.Fault)
  | kmem (e : PageTables.Fault)

abbrev ExecCode := Code Fault State

def onFs {α : Type} (c : FsCode α) : ExecCode α :=
  zoom State.fs (fun fs s => { s with fs := fs }) Fault.fs c

def onKmem {α : Type} (c : VM α) : ExecCode α :=
  zoom State.kmem (fun m s => { s with kmem := m }) Fault.kmem c

/-- begin_op() after its waits. -/
def beginOp : ExecCode Unit := modify fun s => { s with outstanding := s.outstanding + 1 }

/-- The commit in end_op() is left out. -/
def endOp : ExecCode Unit := modify fun s => { s with outstanding := s.outstanding - 1 }

/-- The loop over the path; `last` is what comes behind the last slash so far. -/
def lastFrom (last : Path) : Path → Path
  | [] => last
  | ch :: s => lastFrom (if ch = '/' then s else last) s

/-- safestrcpy() into the 16 characters of the name. -/
def programName (path : Path) : List Char := (lastFrom path path).take 15

section Kernel

variable (img : KernelImage) (readi : ℕ → Reader)

def freePgdir : Option PageDir → VM Unit
  | none => pure ()
  | some d => freevm img d

def release : Option ℕ → ExecCode Unit
  | none => pure ()
  | some ip => do
    onFs (iunlockput ip)
    endOp

def bad (pgdir : Option PageDir) (ip : Option ℕ) : ExecCode ℤ := do
  onKmem (freePgdir img pgdir)
  release ip
  pure (-1)

/-- From the copy of the program name on. -/
def commit (path : Path) (im : Image) : ExecCode ℤ := do
  let s ← get
  modify fun s => { s with caller := ⟨im.pgdir, im.sz, programName path, im.eip, im.esp⟩ }
  onKmem (freevm img s.caller.pgdir)
  pure 0

/-- `readi` gives what the inodes contain. buildStack() goes to `bad` itself, where `ip` is 0. -/
def exec (p : Fin KernelParams.NPROC) (path : Path) (argv : List (List Byte)) : ExecCode ℤ := do
  beginOp
  match ← onFs (namei p path) with
  | none => do
    endOp
    pure (-1)
  | some ip => do
    onFs (ilock ip)
    match readAll (readi ip) 0 52 with
    | none => bad img none (some ip)
    | some bs =>
      if (decodeElf bs).magic ≠ ELF_MAGIC then bad img none (some ip)
      else do
        match ← onKmem (setupkvm img) with
        | none => bad img none (some ip)
        | some d => do
          let (d, r) ← onKmem
            (loadSegments img (readi ip) (decodeElf bs).phnum.toNat (decodeElf bs).phoff d 0)
          match r with
          | none => bad img (some d) (some ip)
          | some sz => do
            onFs (iunlockput ip)
            endOp
            match ← onKmem (buildStack img argv (decodeElf bs).entry d sz) with
            | none => pure (-1)
            | some im => commit img path im

end Kernel

variable {img : KernelImage} {readi : ℕ → Reader} {p : Fin KernelParams.NPROC} {path : Path}
  {argv : List (List Byte)} {s t u : State}

theorem commit_run {im : Image} {m : Kmem} (h : freevm img s.caller.pgdir s.kmem = .ok ((), m)) :
    ∃ t, commit img path im s = .ok (0, t) := by
  refine ⟨⟨s.fs, m, s.outstanding, ⟨im.pgdir, im.sz, programName path, im.eip, im.esp⟩⟩, ?_⟩
  rw [commit, run_bind (get_run s), run_bind (modify_run _ s)]
  exact run_bind (zoom_run h)

/-! What a run of exec() is made of -/

/-- In the middle of exec(), with the references in `tmp`, the locks in `L` and `n` operations of
its own in the log. -/
structure During (s : State) (tmp L : List ℕ) (n : ℤ) (u : State) : Prop where
  fs : At s.fs tmp L u.fs
  log : u.outstanding = s.outstanding + n
  caller : u.caller = s.caller

/-- The end of exec(), where it has built `r` with the memory `m`. -/
inductive Ended (img : KernelImage) (path : Path) (s : State) (m : Kmem) :
    Option Image → ℤ → State → Prop where
  | failed {t : State} (caller : t.caller = s.caller) (kmem : t.kmem = m) : Ended img path s m none (-1) t
  | installed {t : State} (im : Image)
      (caller : t.caller = ⟨im.pgdir, im.sz, programName path, im.eip, im.esp⟩)
      (kmem : freevm img s.caller.pgdir m = .ok ((), t.kmem)) : Ended img path s m (some im) 0 t

/-- The file system and the log are as before, and the memory has seen the steps of
UserProcesses.exec(). -/
structure Returned (img : KernelImage) (path : Path) (argv : List (List Byte)) (s : State) (r : ℤ)
    (t : State) : Prop where
  fs : At s.fs [] [] t.fs
  log : t.outstanding = s.outstanding
  image : ∃ file x m, UserProcesses.exec img file argv s.kmem = .ok (x, m) ∧
    Ended img path s m x r t

section Runs

variable {α : Type} {tmp tmp' L L' : List ℕ} {n : ℤ} {i : ℕ} {file : Option Reader}

/-- A run that faults does not return. -/
abbrev Returns (c : ExecCode α) (Q : α → State → Prop) (s : State) : Prop :=
  wp c Q (fun _ => True) s

theorem During.onFs {c : FsCode α} {tmp' : α → List ℕ} (h : During s tmp L n u)
    (hc : Does c (fun a v => At s.fs (tmp' a) L' v) u.fs) :
    Returns (ExecCall.onFs c) (fun a v => During s (tmp' a) L' n v ∧ v.kmem = u.kmem) u := by
  apply zoom_wp
  refine wp_mono hc ?_
  intro a v hv
  exact ⟨⟨hv, h.log, h.caller⟩, rfl⟩

theorem During.onKmem {c : VM α} (h : During s tmp L n u) : Returns (ExecCall.onKmem c)
    (fun a v => During s tmp L n v ∧ c u.kmem = .ok (a, v.kmem)) u := by
  unfold Returns wp ExecCall.onKmem zoom
  cases hc : c u.kmem with
  | error e => trivial
  | ok x => exact ⟨⟨h.fs, h.log, h.caller⟩, rfl⟩

theorem endOp_during (h : During s tmp L 1 u) :
    Returns endOp (fun _ v => During s tmp L 0 v ∧ v.kmem = u.kmem) u := by
  apply wp_of_run (modify_run _ u)
  refine ⟨⟨h.fs, ?_, h.caller⟩, rfl⟩
  have hlog := h.log
  dsimp only
  omega

theorem iunlockput_during (hm : Mid [] [] s.fs) (h : During s [i] [i] n u) :
    Returns (onFs (iunlockput i)) (fun _ v => During s [] [] n v ∧ v.kmem = u.kmem) u := by
  have hput := h.fs.iunlockput List.mem_cons_self (Kept.of_mid hm [] i)
  rw [List.erase_cons_head] at hput
  exact h.onFs hput

theorem release_during (hm : Mid [] [] s.fs) (h : During s [i] [i] 1 u) :
    Returns (release (some i)) (fun _ v => During s [] [] 0 v ∧ v.kmem = u.kmem) u := by
  apply wp_bind
  refine wp_mono (iunlockput_during hm h) ?_
  rintro - v ⟨hv, hkmem⟩
  refine wp_mono (endOp_during hv) ?_
  rintro - w ⟨hw, hkmem'⟩
  exact ⟨hw, hkmem'.trans hkmem⟩

/-- `bad` while the inode is locked. -/
theorem bad_returned {d : Option PageDir} (hm : Mid [] [] s.fs) (h : During s [i] [i] 1 u)
    (hrun : UserProcesses.exec img file argv s.kmem =
      (freePgdir img d >>= fun _ => pure none) u.kmem) :
    Returns (bad img d (some i)) (Returned img path argv s) u := by
  apply wp_bind
  refine wp_mono h.onKmem ?_
  rintro ⟨⟩ v ⟨hv, hfree⟩
  rw [run_bind hfree] at hrun
  apply wp_bind
  refine wp_mono (release_during hm hv) ?_
  rintro - w ⟨hw, hkmem⟩
  refine wp_pure ⟨hw.fs, ?_, file, none, v.kmem, hrun, .failed hw.caller hkmem⟩
  rw [hw.log, add_zero]

theorem commit_returned {im : Image} (h : During s [] [] 0 u)
    (hrun : UserProcesses.exec img file argv s.kmem = .ok (some im, u.kmem)) :
    Returns (commit img path im) (Returned img path argv s) u := by
  have hlog := h.log
  rw [add_zero] at hlog
  apply wp_bind_run (get_run u)
  apply wp_bind_run (modify_run _ u)
  apply wp_bind
  apply zoom_wp
  rw [h.caller]
  unfold wp
  cases hfree : freevm img s.caller.pgdir u.kmem with
  | error e => trivial
  | ok x =>
    obtain ⟨⟨⟩, m⟩ := x
    exact ⟨h.fs, hlog, file, some im, u.kmem, hrun, .installed im rfl hfree⟩

/-- From setupkvm() on. -/
theorem loaded_returned {elf : ElfHdr} (hm : Mid [] [] s.fs) (h : During s [i] [i] 1 u)
    (hrun : UserProcesses.exec img file argv s.kmem = ((do
      match ← setupkvm img with
      | none => pure none
      | some d =>
        match ← loadSegments img (readi i) elf.phnum.toNat elf.phoff d 0 with
        | (d, none) => UserProcesses.bad img d
        | (d, some sz) => buildStack img argv elf.entry d sz) : VM (Option Image)) u.kmem) :
    Returns (do
      match ← onKmem (setupkvm img) with
      | none => bad img none (some i)
      | some d => do
        let (d, r) ← onKmem (loadSegments img (readi i) elf.phnum.toNat elf.phoff d 0)
        match r with
        | none => bad img (some d) (some i)
        | some sz => do
          onFs (iunlockput i)
          endOp
          match ← onKmem (buildStack img argv elf.entry d sz) with
          | none => pure (-1)
          | some im => commit img path im) (Returned img path argv s) u := by
  apply wp_bind
  refine wp_mono h.onKmem ?_
  rintro r v ⟨hv, hsetup⟩
  rw [run_bind hsetup] at hrun
  cases r with
  | none => exact bad_returned hm hv hrun
  | some d =>
    apply wp_bind
    refine wp_mono hv.onKmem ?_
    rintro ⟨e, n⟩ w ⟨hw, hload⟩
    dsimp only at hrun
    rw [run_bind hload] at hrun
    cases n with
    | none => exact bad_returned hm hw hrun
    | some sz =>
      dsimp only at hrun ⊢
      generalize buildStack img argv elf.entry e sz = build at hrun ⊢
      apply wp_bind
      refine wp_mono (iunlockput_during hm hw) ?_
      rintro - x ⟨hx, hkmem⟩
      apply wp_bind
      refine wp_mono (endOp_during hx) ?_
      rintro - y ⟨hy, hkmem'⟩
      rw [← hkmem, ← hkmem'] at hrun
      apply wp_bind
      refine wp_mono hy.onKmem ?_
      rintro o z ⟨hz, hbuild⟩
      rw [hbuild] at hrun
      cases o with
      | none =>
        refine wp_pure ⟨hz.fs, ?_, file, none, z.kmem, hrun, .failed hz.caller rfl⟩
        rw [hz.log, add_zero]
      | some im => exact commit_returned hz hrun

theorem exec_returned (hm : Mid [] [] s.fs) (readi : ℕ → Reader) (p : Fin KernelParams.NPROC)
    (path : Path) (argv : List (List Byte)) :
    Returns (exec img readi p path argv) (Returned img path argv s) s := by
  apply wp_bind_run (modify_run _ s)
  have hstart : During s [] [] 1 { s with outstanding := s.outstanding + 1 } :=
    ⟨At.start hm, rfl, rfl⟩
  apply wp_bind
  refine wp_mono (hstart.onFs (namei_does hm path)) ?_
  rintro r u ⟨hu, hkmem⟩
  cases r with
  | none =>
    apply wp_bind
    refine wp_mono (endOp_during hu) ?_
    rintro - v ⟨hv, hkmem'⟩
    refine wp_pure ⟨hv.fs, ?_, none, none, s.kmem, rfl, .failed hv.caller (hkmem'.trans hkmem)⟩
    rw [hv.log, add_zero]
  | some i =>
    apply wp_bind
    refine wp_mono (hu.onFs (wp_mono (hu.fs.ilock List.mem_cons_self) fun _ _ h => h.1)) ?_
    rintro - v ⟨hv, hkmem'⟩
    obtain ⟨y, hy⟩ : ∃ y, UserProcesses.exec img (some (readi i)) argv s.kmem = y := ⟨_, rfl⟩
    have hstep : y = UserProcesses.exec img (some (readi i)) argv v.kmem := by
      rw [hkmem', hkmem]
      exact hy.symm
    rw [UserProcesses.exec] at hstep
    cases hread : readAll (readi i) 0 52 with
    | none =>
      rw [hread] at hstep
      exact bad_returned hm hv (hy.trans hstep)
    | some bs =>
      rw [hread] at hstep
      dsimp only at hstep ⊢
      by_cases hmagic : (decodeElf bs).magic ≠ ELF_MAGIC
      · rw [if_pos hmagic] at hstep ⊢
        exact bad_returned hm hv (hy.trans hstep)
      · rw [if_neg hmagic] at hstep ⊢
        exact loaded_returned hm hv (hy.trans hstep)

end Runs

/-! A failed call -/

/-- `caller` has the page table, the size, the name and the trap frame, and `tree` the descriptors. -/
structure Unchanged (s t : State) : Prop where
  caller : t.caller = s.caller
  tree : SameTree s.fs t.fs
  refs : t.fs.ref = s.fs.ref
  held : t.fs.held = s.fs.held
  log : t.outstanding = s.outstanding
  free : t.kmem.freelist.Perm s.kmem.freelist
  memory : ∀ f ∉ s.kmem.freelist, t.kmem.mem f = s.kmem.mem f
  user : ∀ va, va < KERNBASE → s.caller.pgdir.present va →
    byteAt t.kmem (phys s.caller.pgdir va) = byteAt s.kmem (phys s.caller.pgdir va)

/-- exec() of any file, for every argument vector and every pattern of kalloc() failures: when it
returns -1, everything is as it was before. -/
theorem failed_exec_unchanged (hs : Sane img s.kmem) (hfs : Mid [] [] s.fs)
    (hown : ∀ f, Holds s.caller.pgdir f → f ∉ s.kmem.freelist)
    (hrun : exec img readi p path argv s = .ok (-1, t)) : Unchanged s t := by
  obtain ⟨hat, hlog, file, x, m, himage, hend⟩ :=
    wp_ok (exec_returned hfs readi p path argv) hrun
  have hbuilt := exec_run hs file argv
  rw [himage] at hbuilt
  cases hend with
  | failed hcaller hkmem =>
    cases hbuilt with
    | ends hback =>
      obtain ⟨hfree, hmem⟩ : Restored s.kmem m := hback
      rw [← hkmem] at hfree hmem
      refine ⟨hcaller, hat.tree, ?_, ?_, hlog, hfree, hmem, ?_⟩
      · funext i
        rw [hat.mid.refs, hfs.refs, hat.tree.holders_eq]
      · rw [hat.mid.held, hfs.held]
      · intro va hva hpres
        have hkept : t.kmem.mem (phys s.caller.pgdir va).1 = s.kmem.mem (phys s.caller.pgdir va).1 :=
          hmem _ (hown _ (holds_page hva hpres))
        rw [byteAt, byteAt, hkept]

/-- A process of two pages, and a free list of two that gives only the first. -/
def shortOfPages : State where
  fs := crowded
  kmem := ⟨[0x500, 0x501], [false, true], fun _ => zeros⟩
  outstanding := 0
  caller := ⟨twoPages, 8192, ['i', 'n', 'i', 't'], 0, 8000⟩

theorem shortOfPages_run : ∃ t, exec smallKernel (fun _ => fileReader hostile)
    DirectoryTree.initproc ['/'] [] shortOfPages = .ok (-1, t) := by
  have hout : (exec smallKernel (fun _ => fileReader hostile) DirectoryTree.initproc ['/'] []
      shortOfPages).toOption.map Prod.fst = some (-1) := by decide +kernel
  obtain ⟨r, t, hrun, hr⟩ := run_of_some hout
  cases hr
  exact ⟨t, hrun⟩

theorem failed_exec_unchanged_short : ∃ t, exec smallKernel (fun _ => fileReader hostile)
    DirectoryTree.initproc ['/'] [] shortOfPages = .ok (-1, t) ∧ Unchanged shortOfPages t := by
  obtain ⟨t, hrun⟩ := shortOfPages_run
  have hsane : Sane smallKernel shortOfPages.kmem := ⟨freePages_usable, by decide⟩
  exact ⟨t, hrun, failed_exec_unchanged hsane crowded_mid twoPages_holds hrun⟩

end ExecCall
