import OsEngineering.UserProcesses
import OsEngineering.PageTableFaults

/-! What one system call can do to the size and the page table of a process. -/
namespace UserProcessSteps

open KernelParams ByteBlock FaultState PageTables PageTableMappings PageTableFaults
open UserProcesses TransitionSystem

variable {img : KernelImage}

/-! exec() -/

theorem loadSegments_ok {readi : Reader} {k : ℕ} {off sz sz' : Word} {d d' : PageDir}
    {s t : Kmem} (h : loadSegments img readi k off d sz s = .ok ((d', some sz'), t))
    (hsz : sz < KERNBASE) (hd : Exact d (up sz.toNat)) :
    sz' < KERNBASE ∧ Exact d' (up sz'.toNat) := by
  induction k generalizing off d sz s with
  | zero =>
    obtain ⟨h, -⟩ := pure_ok h
    cases h
    exact ⟨hsz, hd⟩
  | succ k ih =>
    unfold loadSegments at h
    cases hr : readAll readi off 32 with
    | none =>
      rw [hr] at h
      cases (pure_ok h).1
    | some bs =>
      rw [hr] at h
      dsimp only at h
      split at h
      · exact ih h hsz hd
      split at h
      · cases (pure_ok h).1
      split at h
      · cases (pure_ok h).1
      obtain ⟨⟨e, size⟩, u, ha, h⟩ := bind_ok h
      dsimp only at h
      split at h
      · cases (pure_ok h).1
      next hne =>
      split at h
      · cases (pure_ok h).1
      obtain ⟨done, v, -, h⟩ := bind_ok h
      split at h
      · obtain ⟨hlow, -, he⟩ := allocuvm_ok ha hne hsz hd
        exact ih h hlow he
      · cases (pure_ok h).1

theorem bad_ok {d : PageDir} {s t : Kmem} {im : Image}
    (h : bad img d s = .ok (some im, t)) : False := by
  unfold bad at h
  obtain ⟨_, _, -, h⟩ := bind_ok h
  cases (pure_ok h).1

/-- The page table of an image and its size fit. -/
structure WellBuilt (d : PageDir) (sz : Word) : Prop where
  exact_pages : Exact d (up sz.toNat)
  low : up sz.toNat < KERNBASE.toNat

theorem allocStack_ok {d d' : PageDir} {sz r : Word} {s t : Kmem}
    (h : allocuvm img d (PGROUNDUP sz) (PGROUNDUP sz + 2 * PGSIZE) s = .ok ((d', r), t))
    (hr : r ≠ 0) (hsz : sz < KERNBASE) (hd : Exact d (up sz.toNat)) : WellBuilt d' r := by
  have hbase : KERNBASE.toNat = 2147483648 := rfl
  have htwo : (2 * PGSIZE).toNat = 8192 := rfl
  have hround := PGROUNDUP_toNat (Nat.le_of_lt hsz)
  have hlt : sz.toNat < KERNBASE.toNat := hsz
  have hsum : (PGROUNDUP sz + 2 * PGSIZE).toNat = up sz.toNat + 8192 := by
    rw [BitVec.toNat_add, htwo, hround]
    unfold up
    omega
  have hup : up (up sz.toNat) = up sz.toNat := by
    unfold up
    omega
  by_cases hlow : PGROUNDUP sz < KERNBASE
  · obtain ⟨hr', hnew, he⟩ := allocuvm_ok h hr hlow (by rwa [hround, hup])
    have hrN : r.toNat = up sz.toNat + 8192 := by
      rcases hnew with rfl | hnew
      · exact hsum
      · rw [BitVec.lt_def] at hnew
        omega
    have hlow' : up sz.toNat + 8192 < KERNBASE.toNat := hrN ▸ hr'
    have hmod : up (up sz.toNat + 8192) = up sz.toNat + 8192 := by
      unfold up
      omega
    exact ⟨he, by rw [hrN, hmod]; exact hlow'⟩
  · unfold allocuvm at h
    have hbig : KERNBASE ≤ PGROUNDUP sz + 2 * PGSIZE := by
      rw [BitVec.lt_def] at hlow
      rw [BitVec.le_def]
      omega
    rw [if_pos hbig] at h
    cases (pure_ok h).1
    exact absurd rfl hr

theorem buildStack_ok {argv : List (List Byte)} {entry sz : Word} {d : PageDir} {im : Image}
    {s t : Kmem} (h : buildStack img argv entry d sz s = .ok (some im, t))
    (hsz : sz < KERNBASE) (hd : Exact d (up sz.toNat)) : WellBuilt im.pgdir im.sz := by
  unfold buildStack at h
  obtain ⟨⟨e, size⟩, u, ha, h⟩ := bind_ok h
  dsimp only at h
  split at h
  · exact (bad_ok h).elim
  next hne =>
  have he := allocStack_ok ha hne hsz hd
  obtain ⟨f, v, hc, h⟩ := bind_ok h
  obtain ⟨r, w, -, h⟩ := bind_ok h
  cases r with
  | none => exact (bad_ok h).elim
  | some p =>
    obtain ⟨sp, ptrs⟩ := p
    obtain ⟨done, x, -, h⟩ := bind_ok h
    split at h
    · obtain ⟨h, -⟩ := pure_ok h
      cases h
      exact ⟨he.exact_pages.congr (clearpteu_ok hc), he.low⟩
    · exact (bad_ok h).elim

theorem exec_ok {file : Option Reader} {argv : List (List Byte)} {im : Image} {s t : Kmem}
    (h : exec img file argv s = .ok (some im, t)) : WellBuilt im.pgdir im.sz := by
  unfold exec at h
  cases file with
  | none => cases (pure_ok h).1
  | some readi =>
    dsimp only at h
    cases hr : readAll readi 0 52 with
    | none =>
      rw [hr] at h
      cases (pure_ok h).1
    | some bs =>
      rw [hr] at h
      dsimp only at h
      split at h
      · cases (pure_ok h).1
      obtain ⟨r, u, hs, h⟩ := bind_ok h
      cases r with
      | none => cases (pure_ok h).1
      | some d =>
        obtain ⟨⟨e, size⟩, v, hl, h⟩ := bind_ok h
        cases size with
        | none => exact (bad_ok h).elim
        | some sz =>
          obtain ⟨hsz, he⟩ := loadSegments_ok hl (by decide) (setupkvm_ok hs)
          exact buildStack_ok h hsz he

theorem spared_bad (d : PageDir) : Spared (bad img d) :=
  faults_bind (spared_freevm img d) fun _ => faults_pure _

theorem spared_exec (file : Option Reader) (argv : List (List Byte)) :
    Spared (exec img file argv) := by
  have hload : ∀ readi k off d sz, Spared (loadSegments img readi k off d sz) := by
    intro readi k
    induction k with
    | zero => exact fun off d sz => faults_pure _
    | succ k ih =>
      intro off d sz
      unfold loadSegments
      split
      · exact faults_pure _
      dsimp only
      split
      · exact ih _ _ _
      split
      · exact faults_pure _
      split
      · exact faults_pure _
      refine faults_bind (spared_allocuvm img _ _ _) fun r => ?_
      obtain ⟨e, size⟩ := r
      dsimp only
      split
      · exact faults_pure _
      split
      · exact faults_pure _
      refine faults_bind (spared_loaduvm _ _ _ _ _) fun done => ?_
      split
      · exact ih _ _ _
      · exact faults_pure _
  have hpush : ∀ d argc args sp, Spared (pushArgs d argc args sp) := by
    intro d argc args
    induction args generalizing argc with
    | nil => exact fun sp => faults_pure _
    | cons arg args ih =>
      intro sp
      unfold pushArgs
      split
      · exact faults_pure _
      refine faults_bind (spared_copyout _ _ _) fun done => ?_
      split
      · refine faults_bind (ih _ _) fun r => ?_
        cases r with
        | none => exact faults_pure _
        | some p => exact faults_pure _
      · exact faults_pure _
  have hstack : ∀ entry d sz, Spared (buildStack img argv entry d sz) := by
    intro entry d sz
    unfold buildStack
    refine faults_bind (spared_allocuvm img _ _ _) fun r => ?_
    obtain ⟨e, size⟩ := r
    dsimp only
    split
    · exact spared_bad _
    refine faults_bind (spared_clearpteu _ _) fun f => faults_bind (hpush _ _ _ _) fun r => ?_
    cases r with
    | none => exact spared_bad _
    | some p =>
      refine faults_bind (spared_copyout _ _ _) fun done => ?_
      split
      · exact faults_pure _
      · exact spared_bad _
  unfold exec
  split
  · exact faults_pure _
  split
  · exact faults_pure _
  dsimp only
  split
  · exact faults_pure _
  refine faults_bind (spared_setupkvm img) fun r => ?_
  cases r with
  | none => exact faults_pure _
  | some d =>
    refine faults_bind (hload _ _ _ _ _) fun r => ?_
    obtain ⟨e, size⟩ := r
    cases size with
    | none => exact spared_bad _
    | some sz => exact hstack _ _ _

/-! Steps -/

/-- Where a process of the next state has its size and its page table from. -/
inductive Origin (img : KernelImage) (s : State) (e : Event) (q : Slot) (p : Proc) : Prop where
  | kept (old : Proc) (h : s.procs q = some old) (hd : p.pgdir = old.pgdir)
      (hs : p.sz = old.sz) (hb : p.built = old.built)
  | sbrk (cur : Proc) (n : Word) (he : e = .sbrk q n) (h : s.procs q = some cur)
      (hd : p.pgdir = cur.pgdir) (hs : p.sz = cur.sz + n) (hb : p.built = cur.built)
  | forked (r : Slot) (cur : Proc) (m t : Kmem) (he : e = .fork r) (h : s.procs r = some cur)
      (hc : copyuvm img cur.pgdir cur.sz m = .ok (some p.pgdir, t)) (hs : p.sz = cur.sz)
      (hb : p.built = cur.sz)
  | execed (file : Option Reader) (argv : List (List Byte)) (im : Image) (m t : Kmem)
      (he : e = .exec q file argv) (hc : exec img file argv m = .ok (some im, t))
      (hd : p.pgdir = im.pgdir) (hs : p.sz = im.sz) (hb : p.built = im.sz)

theorem call_procs {α : Type} {s : State} {c : VM α} {k : State → α → State} {q : Slot}
    {p : Proc} (h : (s.call c k).procs q = some p) :
    s.procs q = some p ∨
      ∃ a m, c s.kmem = .ok (a, m) ∧ (k { s with kmem := m } a).procs q = some p := by
  unfold State.call at h
  cases hc : c s.kmem with
  | error f =>
    rw [hc] at h
    exact Or.inl h
  | ok r =>
    rw [hc] at h
    exact Or.inr ⟨r.1, r.2, rfl, h⟩

theorem put_procs {s : State} {r q : Slot} {o : Option Proc} {p : Proc}
    (h : (s.put r o).procs q = some p) : (q = r ∧ o = some p) ∨ s.procs q = some p := by
  unfold State.put at h
  by_cases hq : q = r
  · subst hq
    exact Or.inl ⟨rfl, by simpa using h⟩
  · exact Or.inr (by simpa [hq] using h)

theorem copyProc_ok {cur : Proc} {f : Frame} {d : PageDir} {s t : Kmem}
    (h : copyProc img cur s = .ok (some (f, d), t)) :
    ∃ m m', copyuvm img cur.pgdir cur.sz m = .ok (some d, m') := by
  unfold copyProc at h
  obtain ⟨r, u, -, h⟩ := bind_ok h
  cases r with
  | none => cases (pure_ok h).1
  | some kstack =>
    obtain ⟨r, v, hc, h⟩ := bind_ok h
    cases r with
    | none =>
      obtain ⟨_, _, -, h⟩ := bind_ok h
      cases (pure_ok h).1
    | some e =>
      obtain ⟨h, -⟩ := pure_ok h
      cases h
      exact ⟨u, v, hc⟩

theorem origin {s t : State} {e : Event} (h : (machine img).Step s e t) {q : Slot} {p : Proc}
    (hp : t.procs q = some p) : Origin img s e q p := by
  obtain ⟨⟨-, cur, hcur, -⟩, rfl⟩ := h
  have hkeep : s.procs q = some p → Origin img s e q p := fun h => .kept p h rfl rfl rfl
  simp only [machine, next, hcur] at hp
  cases e with
  | fork r =>
    simp only [fork] at hp
    split at hp
    · exact hkeep hp
    · rcases call_procs hp with hp | ⟨a, m, hc, hp⟩
      · exact hkeep hp
      · cases a with
        | none => exact hkeep hp
        | some pair =>
          obtain ⟨kstack, d⟩ := pair
          rcases put_procs hp with ⟨rfl, hnew⟩ | hp
          · obtain ⟨m₁, m₂, hcopy⟩ := copyProc_ok hc
            cases hnew
            exact .forked r cur m₁ m₂ rfl hcur hcopy rfl rfl
          · exact hkeep hp
  | exec r file argv =>
    rcases call_procs hp with hp | ⟨a, m, hc, hp⟩
    · exact hkeep hp
    · cases a with
      | none => exact hkeep hp
      | some im =>
        have hput : ∀ {u : Kmem}, (State.put { s with kmem := u } r (some
            { cur with pgdir := im.pgdir, sz := im.sz, built := im.sz })).procs q = some p →
            Origin img s (.exec r file argv) q p := by
          intro u hp
          rcases put_procs hp with ⟨rfl, hnew⟩ | hp
          · cases hnew
            exact .execed file argv im s.kmem m rfl hc rfl rfl rfl
          · exact hkeep hp
        rcases call_procs hp with hp | ⟨_, _, -, hp⟩
        · exact hput hp
        · exact hput hp
  | sbrk r n =>
    rcases put_procs hp with ⟨rfl, hnew⟩ | hp
    · cases hnew
      exact .sbrk cur n rfl hcur rfl rfl rfl
    · exact hkeep hp
  | exit r =>
    simp only [UserProcesses.exit] at hp
    split at hp
    · exact hkeep hp
    · obtain ⟨old, hold, hmap⟩ := Option.map_eq_some_iff.mp hp
      have hp' : p.pgdir = old.pgdir ∧ p.sz = old.sz ∧ p.built = old.built := by
        rw [← hmap]
        split <;> exact ⟨rfl, rfl, rfl⟩
      rcases put_procs hold with ⟨rfl, hnew⟩ | hold
      · cases hnew
        exact .kept cur hcur hp'.1 hp'.2.1 hp'.2.2
      · exact .kept old hold hp'.1 hp'.2.1 hp'.2.2
  | wait r =>
    simp only [wait] at hp
    split at hp
    · exact hkeep hp
    split at hp
    · exact hkeep hp
    rcases call_procs hp with hp | ⟨_, _, -, hp⟩
    · exact hkeep hp
    · rcases put_procs hp with ⟨-, hnone⟩ | hp
      · cases hnone
      · exact hkeep hp

theorem copyProc_error {cur : Proc} {f : Fault} {s : Kmem}
    (h : copyProc img cur s = .error f) (hf : CopyPanic f) :
    ∃ m, copyuvm img cur.pgdir cur.sz m = .error f := by
  unfold copyProc at h
  rcases bind_error h with h | ⟨r, u, -, h⟩
  · exact absurd hf (spared_kalloc _ _ h)
  cases r with
  | none => cases h
  | some kstack =>
    rcases bind_error h with h | ⟨r, v, -, h⟩
    · exact ⟨u, h⟩
    cases r with
    | none =>
      have hfree : Spared (do kfree img kstack; pure none : VM (Option (Frame × PageDir))) :=
        faults_bind (spared_kfree img kstack) fun _ => faults_pure _
      exact absurd hf (hfree _ _ h)
    | some d => cases h

theorem call_halted {α : Type} {s : State} {c : VM α} {k : State → α → State} {f : Fault}
    (h : (s.call c k).halted = some f) :
    c s.kmem = .error f ∨ ∃ a m, (k { s with kmem := m } a).halted = some f := by
  unfold State.call at h
  cases hc : c s.kmem with
  | error g =>
    rw [hc] at h
    cases h
    exact Or.inl rfl
  | ok r =>
    rw [hc] at h
    exact Or.inr ⟨r.1, r.2, h⟩

/-- A step that ends in a panic of copyuvm() is a fork. -/
theorem copyPanic_origin {s t : State} {e : Event} (h : (machine img).Step s e t) {f : Fault}
    (ht : t.halted = some f) (hf : CopyPanic f) :
    ∃ r cur m, e = .fork r ∧ s.procs r = some cur ∧
      copyuvm img cur.pgdir cur.sz m = .error f := by
  obtain ⟨⟨hrun, cur, hcur, -⟩, rfl⟩ := h
  have hnone : s.halted ≠ some f := by simp [hrun]
  simp only [machine, next, hcur] at ht
  cases e with
  | fork r =>
    simp only [fork] at ht
    split at ht
    · exact absurd ht hnone
    · rcases call_halted ht with herr | ⟨a, m, ht⟩
      · obtain ⟨m, herr⟩ := copyProc_error herr hf
        exact ⟨r, cur, m, rfl, hcur, herr⟩
      · cases a with
        | none => exact absurd ht hnone
        | some pair => exact absurd ht hnone
  | exec r file argv =>
    rcases call_halted ht with herr | ⟨a, m, ht⟩
    · exact absurd hf (spared_exec file argv _ _ herr)
    · cases a with
      | none => exact absurd ht hnone
      | some im =>
        rcases call_halted ht with herr | ⟨_, _, ht⟩
        · exact absurd hf (spared_freevm img _ _ _ herr)
        · exact absurd ht hnone
  | sbrk r n => exact absurd ht hnone
  | exit r =>
    simp only [UserProcesses.exit] at ht
    split at ht
    · cases ht
      exact absurd hf (by decide)
    · exact absurd ht hnone
  | wait r =>
    simp only [wait] at ht
    split at ht
    · exact absurd ht hnone
    split at ht
    · exact absurd ht hnone
    rcases call_halted ht with herr | ⟨_, _, ht⟩
    · have hfree : ∀ f d, Spared (do kfree img f; freevm img d) := fun f d =>
        faults_bind (spared_kfree img f) fun _ => spared_freevm img d
      exact absurd hf (hfree _ _ _ _ herr)
    · exact absurd ht hnone

/-! The first process -/

theorem userinit_enough (img : KernelImage) {n : ℕ} (initcode : Page) {s : Kmem}
    (hc : s.refuse = []) (hf : 1027 + n ≤ s.freelist.length) :
    ∃ proc t, userinit img initcode s = .ok (proc, t) ∧ Enough n proc.pgdir t ∧
      WellBuilt proc.pgdir proc.built ∧ proc.sz = PGSIZE ∧ proc.built = PGSIZE ∧
      proc.zombie = false := by
  obtain ⟨f, fs, hfs, hk⟩ := kalloc_enough hc (by omega)
  have hlen : 1025 + (n + 1) ≤ fs.length := by
    rw [hfs, List.length_cons] at hf
    omega
  obtain ⟨d, u, hs, hd⟩ := setupkvm_enough img (s := { s with freelist := fs }) hc hlen
  obtain ⟨e, t, hi, he, hexact⟩ := inituvm_enough initcode hd (setupkvm_ok hs)
  have hbuilt : WellBuilt e PGSIZE :=
    ⟨(by decide : up PGSIZE.toNat = 4096) ▸ hexact, by decide⟩
  refine ⟨⟨e, PGSIZE, f, none, false, PGSIZE⟩, t, ?_, he, hbuilt, rfl, rfl, rfl⟩
  unfold userinit
  rw [run_bind hk]
  dsimp only
  rw [run_bind hs]
  dsimp only
  rw [run_bind hi]
  rfl

theorem initial_proc {s : State} (h : Initial img s) {q : Slot} {p : Proc}
    (hp : s.procs q = some p) : WellBuilt p.pgdir p.built ∧ p.sz = PGSIZE ∧ p.built = PGSIZE := by
  obtain ⟨initcode, kmem, proc, m, hc, hf, hrun, -, -, hprocs, -⟩ := h
  obtain ⟨proc', t, hrun', -, hbuilt, hsz, hb, -⟩ :=
    userinit_enough img (n := 0) initcode hc hf
  rw [hrun'] at hrun
  cases hrun
  rw [hprocs] at hp
  by_cases hq : q = initproc
  · subst hq
    obtain rfl : proc = p := by simpa using hp
    exact ⟨hbuilt, hsz, hb⟩
  · simp [hq] at hp

/-- A machine with `n` pages left after userinit(). -/
theorem initial_exists (img : KernelImage) {n : ℕ} {m : Kmem} (hc : m.refuse = [])
    (hf : 1027 + n ≤ m.freelist.length) :
    ∃ s proc, Initial img s ∧ s.halted = none ∧
      s.procs = Function.update (fun _ => none) initproc (some proc) ∧
      Enough n proc.pgdir s.kmem ∧ WellBuilt proc.pgdir PGSIZE ∧ proc.sz = PGSIZE ∧
      proc.built = PGSIZE ∧ proc.zombie = false := by
  obtain ⟨proc, t, hrun, he, hb, hsz, hbuilt, hz⟩ := userinit_enough img zeros hc hf
  exact ⟨⟨t, Function.update (fun _ => none) initproc (some proc), none⟩, proc,
    ⟨zeros, m, proc, t, hc, by omega, hrun, rfl, rfl, rfl, rfl⟩, rfl, rfl, he, hbuilt ▸ hb,
    hsz, hbuilt, hz⟩

/-- A machine to run examples on: 16 MB of free memory from 4 MB on. -/
def pc : KernelImage := imageTo 0x8012A000

def pcMemory : Kmem :=
  ⟨(List.range 4096).map fun i => BitVec.ofNat 20 (1024 + i), [], fun _ => zeros⟩

theorem pc_initial :
    ∃ s proc, Initial pc s ∧ s.halted = none ∧
      s.procs = Function.update (fun _ => none) initproc (some proc) ∧
      Enough 3000 proc.pgdir s.kmem ∧ WellBuilt proc.pgdir PGSIZE ∧ proc.sz = PGSIZE ∧
      proc.built = PGSIZE ∧ proc.zombie = false :=
  initial_exists pc (m := pcMemory) rfl (by simp [pcMemory])

end UserProcessSteps
