import OsEngineering.UserProcessSteps

/-! The size of a process and its page table under the lazy sys_sbrk(), which moves the one
without the other. -/
namespace LazySbrk

open KernelParams ByteBlock FaultState PageTables PageTableMappings PageTableFaults
open UserProcesses UserProcessSteps TransitionSystem

/-- Kernel mode can touch the `n` bytes from `addr` on without a page fault. -/
def Touchable (d : PageDir) (addr : Word) (n : ℕ) : Prop :=
  ∀ va : Word, addr.toNat ≤ va.toNat → va.toNat < addr.toNat + n → d.present va

/-- Every page of [0, sz) is present, and with it all that the system calls accept. -/
structure Mapped (p : Proc) : Prop where
  pages : ∀ va, va < p.sz → p.pgdir.present va
  fetchint_runs : ∀ addr m f, fetchint p addr m ≠ .error f
  fetchint_range : ∀ addr m v m', fetchint p addr m = .ok (some v, m') →
    Touchable p.pgdir addr 4
  fetchstr_runs : ∀ addr m f, fetchstr p addr m ≠ .error f
  fetchstr_range : ∀ addr m len m', fetchstr p addr m = .ok (some len, m') →
    Touchable p.pgdir addr (len.toNat + 1)
  argptr_runs : ∀ esp n size m f, argptr p esp n size m ≠ .error f
  argptr_range : ∀ esp n size m i m', argptr p esp n size m = .ok (some i, m') →
    Touchable p.pgdir i size.toNat

structure Sound (s : State) : Prop where
  mapped : ∀ q p, s.procs q = some p → Mapped p
  no_panic : ∀ f, s.halted = some f → ¬ CopyPanic f

/-- sbrk() stays within the pages that exec(), fork() or userinit() built the page table
for. -/
def WithinBuilt (s : State) (e : Event) : Prop :=
  ∀ q n cur, e = .sbrk q n → s.procs q = some cur →
    0 ≤ cur.sz.toNat + n.toInt ∧ cur.sz.toNat + n.toInt ≤ up cur.built.toNat

/-! Argument fetching -/

theorem load_present {d : PageDir} {va : Word} (h : d.present va) (m : Kmem) :
    load d va m = .ok (byte (m.mem (frameAt (PTE_ADDR (d.pte va)))) (va.toNat % 4096), m) := by
  unfold load
  rw [if_pos h]
  rfl

section Fetch

variable {p : Proc} (h : ∀ va, va < p.sz → p.pgdir.present va)
  (hsz : p.sz.toNat < KERNBASE.toNat)

include h hsz

theorem fetchint_ok (addr : Word) (m : Kmem) :
    ∃ r, fetchint p addr m = .ok (r, m) ∧ ∀ v, r = some v → addr.toNat + 4 ≤ p.sz.toNat := by
  unfold fetchint
  split
  · exact ⟨none, rfl, fun v hv => by cases hv⟩
  next hin =>
    have hbase : KERNBASE.toNat = 2147483648 := rfl
    obtain ⟨hlo, hhi⟩ := not_or.mp hin
    rw [BitVec.le_def, Nat.not_le] at hlo
    rw [BitVec.lt_def, Nat.not_lt] at hhi
    have hsum : (addr + 4).toNat = addr.toNat + 4 := by bv_omega
    have hbyte : ∀ k : Word, k.toNat < 4 → p.pgdir.present (addr + k) := by
      intro k hk
      refine h _ ?_
      rw [BitVec.lt_def, BitVec.toNat_add]
      omega
    have h0 : p.pgdir.present addr := h addr (BitVec.lt_def.mpr hlo)
    rw [run_bind (load_present h0 m), run_bind (load_present (hbyte 1 (by decide)) m),
      run_bind (load_present (hbyte 2 (by decide)) m),
      run_bind (load_present (hbyte 3 (by decide)) m)]
    exact ⟨_, rfl, fun v _ => by omega⟩

omit hsz in
theorem scan_ok {k : ℕ} {s : Word} (m : Kmem) (hk : p.sz.toNat ≤ s.toNat + k) :
    ∃ r, scan p.pgdir p.sz k s m = .ok (r, m) ∧
      ∀ e, r = some e → s.toNat ≤ e.toNat ∧ e.toNat < p.sz.toNat := by
  induction k generalizing s with
  | zero =>
    have hlt : ¬ s < p.sz := by
      rw [BitVec.lt_def]
      omega
    unfold scan
    rw [if_neg hlt]
    exact ⟨none, rfl, fun e he => by cases he⟩
  | succ k ih =>
    unfold scan
    split
    next hlt =>
      rw [run_bind (load_present (h s hlt) m)]
      rw [BitVec.lt_def] at hlt
      split
      · refine ⟨some s, rfl, fun e he => ?_⟩
        cases he
        exact ⟨Nat.le_refl _, hlt⟩
      · have hnext : (s + 1).toNat = s.toNat + 1 := by bv_omega
        obtain ⟨r, hr, hrange⟩ := ih (s := s + 1) (by omega)
        refine ⟨r, hr, fun e he => ?_⟩
        have := hrange e he
        omega
    · exact ⟨none, rfl, fun e he => by cases he⟩

omit hsz in
theorem fetchstr_ok (addr : Word) (m : Kmem) :
    ∃ r, fetchstr p addr m = .ok (r, m) ∧
      ∀ len, r = some len → addr.toNat + len.toNat < p.sz.toNat := by
  unfold fetchstr
  split
  · exact ⟨none, rfl, fun len hlen => by cases hlen⟩
  next hlo =>
    rw [BitVec.le_def, Nat.not_le] at hlo
    have hfuel : p.sz.toNat ≤ addr.toNat + (p.sz - addr).toNat := by
      rw [BitVec.toNat_sub_of_le (BitVec.le_def.mpr (Nat.le_of_lt hlo))]
      omega
    obtain ⟨r, hr, hrange⟩ := scan_ok h m hfuel
    rw [run_bind hr]
    cases r with
    | none => exact ⟨none, rfl, fun len hlen => by cases hlen⟩
    | some e =>
      obtain ⟨hle, hlt⟩ := hrange e rfl
      refine ⟨some (e - addr), rfl, fun len hlen => ?_⟩
      cases hlen
      rw [BitVec.toNat_sub_of_le (BitVec.le_def.mpr hle)]
      omega

theorem argptr_ok (esp n size : Word) (m : Kmem) :
    ∃ r, argptr p esp n size m = .ok (r, m) ∧
      ∀ i, r = some i → i.toNat + size.toNat ≤ p.sz.toNat := by
  unfold argptr argint
  obtain ⟨r, hr, -⟩ := fetchint_ok h hsz (esp + 4 + 4 * n) m
  rw [run_bind hr]
  cases r with
  | none => exact ⟨none, rfl, fun i hi => by cases hi⟩
  | some i =>
    dsimp only
    split
    · exact ⟨none, rfl, fun i hi => by cases hi⟩
    next hin =>
      refine ⟨some i, rfl, fun j hj => ?_⟩
      cases hj
      obtain ⟨hneg, hin⟩ := not_or.mp hin
      obtain ⟨hlo, hhi⟩ := not_or.mp hin
      have hbase : KERNBASE.toNat = 2147483648 := rfl
      rw [BitVec.le_def, Nat.not_le] at hlo
      rw [BitVec.lt_def, Nat.not_lt] at hhi
      have hsize : size.toNat < 2 ^ 31 := by
        rw [BitVec.toInt_eq_toNat_cond] at hneg
        split at hneg <;> omega
      rw [BitVec.toNat_add] at hhi
      omega

/-- Present pages below a size under KERNBASE are all that the argument fetchers need. -/
theorem mapped_of_pages : Mapped p := by
  have hrange : ∀ (addr : Word) (n : ℕ), addr.toNat + n ≤ p.sz.toNat →
      Touchable p.pgdir addr n := by
    intro addr n hle va _ hhi
    exact h va (BitVec.lt_def.mpr (by omega))
  constructor
  · exact h
  · intro addr m f herr
    obtain ⟨r, hr, -⟩ := fetchint_ok h hsz addr m
    rw [hr] at herr
    cases herr
  · intro addr m v m' hok
    obtain ⟨r, hr, hin⟩ := fetchint_ok h hsz addr m
    rw [hr] at hok
    cases hok
    exact hrange addr 4 (hin v rfl)
  · intro addr m f herr
    obtain ⟨r, hr, -⟩ := fetchstr_ok h addr m
    rw [hr] at herr
    cases herr
  · intro addr m len m' hok
    obtain ⟨r, hr, hin⟩ := fetchstr_ok h addr m
    rw [hr] at hok
    cases hok
    exact hrange addr (len.toNat + 1) (hin len rfl)
  · intro esp n size m f herr
    obtain ⟨r, hr, -⟩ := argptr_ok h hsz esp n size m
    rw [hr] at herr
    cases herr
  · intro esp n size m i m' hok
    obtain ⟨r, hr, hin⟩ := argptr_ok h hsz esp n size m
    rw [hr] at hok
    cases hok
    exact hrange i size.toNat (hin i rfl)

end Fetch

/-! Sizes -/

/-- The page table covers the size exactly if the size stayed within what it was built for. -/
theorem mapped_iff {p : Proc} (hb : WellBuilt p.pgdir p.built) :
    Mapped p ↔ p.sz.toNat ≤ up p.built.toNat := by
  obtain ⟨hexact, hlow⟩ := hb
  constructor
  · intro hm
    by_contra hlt
    -- the first page behind the built ones
    have hva : (BitVec.ofNat 32 (up p.built.toNat)).toNat = up p.built.toNat := by
      have hbase : KERNBASE.toNat = 2147483648 := rfl
      rw [BitVec.toNat_ofNat]
      omega
    have hpres := hm.pages (BitVec.ofNat 32 (up p.built.toNat)) (by
      rw [BitVec.lt_def, hva]
      omega)
    rw [hexact _ (by rw [BitVec.lt_def, hva]; exact hlow), hva] at hpres
    exact Nat.lt_irrefl _ hpres
  · intro hle
    refine mapped_of_pages (fun va hva => ?_) (by omega)
    rw [BitVec.lt_def] at hva
    exact (hexact va (by rw [BitVec.lt_def]; omega)).mpr (by omega)

theorem sum_within {sz n : Word} {b : ℕ} (h : sz.toNat ≤ b) (hb : b < KERNBASE.toNat) :
    (sz + n).toNat ≤ b ↔ 0 ≤ sz.toNat + n.toInt ∧ sz.toNat + n.toInt ≤ b := by
  have hbase : KERNBASE.toNat = 2147483648 := rfl
  have hn := n.isLt
  rw [BitVec.toNat_add, BitVec.toInt_eq_toNat_cond]
  split <;> omega

variable {img : KernelImage}

theorem step_wellBuilt {s t : State} {e : Event} (h : (machine img).Step s e t)
    (hs : ∀ q p, s.procs q = some p → WellBuilt p.pgdir p.built) {q : Slot} {p : Proc}
    (hp : t.procs q = some p) : WellBuilt p.pgdir p.built := by
  cases origin h hp with
  | kept old hold hd _ hb =>
    rw [hd, hb]
    exact hs q old hold
  | sbrk cur n _ hcur hd _ hb =>
    rw [hd, hb]
    exact hs q cur hcur
  | forked r cur m t _ hcur hc _ hb =>
    obtain ⟨hexact, hlow⟩ := hs r cur hcur
    have hmod : up cur.built.toNat % 4096 = 0 := by
      unfold up
      omega
    obtain ⟨hle, hd⟩ := copyuvm_ok hc hexact hmod hlow
    rw [hb]
    refine ⟨hd, lt_of_le_of_lt ?_ hlow⟩
    unfold up at *
    omega
  | execed file argv im m t _ hc hd _ hb =>
    rw [hd, hb]
    exact exec_ok hc

theorem step_sound_iff {s t : State} {e : Event}
    (hs : ∀ q p, s.procs q = some p → WellBuilt p.pgdir p.built) (hsound : Sound s)
    (h : (machine img).Step s e t) : Sound t ↔ WithinBuilt s e := by
  have hwell : ∀ {q p}, t.procs q = some p → WellBuilt p.pgdir p.built :=
    fun hp => step_wellBuilt h hs hp
  constructor
  · rintro ht q n cur rfl hcur
    have hput : t.procs q = some { cur with sz := cur.sz + n } := by
      obtain ⟨-, rfl⟩ := h
      simp [machine, next, Event.caller, hcur, sysSbrk, State.put]
    have hle := (mapped_iff (hs q cur hcur)).mp (hsound.mapped q cur hcur)
    exact (sum_within hle (hs q cur hcur).low).mp
      ((mapped_iff (hwell hput)).mp (ht.mapped q _ hput))
  · intro hok
    constructor
    · intro q p hp
      rw [mapped_iff (hwell hp)]
      cases origin h hp with
      | kept old hold hd hz hb =>
        rw [hz, hb, ← mapped_iff (hs q old hold)]
        exact hsound.mapped q old hold
      | sbrk cur n he hcur hd hz hb =>
        have hle := (mapped_iff (hs q cur hcur)).mp (hsound.mapped q cur hcur)
        rw [hz, hb]
        exact (sum_within hle (hs q cur hcur).low).mpr (hok q n cur he hcur)
      | forked r cur m t _ hcur hc hz hb =>
        rw [hz, hb]
        unfold up
        omega
      | execed file argv im m t _ hc hd hz hb =>
        rw [hz, hb]
        unfold up
        omega
    · intro f hf hpanic
      obtain ⟨r, cur, m, -, hcur, herr⟩ := copyPanic_origin h hf hpanic
      exact spared_copyuvm img (hsound.mapped r cur hcur).pages m f herr hpanic

theorem initial_sound {s : State} (h : Initial img s) : Sound s := by
  constructor
  · intro q p hp
    obtain ⟨hb, hz, hbuilt⟩ := initial_proc h hp
    rw [mapped_iff hb, hz, hbuilt]
    decide
  · obtain ⟨_, _, _, _, _, _, _, _, _, _, hhalt⟩ := h
    simp [hhalt]

/-- From boot on, every process keeps its memory mapped, and fork() does not panic, exactly
in the runs in which no sbrk() leaves the part its page table was built for. -/
theorem mapped_iff_within_built {s₀ s : State} {es : List Event} (h₀ : Initial img s₀)
    (r : Run (machine img).Step (· = s₀) es s) :
    (∀ fs t, fs <+: es → Run (machine img).Step (· = s₀) fs t → Sound t) ↔
      Run (Guarded (machine img).Step WithinBuilt) (· = s₀) es s :=
  Machine.always_iff_guarded
    (I := fun s => ∀ q p, s.procs q = some p → WellBuilt p.pgdir p.built)
    (fun _ _ hp => (initial_proc h₀ hp).1) (initial_sound h₀)
    (fun _ _ _ hs hstep _ _ hp => step_wellBuilt hstep hs hp)
    (fun _ _ _ hs hsound hstep => step_sound_iff hs hsound hstep) r

theorem shrunk_stays_mapped :
    ∃ s₀ s, Initial pc s₀ ∧ Run (machine pc).Step (· = s₀) [.sbrk initproc (-1000)] s ∧
      Sound s := by
  obtain ⟨s₀, proc, h₀, hrun, hprocs, -, -, hsz, hbuilt, hz⟩ := pc_initial
  have hcur : s₀.procs initproc = some proc := by simp [hprocs]
  have hok : WithinBuilt s₀ (.sbrk initproc (-1000)) := by
    intro q n cur he hq
    cases he
    obtain rfl : proc = cur := Option.some.inj (hcur.symm.trans hq)
    rw [hsz, hbuilt]
    decide
  have hvalid : ((machine pc).guard WithinBuilt).Valid s₀ [.sbrk initproc (-1000)] :=
    ⟨⟨hok, hrun, proc, hcur, hz⟩, trivial⟩
  have r := hvalid.guarded_run
  exact ⟨s₀, _, h₀, r.unguarded,
    (mapped_iff_within_built h₀ r.unguarded).mpr r _ _ (List.prefix_refl _) r.unguarded⟩

/-! The failing run: grow by a page, then fork. -/

theorem table_of_present {d : PageDir} {va : Word} (h : d.present va) :
    (d.pde (PDX va)).isSome := by
  cases hpde : d.pde (PDX va) with
  | some t => rfl
  | none => simp [PageDir.present, PageDir.pte, hpde] at h

/-- A round of copyuvm() over a present page, with memory to spare. -/
theorem copyFrom_round (img : KernelImage) {pgdir d : PageDir} {sz i : Word} {n k : ℕ} {s : Kmem}
    (h : Enough (n + 1) d s) (hlt : i < sz) (hi : i.toNat % 4096 = 0)
    (hp : pgdir.present i) (hfree : ¬ d.present i) :
    ∃ e t, copyFrom img pgdir sz (k + 1) d i s = copyFrom img pgdir sz k e (i + PGSIZE) t := by
  have hlen := h.free
  obtain ⟨f, fs, hfs, hk⟩ := kalloc_enough h.calm (by omega)
  have hget : (get : VM Kmem) { s with freelist := fs } =
      .ok ({ s with freelist := fs }, { s with freelist := fs }) := rfl
  have hfill : ∀ v, fill f v { s with freelist := fs } =
      .ok ((), { s with freelist := fs, mem := Function.update s.mem f v }) := fun _ => rfl
  have h' : ∀ v, Enough n d { s with freelist := fs, mem := Function.update s.mem f v } := by
    intro v
    rw [hfs, List.length_cons] at hlen
    exact ⟨h.calm, by simp only; omega⟩
  obtain ⟨e, t, hrun, -⟩ := page_enough i (V2P f) (PTE_FLAGS (pgdir.pte i))
    (h' (s.mem (frameAt (PTE_ADDR (pgdir.pte i))))) hi hfree
  refine ⟨e, t, ?_⟩
  rw [copyFrom, if_pos hlt, walkpgdir_false, if_pos (table_of_present hp), pure_bind]
  dsimp only
  rw [if_neg (not_not.mpr hp), run_bind hk]
  dsimp only
  rw [run_bind hget, run_bind (hfill _), run_bind hrun]
  rfl

theorem copyFrom_missing {pgdir d : PageDir} {sz i : Word} {k : ℕ} {s : Kmem} (hlt : i < sz)
    (ht : (pgdir.pde (PDX i)).isSome) (hp : ¬ pgdir.present i) :
    copyFrom img pgdir sz (k + 1) d i s = .error (.panic "copyuvm: page not present") := by
  rw [copyFrom, if_pos hlt, walkpgdir_false, if_pos ht, pure_bind]
  dsimp only
  rw [if_pos hp]
  rfl

/-- One page mapped, a second one counted: with memory to spare the copy fails there. -/
theorem copyuvm_panics (img : KernelImage) {pgdir : PageDir} {sz : Word} {s : Kmem} (hc : s.refuse = [])
    (hf : 1026 ≤ s.freelist.length) (hd : Exact pgdir 4096) (hsz : PGSIZE < sz) :
    copyuvm img pgdir sz s = .error (.panic "copyuvm: page not present") := by
  obtain ⟨d, t, hset, he⟩ := setupkvm_enough img (n := 1) hc hf
  have hzero : pgdir.present 0 := (hd 0 (by decide)).mpr (by decide)
  have hpage : ¬ pgdir.present (0 + PGSIZE) := fun hp =>
    absurd ((hd (0 + PGSIZE) (by decide)).mp hp) (by decide)
  have hfree : ¬ d.present 0 := fun hp =>
    absurd ((setupkvm_ok hset 0 (by decide)).mp hp) (Nat.not_lt_zero _)
  have hlt : (0 : Word) < sz := by
    rw [BitVec.lt_def] at hsz ⊢
    exact Nat.lt_of_le_of_lt (Nat.zero_le _) hsz
  have hbound : bound = 1048574 + 1 + 1 := rfl
  obtain ⟨e, u, hround⟩ := copyFrom_round img (k := 1048574 + 1) he hlt rfl hzero hfree
  unfold copyuvm
  rw [run_bind hset, hbound]
  dsimp only
  rw [hround]
  have htable : (pgdir.pde (PDX (0 + PGSIZE))).isSome := by
    have hsame : PDX (0 + PGSIZE) = PDX 0 := by decide
    rw [hsame]
    exact table_of_present hzero
  exact copyFrom_missing hsz htable hpage

theorem fork_halts {s : State} {p np : Slot} {cur : Proc} (hnp : unused s = some np)
    (hc : s.kmem.refuse = []) (hf : 1027 ≤ s.kmem.freelist.length)
    (hd : Exact cur.pgdir 4096) (hsz : PGSIZE < cur.sz) :
    (fork img s p cur).halted = some (.panic "copyuvm: page not present") := by
  obtain ⟨f, fs, hfs, hk⟩ := kalloc_enough hc (by omega)
  have hlen : 1026 ≤ fs.length := by
    rw [hfs, List.length_cons] at hf
    omega
  have hpanic := copyuvm_panics img (s := { s.kmem with freelist := fs }) hc hlen hd hsz
  have hcopy : copyProc img cur s.kmem = .error (.panic "copyuvm: page not present") := by
    unfold copyProc
    rw [run_bind hk]
    dsimp only
    rw [bind_run, hpanic]
  simp only [fork, hnp, State.call, hcopy]

theorem fork_after_sbrk_panics :
    ∃ s₀ s, Initial pc s₀ ∧
      Run (machine pc).Step (· = s₀) [.sbrk initproc 4096, .fork initproc] s ∧
      s.halted = some (.panic "copyuvm: page not present") := by
  obtain ⟨s₀, proc, h₀, hrun, hprocs, he, hb, hsz, hbuilt, hz⟩ := pc_initial
  have hcur : s₀.procs initproc = some proc := by simp [hprocs]
  have hgrown : (machine pc).next s₀ (.sbrk initproc 4096) =
      s₀.put initproc (some { proc with sz := proc.sz + 4096 }) := by
    simp [machine, next, Event.caller, hcur, sysSbrk]
  obtain ⟨np, hnp⟩ : ∃ np, unused (s₀.put initproc (some { proc with sz := proc.sz + 4096 })) =
      some np := by
    rw [← Option.isSome_iff_exists, unused, List.find?_isSome]
    have hne : (⟨1, by decide⟩ : Slot) ≠ initproc := by decide
    exact ⟨⟨1, by decide⟩, List.mem_finRange _, by simp [State.put, hprocs, hne]⟩
  have hvalid : (machine pc).Valid s₀ [.sbrk initproc 4096, .fork initproc] := by
    refine ⟨⟨hrun, proc, hcur, hz⟩, ?_, trivial⟩
    rw [hgrown]
    exact ⟨hrun, { proc with sz := proc.sz + 4096 }, by simp [State.put, Event.caller], hz⟩
  refine ⟨s₀, _, h₀, hvalid.run, ?_⟩
  have hlen := he.free
  have hexact : Exact proc.pgdir 4096 := hb.exact_pages
  have hbig : PGSIZE < proc.sz + 4096 := by
    rw [hsz]
    decide
  simp only [Machine.exec, List.foldl_cons, List.foldl_nil, hgrown]
  have hput : (s₀.put initproc (some { proc with sz := proc.sz + 4096 })).procs initproc =
      some { proc with sz := proc.sz + 4096 } := by simp [State.put]
  simp only [machine, next, Event.caller, hput]
  exact fork_halts hnp he.calm (by simp only [State.put]; omega) hexact hbig

end LazySbrk
