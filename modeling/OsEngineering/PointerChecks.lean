import OsEngineering.UserProcessSteps
import Mathlib.Algebra.Group.Int.Defs

/-! The range checks of fetchint(), fetchstr() and argptr() against the size of a process,
which sys_sbrk() moves without a bound. -/
namespace PointerChecks

open KernelParams ByteBlock FaultState PageTables PageTableMappings PageTableFaults
open UserProcesses UserProcessSteps TransitionSystem

/-- What is accepted from the user lies below KERNBASE, and no sum of a check wraps. -/
structure Bounded (p : Proc) : Prop where
  sz : p.sz ≤ KERNBASE
  fetchint_sum : ∀ addr, addr < p.sz → (addr + 4).toNat = addr.toNat + 4
  fetchint_range : ∀ addr m, fetchint p addr m ≠ .ok (none, m) →
    addr.toNat + 4 ≤ KERNBASE.toNat
  fetchstr_range : ∀ addr m len m', fetchstr p addr m = .ok (some len, m') →
    addr.toNat + len.toNat + 1 ≤ KERNBASE.toNat
  argptr_sum : ∀ i size, i < p.sz → 0 ≤ size.toInt → (i + size).toNat = i.toNat + size.toNat
  argptr_range : ∀ esp n size m i m', argptr p esp n size m = .ok (some i, m') →
    i.toNat + size.toNat ≤ KERNBASE.toNat

def BelowKernel (s : State) : Prop := ∀ q p, s.procs q = some p → Bounded p

/-- `sz + n` as an integer is a size up to KERNBASE; from 0 the smallest int wraps to
KERNBASE itself. -/
def InBounds (sz n : Word) : Prop :=
  (0 ≤ sz.toNat + n.toInt ∧ sz.toNat + n.toInt ≤ KERNBASE.toNat) ∨
    (sz = 0 ∧ n.toInt = -(2 ^ 31))

instance (sz n : Word) : Decidable (InBounds sz n) := inferInstanceAs (Decidable (_ ∨ _))

def KeepsBelow (s : State) (e : Event) : Prop :=
  ∀ q n cur, e = .sbrk q n → s.procs q = some cur → InBounds cur.sz n

theorem inBounds_iff {sz n : Word} (h : sz ≤ KERNBASE) : sz + n ≤ KERNBASE ↔ InBounds sz n := by
  have hbase : KERNBASE.toNat = 2147483648 := rfl
  have hn := n.isLt
  have hzero : sz = 0 ↔ sz.toNat = 0 := by
    rw [← BitVec.toNat_inj]
    rfl
  rw [BitVec.le_def] at h ⊢
  unfold InBounds
  rw [BitVec.toNat_add, BitVec.toInt_eq_toNat_cond, hbase, hzero]
  split <;> omega

theorem size_lt {size : Word} (h : 0 ≤ size.toInt) : size.toNat < 2 ^ 31 := by
  rw [BitVec.toInt_eq_toNat_cond] at h
  split at h <;> omega

theorem scan_range {d : PageDir} {ep s e : Word} {k : ℕ} {m m' : Kmem}
    (h : scan d ep k s m = .ok (some e, m')) (hle : ep.toNat ≤ KERNBASE.toNat) :
    s.toNat ≤ e.toNat ∧ e.toNat < ep.toNat := by
  induction k generalizing s m with
  | zero =>
    unfold scan at h
    split at h
    · exact (throw_ok h).elim
    · cases (pure_ok h).1
  | succ k ih =>
    unfold scan at h
    split at h
    next hlt =>
      rw [BitVec.lt_def] at hlt
      obtain ⟨b, u, -, h⟩ := bind_ok h
      split at h
      · cases (pure_ok h).1
        exact ⟨Nat.le_refl _, hlt⟩
      · have hbase : KERNBASE.toNat = 2147483648 := rfl
        have hnext : (s + 1).toNat = s.toNat + 1 := by bv_omega
        have := ih h
        omega
    · cases (pure_ok h).1

/-- A size of at most KERNBASE makes all three checks sound. -/
theorem bounded_iff (p : Proc) : Bounded p ↔ p.sz ≤ KERNBASE := by
  have hbase : KERNBASE.toNat = 2147483648 := rfl
  constructor
  · exact Bounded.sz
  · intro h
    have hle : p.sz.toNat ≤ KERNBASE.toNat := h
    have hint : ∀ addr, addr < p.sz → (addr + 4).toNat = addr.toNat + 4 := by
      intro addr hlt
      rw [BitVec.lt_def] at hlt
      bv_omega
    have hptr : ∀ i size : Word, i < p.sz → 0 ≤ size.toInt →
        (i + size).toNat = i.toNat + size.toNat := by
      intro i size hlt hpos
      have := size_lt hpos
      rw [BitVec.lt_def] at hlt
      rw [BitVec.toNat_add]
      omega
    refine ⟨h, hint, ?_, ?_, hptr, ?_⟩
    · intro addr m hacc
      unfold fetchint at hacc
      split at hacc
      · exact absurd rfl hacc
      next hin =>
        obtain ⟨hlo, hhi⟩ := not_or.mp hin
        have := hint addr (BitVec.not_le.mp hlo)
        rw [BitVec.lt_def, Nat.not_lt] at hhi
        omega
    · intro addr m len m' hacc
      unfold fetchstr at hacc
      split at hacc
      · cases (pure_ok hacc).1
      · obtain ⟨r, u, hscan, hacc⟩ := bind_ok hacc
        cases r with
        | none => cases (pure_ok hacc).1
        | some e =>
          obtain ⟨hacc, -⟩ := pure_ok hacc
          obtain ⟨hlo, hhi⟩ := scan_range hscan hle
          cases hacc
          rw [BitVec.toNat_sub_of_le (BitVec.le_def.mpr hlo)]
          omega
    · intro esp n size m i m' hacc
      unfold argptr at hacc
      obtain ⟨r, u, -, hacc⟩ := bind_ok hacc
      cases r with
      | none => cases (pure_ok hacc).1
      | some j =>
        dsimp only at hacc
        split at hacc
        · cases (pure_ok hacc).1
        next hin =>
          obtain ⟨hacc, -⟩ := pure_ok hacc
          cases hacc
          obtain ⟨hneg, hin⟩ := not_or.mp hin
          obtain ⟨hlo, hhi⟩ := not_or.mp hin
          have := hptr i size (BitVec.not_le.mp hlo) (by omega)
          rw [BitVec.lt_def, Nat.not_lt] at hhi
          omega

variable {img : KernelImage}

theorem step_below_iff {s t : State} {e : Event} (hs : BelowKernel s)
    (h : (machine img).Step s e t) : BelowKernel t ↔ KeepsBelow s e := by
  constructor
  · rintro ht q n cur rfl hcur
    have hput : t.procs q = some { cur with sz := cur.sz + n } := by
      obtain ⟨-, rfl⟩ := h
      simp [machine, next, Event.caller, hcur, sysSbrk, State.put]
    exact (inBounds_iff (hs q cur hcur).sz).mp (ht q _ hput).sz
  · intro hok q p hp
    rw [bounded_iff]
    cases origin h hp with
    | kept old hold _ hz _ =>
      rw [hz]
      exact (hs q old hold).sz
    | sbrk cur n he hcur _ hz _ =>
      rw [hz]
      exact (inBounds_iff (hs q cur hcur).sz).mpr (hok q n cur he hcur)
    | forked r cur m t _ hcur _ hz _ =>
      rw [hz]
      exact (hs r cur hcur).sz
    | execed file argv im m t _ hc _ hz _ =>
      have hlow := (exec_ok hc).low
      rw [hz, BitVec.le_def]
      unfold up at hlow
      omega

/-- In a run no system call accepts kernel memory exactly if each sbrk() moves the size to
one between 0 and KERNBASE. -/
theorem below_kernel_iff {s₀ s : State} {es : List Event} (h₀ : Initial img s₀)
    (r : Run (machine img).Step (· = s₀) es s) :
    (∀ fs t, fs <+: es → Run (machine img).Step (· = s₀) fs t → BelowKernel t) ↔
      Run (Guarded (machine img).Step KeepsBelow) (· = s₀) es s := by
  have hinit : BelowKernel s₀ := by
    intro q p hp
    obtain ⟨-, hz, -⟩ := initial_proc h₀ hp
    rw [bounded_iff, hz]
    decide
  exact Machine.always_iff_guarded (I := fun _ => True) trivial hinit
    (fun _ _ _ _ _ => trivial) (fun _ _ _ _ hs hstep => step_below_iff hs hstep) r

theorem below_kernel_after_growing :
    ∃ s₀ s, Initial pc s₀ ∧ Run (machine pc).Step (· = s₀) [.sbrk initproc 0x7FFFE000] s ∧
      BelowKernel s := by
  obtain ⟨s₀, proc, h₀, hrun, hprocs, -, -, hsz, -, hz⟩ := pc_initial
  have hcur : s₀.procs initproc = some proc := by simp [hprocs]
  have hok : KeepsBelow s₀ (.sbrk initproc 0x7FFFE000) := by
    intro q n cur he hq
    cases he
    obtain rfl : proc = cur := Option.some.inj (hcur.symm.trans hq)
    rw [hsz]
    decide
  have hvalid : ((machine pc).guard KeepsBelow).Valid s₀ [.sbrk initproc 0x7FFFE000] :=
    ⟨⟨hok, hrun, proc, hcur, hz⟩, trivial⟩
  have r := hvalid.guarded_run
  exact ⟨s₀, _, h₀, r.unguarded,
    (below_kernel_iff h₀ r.unguarded).mpr r _ _ (List.prefix_refl _) r.unguarded⟩

/-- One sbrk() of the largest int from a size of one page: the size passes KERNBASE, and
fetchint() takes the first word of the kernel half. -/
theorem kernel_word_admitted :
    ∃ s₀ s cur, Initial pc s₀ ∧
      Run (machine pc).Step (· = s₀) [.sbrk initproc 0x7FFFFFFF] s ∧
      s.procs initproc = some cur ∧ KERNBASE < cur.sz ∧
      ∀ m, fetchint cur KERNBASE m ≠ .ok (none, m) := by
  obtain ⟨s₀, proc, h₀, hrun, hprocs, -, -, hsz, -, hz⟩ := pc_initial
  have hcur : s₀.procs initproc = some proc := by simp [hprocs]
  have hvalid : (machine pc).Valid s₀ [.sbrk initproc 0x7FFFFFFF] :=
    ⟨⟨hrun, proc, hcur, hz⟩, trivial⟩
  have hgrown : (machine pc).exec s₀ [.sbrk initproc 0x7FFFFFFF] =
      s₀.put initproc (some { proc with sz := proc.sz + 0x7FFFFFFF }) := by
    simp [Machine.exec, machine, next, Event.caller, hcur, sysSbrk]
  refine ⟨s₀, _, { proc with sz := proc.sz + 0x7FFFFFFF }, h₀, hvalid.run, ?_, ?_, ?_⟩
  · rw [hgrown]
    simp [State.put]
  · change KERNBASE < proc.sz + 0x7FFFFFFF
    rw [hsz]
    decide
  · intro m hnone
    unfold fetchint at hnone
    have hin : ¬ (proc.sz + 0x7FFFFFFF ≤ KERNBASE ∨ proc.sz + 0x7FFFFFFF < KERNBASE + 4) := by
      rw [hsz]
      decide
    rw [if_neg hin] at hnone
    obtain ⟨_, _, -, hnone⟩ := bind_ok hnone
    obtain ⟨_, _, -, hnone⟩ := bind_ok hnone
    obtain ⟨_, _, -, hnone⟩ := bind_ok hnone
    obtain ⟨_, _, -, hnone⟩ := bind_ok hnone
    cases (pure_ok hnone).1

end PointerChecks
