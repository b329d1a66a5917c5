import OsEngineering.BoundedLoops
import OsEngineering.PhysicalPages
import OsEngineering.ProcessFrames
import OsEngineering.UserProcessSteps

/-! What main() leaves behind: each page between the end of the kernel and PHYSTOP is free, or the
kernel's page directory, a stack or the first process has it. -/
namespace KernelBoot

open ByteBlock FaultState FramedTriples PageTables PageTableMappings PageTableFaults PageFrames
open UserProcesses UserProcessSteps BoundedLoops ProcessFrames PhysicalPages

variable {img : KernelImage} {all : Supply} {s t : Kmem}

/-- The pages between two kernel addresses. -/
def pagesFrom (lo hi : ℕ) : Multiset Frame :=
  (Finset.univ.filter fun f : Frame =>
    lo ≤ KERNBASE.toNat + f.toNat * 4096 ∧ KERNBASE.toNat + f.toNat * 4096 + 4096 ≤ hi).val

theorem count_filter (P : Frame → Prop) [DecidablePred P] (f : Frame) :
    (Finset.univ.filter P).val.count f = if P f then 1 else 0 := by
  rw [Multiset.count_eq_of_nodup (Finset.nodup _)]
  apply if_congr _ rfl rfl
  rw [Finset.mem_val, Finset.mem_filter]
  exact and_iff_right (Finset.mem_univ f)

theorem frameAt_toNat (pa : Word) : (frameAt pa).toNat = pa.toNat / 4096 := by
  have hlt := pa.isLt
  rw [frameAt, BitVec.extractLsb'_toNat, Nat.shiftRight_eq_div_pow]
  omega

/-- A page that kfree() takes lies between the kernel and PHYSTOP. -/
theorem kfree_ok {f : Frame} {r : Unit} (h : kfree img f s = .ok (r, t)) :
    img.kend.toNat ≤ KERNBASE.toNat + f.toNat * 4096 ∧ f.toNat * 4096 < PHYSTOP.toNat ∧
      t.freelist = f :: s.freelist ∧ t.refuse = s.refuse := by
  have hbase : KERNBASE.toNat = 2147483648 := rfl
  have hstop : PHYSTOP.toNat = 234881024 := rfl
  simp only [kfree] at h
  split at h
  · cases h
  · next hno =>
    cases h
    rw [not_or, BitVec.not_lt, BitVec.not_le, BitVec.le_def, BitVec.lt_def, BitVec.toNat_add,
      V2P_toNat] at hno
    refine ⟨?_, hno.2, rfl, rfl⟩
    omega

theorem frame_of_address {p : Word} (hp : p.toNat % 4096 = 0)
    (h : (frameAt (p - KERNBASE)).toNat * 4096 < PHYSTOP.toNat) :
    p.toNat = KERNBASE.toNat + (frameAt (p - KERNBASE)).toNat * 4096 := by
  have hbase : KERNBASE.toNat = 2147483648 := rfl
  have hstop : PHYSTOP.toNat = 234881024 := rfl
  have hlt := p.isLt
  rw [frameAt_toNat, BitVec.toNat_sub] at h ⊢
  omega

/-- The loop of freerange() that does not panic. -/
theorem freeFrom_ok {vend : Word} {k : ℕ} {p : Word} {r : Unit}
    (h : freeFrom img vend k p s = .ok (r, t)) (hp : p.toNat % 4096 = 0)
    (hv : vend.toNat % 4096 = 0) :
    (t.freelist : Multiset Frame) = s.freelist + pagesFrom p.toNat vend.toNat ∧
      t.freelist.length = s.freelist.length + (vend.toNat - p.toNat) / 4096 ∧
      t.refuse = s.refuse ∧
      (p.toNat < vend.toNat → KERNBASE.toNat ≤ p.toNat ∧ img.kend.toNat ≤ p.toNat) := by
  have hbase : KERNBASE.toNat = 2147483648 := rfl
  have hstop : PHYSTOP.toNat = 234881024 := rfl
  have hsize : PGSIZE.toNat = 4096 := rfl
  -- past the end, unless the address of the next page overflows
  have hend : ∀ {p : Word}, p.toNat % 4096 = 0 → ¬ p + PGSIZE ≤ vend → vend.toNat ≤ p.toNat := by
    intro p hp hle
    have hlt := p.isLt
    rw [BitVec.le_def, BitVec.toNat_add, hsize] at hle
    omega
  have hstops : ∀ {p : Word}, vend.toNat ≤ p.toNat →
      pagesFrom p.toNat vend.toNat = 0 ∧ (vend.toNat - p.toNat) / 4096 = 0 := by
    intro p hle
    refine ⟨?_, by omega⟩
    apply Multiset.ext.mpr
    intro f
    rw [pagesFrom, count_filter, Multiset.count_zero, if_neg]
    omega
  induction k generalizing p s with
  | zero =>
    simp only [freeFrom] at h
    split at h
    · cases h
    · next hle =>
      cases h
      have hge := hend hp hle
      obtain ⟨hnone, hzero⟩ := hstops hge
      rw [hnone, hzero]
      exact ⟨(add_zero _).symm, rfl, rfl, fun hlt => absurd hlt (by omega)⟩
  | succ k ih =>
    simp only [freeFrom] at h
    split at h
    · next hle =>
      obtain ⟨_, u, hfree, hrest⟩ := bind_ok h
      obtain ⟨hkend, hlow, hlist, hrefuse⟩ := kfree_ok hfree
      have hframe := frame_of_address hp hlow
      have hnext : (p + PGSIZE).toNat = p.toNat + 4096 := by
        rw [BitVec.toNat_add, hsize]
        omega
      rw [BitVec.le_def, hnext] at hle
      obtain ⟨htotal, hlen, hkeep, -⟩ := ih hrest (by omega)
      rw [hnext] at htotal hlen
      refine ⟨?_, ?_, hkeep.trans hrefuse, fun _ => ⟨by omega, by omega⟩⟩
      · apply Multiset.ext.mpr
        intro f
        rw [htotal, hlist, ← Multiset.cons_coe, Multiset.cons_add, Multiset.count_cons,
          Multiset.count_add, Multiset.count_add, pagesFrom, pagesFrom, count_filter,
          count_filter]
        by_cases hf : f = frameAt (p - KERNBASE)
        · subst hf
          rw [if_pos rfl, if_neg (by omega), if_pos (by omega)]
        · have hne : f.toNat ≠ (frameAt (p - KERNBASE)).toNat := fun heq =>
            hf (BitVec.toNat_inj.mp heq)
          have hlater : p.toNat + 4096 ≤ KERNBASE.toNat + f.toNat * 4096 ↔
              p.toNat ≤ KERNBASE.toNat + f.toNat * 4096 := by omega
          rw [if_neg hf, add_zero]
          simp only [hlater]
      · rw [hlen, hlist, List.length_cons]
        omega
    · next hle =>
      cases h
      have hge := hend hp hle
      obtain ⟨hnone, hzero⟩ := hstops hge
      rw [hnone, hzero]
      exact ⟨(add_zero _).symm, rfl, rfl, fun hlt => absurd hlt (by omega)⟩

/-! The rest of main(). -/

theorem startothers_spec (n : ℕ) : Spec all 0 (startothers n) fun l => (l : Multiset Frame) := by
  induction n with
  | zero => exact triple_pure rfl
  | succ n ih =>
    apply triple_bind kalloc_spec
    intro r
    cases r with
    | none => exact triple_throw _
    | some f =>
      apply triple_take ih
      intro l
      apply triple_pure
      rw [← Multiset.cons_coe, ← Multiset.singleton_add]
      exact add_comm _ _

theorem kalloc_calm {r : Option Frame} (hc : s.refuse = []) (h : kalloc s = .ok (r, t)) :
    t.refuse = [] ∧ s.freelist = (match r with
      | none => t.freelist
      | some f => f :: t.freelist) := by
  have hrun : s.take = (r, t) := Except.ok.inj h
  simp only [Kmem.take, hc, List.headD_nil, List.tail_nil, Bool.false_eq_true, if_false] at hrun
  split at hrun
  · cases hrun
    exact ⟨rfl, rfl⟩
  · next hs =>
    cases hrun
    exact ⟨rfl, hs⟩

/-- With memory to spare the page of inituvm() gets mapped, which it does not check. -/
theorem inituvm_books {n : ℕ} {d d' : PageDir} {init : Page} {x : Multiset Frame}
    (he : Enough (n + 1) d s) (hd : Exact d 0) (h : inituvm d init s = .ok (d', t))
    (hb : Books all (frames d + x) s) : Books all (frames d' + x) t := by
  obtain ⟨r, u, hk, hrest⟩ := bind_ok h
  have hu := triple_frame kalloc_spec (frames d) x s r u (by rwa [zero_add]) hk
  obtain ⟨hcalm, hlist⟩ := kalloc_calm he.calm hk
  cases r with
  | none => cases hrest
  | some mem =>
    have hfree := he.free
    rw [hlist, List.length_cons] at hfree
    obtain ⟨_, v, hfill, hrest⟩ := bind_ok hrest
    cases hfill
    obtain ⟨⟨e, ok⟩, w, hmap, hrest⟩ := bind_ok hrest
    have hfree0 : ¬ d.present 0 := fun hp =>
      absurd ((hd 0 (by decide)).mp hp) (Nat.not_lt_zero _)
    have henough : Enough n d { u with mem := Function.update u.mem mem zeros } :=
      ⟨hcalm, by simp only; omega⟩
    obtain ⟨e', w', hrun, -⟩ := page_enough 0 (V2P mem) (PTE_W ||| PTE_U) henough rfl hfree0
    have hok : ok = true := by
      rw [hrun] at hmap
      cases hmap
      rfl
    have hv : Books all (frames d + {mem} + x)
        { u with mem := Function.update u.mem mem zeros } := by
      have htotal := hu.total
      simp only [given, add_comm {mem} (frames d)] at htotal
      exact ⟨htotal, hu.refuse⟩
    have hw := mapPage_spec mem rfl (by decide) flags_user x _ _ _ hv hmap
    subst hok
    cases hrest
    change Books all (frames d' + (if true = true then 0 else {mem}) + x) w at hw
    rw [if_pos rfl, add_zero] at hw
    exact ⟨hw.total, hw.refuse⟩

theorem userinit_books {initcode : Page} {proc : Proc} {x : Multiset Frame}
    (hc : s.refuse = []) (hlen : 1027 ≤ s.freelist.length)
    (h : userinit img initcode s = .ok (proc, t)) (hb : Books all x s) :
    Books all (procFrames (some proc) + x) t ∧ proc.sz = PGSIZE ∧ proc.zombie = false := by
  obtain ⟨r, u, hk, hrest⟩ := bind_ok h
  obtain ⟨hcalm, hlist⟩ := kalloc_calm hc hk
  have hu := kalloc_spec x s r u (by rwa [zero_add]) hk
  cases r with
  | none => cases hrest
  | some kstack =>
    rw [hlist, List.length_cons] at hlen
    obtain ⟨r, v, hset, hrest⟩ := bind_ok hrest
    obtain ⟨d, v', hrun, henough⟩ := setupkvm_enough img (n := 1) hcalm (by omega)
    rw [hrun] at hset
    cases hset
    have hv := setupkvm_spec _ u (some d) v (by rwa [zero_add]) hrun
    obtain ⟨e, w, hinit, hrest⟩ := bind_ok hrest
    have hw := inituvm_books henough (setupkvm_ok hrun) hinit hv
    cases hrest
    refine ⟨?_, rfl, rfl⟩
    simp only [procFrames]
    simp only [given] at hw
    rw [add_assoc, add_left_comm]
    exact hw

theorem P2V_values : (P2V 0x400000).toNat = KERNBASE.toNat + 4194304 ∧
    (P2V PHYSTOP).toNat = KERNBASE.toNat + PHYSTOP.toNat := by
  decide

/-- PGROUNDUP() of an address with a page after it. -/
theorem PGROUNDUP_le {a : Word} {b : ℕ} (h : a.toNat ≤ b) (hb : b % 4096 = 0) :
    (PGROUNDUP a).toNat ≤ b := by
  have hone : (1 : Word).toNat = 1 := rfl
  have hsize : PGSIZE.toNat = 4096 := rfl
  change (PGROUNDDOWN (a + PGSIZE - 1)).toNat ≤ b
  rw [PGROUNDDOWN_toNat, BitVec.toNat_sub, BitVec.toNat_add, hone, hsize]
  omega

theorem le_PGROUNDUP {a : Word} (h : a.toNat + 4096 ≤ 2 ^ 32) :
    a.toNat ≤ (PGROUNDUP a).toNat := by
  have hone : (1 : Word).toNat = 1 := rfl
  have hsize : PGSIZE.toNat = 4096 := rfl
  change a.toNat ≤ (PGROUNDDOWN (a + PGSIZE - 1)).toNat
  rw [PGROUNDDOWN_toNat, BitVec.toNat_sub, BitVec.toNat_add, hone, hsize]
  omega

def givenPages (img : KernelImage) : Multiset Frame := (Finset.univ.filter (Given img)).val

/-- kinit1() and kinit2() give each of the pages once. -/
theorem given_split (hkend : img.kend.toNat ≤ (P2V 0x400000).toNat) :
    pagesFrom (PGROUNDUP img.kend).toNat (P2V 0x400000).toNat +
      pagesFrom (P2V 0x400000).toNat (P2V PHYSTOP).toNat = givenPages img := by
  obtain ⟨hmid, htop⟩ := P2V_values
  have hbase : KERNBASE.toNat = 2147483648 := rfl
  have hstop : PHYSTOP.toNat = 234881024 := rfl
  have hmod := PGROUNDUP_mod img.kend
  have hle := PGROUNDUP_le hkend (by omega)
  apply Multiset.ext.mpr
  intro f
  rw [Multiset.count_add, pagesFrom, pagesFrom, givenPages, count_filter, count_filter,
    count_filter]
  by_cases hf : KERNBASE.toNat + f.toNat * 4096 < (P2V 0x400000).toNat
  · have hsecond : ¬ ((P2V 0x400000).toNat ≤ KERNBASE.toNat + f.toNat * 4096 ∧
        KERNBASE.toNat + f.toNat * 4096 + 4096 ≤ (P2V PHYSTOP).toNat) := by omega
    rw [if_neg hsecond, add_zero]
    apply if_congr _ rfl rfl
    simp only [Given]
    omega
  · have hfirst : ¬ ((PGROUNDUP img.kend).toNat ≤ KERNBASE.toNat + f.toNat * 4096 ∧
        KERNBASE.toNat + f.toNat * 4096 + 4096 ≤ (P2V 0x400000).toNat) := by omega
    rw [if_neg hfirst, zero_add]
    apply if_congr _ rfl rfl
    simp only [Given]
    omega

theorem main_books {ncpu : ℕ} {initcode : Page} {kpgdir : PageDir} {cpuStacks : List Frame}
    {proc : Proc} (hlist : s.freelist = []) (hc : s.refuse = [])
    (h : main img ncpu initcode s = .ok ((kpgdir, cpuStacks, proc), t)) :
    (t.freelist : Multiset Frame) + (procFrames (some proc) + (cpuStacks + frames kpgdir)) =
      givenPages img ∧ proc.sz = PGSIZE ∧ proc.zombie = false := by
  obtain ⟨hmid, htop⟩ := P2V_values
  have hbase : KERNBASE.toNat = 2147483648 := rfl
  have hstop : PHYSTOP.toNat = 234881024 := rfl
  obtain ⟨_, u, hfirst, hrest⟩ := bind_ok h
  obtain ⟨hu, -, hcalm, hlow⟩ := freeFrom_ok hfirst (PGROUNDUP_mod _) (by omega)
  rw [hlist, Multiset.coe_nil, zero_add] at hu
  -- kvmalloc() and startothers() only have what kinit1() gave
  have hbooks : Books ⟨u.freelist, True⟩ (0 + 0) u := ⟨add_zero _, fun _ => hcalm.trans hc⟩
  obtain ⟨r, v, hset, hrest⟩ := bind_ok hrest
  have hv := setupkvm_spec 0 u r v hbooks hset
  cases r with
  | none => cases hrest
  | some d =>
    obtain ⟨l, w, hothers, hrest⟩ := bind_ok hrest
    have hw := startothers_spec _ (frames d + 0) v l w (by rwa [zero_add]) hothers
    rw [add_zero] at hw
    obtain ⟨_, m, hsecond, hrest⟩ := bind_ok hrest
    have hround : PGROUNDUP (P2V 0x400000) = P2V 0x400000 := by decide
    simp only [kinit2, freerange, hround] at hsecond
    obtain ⟨hm, hlen, hcalm', hkend⟩ := freeFrom_ok hsecond (by omega) (by omega)
    have hcalm₂ : m.refuse = [] := hcalm'.trans (hw.refuse trivial)
    have hbooks' : Books ⟨w.freelist + pagesFrom (P2V 0x400000).toNat (P2V PHYSTOP).toNat +
        (l + frames d), True⟩ (l + frames d) m := ⟨by rw [hm], fun _ => hcalm₂⟩
    obtain ⟨q, m', hinit, hrest⟩ := bind_ok hrest
    obtain ⟨hlast, hsz, hz⟩ := userinit_books hcalm₂ (by omega) hinit hbooks'
    have htotal := hlast.total
    have hfirstPart : (w.freelist : Multiset Frame) + (l + frames d) = u.freelist := hw.total
    dsimp only at htotal
    rw [add_right_comm, hfirstPart, hu, given_split (hkend (by omega)).2]
      at htotal
    cases hrest
    exact ⟨htotal, hsz, hz⟩

/-! main() on a machine with memory to spare. -/

theorem kfree_runs (img : KernelImage) (s : Kmem) {f : Frame}
    (hkend : img.kend.toNat ≤ KERNBASE.toNat + f.toNat * 4096)
    (hlow : f.toNat * 4096 < PHYSTOP.toNat) :
    ∃ t, kfree img f s = .ok ((), t) := by
  have hbase : KERNBASE.toNat = 2147483648 := rfl
  have hstop : PHYSTOP.toNat = 234881024 := rfl
  have hno : ¬ (KERNBASE + V2P f < img.kend ∨ PHYSTOP ≤ V2P f) := by
    rw [not_or, BitVec.not_lt, BitVec.not_le, BitVec.le_def, BitVec.lt_def, BitVec.toNat_add,
      V2P_toNat]
    omega
  rw [kfree, if_neg hno]
  exact ⟨_, rfl⟩

theorem freeFrom_runs (img : KernelImage) (s : Kmem) (vend : Word) {k : ℕ} {p : Word}
    (hp : p.toNat % 4096 = 0)
    (hbase : KERNBASE.toNat ≤ p.toNat) (hkend : img.kend.toNat ≤ p.toNat)
    (hup : p.toNat ≤ KERNBASE.toNat + PHYSTOP.toNat)
    (hend : vend.toNat ≤ KERNBASE.toNat + PHYSTOP.toNat)
    (hk : vend.toNat ≤ p.toNat + k * 4096) : ∃ t, freeFrom img vend k p s = .ok ((), t) := by
  have hbase' : KERNBASE.toNat = 2147483648 := rfl
  have hstop : PHYSTOP.toNat = 234881024 := rfl
  have hsize : PGSIZE.toNat = 4096 := rfl
  induction k generalizing p s with
  | zero =>
    have hno : ¬ p + PGSIZE ≤ vend := by
      have hlt := p.isLt
      rw [BitVec.le_def, BitVec.toNat_add, hsize]
      omega
    rw [freeFrom, if_neg hno]
    exact ⟨s, rfl⟩
  | succ k ih =>
    simp only [freeFrom]
    split
    · next hle =>
      have hlt := p.isLt
      rw [BitVec.le_def, BitVec.toNat_add, hsize] at hle
      have hframe : (frameAt (p - KERNBASE)).toNat * 4096 = p.toNat - KERNBASE.toNat := by
        rw [frameAt_toNat, BitVec.toNat_sub]
        omega
      obtain ⟨u, hu⟩ := kfree_runs img s (f := frameAt (p - KERNBASE)) (by omega)
        (by omega)
      have hnext : (p + PGSIZE).toNat = p.toNat + 4096 := by
        rw [BitVec.toNat_add, hsize]
        omega
      obtain ⟨t, ht⟩ := ih u (p := p + PGSIZE) (by omega) (by omega) (by omega) (by omega)
        (by omega)
      exact ⟨t, (run_bind hu).trans ht⟩
    · exact ⟨s, rfl⟩

/-- The entries of a page directory for addresses of the kernel. -/
def kernelIndices : List Index := (List.range 512).map fun i => BitVec.ofNat 10 (512 + i)

theorem mem_kernelIndices {b : Word} (h : KERNBASE ≤ b) : PDX b ∈ kernelIndices := by
  have hbase : KERNBASE.toNat = 2147483648 := rfl
  have hb := b.isLt
  have hindex := PDX_toNat b
  rw [BitVec.le_def] at h
  refine List.mem_map.mpr ⟨(PDX b).toNat - 512, List.mem_range.mpr (by omega), ?_⟩
  apply BitVec.eq_of_toNat_eq
  rw [BitVec.toNat_ofNat]
  omega

/-- The kernel ends early enough that kinit1() has pages for setupkvm() and one stack. -/
theorem main_runs (img : KernelImage) (s : Kmem) (initcode : Page) (hlist : s.freelist = []) (hc : s.refuse = [])
    (hlow : KERNBASE.toNat ≤ img.kend.toNat)
    (hkend : img.kend.toNat ≤ KERNBASE.toNat + 2031616) :
    ∃ kpgdir stack proc t, main img 2 initcode s = .ok ((kpgdir, [stack], proc), t) := by
  obtain ⟨hmid, htop⟩ := P2V_values
  have hbase : KERNBASE.toNat = 2147483648 := rfl
  have hstop : PHYSTOP.toNat = 234881024 := rfl
  rw [hbase] at hmid htop hlow hkend
  rw [hstop] at htop
  have hle := PGROUNDUP_le hkend (by omega)
  have hge := le_PGROUNDUP (a := img.kend) (by omega)
  have hmod := PGROUNDUP_mod img.kend
  obtain ⟨u, hu⟩ := freeFrom_runs img s (P2V 0x400000) (k := bound) hmod
    (by omega) (by omega) (by omega) (by omega) (enough_rounds _ _)
  obtain ⟨-, hlen, hcalm, -⟩ := freeFrom_ok hu hmod (by omega)
  rw [hlist, List.length_nil, zero_add] at hlen
  obtain ⟨d, v, hset, henough⟩ := setupkvm_enoughFor img (n := 1) (hcalm.trans hc)
    (fun b => mem_kernelIndices) (by
      rw [kernelIndices, List.length_map, List.length_range]
      omega)
  have hfree := henough.free
  obtain ⟨stack, fs, hfs, hk⟩ := kalloc_enough henough.calm (by omega)
  have hround : PGROUNDUP (P2V 0x400000) = P2V 0x400000 := by decide
  obtain ⟨m, hm⟩ := freeFrom_runs img { v with freelist := fs } (P2V PHYSTOP)
    (k := bound) (p := P2V 0x400000) (by omega) (by omega) (by omega)
    (by omega) (by omega) (enough_rounds _ _)
  obtain ⟨-, hlen', hcalm', -⟩ := freeFrom_ok hm (by omega) (by omega)
  obtain ⟨proc, t, hinit, -⟩ := userinit_enough img (n := 0) initcode
    (hcalm'.trans henough.calm) (by omega)
  refine ⟨d, stack, proc, t, ?_⟩
  have hothers : startothers (2 - 1) v = .ok ([stack], { v with freelist := fs }) := by
    simp only [startothers, run_bind hk]
    rfl
  have hsecond : kinit2 img { v with freelist := fs } = .ok ((), m) := by
    rw [kinit2, freerange, hround]
    exact hm
  simp only [main, kinit1, freerange, run_bind hu, run_bind hset, run_bind hothers,
    run_bind hsecond, run_bind hinit]
  rfl

end KernelBoot
