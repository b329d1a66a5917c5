import OsEngineering.PageGrowth
import OsEngineering.UserProcesses

/-! growproc() of the eager sbrk(), over allocuvm() and deallocuvm(): when the new size is the sum
and when a failure changes nothing. -/
namespace ProcessGrowth

open ByteBlock FaultState PageTables PageTableMappings PageFrames PageClearing PageMapping
open KernelMap PageGrowth
open UserProcesses (Proc)

section Kernel

variable (img : KernelImage)

/-- growproc() of the current process; switchuvm() changes neither its memory nor its size. -/
def growproc (curproc : Proc) (n : Word) : VM (Proc × ℤ) :=
  if 0 < n.toInt then do
    let (pgdir, sz) ← allocuvm img curproc.pgdir curproc.sz (curproc.sz + n)
    if sz = 0 then pure ({ curproc with pgdir := pgdir }, -1)
    else pure ({ curproc with pgdir := pgdir, sz := sz }, 0)
  else if n.toInt < 0 then do
    let (pgdir, sz) ← deallocuvm img curproc.pgdir curproc.sz (curproc.sz + n)
    if sz = 0 then pure ({ curproc with pgdir := pgdir }, -1)
    else pure ({ curproc with pgdir := pgdir, sz := sz }, 0)
  else pure (curproc, 0)

end Kernel

variable {img : KernelImage} {p q : Proc} {n : Word} {s t : Kmem}

/-- The size and the user memory of `q` are those of `p`. -/
structure Unchanged (p q : Proc) (s t : Kmem) : Prop where
  size : q.sz = p.sz
  pages : ∀ b, b < KERNBASE → (q.pgdir.present b ↔ p.pgdir.present b)
  entries : ∀ b, b < KERNBASE → p.pgdir.present b → q.pgdir.pte b = p.pgdir.pte b
  contents : ∀ b, b < KERNBASE → p.pgdir.present b →
    t.mem (frameOf p.pgdir b) = s.mem (frameOf p.pgdir b)

/-- The size is the sum and exactly its pages are mapped, or -1 and nothing has changed. -/
def Atomic (img : KernelImage) (p : Proc) (n : Word) (s : Kmem) : Prop :=
  ∃ q r t, growproc img p n s = .ok ((q, r), t) ∧
    (r = 0 ∧ (q.sz.toNat : ℤ) = p.sz.toNat + n.toInt ∧ Exact q.pgdir (up q.sz.toNat) ∨
      r = -1 ∧ Unchanged p q s t)

/-- A process between two system calls, and the allocator: exactly the pages of its size are
mapped, in frames from kalloc() that are not free. -/
structure Ready (img : KernelImage) (p : Proc) (s : Kmem) : Prop where
  size : p.sz < KERNBASE
  exact : Exact p.pgdir (up p.sz.toNat)
  user : ∀ b, b < KERNBASE → p.pgdir.present b → Usable img (frameOf p.pgdir b)
  free : ∀ f ∈ s.freelist, Usable img f
  nodup : s.freelist.Nodup
  apart : ∀ f, Holds p.pgdir f → f ∉ s.freelist

theorem unchanged_refl (p : Proc) (s : Kmem) : Unchanged p p s s where
  size := rfl
  pages _ _ := Iff.rfl
  entries _ _ _ := rfl
  contents _ _ _ := rfl

theorem size_lt (h : Ready img p s) : p.sz.toNat < 2147483648 := h.size

theorem toInt_pos (h : 0 < n.toInt) : n.toInt = n.toNat ∧ n.toNat < 2147483648 := by
  rw [BitVec.toInt_eq_toNat_cond] at h ⊢
  have hlt := n.isLt
  split at h
  · rw [if_pos (by assumption)]
    omega
  · omega

theorem toInt_neg (h : n.toInt < 0) :
    n.toInt = n.toNat - 4294967296 ∧ 2147483648 ≤ n.toNat := by
  rw [BitVec.toInt_eq_toNat_cond] at h ⊢
  have hlt := n.isLt
  split at h
  · omega
  · rw [if_neg (by assumption)]
    omega

/-! The branches. -/

theorem growproc_zero (h : Ready img p s) (hn : n.toInt = 0) : Atomic img p n s := by
  have hpos : ¬ 0 < n.toInt := by omega
  have hneg : ¬ n.toInt < 0 := by omega
  refine ⟨p, 0, s, ?_, Or.inl ⟨rfl, by omega, h.exact⟩⟩
  rw [growproc, if_neg hpos, if_neg hneg, pure_run]

theorem growproc_grow (h : Ready img p s) (hn : 0 < n.toInt) : Atomic img p n s := by
  have hsz := size_lt h
  obtain ⟨hint, hlt⟩ := toInt_pos hn
  have hsum : (p.sz + n).toNat = p.sz.toNat + n.toNat := by
    rw [BitVec.toNat_add]
    omega
  have hnz : p.sz + n ≠ 0 := by
    intro hzero
    rw [hzero] at hsum
    have hnone : (0 : Word).toNat = 0 := rfl
    omega
  have hge : p.sz ≤ p.sz + n := by
    rw [BitVec.le_def]
    omega
  have hcall : ∀ d' r t, allocuvm img p.pgdir p.sz (p.sz + n) s = .ok ((d', r), t) →
      growproc img p n s = (if r = 0 then pure ({ p with pgdir := d' }, -1)
        else pure ({ p with pgdir := d', sz := r }, 0) : VM (Proc × ℤ)) t := by
    intro d' r t hrun
    rw [growproc, if_pos hn, run_bind hrun]
  by_cases hbig : KERNBASE ≤ p.sz + n
  · have hrefused := hcall p.pgdir 0 s (by rw [allocuvm, if_pos hbig, pure_run])
    rw [if_pos rfl, pure_run] at hrefused
    exact ⟨_, _, _, hrefused, Or.inr ⟨rfl, unchanged_refl p s⟩⟩
  · obtain ⟨d', r, t, hrun, hr⟩ := allocuvm_run h.size h.exact h.free h.nodup h.apart hge
      (BitVec.not_le.mp hbig)
    have hdone := hcall d' r t hrun
    rcases hr with ⟨rfl, hgrown⟩ | ⟨rfl, hback⟩
    · rw [if_neg hnz, pure_run] at hdone
      refine ⟨_, _, _, hdone, Or.inl ⟨rfl, ?_, hgrown.exact⟩⟩
      simp only [hsum]
      omega
    · rw [if_pos rfl, pure_run] at hdone
      refine ⟨_, _, _, hdone, Or.inr ⟨rfl, rfl, fun b hb => ?_, fun b _ hpres => ?_,
        fun b hb hpres => ?_⟩⟩
      · rw [hback.exact b hb, h.exact b hb]
      · exact hback.old b hpres
      · exact hback.memory _ (h.apart _ (Or.inr (Or.inr ⟨b, hb, hpres, rfl⟩)))

theorem growproc_dealloc (hn : n.toInt < 0) {d : PageDir} {sz : Word}
    (hrun : deallocuvm img p.pgdir p.sz (p.sz + n) s = .ok ((d, sz), t)) :
    growproc img p n s = (if sz = 0 then pure ({ p with pgdir := d }, -1)
      else pure ({ p with pgdir := d, sz := sz }, 0) : VM (Proc × ℤ)) t := by
  have hpos : ¬ 0 < n.toInt := by omega
  rw [growproc, if_neg hpos, if_pos hn, run_bind hrun]

/-- What deallocuvm() leaves when the new size is not below zero. -/
theorem shrink_run (h : Ready img p s) (hn : n.toInt < 0) (hsum : 0 ≤ p.sz.toNat + n.toInt) :
    ((p.sz + n).toNat : ℤ) = p.sz.toNat + n.toInt ∧
      ∃ d t, deallocuvm img p.pgdir p.sz (p.sz + n) s = .ok ((d, p.sz + n), t) ∧
        Exact d (up (p.sz + n).toNat) := by
  have hsz := size_lt h
  have hbase : KERNBASE.toNat = 2147483648 := rfl
  obtain ⟨hint, hge⟩ := toInt_neg hn
  have hnew : (p.sz + n).toNat + 4294967296 = p.sz.toNat + n.toNat := by
    rw [BitVec.toNat_add]
    omega
  have hlt : p.sz + n < p.sz := by
    rw [BitVec.lt_def]
    omega
  have hle := BitVec.le_of_lt h.size
  obtain ⟨d, hrun, hc⟩ := deallocuvm_run hle hlt
    (fun b hb => h.user b (inRange_low hle hlt hb)) s
  refine ⟨by omega, d, _, hrun, fun b hb => ?_⟩
  have hold : p.pgdir.present b ↔ page b < pages p.sz := exact_page h.exact hb
  have hrange : InRange (p.sz + n) p.sz b ↔
      pages (p.sz + n) ≤ page b ∧ page b < pages p.sz :=
    inRange_iff (BitVec.le_of_lt (below_kernbase hlt hle)) b
  have hup : b.toNat < up (p.sz + n).toNat ↔ page b < pages (p.sz + n) := by
    simp only [up, page, pages]
    omega
  have hfew := pages_mono (BitVec.le_of_lt hlt)
  rw [hup]
  by_cases hin : InRange (p.sz + n) p.sz b
  · have hpres := hold.mpr (hrange.mp hin).2
    rw [PageDir.present, hc.gone b hin hpres]
    refine iff_of_false (fun hno => hno rfl) ?_
    have hlow := (hrange.mp hin).1
    omega
  · rw [PageDir.present, hc.kept b fun hboth => hin hboth.1]
    rw [hrange] at hin
    rw [PageDir.present] at hold
    rw [hold]
    omega

theorem growproc_shrink (h : Ready img p s) (hn : n.toInt < 0)
    (hsum : 0 < p.sz.toNat + n.toInt) : Atomic img p n s := by
  obtain ⟨hnew, d, t, hrun, hexact⟩ := shrink_run h hn (Int.le_of_lt hsum)
  have hnz : p.sz + n ≠ 0 := by
    intro hzero
    rw [hzero] at hnew
    have hnone : ((0 : Word).toNat : ℤ) = 0 := rfl
    omega
  have hdone := growproc_dealloc hn hrun
  rw [if_neg hnz, pure_run] at hdone
  exact ⟨_, _, _, hdone, Or.inl ⟨rfl, hnew, hexact⟩⟩

/-- Shrinking to nothing: the pages are gone, and growproc() fails. -/
theorem growproc_empty (h : Ready img p s) (hn : n.toInt < 0)
    (hsum : p.sz.toNat + n.toInt = 0) : ¬ Atomic img p n s := by
  obtain ⟨hnew, d, t, hrun, hexact⟩ := shrink_run h hn (Int.le_of_eq hsum.symm)
  have hzero : p.sz + n = 0 := by
    rw [← BitVec.toNat_inj]
    have hnone : (0 : Word).toNat = 0 := rfl
    omega
  have hdone := growproc_dealloc hn hrun
  rw [if_pos hzero, pure_run] at hdone
  rintro ⟨q, r, t', hrun', hsame⟩
  rw [hdone] at hrun'
  cases hrun'
  rcases hsame with ⟨hr, -⟩ | ⟨-, hsame⟩
  · exact absurd hr (by decide)
  · -- page 0 was mapped
    have hlow : (0 : Word) < KERNBASE := by decide
    have hold : p.pgdir.present 0 := by
      rw [exact_page h.exact hlow]
      have hpage : page 0 = 0 := rfl
      rw [hpage]
      simp only [pages]
      omega
    have hgone : ¬ d.present 0 := by
      rw [exact_page hexact hlow, hzero]
      decide
    exact hgone ((hsame.pages 0 hlow).mpr hold)

/-- A sum below zero wraps around to a size that is not below the old one. -/
theorem growproc_wrap (img : KernelImage) (s : Kmem) (hsz : p.sz < KERNBASE) (hn : n.toInt < 0)
    (hsum : p.sz.toNat + n.toInt < 0) :
    growproc img p n s = .ok ((p, if p.sz = 0 then -1 else 0), s) := by
  obtain ⟨hint, hge⟩ := toInt_neg hn
  have hsz : p.sz.toNat < 2147483648 := hsz
  have hle : p.sz ≤ p.sz + n := by
    rw [BitVec.le_def, BitVec.toNat_add]
    omega
  have hstay : deallocuvm img p.pgdir p.sz (p.sz + n) s = .ok ((p.pgdir, p.sz), s) := by
    rw [deallocuvm, if_pos hle, pure_run]
  rw [growproc_dealloc hn hstay]
  by_cases hzero : p.sz = 0
  · rw [if_pos hzero, if_pos hzero, pure_run]
  · rw [if_neg hzero, if_neg hzero, pure_run]

/-- growproc() is exact and atomic except where it shrinks a process that has memory to nothing or
below. -/
theorem growproc_atomic_iff (img : KernelImage) (p : Proc) (n : Word) (s : Kmem)
    (h : Ready img p s) :
    Atomic img p n s ↔ 0 ≤ n.toInt ∨ 0 < p.sz.toNat + n.toInt ∨ p.sz = 0 := by
  by_cases hn : n.toInt < 0
  · rcases Int.lt_trichotomy (p.sz.toNat + n.toInt) 0 with hsum | hsum | hsum
    · have hrun := growproc_wrap img s h.size hn hsum
      by_cases hzero : p.sz = 0
      · rw [if_pos hzero] at hrun
        exact iff_of_true ⟨p, -1, s, hrun, Or.inr ⟨rfl, unchanged_refl p s⟩⟩
          (Or.inr (Or.inr hzero))
      · rw [if_neg hzero] at hrun
        constructor
        · rintro ⟨q, r, t, hrun', hq⟩
          rw [hrun] at hrun'
          cases hrun'
          rcases hq with ⟨-, hsize, -⟩ | ⟨hr, -⟩
          · omega
          · exact absurd hr (by decide)
        · rintro (h0 | h0 | h0)
          · omega
          · omega
          · exact absurd h0 hzero
    · have hpos : p.sz ≠ 0 := by
        intro hzero
        rw [hzero] at hsum
        have hnone : ((0 : Word).toNat : ℤ) = 0 := rfl
        omega
      refine iff_of_false (growproc_empty h hn hsum) ?_
      rintro (h0 | h0 | h0)
      · omega
      · omega
      · exact hpos h0
    · exact iff_of_true (growproc_shrink h hn hsum) (Or.inr (Or.inl hsum))
  · refine iff_of_true ?_ (Or.inl (Int.not_lt.mp hn))
    by_cases hzero : n.toInt = 0
    · exact growproc_zero h hzero
    · exact growproc_grow h (by omega)

/-! The process of two pages. -/

def small : Proc := ⟨twoPages, 8192, 0x600, none, false, 8192⟩

theorem small_ready : Ready smallKernel small ⟨[0x500, 0x501], [], fun _ => zeros⟩ where
  size := by decide
  exact := twoPages_exact
  user b _ := twoPages_usable b
  free := freePages_usable
  nodup := by decide
  apart := twoPages_holds

theorem growproc_atomic_iff_small :
    Atomic smallKernel small 4096 ⟨[0x500, 0x501], [], fun _ => zeros⟩ ↔
      0 ≤ (4096 : Word).toInt ∨ 0 < small.sz.toNat + (4096 : Word).toInt ∨ small.sz = 0 :=
  growproc_atomic_iff smallKernel small 4096 _ small_ready

/-- sbrk(-8192) of a process of 8192 bytes. -/
theorem growproc_not_atomic :
    ¬ Atomic smallKernel small (-8192) ⟨[0x500, 0x501], [], fun _ => zeros⟩ :=
  growproc_empty small_ready (by decide) (by decide)

end ProcessGrowth
