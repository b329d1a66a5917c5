import OsEngineering.KernelMap

/-! copyuvm(): a complete copy in frames of its own, or every frame given back. -/
namespace PageCopies

open ByteBlock FaultState FramedTriples PageTables PageTableMappings PageFrames PageClearing
open PageMapping KernelMap

variable {img : KernelImage} {pgdir d e : PageDir} {sz i : Word} {s₀ s t u : Kmem} {f : Frame}
  {n k : ℕ}

/-- Of the user half of `pgdir` the first `n` pages are copied to `d`. -/
structure Partial (img : KernelImage) (pgdir : PageDir) (s₀ : Kmem) (d : PageDir) (s : Kmem)
    (n : ℕ) : Prop where
  own : Owns d s₀ s
  present : ∀ b, page b < n → d.present b
  flags : ∀ b, page b < n → PTE_FLAGS (d.pte b) = PTE_FLAGS (pgdir.pte b)
  contents : ∀ b, page b < n → s.mem (frameOf d b) = s₀.mem (frameOf pgdir b)
  rest : ∀ b, b < KERNBASE → n ≤ page b → ¬ d.present b
  kernel : ∀ b, KERNBASE ≤ b → d.pte b = kernelPte img b

/-- A frame of the free list is in no page table. -/
theorem owns_fresh (hnodup : s₀.freelist.Nodup) (h : Owns d s₀ s) (hf : f ∈ s.freelist) :
    ¬ Holds d f := by
  intro hheld
  have hin := mem_of_holds hheld
  have hbooks := h.books
  generalize frames d = held at hin hbooks
  have hall : ((s.freelist : Multiset Frame) + held).Nodup := by
    rw [hbooks]
    exact Multiset.coe_nodup.mpr hnodup
  have hdisjoint := (Multiset.nodup_add.mp hall).2.2
  exact Multiset.disjoint_left.mp hdisjoint (Multiset.mem_coe.mpr hf) hin

theorem owns_subset (h : Owns d s₀ s) (hf : f ∈ s.freelist) : f ∈ s₀.freelist := by
  rw [← Multiset.mem_coe, ← h.books, Multiset.mem_add]
  exact Or.inl (Multiset.mem_coe.mpr hf)

theorem low_of_page {b : Word} (hlow : i < KERNBASE) (hb : page b ≤ page i) : b < KERNBASE := by
  have hbase : KERNBASE.toNat = 2147483648 := rfl
  rw [BitVec.lt_def] at hlow ⊢
  simp only [page] at hb
  omega

/-- One more page is copied. -/
theorem partial_step (hfree : ∀ g, Holds pgdir g → g ∉ s₀.freelist)
    (hnodup : s₀.freelist.Nodup) (hlow : i < KERNBASE) (hpres : pgdir.present i)
    (h : Partial img pgdir s₀ d s (page i))
    (hp : Placed (supply s₀) d e i (PTE_FLAGS (pgdir.pte i)) f (s.mem (frameOf pgdir i)) s t true) :
    Partial img pgdir s₀ e t (page i + 1) := by
  have hmine := owns_subset h.own hp.mine
  have hcase : ∀ b, page b < page i + 1 → page b < page i ∨ page b = page i := by
    intro b hb
    omega
  have hbooks := hp.books
  rw [if_pos rfl, add_zero] at hbooks
  refine ⟨⟨hbooks.total, fun g hg => ?_⟩, fun b hb => ?_, fun b hb => ?_, fun b hb => ?_,
    fun b hb hle => ?_, fun b hb => ?_⟩
  · have hne : g ≠ f := by
      rintro rfl
      exact hg hmine
    rw [hp.mem g hne, h.own.mem g hg]
  · rcases hcase b hb with hb | hb
    · rw [PageDir.present, hp.other b (by omega)]
      exact h.present b hb
    · rw [PageDir.present, hp.entry rfl b hb]
      exact set_P _ _
  · rcases hcase b hb with hb | hb
    · rw [hp.other b (by omega), h.flags b hb]
    · rw [hp.entry rfl b hb, copied_flags f hpres, pte_congr pgdir hb]
  · rcases hcase b hb with hb | hb
    · have hsame : frameOf e b = frameOf d b := by
        rw [frameOf, frameOf, hp.other b (by omega)]
      have hheld : Holds d (frameOf d b) := by
        have hbl := low_of_page hlow (Nat.le_of_lt hb)
        exact Or.inr (Or.inr ⟨b, hbl, h.present b hb, rfl⟩)
      have hne : frameOf d b ≠ f := by
        intro heq
        rw [heq] at hheld
        exact owns_fresh hnodup h.own hp.mine hheld
      rw [hsame, hp.mem _ hne, h.contents b hb]
    · have hself : frameOf e b = f := by
        rw [frameOf, hp.entry rfl b hb]
        exact entry_frame f (flags_flags _)
      have hsource : frameOf pgdir i = frameOf pgdir b := by
        rw [frameOf, frameOf, pte_congr pgdir hb]
      have hheld : Holds pgdir (frameOf pgdir i) := Or.inr (Or.inr ⟨i, hlow, hpres, rfl⟩)
      rw [hself, hp.filled, h.own.mem _ (hfree _ hheld), hsource]
  · rw [PageDir.present, hp.other b (by omega)]
    exact h.rest b hb (by omega)
  · have hbase : KERNBASE.toNat = 2147483648 := rfl
    have hne : page b ≠ page i := by
      rw [BitVec.le_def] at hb
      rw [BitVec.lt_def] at hlow
      simp only [page]
      omega
    rw [hp.other b hne, h.kernel b hb]

/-- What copyuvm() gives back. -/
def Outcome (img : KernelImage) (pgdir : PageDir) (sz : Word) (s₀ t : Kmem) :
    Option PageDir → Prop
  | none => Restored s₀ t
  | some e => Partial img pgdir s₀ e t (pages sz)

theorem copyFrom_run (hsz : sz ≤ KERNBASE) (hu : ∀ g ∈ s₀.freelist, Usable img g)
    (hnodup : s₀.freelist.Nodup) (hfree : ∀ g, Holds pgdir g → g ∉ s₀.freelist)
    (hpres : ∀ va, va < sz → pgdir.present va) (hi : i.toNat % 4096 = 0)
    (hle : page i ≤ pages sz) (hk : pages sz ≤ page i + k)
    (h : Partial img pgdir s₀ d s (page i)) :
    ∃ r t, copyFrom img pgdir sz k d i s = .ok (r, t) ∧ Outcome img pgdir sz s₀ t r := by
  have hdone : ∀ {i : Word} {d : PageDir} {s : Kmem}, i.toNat % 4096 = 0 → page i ≤ pages sz →
      Partial img pgdir s₀ d s (page i) → ¬ i < sz → Partial img pgdir s₀ d s (pages sz) := by
    intro i d s hi hle h hlt
    rw [page_lt hi] at hlt
    have heq : page i = pages sz := by omega
    rw [← heq]
    exact h
  induction k generalizing d i s with
  | zero =>
    have hlt : ¬ i < sz := by
      rw [page_lt hi]
      omega
    rw [copyFrom, if_neg hlt]
    exact ⟨some d, s, rfl, hdone hi hle h hlt⟩
  | succ k ih =>
    rw [copyFrom]
    by_cases hlt : i < sz
    · have hlow := below_kernbase hlt hsz
      have hp := hpres i hlt
      have hpage := (page_lt hi).mp hlt
      obtain ⟨hmod, hnext⟩ := page_next hi hlow
      rw [if_pos hlt, walk_some (table_of_present hp)]
      simp only [if_neg (not_not.mpr hp)]
      obtain ⟨r, u, halloc, hmem, hlist⟩ := kalloc_run s
      cases r with
      | none =>
        have hown : Owns d s₀ u := by
          refine ⟨?_, fun g hg => by rw [hmem, h.own.mem g hg]⟩
          have hsame : s.freelist = u.freelist := hlist
          rw [← hsame]
          exact h.own.books
        obtain ⟨t, hrun, hback⟩ := hown.restored hu
        exact ⟨none, t, (run_bind halloc).trans (run_bind hrun), hback⟩
      | some f =>
        have hbooks : Books (supply s₀) (frames d) s := ⟨h.own.books, by rintro ⟨⟩⟩
        obtain ⟨w, e, ok, v, hfill, hmap, hplaced⟩ := place_run (flags_flags _) hi hlow
          (h.rest i hlow (Nat.le_refl _)) hbooks halloc (u.mem (frameAt (PTE_ADDR (pgdir.pte i))))
        have hmine : f ∈ s₀.freelist := owns_subset h.own hplaced.mine
        cases ok with
        | true =>
          rw [hmem] at hplaced
          have hgood := partial_step hfree hnodup hlow hp h hplaced
          rw [← hnext] at hgood
          obtain ⟨r, t, hrun, hr⟩ := ih hmod (by omega) (by omega) hgood
          exact ⟨r, t, (run_bind halloc).trans ((run_bind (get_run u)).trans
            ((run_bind hfill).trans ((run_bind hmap).trans hrun))), hr⟩
        | false =>
          have hfreed := kfree_run (hu f hmine) v
          have hown : Owns e s₀ (release [f] v) := by
            have hout := hplaced.books
            rw [if_neg Bool.false_ne_true, add_comm] at hout
            have htotal := (kfree_spec f (frames e) v () _ hout hfreed).total
            rw [zero_add] at htotal
            refine ⟨htotal, fun g hg => ?_⟩
            have hne : g ≠ f := by
              rintro rfl
              exact hg hmine
            rw [release_mem (by rwa [List.mem_singleton]), hplaced.mem g hne, h.own.mem g hg]
          obtain ⟨t, hrun, hback⟩ := hown.restored hu
          exact ⟨none, t, (run_bind halloc).trans ((run_bind (get_run u)).trans
            ((run_bind hfill).trans ((run_bind hmap).trans
              ((run_bind hfreed).trans (run_bind hrun))))), hback⟩
    · rw [if_neg hlt]
      exact ⟨some d, s, rfl, hdone hi hle h hlt⟩

theorem copyuvm_run (hsz : sz ≤ KERNBASE) (hu : ∀ g ∈ s₀.freelist, Usable img g)
    (hnodup : s₀.freelist.Nodup) (hfree : ∀ g, Holds pgdir g → g ∉ s₀.freelist)
    (hpres : ∀ va, va < sz → pgdir.present va) :
    ∃ r t, copyuvm img pgdir sz s₀ = .ok (r, t) ∧ Outcome img pgdir sz s₀ t r := by
  obtain ⟨r, u, hsetup, hr⟩ := setupkvm_run hu
  rw [copyuvm]
  cases r with
  | none => exact ⟨none, u, (run_bind hsetup).trans rfl, hr⟩
  | some d =>
    obtain ⟨hown, hkernel⟩ := hr
    have hzero : page 0 = 0 := rfl
    have hempty : ∀ b, b < KERNBASE → ¬ d.present b := by
      intro b hb
      apply absent_out (hkernel b)
      intro k hk hin
      obtain ⟨hstart, -, -⟩ := kmap_upper img k hk
      rw [in_iff (kmap_region img k hk)] at hin
      rw [BitVec.lt_def] at hb
      omega
    have hfirst : Partial img pgdir s₀ d u (page 0) := by
      rw [hzero]
      exact ⟨hown, nofun, nofun, nofun, fun b hb _ => hempty b hb, fun b _ => hkernel b⟩
    have hbound : pages sz ≤ page 0 + bound := by
      have hfew : 2 ^ 19 ≤ bound := by decide
      rw [hzero, Nat.zero_add]
      exact (pages_le hsz).trans hfew
    obtain ⟨r, t, hrun, hr⟩ := copyFrom_run hsz hu hnodup hfree hpres (i := 0) (by rfl)
      (Nat.zero_le _) hbound hfirst
    exact ⟨r, t, (run_bind hsetup).trans hrun, hr⟩

/-- A copy of the first `sz` bytes of `pgdir`, apart from it. -/
structure Copied (img : KernelImage) (pgdir : PageDir) (sz : Word) (d : PageDir) (s t : Kmem) :
    Prop where
  flags : ∀ b, page b < pages sz → d.present b ∧ PTE_FLAGS (d.pte b) = PTE_FLAGS (pgdir.pte b)
  contents : ∀ b, page b < pages sz → t.mem (frameOf d b) = s.mem (frameOf pgdir b)
  noOther : ∀ b, b < KERNBASE → pages sz ≤ page b → ¬ d.present b
  distinct : (frames d).Nodup
  apart : ∀ f, Holds d f → ¬ Holds pgdir f
  kernel : ∀ b, KERNBASE ≤ b → d.pte b = kernelPte img b

/-- copyuvm() runs to its end; it gives every frame back or returns a copy, and what the parent
maps stays as it was. -/
theorem copyuvm_exact (img : KernelImage) {pgdir : PageDir} {sz : Word} (hsz : sz ≤ KERNBASE)
    (hpres : ∀ va, va < sz → pgdir.present va) (s : Kmem)
    (hu : ∀ f ∈ s.freelist, Usable img f) (hnodup : s.freelist.Nodup)
    (hfree : ∀ f, Holds pgdir f → f ∉ s.freelist) :
    ∃ r t, copyuvm img pgdir sz s = .ok (r, t) ∧
      (∀ f, Holds pgdir f → t.mem f = s.mem f) ∧
      match r with
      | none => t.freelist.Perm s.freelist
      | some d => Copied img pgdir sz d s t := by
  obtain ⟨r, t, hrun, hr⟩ := copyuvm_run hsz hu hnodup hfree hpres
  refine ⟨r, t, hrun, ?_⟩
  cases r with
  | none => exact ⟨fun f hf => hr.mem f (hfree f hf), hr.free⟩
  | some d =>
    refine ⟨fun f hf => hr.own.mem f (hfree f hf), ?_⟩
    refine ⟨fun b hb => ⟨hr.present b hb, hr.flags b hb⟩, hr.contents, hr.rest, ?_,
      fun f hf hparent => hfree f hparent (hr.own.holds hf), hr.kernel⟩
    have hall : ((t.freelist : Multiset Frame) + frames d).Nodup := by
      rw [hr.own.books]
      exact Multiset.coe_nodup.mpr hnodup
    exact (Multiset.nodup_add.mp hall).2.1

theorem copyuvm_exact_twoPages :
    ∃ r t, copyuvm smallKernel twoPages 8192 ⟨[0x500, 0x501], [], fun _ => zeros⟩ = .ok (r, t) ∧
      (∀ f, Holds twoPages f → t.mem f = zeros) ∧
      match r with
      | none => t.freelist.Perm [0x500, 0x501]
      | some d => Copied smallKernel twoPages 8192 d ⟨[0x500, 0x501], [], fun _ => zeros⟩ t := by
  have hpres : ∀ va, va < 8192 → twoPages.present va := by
    intro va hva
    rw [BitVec.lt_def] at hva
    have hva : va.toNat < 8192 := hva
    rw [twoPages_present, page]
    omega
  exact copyuvm_exact smallKernel (by decide) hpres ⟨[0x500, 0x501], [], fun _ => zeros⟩
    freePages_usable (by decide) twoPages_holds

end PageCopies
