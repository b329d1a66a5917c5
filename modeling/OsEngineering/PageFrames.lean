import OsEngineering.FiniteTally
import OsEngineering.FramedTriples
import OsEngineering.PageTableFaults
import Mathlib.Algebra.Order.Group.Multiset
import Mathlib.Data.FinEnum
import Mathlib.Tactic.Abel

/-! Each frame that the functions of vm.c take from the free list is held by the page table they
build, or goes back to the free list. -/
namespace PageFrames

open ByteBlock FaultState FiniteTally FramedTriples PageTables PageTableMappings
open PageTableFaults (indices mem_indices)

/-- `calm` says that kalloc() only fails where the free list is empty. -/
structure Supply where
  frames : Multiset Frame
  calm : Prop

/-- `held` are the frames out of the free list. -/
structure Books (all : Supply) (held : Multiset Frame) (s : Kmem) : Prop where
  total : (s.freelist : Multiset Frame) + held = all.frames
  refuse : all.calm → s.refuse = []

def mapped (pte : Word) : Multiset Frame :=
  if pte &&& PTE_P ≠ 0 then {frameAt (PTE_ADDR pte)} else 0

/-- What the entry `i` of a page directory holds: a page table, and the pages mapped below
KERNBASE. -/
def entryFrames (i : Index) : Option PageTable → Multiset Frame
  | none => 0
  | some t => {t.frame} + if i < 512 then ∑ j, mapped (t.pte j) else 0

def frames (d : PageDir) : Multiset Frame := {d.frame} + ∑ i, entryFrames i (d.pde i)

def framesOf : Option PageDir → Multiset Frame
  | none => 0
  | some d => frames d

variable {α : Type} {all : Supply} {img : KernelImage} {d : PageDir} {va w : Word}

abbrev Spec (all : Supply) (a : Multiset Frame) (c : VM α) (b : α → Multiset Frame) : Prop :=
  Triple (Books all) a c b

abbrev Neutral (all : Supply) (c : VM α) : Prop := Spec all 0 c fun _ => 0

/-! Changes of one entry. -/

def put (d : PageDir) (i : Index) (x : Option PageTable) : PageDir :=
  { d with pde := Function.update d.pde i x }

theorem frames_put (d : PageDir) (i : Index) (x : Option PageTable) :
    frames (put d i x) + entryFrames i (d.pde i) = frames d + entryFrames i x := by
  have h := sum_change (S := Finset.univ) (f := fun j => entryFrames j (d.pde j))
    (g := fun j => entryFrames j (Function.update d.pde i x j)) (Finset.mem_univ i) (by
      intro j _ hj
      rw [Function.update_of_ne hj])
  rw [Function.update_self] at h
  simp only [frames, put, add_assoc, h]

theorem frames_newTable (h : d.pde (PDX va) = none) (f : Frame) :
    frames (put d (PDX va) (some ⟨f, fun _ => 0⟩)) = frames d + {f} := by
  have hnew := frames_put d (PDX va) (some ⟨f, fun _ => 0⟩)
  have hzero : ∑ _j : Index, mapped 0 = 0 := Finset.sum_eq_zero fun _ _ => rfl
  rw [h] at hnew
  simp only [entryFrames, hzero, ite_self, add_zero] at hnew
  exact hnew

theorem user_iff (va : Word) : PDX va < 512 ↔ va < KERNBASE := by
  have hbase : KERNBASE.toNat = 2147483648 := rfl
  have h512 : (512 : Index).toNat = 512 := rfl
  rw [BitVec.lt_def, BitVec.lt_def, PDX_toNat]
  omega

def setEntry (t : PageTable) (j : Index) (w : Word) : PageTable :=
  { t with pte := Function.update t.pte j w }

theorem setPte_put {t : PageTable} (ht : d.pde (PDX va) = some t) (w : Word) :
    d.setPte va w = put d (PDX va) (some (setEntry t (PTX va) w)) := by
  simp only [PageDir.setPte, ht, Option.map_some]
  rfl

theorem entryFrames_setEntry {i : Index} (hi : i < 512) (t : PageTable) (j : Index) (w : Word) :
    entryFrames i (some (setEntry t j w)) + mapped (t.pte j) =
      entryFrames i (some t) + mapped w := by
  have h := sum_change (S := Finset.univ) (f := fun k => mapped (t.pte k))
    (g := fun k => mapped (Function.update t.pte j w k)) (Finset.mem_univ j) (by
      intro k _ hk
      rw [Function.update_of_ne hk])
  rw [Function.update_self] at h
  simp only [entryFrames, setEntry, if_pos hi, add_assoc, h]

theorem frames_setPte (hc : (d.pde (PDX va)).isSome) (hva : va < KERNBASE) :
    frames (d.setPte va w) + mapped (d.pte va) = frames d + mapped w := by
  obtain ⟨t, ht⟩ := Option.isSome_iff_exists.mp hc
  have hold : d.pte va = t.pte (PTX va) := by
    simp only [PageDir.pte, ht]
  have hdir := frames_put d (PDX va) (some (setEntry t (PTX va) w))
  have htable := entryFrames_setEntry ((user_iff va).mpr hva) t (PTX va) w
  rw [ht] at hdir
  rw [setPte_put ht, hold]
  -- both sides are short of what the old page table held
  apply add_right_cancel (b := entryFrames (PDX va) (some t))
  rw [add_right_comm, hdir, add_assoc, htable]
  abel

theorem frames_setPte_upper (d : PageDir) (w : Word) (hva : ¬ va < KERNBASE) :
    frames (d.setPte va w) = frames d := by
  cases ht : d.pde (PDX va) with
  | none =>
    have hsame : d.setPte va w = put d (PDX va) none := by
      simp only [PageDir.setPte, ht, Option.map_none]
      rfl
    have h := frames_put d (PDX va) none
    rw [ht] at h
    simp only [entryFrames, add_zero] at h
    rw [hsame]
    exact h
  | some t =>
    have hno : ¬ PDX va < 512 := fun h => hva ((user_iff va).mp h)
    have hentry : entryFrames (PDX va) (some (setEntry t (PTX va) w)) =
        entryFrames (PDX va) (some t) := by
      simp only [entryFrames, setEntry, if_neg hno]
    have h := frames_put d (PDX va) (some (setEntry t (PTX va) w))
    rw [ht, hentry] at h
    rw [setPte_put ht]
    exact add_right_cancel h

theorem mapped_present (h : w &&& PTE_P ≠ 0) : mapped w = {frameAt (PTE_ADDR w)} := if_pos h

theorem mapped_absent (h : ¬ w &&& PTE_P ≠ 0) : mapped w = 0 := if_neg h

/-! kalloc.c -/

def given : Option Frame → Multiset Frame
  | none => 0
  | some f => {f}

theorem kalloc_spec : Spec all 0 kalloc given := by
  intro x s r t h hrun
  have hrun : s.take = (r, t) := Except.ok.inj hrun
  have hrefuse : all.calm → s.refuse.tail = [] := by
    intro hc
    rw [h.refuse hc]
    rfl
  simp only [Kmem.take] at hrun
  split at hrun
  · cases hrun
    exact ⟨h.total, hrefuse⟩
  · split at hrun
    · cases hrun
      exact ⟨h.total, hrefuse⟩
    · next f fs hs =>
      cases hrun
      have htotal := h.total
      rw [hs, ← Multiset.cons_coe, ← Multiset.singleton_add, zero_add] at htotal
      refine ⟨?_, hrefuse⟩
      rw [← htotal]
      simp only [given]
      abel

theorem modify_neutral {m : Kmem → Kmem} (h : ∀ s, (m s).freelist = s.freelist)
    (hr : ∀ s, (m s).refuse = s.refuse) : Neutral all (modify m) := by
  apply triple_modify
  intro x s hs
  refine ⟨?_, ?_⟩
  · rw [h]
    exact hs.total
  · rw [hr]
    exact hs.refuse

theorem fill_neutral (f : Frame) (v : Page) : Neutral all (fill f v) :=
  modify_neutral (fun _ => rfl) fun _ => rfl

theorem store_neutral (f : Frame) (off : ℕ) (bytes : List Byte) : Neutral all (store f off bytes) :=
  modify_neutral (fun _ => rfl) fun _ => rfl

theorem panic_spec (msg : String) {a : Multiset Frame} {b : α → Multiset Frame} :
    Spec all a (PageTables.panic msg : VM α) b := triple_throw _

theorem kfree_spec (f : Frame) : Spec all {f} (kfree img f) fun _ => 0 := by
  apply triple_ite
  · intro _
    apply panic_spec
  · intro _
    apply triple_keep (fill_neutral f _)
    intro _
    apply triple_modify
    intro x s h
    refine ⟨?_, h.refuse⟩
    rw [← h.total, ← Multiset.cons_coe, ← Multiset.singleton_add]
    abel

/-! walkpgdir() and mappages(). -/

theorem walkpgdir_spec (d : PageDir) (va : Word) (alloc : Bool) :
    Spec all (frames d) (walkpgdir d va alloc) fun r => frames (r.getD d) := by
  simp only [walkpgdir]
  split
  · exact triple_pure rfl
  · next hnone =>
    apply triple_ite
    · intro _
      exact triple_pure rfl
    · intro _
      apply triple_take kalloc_spec
      intro r
      cases r with
      | none => exact triple_pure (zero_add _).symm
      | some f =>
        apply triple_pure
        exact (frames_newTable hnone f).trans (add_comm _ _)

theorem entry_frame (f : Frame) {perm : Word} (hperm : PTE_FLAGS perm = perm) :
    frameAt (PTE_ADDR (V2P f ||| perm ||| PTE_P)) = f := by
  rw [← hperm]
  apply BitVec.eq_of_getLsbD_eq
  intro i hi
  have hlow : (0xFFF : Word).getLsbD (12 + i) = false := by
    revert i
    decide
  have hP : PTE_P.getLsbD (12 + i) = false := by
    revert i
    decide
  have h12 : ¬ 12 + i < 12 := by omega
  have h32 : 12 + i < 32 := by omega
  simp only [frameAt, PTE_ADDR, PTE_FLAGS, V2P, BitVec.getLsbD_extractLsb', BitVec.getLsbD_and,
    BitVec.getLsbD_or, BitVec.getLsbD_not, BitVec.getLsbD_append, hlow, hP, hi, h12, h32,
    Nat.add_sub_cancel_left, Bool.and_false, Bool.or_false, Bool.not_false, Bool.and_true,
    Bool.true_and, decide_true, if_false]

/-- The frame of a new user page passes to the page table, unless walkpgdir() finds no frame for
the page table itself. -/
theorem mapPage_spec {a perm : Word} (f : Frame) (ha : a.toNat % 4096 = 0) (hlow : a < KERNBASE)
    (hperm : PTE_FLAGS perm = perm) :
    Spec all (frames d + {f}) (mappages d a PGSIZE (V2P f) perm)
      fun r => frames r.1 + if r.2 = true then 0 else {f} := by
  simp only [mappages, PGROUNDDOWN_page ha, PGROUNDDOWN_last ha, BitVec.sub_self,
    BitVec.toNat_zero, Nat.zero_div, mapFrom]
  intro x s r t h hrun
  obtain ⟨e, u, hwalk, hrest⟩ := bind_ok hrun
  have hu := triple_frame (walkpgdir_spec d a true) {f} x s e u h hwalk
  cases e with
  | none =>
    cases hrest
    exact hu
  | some e =>
    obtain ⟨hc, -⟩ := walkpgdir_ok hwalk
    dsimp only at hrest
    split at hrest
    · cases hrest
    · next habsent =>
      cases hrest
      have hset := frames_setPte (w := V2P f ||| perm ||| PTE_P) hc hlow
      rw [mapped_absent habsent, mapped_present (set_P _ _), entry_frame f hperm, add_zero] at hset
      change Books all (frames (e.setPte a _) + (if true = true then 0 else {f}) + x) t
      rw [if_pos rfl, add_zero, hset]
      exact hu

theorem span_first (a : Word) (k : ℕ) : Span a k a :=
  ⟨0, Nat.zero_le k, by simp⟩

theorem mapFrom_upper {k : ℕ} {a : Word} (perm pa : Word)
    (hup : ∀ b, Span a k b → KERNBASE ≤ b) :
    Spec all (frames d) (mapFrom perm k d a pa) fun r => frames r.1 := by
  have hkern : ¬ a < KERNBASE := BitVec.not_lt.mpr (hup a (span_first a k))
  induction k generalizing d a pa with
  | zero =>
    rw [mapFrom]
    apply triple_bind (walkpgdir_spec d a true)
    intro r
    cases r with
    | none => exact triple_pure rfl
    | some e =>
      apply triple_ite
      · intro _
        apply panic_spec
      · intro _
        apply triple_pure
        exact frames_setPte_upper e _ hkern
  | succ k ih =>
    rw [mapFrom]
    apply triple_bind (walkpgdir_spec d a true)
    intro r
    cases r with
    | none => exact triple_pure rfl
    | some e =>
      apply triple_ite
      · intro _
        apply panic_spec
      · intro _
        have hrest : ∀ b, Span (a + PGSIZE) k b → KERNBASE ≤ b := by
          intro b hb
          exact hup b (span_succ.mpr (Or.inr hb))
        rw [Option.getD_some, ← frames_setPte_upper e (pa ||| perm ||| PTE_P) hkern]
        exact ih (pa + PGSIZE) hrest (BitVec.not_lt.mpr (hrest _ (span_first _ k)))

theorem mappages_upper {va size : Word} (pa perm : Word) (hu : Upper va size) :
    Spec all (frames d) (mappages d va size pa perm) fun r => frames r.1 :=
  mapFrom_upper perm pa fun _ hb => span_upper hu hb

/-! deallocuvm() and freevm(). -/

theorem below_kernbase {a n : Word} (h : a < n) (hn : n ≤ KERNBASE) : a < KERNBASE := by
  rw [BitVec.lt_def] at h ⊢
  rw [BitVec.le_def] at hn
  omega

theorem deallocFrom_spec {oldsz : Word} (hold : oldsz ≤ KERNBASE) (k : ℕ) (a : Word) :
    Spec all (frames d) (deallocFrom img oldsz k d a) frames := by
  induction k generalizing d a with
  | zero =>
    apply triple_ite
    · intro _
      exact triple_throw _
    · intro _
      exact triple_pure rfl
  | succ k ih =>
    apply triple_ite
    · intro hlt
      rw [walkpgdir_false]
      apply triple_return
      by_cases hc : (d.pde (PDX a)).isSome
      · rw [if_pos hc]
        apply triple_ite
        · intro hpres
          apply triple_ite
          · intro _
            apply panic_spec
          · intro _
            have hset := frames_setPte (w := 0) hc (below_kernbase hlt hold)
            rw [mapped_present hpres, show mapped 0 = 0 from rfl, add_zero] at hset
            apply triple_give (hset.symm.trans (add_comm _ _)) (kfree_spec _)
            intro _
            exact ih _
        · intro _
          exact ih _
      · rw [if_neg hc]
        exact ih _
    · intro _
      exact triple_pure rfl

theorem deallocuvm_spec {oldsz : Word} (hold : oldsz ≤ KERNBASE) (newsz : Word) :
    Spec all (frames d) (deallocuvm img d oldsz newsz) fun r => frames r.1 := by
  apply triple_ite
  · intro _
    exact triple_pure rfl
  · intro _
    apply triple_bind (deallocFrom_spec hold _ _)
    intro e
    exact triple_pure rfl

theorem nextTable_toNat {a : Word} (h : a.toNat < KERNBASE.toNat) :
    (nextTable a).toNat = (a.toNat / 4194304 + 1) * 4194304 := by
  have hbase : KERNBASE.toNat = 2147483648 := rfl
  have hpdx := PDX_toNat a
  have hone : (1 : Word).toNat = 1 := rfl
  have hsum : ((PDX a).setWidth 32 + 1).toNat = a.toNat / 4194304 + 1 := by
    rw [BitVec.toNat_add, BitVec.toNat_setWidth, hpdx, hone]
    omega
  rw [nextTable, BitVec.toNat_shiftLeft, hsum, Nat.shiftLeft_eq]
  omega

/-- After the loop no page from `a` to `oldsz` is mapped. -/
theorem deallocFrom_clears {oldsz : Word} {k : ℕ} {d' : PageDir} {a : Word} {s t : Kmem}
    (h : deallocFrom img oldsz k d a s = .ok (d', t)) (hold : oldsz ≤ KERNBASE)
    (ha : a.toNat % 4096 = 0) :
    (∀ b, d'.present b → d.present b) ∧
      ∀ b, a.toNat ≤ b.toNat → b.toNat < oldsz.toNat → ¬ d'.present b := by
  have hbase : KERNBASE.toNat = 2147483648 := rfl
  have hsize : PGSIZE.toNat = 4096 := rfl
  have hend : ∀ {a : Word}, ¬ a < oldsz → ∀ b : Word, a.toNat ≤ b.toNat →
      b.toNat < oldsz.toNat → ¬ d'.present b := by
    intro a hge b hab hb
    rw [BitVec.lt_def] at hge
    omega
  rw [BitVec.le_def] at hold
  induction k generalizing d a s with
  | zero =>
    simp only [deallocFrom] at h
    split at h
    · cases h
    · next hge =>
      cases h
      exact ⟨fun _ => id, hend hge⟩
  | succ k ih =>
    simp only [deallocFrom] at h
    split at h
    · next hlt =>
      rw [BitVec.lt_def] at hlt
      have hnext : (a + PGSIZE).toNat = a.toNat + 4096 := by
        rw [BitVec.toNat_add, hsize]
        omega
      -- the rest of the loop, once the page of `a` is gone
      have hrest : ∀ {e : PageDir} {u : Kmem}, deallocFrom img oldsz k e (a + PGSIZE) u = .ok (d', t) →
          (∀ b, e.present b → d.present b) → ¬ e.present a →
          (∀ b, d'.present b → d.present b) ∧
            ∀ b, a.toNat ≤ b.toNat → b.toNat < oldsz.toNat → ¬ d'.present b := by
        intro e u hrun hsub hgone
        obtain ⟨hkeep, hclear⟩ := ih hrun (by omega)
        refine ⟨fun b hb => hsub b (hkeep b hb), ?_⟩
        intro b hab hb hpres
        by_cases hpage : page b = page a
        · apply hgone
          rw [PageDir.present, ← pte_congr e hpage]
          exact hkeep b hpres
        · have hbb : (a + PGSIZE).toNat ≤ b.toNat := by
            simp only [page] at hpage
            omega
          exact hclear b hbb hb hpres
      cases hc : d.pde (PDX a) with
      | none =>
        have hwalk : walkpgdir d a false s = .ok (none, s) := by
          rw [walkpgdir_false, hc]
          rfl
        rw [run_bind hwalk] at h
        dsimp only at h
        have hjump := nextTable_toNat (a := a) (by omega)
        obtain ⟨hkeep, hclear⟩ := ih h (by omega)
        refine ⟨hkeep, ?_⟩
        intro b hab hb hpres
        by_cases hbb : (nextTable a).toNat ≤ b.toNat
        · exact hclear b hbb hb hpres
        · have hpdx : PDX b = PDX a := by
            rw [← BitVec.toNat_inj, PDX_toNat, PDX_toNat]
            omega
          have hpte : d.pte b = 0 := by
            simp only [PageDir.pte, hpdx, hc]
          have := hkeep b hpres
          rw [PageDir.present, hpte] at this
          exact this rfl
      | some tab =>
        have hsome : (d.pde (PDX a)).isSome = true := by
          rw [hc]
          rfl
        have hwalk : walkpgdir d a false s = .ok (some d, s) := by
          rw [walkpgdir_false, if_pos hsome]
          rfl
        rw [run_bind hwalk] at h
        dsimp only at h
        split at h
        · split at h
          · cases h
          · obtain ⟨_, v, -, h⟩ := bind_ok h
            have hself : (d.setPte a 0).pte a = 0 := pte_setPte_self hsome rfl
            apply hrest h
            · intro b hb
              by_cases hpage : page b = page a
              · rw [PageDir.present, pte_congr _ hpage, hself] at hb
                exact absurd rfl hb
              · rw [PageDir.present, pte_setPte_ne d hpage] at hb
                exact hb
            · rw [PageDir.present, hself]
              exact fun h => h rfl
        · next hgone => exact hrest h (fun _ => id) hgone
    · next hge =>
      cases h
      exact ⟨fun _ => id, hend hge⟩

/-- The frames of the page tables under `is`. -/
def tables (d : PageDir) (is : List Index) : Multiset Frame :=
  (is.map fun i => (match d.pde i with
    | none => 0
    | some t => {t.frame} : Multiset Frame)).sum

theorem freeTables_spec (d : PageDir) (is : List Index) :
    Spec all (tables d is) (freeTables img d is) fun _ => 0 := by
  induction is with
  | nil => exact triple_pure rfl
  | cons i is ih =>
    simp only [freeTables, tables, List.map_cons, List.sum_cons]
    cases d.pde i with
    | none =>
      rw [zero_add]
      exact ih
    | some t =>
      apply triple_give rfl (kfree_spec t.frame)
      intro _
      exact ih

/-- The address with a given pair of indices. -/
theorem address_of (i j : Index) : ∃ b : Word, PDX b = i ∧ PTX b = j := by
  have hi := i.isLt
  have hj := j.isLt
  have hb : (BitVec.ofNat 32 (i.toNat * 4194304 + j.toNat * 4096)).toNat =
      i.toNat * 4194304 + j.toNat * 4096 := by
    rw [BitVec.toNat_ofNat]
    omega
  refine ⟨BitVec.ofNat 32 (i.toNat * 4194304 + j.toNat * 4096), ?_, ?_⟩
  · rw [← BitVec.toNat_inj, PDX_toNat, hb]
    omega
  · rw [← BitVec.toNat_inj, PTX_toNat, hb]
    omega

theorem nodup_indices : indices.Nodup := by
  apply List.Nodup.map_on _ List.nodup_range
  intro m hm n hn heq
  rw [List.mem_range] at hm hn
  have := congrArg BitVec.toNat heq
  rw [BitVec.toNat_ofNat, BitVec.toNat_ofNat] at this
  omega

/-- A directory without user pages. -/
theorem frames_empty (h : ∀ b, b < KERNBASE → ¬ d.present b) :
    frames d = {d.frame} + tables d indices := by
  have huniv : (Finset.univ : Finset Index) = indices.toFinset := by
    apply Finset.ext
    intro i
    exact iff_of_true (Finset.mem_univ i) (List.mem_toFinset.mpr (mem_indices i))
  have hentry : ∀ i, entryFrames i (d.pde i) = (match d.pde i with
      | none => 0
      | some t => {t.frame} : Multiset Frame) := by
    intro i
    cases ht : d.pde i with
    | none => rfl
    | some t =>
      simp only [entryFrames]
      by_cases hi : i < 512
      · have hnone : ∑ j, mapped (t.pte j) = 0 := by
          apply Finset.sum_eq_zero
          intro j _
          obtain ⟨b, rfl, rfl⟩ := address_of i j
          have hpte : d.pte b = t.pte (PTX b) := by
            simp only [PageDir.pte, ht]
          have habsent := h b ((user_iff b).mp hi)
          rw [PageDir.present, hpte] at habsent
          exact mapped_absent habsent
        rw [if_pos hi, hnone, add_zero]
      · rw [if_neg hi, add_zero]
  rw [frames, tables, huniv, List.sum_toFinset _ nodup_indices]
  simp only [hentry]

theorem freevm_spec (d : PageDir) : Spec all (frames d) (freevm img d) fun _ => 0 := by
  intro x s r t h hrun
  obtain ⟨⟨e, n⟩, u, hdealloc, hrest⟩ := bind_ok hrun
  have hu := deallocuvm_spec (BitVec.le_refl _) 0 x s (e, n) u h hdealloc
  have hfrees : Spec all ({e.frame} + tables e indices) (do
      freeTables img e indices
      kfree img e.frame) fun _ => 0 := by
    apply triple_give (add_comm _ _) (freeTables_spec e indices)
    intro _
    exact kfree_spec e.frame
  have hclear : ∀ b, b < KERNBASE → ¬ e.present b := by
    rw [deallocuvm, if_neg (by decide)] at hdealloc
    obtain ⟨e', v, hloop, hdone⟩ := bind_ok hdealloc
    have hee : e = e' := congrArg Prod.fst (pure_ok hdone).1
    intro b hb
    rw [hee]
    exact (deallocFrom_clears hloop (BitVec.le_refl _) (by decide)).2 b (Nat.zero_le _) hb
  have hframes : frames e = {e.frame} + tables e indices := frames_empty hclear
  change Books all (frames e + x) u at hu
  rw [hframes] at hu
  exact hfrees x u r t hu hrest

/-! setupkvm(), allocuvm() and copyuvm(). -/

theorem mapAll_spec {ks : List Kmap} (hks : ∀ k ∈ ks, Upper k.virt (k.phys_end - k.phys_start))
    (d : PageDir) : Spec all (frames d) (mapAll img ks d) framesOf := by
  induction ks generalizing d with
  | nil => exact triple_pure rfl
  | cons k ks ih =>
    apply triple_bind (mappages_upper k.phys_start k.perm (hks k List.mem_cons_self))
    intro r
    obtain ⟨e, ok⟩ := r
    apply triple_ite
    · intro _
      exact ih (fun l hl => hks l (List.mem_cons_of_mem k hl)) e
    · intro _
      apply triple_give (add_zero _).symm (freevm_spec e)
      intro _
      exact triple_pure rfl

theorem setupkvm_spec : Spec all 0 (setupkvm img) framesOf := by
  apply triple_bind kalloc_spec
  intro r
  cases r with
  | none => exact triple_pure rfl
  | some f =>
    have hempty : frames ⟨f, fun _ => none⟩ = {f} := by
      have hzero : ∑ i : Index, entryFrames i none = 0 := Finset.sum_eq_zero fun _ _ => rfl
      rw [frames, hzero, add_zero]
    have h : Spec all _ (mapAll img (kmap img) ⟨f, fun _ => none⟩) framesOf :=
      mapAll_spec (kmap_upper img) ⟨f, fun _ => none⟩
    rw [hempty] at h
    exact h

theorem flags_user : PTE_FLAGS (PTE_W ||| PTE_U) = PTE_W ||| PTE_U := by decide

theorem flags_flags (pte : Word) : PTE_FLAGS (PTE_FLAGS pte) = PTE_FLAGS pte := by
  simp only [PTE_FLAGS, BitVec.and_assoc, BitVec.and_self]

theorem allocFrom_spec {oldsz newsz : Word} (hnew : newsz < KERNBASE) (k : ℕ) {a : Word}
    (ha : a.toNat % 4096 = 0) :
    Spec all (frames d) (allocFrom img oldsz newsz k d a) fun r => frames r.1 := by
  have hle : newsz ≤ KERNBASE := BitVec.le_of_lt hnew
  induction k generalizing d a with
  | zero =>
    apply triple_ite
    · intro _
      exact triple_throw _
    · intro _
      exact triple_pure rfl
  | succ k ih =>
    apply triple_ite
    · intro hlt
      have hlow := below_kernbase hlt hle
      apply triple_take kalloc_spec
      intro r
      cases r with
      | none =>
        rw [show given none + frames d = frames d from zero_add _]
        apply triple_bind (deallocuvm_spec hle oldsz)
        intro e
        exact triple_pure rfl
      | some mem =>
        apply triple_keep (fill_neutral mem _)
        intro _
        rw [show given (some mem) + frames d = frames d + {mem} from add_comm _ _]
        apply triple_bind (mapPage_spec mem ha hlow flags_user)
        intro e
        obtain ⟨e, ok⟩ := e
        apply triple_ite
        · intro hok
          rw [if_pos hok, add_zero]
          apply ih
          have hsize : PGSIZE.toNat = 4096 := rfl
          rw [BitVec.toNat_add, hsize]
          omega
        · intro hok
          rw [if_neg hok]
          apply triple_bind (triple_frame (deallocuvm_spec hle oldsz) {mem})
          intro e'
          apply triple_give (add_comm _ _) (kfree_spec mem)
          intro _
          exact triple_pure rfl
    · intro _
      exact triple_pure rfl

theorem allocuvm_spec (d : PageDir) (oldsz newsz : Word) :
    Spec all (frames d) (allocuvm img d oldsz newsz) fun r => frames r.1 := by
  apply triple_ite
  · intro _
    exact triple_pure rfl
  · intro hnew
    apply triple_ite
    · intro _
      exact triple_pure rfl
    · intro hge
      have hlow := BitVec.not_le.mp hnew
      apply allocFrom_spec hlow
      rw [BitVec.not_lt, BitVec.le_def] at hge
      rw [BitVec.lt_def] at hlow
      rw [PGROUNDUP_toNat (by omega)]
      simp only [up]
      omega

theorem clearpteu_spec (d : PageDir) (uva : Word) :
    Spec all (frames d) (clearpteu d uva) frames := by
  intro x s r t h hrun
  obtain ⟨e, u, hwalk, hrest⟩ := bind_ok hrun
  have hu := walkpgdir_spec d uva false x s e u h hwalk
  cases e with
  | none => cases hrest
  | some e =>
    obtain ⟨hc, -⟩ := walkpgdir_ok hwalk
    cases hrest
    have haddr : PTE_ADDR (e.pte uva &&& ~~~PTE_U) = PTE_ADDR (e.pte uva) := by
      have hmask : ~~~PTE_U &&& ~~~(0xFFF : Word) = ~~~0xFFF := by decide
      rw [PTE_ADDR, BitVec.and_assoc, hmask]
      rfl
    have hmapped : mapped (e.pte uva &&& ~~~PTE_U) = mapped (e.pte uva) := by
      simp only [mapped, keep_P, haddr]
    have hsame : frames (e.setPte uva (e.pte uva &&& ~~~PTE_U)) = frames e := by
      by_cases hlow : uva < KERNBASE
      · have hset := frames_setPte (w := e.pte uva &&& ~~~PTE_U) hc hlow
        rw [hmapped] at hset
        exact add_right_cancel hset
      · exact frames_setPte_upper e _ hlow
    rw [hsame]
    exact hu

theorem copyFrom_spec {pgdir : PageDir} {sz : Word} (hsz : sz ≤ KERNBASE) (k : ℕ) (d : PageDir)
    {i : Word} (hi : i.toNat % 4096 = 0) :
    Spec all (frames d) (copyFrom img pgdir sz k d i) framesOf := by
  induction k generalizing d i with
  | zero =>
    apply triple_ite
    · intro _
      exact triple_throw _
    · intro _
      exact triple_pure rfl
  | succ k ih =>
    apply triple_ite
    · intro hlt
      rw [walkpgdir_false]
      apply triple_return
      split
      · apply panic_spec
      · apply triple_ite
        · intro _
          apply panic_spec
        · intro _
          apply triple_take kalloc_spec
          intro r
          cases r with
          | none =>
            apply triple_give (add_comm _ _) (freevm_spec d)
            intro _
            exact triple_pure rfl
          | some mem =>
            apply triple_get
            intro m
            apply triple_keep (fill_neutral mem _)
            intro _
            rw [show given (some mem) + frames d = frames d + {mem} from add_comm _ _]
            apply triple_bind (mapPage_spec mem hi (below_kernbase hlt hsz) (flags_flags _))
            intro e
            obtain ⟨e, ok⟩ := e
            apply triple_ite
            · intro hok
              rw [if_pos hok, add_zero]
              apply ih
              have hsize : PGSIZE.toNat = 4096 := rfl
              rw [BitVec.toNat_add, hsize]
              omega
            · intro hok
              rw [if_neg hok]
              apply triple_give (add_comm _ _) (kfree_spec mem)
              intro _
              apply triple_give (add_zero _).symm (freevm_spec e)
              intro _
              exact triple_pure rfl
    · intro _
      exact triple_pure rfl

theorem copyuvm_spec (pgdir : PageDir) {sz : Word} (hsz : sz ≤ KERNBASE) :
    Spec all 0 (copyuvm img pgdir sz) framesOf := by
  apply triple_bind setupkvm_spec
  intro r
  cases r with
  | none => exact triple_pure rfl
  | some d => exact copyFrom_spec hsz bound d (by decide)

attribute [irreducible] frames

end PageFrames
