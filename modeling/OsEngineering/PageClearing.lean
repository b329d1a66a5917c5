import OsEngineering.PageFrames

/-! deallocuvm() and the plain loop over all pages: both clear the present entries of the range,
and free what they map. -/
namespace PageClearing

open ByteBlock FaultState PageTables PageTableMappings PageFrames

/-- The address of a page. -/
def addr (p : ℕ) : Word := BitVec.ofNat 32 (p * 4096)

/-- The number of pages that `sz` bytes take. -/
def pages (sz : Word) : ℕ := (sz.toNat + 4095) / 4096

def frameOf (d : PageDir) (b : Word) : Frame := frameAt (PTE_ADDR (d.pte b))

/-- A page that kalloc() can give: kfree() takes it, and the kernel lies above page 0. -/
structure Usable (img : KernelImage) (f : Frame) : Prop where
  nonzero : f ≠ 0
  above : img.kend ≤ KERNBASE + V2P f
  below : V2P f < PHYSTOP

section Kernel

variable (img : KernelImage)

/-- The loop of deallocuvm() without the jump over a missing page table. -/
def plainFrom (oldsz : Word) : ℕ → PageDir → Word → VM PageDir
  | 0, d, a => if a < oldsz then throw .loop else pure d
  | k + 1, d, a =>
    if a < oldsz then do
      match ← walkpgdir d a false with
      | none => plainFrom oldsz k d (a + PGSIZE)
      | some _ =>
        if d.present a then
          if PTE_ADDR (d.pte a) = 0 then panic "kfree"
          else do
            kfree img (frameAt (PTE_ADDR (d.pte a)))
            plainFrom oldsz k (d.setPte a 0) (a + PGSIZE)
        else plainFrom oldsz k d (a + PGSIZE)
    else pure d

def plainDealloc (d : PageDir) (oldsz newsz : Word) : VM (PageDir × Word) :=
  if oldsz ≤ newsz then pure (d, oldsz)
  else do
    let d ← plainFrom img oldsz bound d (PGROUNDUP newsz)
    pure (d, newsz)

/-! Both as a recursion over the pages. -/

def clearPage (d : PageDir) (a : Word) : VM PageDir :=
  if d.present a then
    if PTE_ADDR (d.pte a) = 0 then panic "kfree"
    else do
      kfree img (frameAt (PTE_ADDR (d.pte a)))
      pure (d.setPte a 0)
  else pure d

/-- `n` pages from page `p` on. -/
def clearPages : ℕ → ℕ → PageDir → VM PageDir
  | 0, _, d => pure d
  | n + 1, p, d => do
    let d ← clearPage img d (addr p)
    clearPages n (p + 1) d

end Kernel

variable {img : KernelImage} {d : PageDir} {oldsz newsz a : Word} {n p k : ℕ}

theorem addr_toNat (h : p < 2 ^ 20) : (addr p).toNat = p * 4096 := by
  rw [addr, BitVec.toNat_ofNat]
  omega

theorem page_addr (h : p < 2 ^ 20) : page (addr p) = p := by
  rw [page, addr_toNat h]
  omega

theorem addr_page (ha : a.toNat % 4096 = 0) : addr (page a) = a := by
  have hlt := a.isLt
  rw [← BitVec.toNat_inj, addr_toNat (by simp only [page]; omega), page]
  omega

theorem page_lt (ha : a.toNat % 4096 = 0) : a < oldsz ↔ page a < pages oldsz := by
  simp only [BitVec.lt_def, page, pages]
  omega

theorem page_next (ha : a.toNat % 4096 = 0) (hlt : a < KERNBASE) :
    (a + PGSIZE).toNat % 4096 = 0 ∧ page (a + PGSIZE) = page a + 1 := by
  have hbase : KERNBASE.toNat = 2147483648 := rfl
  have hsize : PGSIZE.toNat = 4096 := rfl
  rw [BitVec.lt_def] at hlt
  simp only [page]
  rw [BitVec.toNat_add, hsize]
  omega

theorem pages_le (h : oldsz ≤ KERNBASE) : pages oldsz ≤ 2 ^ 19 := by
  have hbase : KERNBASE.toNat = 2147483648 := rfl
  rw [BitVec.le_def] at h
  simp only [pages]
  omega

theorem pages_mono (h : newsz ≤ oldsz) : pages newsz ≤ pages oldsz := by
  rw [BitVec.le_def] at h
  simp only [pages]
  omega

theorem clearPages_skip {j : ℕ} (hj : j ≤ n) (h : ∀ i < j, ¬ d.present (addr (p + i))) :
    clearPages img n p d = clearPages img (n - j) (p + j) d := by
  induction j generalizing n p with
  | zero => rfl
  | succ j ih =>
    obtain ⟨n, rfl⟩ : ∃ m, n = m + 1 := ⟨n - 1, by omega⟩
    have hfirst : ¬ d.present (addr p) := h 0 (Nat.succ_pos j)
    have hrest : ∀ i < j, ¬ d.present (addr (p + 1 + i)) := by
      intro i hi
      have hnext := h (i + 1) (Nat.succ_lt_succ hi)
      rwa [Nat.add_comm i 1, ← Nat.add_assoc] at hnext
    rw [clearPages, clearPage, if_neg hfirst, pure_bind, ih (by omega) hrest,
      Nat.add_sub_add_right, Nat.add_assoc, Nat.add_comm 1 j]

/-- A round of either loop where the page table is there. -/
theorem clearPages_round (f : PageDir → VM PageDir)
    (hf : ∀ e, f e = clearPages img n (p + 1) e) :
    (if d.present (addr p) then
      if PTE_ADDR (d.pte (addr p)) = 0 then panic "kfree"
      else do
        kfree img (frameAt (PTE_ADDR (d.pte (addr p))))
        f (d.setPte (addr p) 0)
    else f d) = clearPages img (n + 1) p d := by
  rw [clearPages, clearPage, ← funext hf]
  split
  · split
    · rfl
    · rw [bind_assoc]
      congr 1
  · rw [pure_bind]

theorem walk_some {α : Type} (h : (d.pde (PDX a)).isSome) (f : Option PageDir → VM α) :
    walkpgdir d a false >>= f = f (some d) := by
  rw [walkpgdir_false, if_pos h, pure_bind]

theorem walk_none {α : Type} (h : d.pde (PDX a) = none) (f : Option PageDir → VM α) :
    walkpgdir d a false >>= f = f none := by
  rw [walkpgdir_false, h, pure_bind]
  rfl

theorem absent_of_none (h : d.pde (PDX a) = none) : ¬ d.present a := by
  simp [PageDir.present, PageDir.pte, h]

/-- The loops are over where the address is past the old size. -/
theorem clearPages_past (ha : a.toNat % 4096 = 0) (hge : ¬ a < oldsz) :
    clearPages img (pages oldsz - page a) (page a) d = pure d := by
  have hpages : pages oldsz ≤ page a := by
    rw [page_lt ha] at hge
    omega
  rw [Nat.sub_eq_zero_of_le hpages]
  rfl

/-- A loop that does what is left from the next page on does it from this page on, where the page
table is there. -/
theorem clearPages_table (hold : oldsz ≤ KERNBASE) (ha : a.toNat % 4096 = 0) (hlt : a < oldsz)
    (hk : pages oldsz ≤ page a + (k + 1)) (f : PageDir → Word → VM PageDir)
    (ih : ∀ {d a}, a.toNat % 4096 = 0 → pages oldsz ≤ page a + k →
      f d a = clearPages img (pages oldsz - page a) (page a) d) :
    (if d.present a then
      if PTE_ADDR (d.pte a) = 0 then panic "kfree"
      else do
        kfree img (frameAt (PTE_ADDR (d.pte a)))
        f (d.setPte a 0) (a + PGSIZE)
    else f d (a + PGSIZE)) = clearPages img (pages oldsz - page a) (page a) d := by
  obtain ⟨hmod, hnext⟩ := page_next ha (below_kernbase hlt hold)
  have hpage := (page_lt ha).mp hlt
  obtain ⟨n, hn⟩ : ∃ n, pages oldsz - page a = n + 1 := ⟨pages oldsz - page a - 1, by omega⟩
  have hcount : pages oldsz - (page a + 1) = n := by omega
  have hrest : ∀ e, f e (a + PGSIZE) = clearPages img n (page a + 1) e := by
    intro e
    rw [ih hmod (by omega), hnext, hcount]
  have hround := clearPages_round (d := d) (fun e => f e (a + PGSIZE)) hrest
  rw [addr_page ha] at hround
  rw [hn]
  exact hround

theorem deallocFrom_pages (hold : oldsz ≤ KERNBASE) (ha : a.toNat % 4096 = 0)
    (hk : pages oldsz ≤ page a + k) :
    deallocFrom img oldsz k d a = clearPages img (pages oldsz - page a) (page a) d := by
  induction k generalizing d a with
  | zero =>
    have hge : ¬ a < oldsz := by
      rw [page_lt ha]
      omega
    rw [deallocFrom, if_neg hge, clearPages_past ha hge]
  | succ k ih =>
    rw [deallocFrom]
    by_cases hlt : a < oldsz
    · rw [if_pos hlt]
      cases hd : d.pde (PDX a) with
      | none =>
        -- every page up to the next table is absent
        have hlow := below_kernbase hlt hold
        have hpage := (page_lt ha).mp hlt
        have hto := nextTable_toNat (BitVec.lt_def.mp hlow)
        have hpn : page (nextTable a) = (page a / 1024 + 1) * 1024 := by
          simp only [page]
          omega
        have hskip : ∀ i < min (page (nextTable a) - page a) (pages oldsz - page a),
            ¬ d.present (addr (page a + i)) := by
          intro i hi
          have hle := pages_le hold
          have hq : (addr (page a + i)).toNat = (page a + i) * 4096 := addr_toNat (by omega)
          have hpdx : PDX (addr (page a + i)) = PDX a := by
            rw [← BitVec.toNat_inj, PDX_toNat, PDX_toNat, hq]
            simp only [page] at hi hpn ⊢
            omega
          exact absent_of_none (hpdx ▸ hd)
        rw [walk_none hd, ih (by omega) (by omega), clearPages_skip (Nat.min_le_right _ _) hskip]
        by_cases hend : page (nextTable a) ≤ pages oldsz
        · rw [Nat.min_eq_left (by omega), Nat.sub_sub, Nat.add_sub_cancel' (by omega)]
        · rw [Nat.min_eq_right (by omega), Nat.sub_self, Nat.sub_eq_zero_of_le (by omega)]
          rfl
      | some t =>
        rw [walk_some (by rw [hd]; rfl)]
        exact clearPages_table hold ha hlt hk (deallocFrom img oldsz k) ih
    · rw [if_neg hlt, clearPages_past ha hlt]

theorem plainFrom_pages (hold : oldsz ≤ KERNBASE) (ha : a.toNat % 4096 = 0)
    (hk : pages oldsz ≤ page a + k) :
    plainFrom img oldsz k d a = clearPages img (pages oldsz - page a) (page a) d := by
  induction k generalizing d a with
  | zero =>
    have hge : ¬ a < oldsz := by
      rw [page_lt ha]
      omega
    rw [plainFrom, if_neg hge, clearPages_past ha hge]
  | succ k ih =>
    rw [plainFrom]
    by_cases hlt : a < oldsz
    · have hround := clearPages_table (d := d) hold ha hlt hk (plainFrom img oldsz k) ih
      rw [if_pos hlt]
      cases hd : d.pde (PDX a) with
      | none =>
        rw [if_neg (absent_of_none hd)] at hround
        rw [walk_none hd]
        exact hround
      | some t =>
        rw [walk_some (by rw [hd]; rfl)]
        exact hround
    · rw [if_neg hlt, clearPages_past ha hlt]

/-! What the recursion does. -/

/-- The frames that are mapped at `n` pages from page `p` on. -/
def mappedFrames (d : PageDir) (n p : ℕ) : List Frame :=
  ((List.range' p n).filter fun q => d.present (addr q)).map fun q => frameOf d (addr q)

/-- `d'` is `d` without its present entries in the pages of `R`. -/
structure Cleared (d d' : PageDir) (R : Word → Prop) : Prop where
  frame : d'.frame = d.frame
  tables : ∀ i, (d'.pde i).map PageTable.frame = (d.pde i).map PageTable.frame
  gone : ∀ b, R b → d.present b → d'.pte b = 0
  kept : ∀ b, ¬ (R b ∧ d.present b) → d'.pte b = d.pte b

/-- `frames` are back on the free list, filled with ones. -/
def release (frames : List Frame) (s : Kmem) : Kmem where
  freelist := frames ++ s.freelist
  refuse := s.refuse
  mem f := if f ∈ frames then fun _ => 1 else s.mem f

theorem kfree_run {f : Frame} (h : Usable img f) (s : Kmem) :
    kfree img f s = .ok ((), release [f] s) := by
  have hno : ¬ (KERNBASE + V2P f < img.kend ∨ PHYSTOP ≤ V2P f) := by
    rw [not_or, BitVec.not_lt, BitVec.not_le]
    exact ⟨h.above, h.below⟩
  have hmem : (release [f] s).mem = Function.update s.mem f fun _ => 1 := by
    funext g
    by_cases hg : g = f
    · simp only [release, hg, List.mem_singleton, if_true, Function.update_self]
    · simp only [release, List.mem_singleton, if_neg hg, Function.update_of_ne hg]
  rw [kfree, if_neg hno, fill, run_bind (modify_run _ s), modify_run]
  congr 2
  simp only [release, List.singleton_append] at hmem ⊢
  rw [hmem]

theorem release_release (l m : List Frame) (s : Kmem) :
    release l (release m s) = release (l ++ m) s := by
  simp only [release, List.append_assoc, List.mem_append]
  congr 1
  funext f
  by_cases hl : f ∈ l
  · simp only [hl, true_or, if_true]
  · simp only [hl, false_or, if_false]

theorem ADDR_ne {b : Word} (h : frameOf d b ≠ 0) : PTE_ADDR (d.pte b) ≠ 0 := by
  intro hzero
  rw [frameOf, hzero] at h
  exact h rfl

theorem table_of_present {b : Word} (h : d.present b) : (d.pde (PDX b)).isSome := by
  cases hd : d.pde (PDX b) with
  | some t => rfl
  | none => exact absurd h (absent_of_none hd)

theorem setPte_tables (d : PageDir) (a w : Word) (i : Index) :
    ((d.setPte a w).pde i).map PageTable.frame = (d.pde i).map PageTable.frame := by
  by_cases hi : i = PDX a
  · rw [hi]
    simp only [PageDir.setPte, Function.update_self]
    cases d.pde (PDX a) <;> rfl
  · simp only [PageDir.setPte, Function.update_of_ne hi]

/-- The pages of the recursion. -/
def Among (p n : ℕ) (b : Word) : Prop := p ≤ page b ∧ page b < p + n

theorem mappedFrames_succ (d : PageDir) (n p : ℕ) :
    mappedFrames d (n + 1) p =
      (if d.present (addr p) then [frameOf d (addr p)] else []) ++ mappedFrames d n (p + 1) := by
  simp only [mappedFrames, List.range'_succ, List.filter_cons]
  split
  · simp_all
  · simp_all

theorem mappedFrames_congr {e : PageDir} (h : ∀ q, p ≤ q → q < p + n → e.pte (addr q) = d.pte (addr q)) :
    mappedFrames e n p = mappedFrames d n p := by
  have hpte : ∀ q ∈ List.range' p n, e.pte (addr q) = d.pte (addr q) := by
    intro q hq
    rw [List.mem_range'_1] at hq
    exact h q hq.1 hq.2
  have hfilter : (List.range' p n).filter (fun q => e.present (addr q)) =
      (List.range' p n).filter fun q => d.present (addr q) :=
    List.filter_congr fun q hq => decide_eq_decide.mpr (present_congr (hpte q hq))
  simp only [mappedFrames, hfilter]
  apply List.map_congr_left
  intro q hq
  simp only [frameOf, hpte q (List.mem_of_mem_filter hq)]

theorem clearPages_run (hn : p + n ≤ 2 ^ 20)
    (hu : ∀ b, Among p n b → d.present b → Usable img (frameOf d b)) (s : Kmem) :
    ∃ d', clearPages img n p d s = .ok (d', release (mappedFrames d n p).reverse s) ∧
      Cleared d d' (Among p n) := by
  induction n generalizing d p s with
  | zero =>
    refine ⟨d, ?_, rfl, fun _ => rfl, fun b hb => ?_, fun _ _ => rfl⟩
    · simp [clearPages, release, mappedFrames, pure_run]
    · simp only [Among] at hb
      omega
  | succ n ih =>
    have hpage : page (addr p) = p := page_addr (by omega)
    have hcase : ∀ b, Among p (n + 1) b ↔ page b = p ∨ Among (p + 1) n b := by
      intro b
      simp only [Among]
      omega
    by_cases hpres : d.present (addr p)
    · have hsome := table_of_present hpres
      have husable := hu (addr p) ((hcase _).mpr (Or.inl hpage)) hpres
      have hself : ∀ b, page b = p → (d.setPte (addr p) 0).pte b = 0 :=
        fun b hb => pte_setPte_self hsome (hb.trans hpage.symm)
      have hother : ∀ b, page b ≠ p → (d.setPte (addr p) 0).pte b = d.pte b :=
        fun b hb => pte_setPte_ne d (fun heq => hb (heq.trans hpage))
      have hrest : ∀ b, Among (p + 1) n b → page b ≠ p := by
        intro b hb
        simp only [Among] at hb
        omega
      have hsame : mappedFrames (d.setPte (addr p) 0) n (p + 1) = mappedFrames d n (p + 1) := by
        apply mappedFrames_congr
        intro q hlo hhi
        apply hother
        rw [page_addr (by omega)]
        omega
      have hu' : ∀ b, Among (p + 1) n b → (d.setPte (addr p) 0).present b →
          Usable img (frameOf (d.setPte (addr p) 0) b) := by
        intro b hb hpresent
        rw [PageDir.present, hother b (hrest b hb)] at hpresent
        rw [frameOf, hother b (hrest b hb)]
        exact hu b ((hcase b).mpr (Or.inr hb)) hpresent
      obtain ⟨d', hrun, hc⟩ := ih (by omega) hu' (release [frameOf d (addr p)] s)
      have hfree : kfree img (frameAt (PTE_ADDR (d.pte (addr p)))) s =
          .ok ((), release [frameOf d (addr p)] s) := kfree_run husable s
      refine ⟨d', ?_, ?_⟩
      · rw [clearPages, clearPage, if_pos hpres, if_neg (ADDR_ne husable.nonzero), bind_assoc,
          run_bind hfree, pure_bind, hrun, hsame, release_release,
          mappedFrames_succ, if_pos hpres]
        simp only [List.singleton_append, List.reverse_cons]
      · refine ⟨hc.frame, fun i => ?_, fun b hb hpresent => ?_, fun b hb => ?_⟩
        · rw [hc.tables, setPte_tables]
        · by_cases hbp : page b = p
          · by_cases hgone : (d.setPte (addr p) 0).present b
            · rw [PageDir.present, hself b hbp] at hgone
              exact absurd rfl hgone
            · rw [hc.kept b (fun h => hgone h.2), hself b hbp]
          · refine hc.gone b (((hcase b).mp hb).resolve_left hbp) ?_
            rw [PageDir.present, hother b hbp]
            exact hpresent
        · by_cases hbp : page b = p
          · have hpte : d.pte b = d.pte (addr p) := pte_congr d (hbp.trans hpage.symm)
            have hpb : d.present b := by
              rw [PageDir.present, hpte]
              exact hpres
            exact absurd ⟨(hcase b).mpr (Or.inl hbp), hpb⟩ hb
          · have hnot : ¬ (Among (p + 1) n b ∧ (d.setPte (addr p) 0).present b) := by
              rintro ⟨hin, hpresent⟩
              rw [PageDir.present, hother b hbp] at hpresent
              exact hb ⟨(hcase b).mpr (Or.inr hin), hpresent⟩
            rw [hc.kept b hnot, hother b hbp]
    · obtain ⟨d', hrun, hc⟩ := ih (by omega)
        (fun b hb => hu b ((hcase b).mpr (Or.inr hb))) s
      refine ⟨d', ?_, hc.frame, hc.tables, fun b hb hpresent => ?_, fun b hb => ?_⟩
      · rw [clearPages, clearPage, if_neg hpres, pure_bind, hrun, mappedFrames_succ, if_neg hpres,
          List.nil_append]
      · rcases (hcase b).mp hb with hbp | hin
        · rw [PageDir.present, pte_congr d (hbp.trans hpage.symm)] at hpresent
          exact absurd hpresent hpres
        · exact hc.gone b hin hpresent
      · exact hc.kept b fun h => hb ⟨(hcase b).mpr (Or.inr h.1), h.2⟩

/-! deallocuvm(). -/

/-- The pages of [PGROUNDUP(newsz), oldsz). -/
def InRange (newsz oldsz b : Word) : Prop := PGROUNDUP newsz ≤ b ∧ PGROUNDDOWN b < oldsz

theorem inRange_iff (h : newsz ≤ KERNBASE) (b : Word) :
    InRange newsz oldsz b ↔ pages newsz ≤ page b ∧ page b < pages oldsz := by
  have hup := PGROUNDUP_toNat (BitVec.le_def.mp h)
  have hdown := PGROUNDDOWN_toNat b
  simp only [InRange, BitVec.le_def, BitVec.lt_def, hup, hdown, page, pages, up]
  omega

theorem deallocuvm_pages (img : KernelImage) (d : PageDir) (hold : oldsz ≤ KERNBASE)
    (hlt : newsz < oldsz) :
    deallocuvm img d oldsz newsz = (do
      let e ← clearPages img (pages oldsz - pages newsz) (pages newsz) d
      pure (e, newsz)) ∧
    plainDealloc img d oldsz newsz = deallocuvm img d oldsz newsz := by
  have hnew : newsz ≤ KERNBASE := BitVec.le_of_lt (below_kernbase hlt hold)
  have hpage : page (PGROUNDUP newsz) = pages newsz := by
    rw [page, PGROUNDUP_toNat (BitVec.le_def.mp hnew), up, pages]
    omega
  have hbound : pages oldsz ≤ page (PGROUNDUP newsz) + bound := by
    have hle := pages_le hold
    simp only [bound]
    omega
  have hge : ¬ oldsz ≤ newsz := BitVec.not_le.mpr hlt
  constructor
  · rw [deallocuvm, if_neg hge, deallocFrom_pages hold (PGROUNDUP_mod newsz) hbound, hpage]
  · rw [deallocuvm, plainDealloc, if_neg hge, if_neg hge,
      deallocFrom_pages hold (PGROUNDUP_mod newsz) hbound,
      plainFrom_pages hold (PGROUNDUP_mod newsz) hbound]

theorem Cleared.congr {d' : PageDir} {R R' : Word → Prop} (h : Cleared d d' R)
    (hR : ∀ b, R' b ↔ R b) : Cleared d d' R' where
  frame := h.frame
  tables := h.tables
  gone b hb := h.gone b ((hR b).mp hb)
  kept b hb := h.kept b fun hin => hb ⟨(hR b).mpr hin.1, hin.2⟩

theorem mem_mappedFrames (hn : p + n ≤ 2 ^ 20) {f : Frame} :
    f ∈ mappedFrames d n p ↔ ∃ b, Among p n b ∧ d.present b ∧ frameOf d b = f := by
  simp only [mappedFrames, List.mem_map, List.mem_filter, List.mem_range'_1, decide_eq_true_eq]
  constructor
  · rintro ⟨q, ⟨hq, hpres⟩, hf⟩
    refine ⟨addr q, ?_, hpres, hf⟩
    rw [Among, page_addr (by omega)]
    exact hq
  · rintro ⟨b, hb, hpres, hf⟩
    have hpte : d.pte (addr (page b)) = d.pte b :=
      pte_congr d (page_addr (by simp only [Among] at hb; omega))
    refine ⟨page b, ⟨hb, ?_⟩, ?_⟩
    · rw [PageDir.present, hpte]
      exact hpres
    · rw [frameOf, hpte]
      exact hf

theorem nodup_mappedFrames (hn : p + n ≤ 2 ^ 20)
    (hd : ∀ a b, Among p n a → Among p n b → d.present a → d.present b →
      frameOf d a = frameOf d b → page a = page b) : (mappedFrames d n p).Nodup := by
  refine List.Nodup.map_on ?_ ((List.nodup_range').filter _)
  intro q hq r hr heq
  simp only [List.mem_filter, List.mem_range'_1, decide_eq_true_eq] at hq hr
  have hpq : page (addr q) = q := page_addr (by omega)
  have hpr : page (addr r) = r := page_addr (by omega)
  have hsame := hd (addr q) (addr r) (by rw [Among, hpq]; exact hq.1)
    (by rw [Among, hpr]; exact hr.1) hq.2 hr.2 heq
  rw [hpq, hpr] at hsame
  exact hsame

theorem deallocuvm_run (hold : oldsz ≤ KERNBASE) (hlt : newsz < oldsz)
    (hu : ∀ b, InRange newsz oldsz b → d.present b → Usable img (frameOf d b)) (s : Kmem) :
    ∃ d', deallocuvm img d oldsz newsz s = .ok ((d', newsz),
        release (mappedFrames d (pages oldsz - pages newsz) (pages newsz)).reverse s) ∧
      Cleared d d' (InRange newsz oldsz) := by
  have hle := pages_le hold
  have hfew : pages newsz ≤ pages oldsz := pages_mono (BitVec.le_of_lt hlt)
  have hnew : newsz ≤ KERNBASE := BitVec.le_of_lt (below_kernbase hlt hold)
  have hrange : ∀ b, InRange newsz oldsz b ↔
      Among (pages newsz) (pages oldsz - pages newsz) b := by
    intro b
    rw [inRange_iff hnew, Among]
    omega
  obtain ⟨d', hclear, hc⟩ := clearPages_run (d := d) (p := pages newsz)
    (n := pages oldsz - pages newsz) (by omega) (fun b hb => hu b ((hrange b).mpr hb)) s
  refine ⟨d', ?_, hc.congr hrange⟩
  rw [(deallocuvm_pages img d hold hlt).1, run_bind hclear, pure_run]

theorem inRange_low {b : Word} (hold : oldsz ≤ KERNBASE) (hlt : newsz < oldsz)
    (h : InRange newsz oldsz b) : b < KERNBASE := by
  have hbase : KERNBASE.toNat = 2147483648 := rfl
  have hle := pages_le hold
  rw [inRange_iff (BitVec.le_of_lt (below_kernbase hlt hold))] at h
  simp only [page] at h
  rw [BitVec.lt_def]
  omega

/-- The frames that deallocuvm() frees. -/
theorem mem_freed (hold : oldsz ≤ KERNBASE) (hlt : newsz < oldsz) (f : Frame) :
    f ∈ (mappedFrames d (pages oldsz - pages newsz) (pages newsz)).reverse ↔
      ∃ b, InRange newsz oldsz b ∧ d.present b ∧ frameOf d b = f := by
  have hle := pages_le hold
  have hfew : pages newsz ≤ pages oldsz := pages_mono (BitVec.le_of_lt hlt)
  rw [List.mem_reverse, mem_mappedFrames (by omega)]
  apply exists_congr
  intro b
  rw [inRange_iff (BitVec.le_of_lt (below_kernbase hlt hold)), Among]
  refine and_congr_left fun _ => ?_
  omega

/-- deallocuvm() runs like the plain loop, frees every present frame of the range once, clears
exactly those entries and returns newsz. -/
theorem deallocuvm_exact (img : KernelImage) {d : PageDir} {oldsz newsz : Word}
    (hold : oldsz ≤ KERNBASE) (hlt : newsz < oldsz)
    (hu : ∀ b, b < KERNBASE → d.present b → Usable img (frameOf d b))
    (hd : ∀ a b, a < KERNBASE → b < KERNBASE → d.present a → d.present b →
      frameOf d a = frameOf d b → page a = page b) (s : Kmem) :
    deallocuvm img d oldsz newsz s = plainDealloc img d oldsz newsz s ∧
    ∃ d' frames, deallocuvm img d oldsz newsz s = .ok ((d', newsz), release frames s) ∧
      frames.Nodup ∧
      (∀ f, f ∈ frames ↔ ∃ b, InRange newsz oldsz b ∧ d.present b ∧ frameOf d b = f) ∧
      Cleared d d' (InRange newsz oldsz) := by
  have hplain := (deallocuvm_pages img d hold hlt).2
  have hle := pages_le hold
  have hfew : pages newsz ≤ pages oldsz := pages_mono (BitVec.le_of_lt hlt)
  have hlow : ∀ b, Among (pages newsz) (pages oldsz - pages newsz) b → b < KERNBASE := by
    intro b hb
    have hbase : KERNBASE.toNat = 2147483648 := rfl
    simp only [Among, page] at hb
    rw [BitVec.lt_def]
    omega
  obtain ⟨d', hrun, hc⟩ := deallocuvm_run (d := d) hold hlt
    (fun b hb => hu b (inRange_low hold hlt hb)) s
  refine ⟨by rw [hplain], d', _, hrun, ?_, mem_freed hold hlt, hc⟩
  exact List.nodup_reverse.mpr
    (nodup_mappedFrames (by omega) fun a b ha hb => hd a b (hlow a ha) (hlow b hb))

/-! A process of two pages. -/

def smallKernel : KernelImage := imageTo 0x80115000

def twoPages : PageDir where
  frame := 0x400
  pde i := if i = 0 then some
      { frame := 0x401
        pte := fun j => if j = 0 then 0x402007 else if j = 1 then 0x403007 else 0 }
    else none

theorem twoPages_pte (b : Word) : twoPages.pte b =
    if page b = 0 then 0x402007 else if page b = 1 then 0x403007 else 0 := by
  have h0 : page b = 0 ↔ PDX b = 0 ∧ PTX b = 0 := by
    have hzero : (0 : Index).toNat = 0 := rfl
    rw [← BitVec.toNat_inj, ← BitVec.toNat_inj, PDX_toNat, PTX_toNat, hzero, page]
    omega
  have h1 : page b = 1 ↔ PDX b = 0 ∧ PTX b = 1 := by
    have hzero : (0 : Index).toNat = 0 := rfl
    have hone : (1 : Index).toNat = 1 := rfl
    rw [← BitVec.toNat_inj, ← BitVec.toNat_inj, PDX_toNat, PTX_toNat, hzero, hone, page]
    omega
  simp only [h0, h1, PageDir.pte, twoPages]
  by_cases hd : PDX b = 0
  · simp only [hd, if_true, true_and]
  · simp only [hd, if_false, false_and]

theorem twoPages_present (b : Word) : twoPages.present b ↔ page b < 2 := by
  rw [PageDir.present, twoPages_pte]
  have hcase : page b = 0 ∨ page b = 1 ∨ 2 ≤ page b := by omega
  rcases hcase with h | h | h
  · simp only [h]
    decide
  · simp only [h]
    decide
  · have h0 : page b ≠ 0 := by omega
    have h1 : page b ≠ 1 := by omega
    rw [if_neg h0, if_neg h1]
    have hno : ¬ page b < 2 := by omega
    simp only [hno, iff_false]
    decide

theorem twoPages_frame {b : Word} (h : page b < 2) :
    frameOf twoPages b = if page b = 0 then 0x402 else 0x403 := by
  rw [frameOf, twoPages_pte]
  by_cases h0 : page b = 0
  · rw [if_pos h0, if_pos h0]
    decide
  · have h1 : page b = 1 := by omega
    rw [if_neg h0, if_pos h1, if_neg h0]
    decide

theorem twoPages_usable (b : Word) (h : twoPages.present b) :
    Usable smallKernel (frameOf twoPages b) := by
  rw [twoPages_frame ((twoPages_present b).mp h)]
  split
  · exact ⟨by decide, by decide, by decide⟩
  · exact ⟨by decide, by decide, by decide⟩

theorem twoPages_distinct (a b : Word) (ha : twoPages.present a) (hb : twoPages.present b)
    (h : frameOf twoPages a = frameOf twoPages b) : page a = page b := by
  rw [twoPages_present] at ha hb
  rw [twoPages_frame ha, twoPages_frame hb] at h
  by_cases ha0 : page a = 0
  · by_cases hb0 : page b = 0
    · rw [ha0, hb0]
    · rw [if_pos ha0, if_neg hb0] at h
      exact absurd h (by decide)
  · by_cases hb0 : page b = 0
    · rw [if_neg ha0, if_pos hb0] at h
      exact absurd h (by decide)
    · omega

theorem deallocuvm_exact_twoPages :
    deallocuvm smallKernel twoPages 8192 100 ⟨[], [], fun _ => zeros⟩ =
        plainDealloc smallKernel twoPages 8192 100 ⟨[], [], fun _ => zeros⟩ ∧
      ∃ d' frames, deallocuvm smallKernel twoPages 8192 100 ⟨[], [], fun _ => zeros⟩ =
          .ok ((d', 100), release frames ⟨[], [], fun _ => zeros⟩) ∧
        frames.Nodup ∧
        (∀ f, f ∈ frames ↔
          ∃ b, InRange 100 8192 b ∧ twoPages.present b ∧ frameOf twoPages b = f) ∧
        Cleared twoPages d' (InRange 100 8192) :=
  deallocuvm_exact smallKernel (by decide) (by decide) (fun b _ => twoPages_usable b)
    (fun a b _ _ => twoPages_distinct a b) ⟨[], [], fun _ => zeros⟩

end PageClearing
