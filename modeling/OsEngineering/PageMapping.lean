import OsEngineering.PageClearing

/-! kalloc(), walkpgdir(), mappages() and freevm() in full: every run ends, and what it gives. -/
namespace PageMapping

open ByteBlock FaultState PageTables PageTableMappings PageFrames PageClearing
open PageTableFaults (indices)

variable {img : KernelImage} {d d' : PageDir} {s t u : Kmem} {a : Word} {k : ℕ}

/-- How a directory and the free list change while pages are taken for page tables. -/
structure Grows (d d' : PageDir) (s t : Kmem) : Prop where
  frame : d'.frame = d.frame
  old : ∀ i, (d.pde i).isSome → (d'.pde i).map PageTable.frame = (d.pde i).map PageTable.frame
  new : ∀ i tab, d.pde i = none → d'.pde i = some tab → tab.frame ∈ s.freelist
  free : t.freelist <:+ s.freelist
  mem : t.mem = s.mem

theorem Grows.refl (d : PageDir) (s : Kmem) : Grows d d s s where
  frame := rfl
  old _ _ := rfl
  new i tab h h' := by
    rw [h] at h'
    cases h'
  free := List.suffix_refl _
  mem := rfl

theorem Grows.trans {e : PageDir} (h : Grows d d' s t) (g : Grows d' e t u) : Grows d e s u where
  frame := g.frame.trans h.frame
  old i hi := by
    have hsome : (d'.pde i).isSome := by
      have hmap := congrArg Option.isSome (h.old i hi)
      rw [Option.isSome_map, Option.isSome_map] at hmap
      exact hmap.trans hi
    exact (g.old i hsome).trans (h.old i hi)
  new i tab hd he := by
    cases hd' : d'.pde i with
    | none => exact h.free.subset (g.new i tab hd' he)
    | some tab' =>
      have hframe := g.old i (by rw [hd']; rfl)
      rw [hd', he] at hframe
      rw [Option.some.inj hframe]
      exact h.new i tab' hd hd'
  free := g.free.trans h.free
  mem := g.mem.trans h.mem

theorem grows_setPte (d : PageDir) (a w : Word) (s : Kmem) : Grows d (d.setPte a w) s s where
  frame := rfl
  old i _ := setPte_tables d a w i
  new i tab h h' := by
    have hframe := setPte_tables d a w i
    rw [h, h'] at hframe
    cases hframe
  free := List.suffix_refl _
  mem := rfl

theorem kalloc_run (s : Kmem) : ∃ r t, kalloc s = .ok (r, t) ∧ t.mem = s.mem ∧
    s.freelist = r.toList ++ t.freelist := by
  simp only [kalloc, Kmem.take]
  split
  · exact ⟨none, _, rfl, rfl, rfl⟩
  · split
    · rename_i hnil
      exact ⟨none, _, rfl, rfl, rfl⟩
    · rename_i f fs hcons
      exact ⟨some f, _, rfl, rfl, hcons⟩

theorem walkpgdir_run (d : PageDir) (a : Word) (s : Kmem) :
    ∃ r t, walkpgdir d a true s = .ok (r, t) ∧ t.mem = s.mem ∧ t.freelist <:+ s.freelist ∧
      ∀ e, r = some e → Grows d e s t ∧ (e.pde (PDX a)).isSome ∧ ∀ b, e.pte b = d.pte b := by
  simp only [walkpgdir]
  cases hd : d.pde (PDX a) with
  | some tab =>
    refine ⟨some d, s, rfl, rfl, List.suffix_refl _, ?_⟩
    rintro e he
    cases he
    exact ⟨.refl d s, by rw [hd]; rfl, fun _ => rfl⟩
  | none =>
    obtain ⟨r, t, hrun, hmem, hfree⟩ := kalloc_run s
    simp only [Bool.not_true, Bool.false_eq_true, if_false, run_bind hrun]
    cases r with
    | none => exact ⟨none, t, rfl, hmem, ⟨[], hfree.symm⟩, by rintro e ⟨⟩⟩
    | some f =>
      have hsuffix : t.freelist <:+ s.freelist := ⟨[f], hfree.symm⟩
      refine ⟨some _, t, rfl, hmem, hsuffix, ?_⟩
      rintro e he
      cases he
      refine ⟨⟨rfl, fun i hi => ?_, fun i tab hnone hsome => ?_, hsuffix, hmem⟩, ?_,
        fun b => pte_new hd f b⟩
      · have hne : i ≠ PDX a := by
          rintro rfl
          rw [hd] at hi
          cases hi
        simp only [Function.update_of_ne hne]
      · by_cases hi : i = PDX a
        · rw [hi] at hsome
          simp only [Function.update_self] at hsome
          cases hsome
          rw [hfree]
          exact List.mem_cons_self
        · simp only [Function.update_of_ne hi] at hsome
          rw [hnone] at hsome
          cases hsome
      · simp only [Function.update_self, Option.isSome_some]

/-! mappages(). -/

theorem among_succ (hk : page a + (k + 1) < 2 ^ 20) (ha : a.toNat % 4096 = 0) :
    (a + PGSIZE).toNat % 4096 = 0 ∧ page (a + PGSIZE) = page a + 1 ∧
      ∀ b, Among (page a) (k + 2) b ↔ page b = page a ∨ Among (page (a + PGSIZE)) (k + 1) b := by
  have hsize : PGSIZE.toNat = 4096 := rfl
  have hnext : (a + PGSIZE).toNat = a.toNat + 4096 := by
    rw [BitVec.toNat_add, hsize]
    simp only [page] at hk
    omega
  have hpage : page (a + PGSIZE) = page a + 1 := by
    simp only [page, hnext]
    omega
  refine ⟨by omega, hpage, fun b => ?_⟩
  rw [hpage]
  simp only [Among]
  omega

/-- The entry of a page in a range that is mapped from `a` to `pa` on. -/
def entryAt (a pa perm b : Word) : Word := (pa + (PGROUNDDOWN b - a)) ||| perm ||| PTE_P

theorem PGROUNDDOWN_eq {b : Word} (ha : a.toNat % 4096 = 0) (h : page b = page a) :
    PGROUNDDOWN b = a := by
  rw [← BitVec.toNat_inj, PGROUNDDOWN_toNat]
  simp only [page] at h
  omega

theorem entryAt_self {b : Word} (pa perm : Word) (ha : a.toNat % 4096 = 0)
    (h : page b = page a) : entryAt a pa perm b = pa ||| perm ||| PTE_P := by
  rw [entryAt, PGROUNDDOWN_eq ha h, BitVec.sub_self, BitVec.add_zero]

theorem entryAt_next (a pa perm b : Word) :
    entryAt (a + PGSIZE) (pa + PGSIZE) perm b = entryAt a pa perm b := by
  have hsum : pa + PGSIZE + (PGROUNDDOWN b - (a + PGSIZE)) = pa + (PGROUNDDOWN b - a) := by
    generalize PGROUNDDOWN b = c
    bv_omega
  rw [entryAt, entryAt, hsum]

/-- What a run of mappages() over `n` absent pages from `a` on leaves. -/
structure Maps (d d' : PageDir) (a pa perm : Word) (n : ℕ) (ok : Bool) : Prop where
  other : ∀ b, ¬ Among (page a) n b → d'.pte b = d.pte b
  within : ok = true → ∀ b, Among (page a) n b → d'.pte b = entryAt a pa perm b

/-- A round of mappages() on an absent page: no frame for a page table, or one more entry. -/
theorem mapFrom_round (perm pa : Word) (k : ℕ) (habsent : ¬ d.present a) (s : Kmem) :
    ∃ t, (mapFrom perm k d a pa s = .ok ((d, false), t) ∧ Grows d d s t) ∨
      ∃ e, Grows d e s t ∧ (∀ b, page b = page a → e.pte b = pa ||| perm ||| PTE_P) ∧
        (∀ b, page b ≠ page a → e.pte b = d.pte b) ∧
        mapFrom perm k d a pa s = (match k with
          | 0 => pure (e, true)
          | k + 1 => mapFrom perm k e (a + PGSIZE) (pa + PGSIZE) : VM (PageDir × Bool)) t := by
  obtain ⟨r, t, hwalk, hmem, hfree, hsome⟩ := walkpgdir_run d a s
  refine ⟨t, ?_⟩
  cases r with
  | none =>
    left
    constructor
    · cases k with
      | zero =>
        rw [mapFrom, run_bind hwalk]
        rfl
      | succ k =>
        rw [mapFrom, run_bind hwalk]
        rfl
    · refine ⟨rfl, fun _ _ => rfl, fun i tab h h' => ?_, hfree, hmem⟩
      rw [h] at h'
      cases h'
  | some e =>
    right
    obtain ⟨hgrows, htable, hpte⟩ := hsome e rfl
    have hno : ¬ e.present a := by
      rw [PageDir.present, hpte]
      exact habsent
    refine ⟨e.setPte a (pa ||| perm ||| PTE_P), hgrows.trans (grows_setPte e a _ t),
      fun b hb => pte_setPte_self htable hb, fun b hb => (pte_setPte_ne e hb).trans (hpte b), ?_⟩
    cases k with
    | zero =>
      rw [mapFrom, run_bind hwalk]
      dsimp only
      rw [if_neg hno]
    | succ k =>
      rw [mapFrom, run_bind hwalk]
      dsimp only
      rw [if_neg hno]

theorem mapFrom_run (perm pa : Word) (hk : page a + k < 2 ^ 20) (ha : a.toNat % 4096 = 0)
    (habsent : ∀ b, Among (page a) (k + 1) b → ¬ d.present b) (s : Kmem) :
    ∃ d' ok t, mapFrom perm k d a pa s = .ok ((d', ok), t) ∧ Grows d d' s t ∧
      Maps d d' a pa perm (k + 1) ok := by
  induction k generalizing d a pa s with
  | zero =>
    have hone : ∀ b, Among (page a) 1 b ↔ page b = page a := by
      intro b
      simp only [Among]
      omega
    obtain ⟨u, hfail | ⟨e, hgrows, hset, hkeep, hrun⟩⟩ :=
      mapFrom_round perm pa 0 (habsent a ((hone a).mpr rfl)) s
    · exact ⟨d, false, u, hfail.1, hfail.2, fun _ _ => rfl, by rintro ⟨⟩⟩
    · refine ⟨e, true, u, hrun, hgrows, fun b hb => ?_, fun _ b hb => ?_⟩
      · exact hkeep b fun heq => hb ((hone b).mpr heq)
      · have hb := (hone b).mp hb
        rw [hset b hb, entryAt_self pa perm ha hb]
  | succ k ih =>
    obtain ⟨hmod, hpage, hcase⟩ := among_succ hk ha
    obtain ⟨u, hfail | ⟨e, hgrows, hset, hkeep, hrun⟩⟩ :=
      mapFrom_round perm pa (k + 1) (habsent a ((hcase a).mpr (Or.inl rfl))) s
    · exact ⟨d, false, u, hfail.1, hfail.2, fun _ _ => rfl, by rintro ⟨⟩⟩
    · have hrest : ∀ b, Among (page (a + PGSIZE)) (k + 1) b → page b ≠ page a := by
        intro b hb
        simp only [Among] at hb
        omega
      have habsent' : ∀ b, Among (page (a + PGSIZE)) (k + 1) b → ¬ e.present b := by
        intro b hb
        rw [PageDir.present, hkeep b (hrest b hb)]
        exact habsent b ((hcase b).mpr (Or.inr hb))
      obtain ⟨d', ok, t, htail, hgrows', hmaps⟩ := ih (pa + PGSIZE) (by omega) hmod habsent' u
      refine ⟨d', ok, t, hrun.trans htail, hgrows.trans hgrows', fun b hb => ?_,
        fun hok b hb => ?_⟩
      · have hb := not_or.mp fun h => hb ((hcase b).mpr h)
        rw [hmaps.other b hb.2, hkeep b hb.1]
      · rcases (hcase b).mp hb with hfirst | hlater
        · have hout : ¬ Among (page (a + PGSIZE)) (k + 1) b := fun h => hrest b h hfirst
          rw [hmaps.other b hout, hset b hfirst, entryAt_self pa perm ha hfirst]
        · rw [hmaps.within hok b hlater, entryAt_next]

/-- A range of whole pages that does not wrap around. -/
structure Region (va size : Word) : Prop where
  start : va.toNat % 4096 = 0
  whole : size.toNat % 4096 = 0
  pos : 0 < size.toNat
  fits : va.toNat + size.toNat ≤ 2 ^ 32

theorem region_last {va size : Word} (h : Region va size) :
    (PGROUNDDOWN (va + size - 1) - PGROUNDDOWN va).toNat / 4096 = size.toNat / 4096 - 1 := by
  obtain ⟨hstart, hwhole, hpos, hfits⟩ := h
  have hsum : (va + size - 1).toNat = va.toNat + size.toNat - 1 := by bv_omega
  have hlast : (PGROUNDDOWN (va + size - 1)).toNat = va.toNat + size.toNat - 4096 := by
    rw [PGROUNDDOWN_toNat, hsum]
    omega
  have hle : va.toNat ≤ (PGROUNDDOWN (va + size - 1)).toNat := by omega
  rw [PGROUNDDOWN_page hstart, BitVec.toNat_sub_of_le (BitVec.le_def.mpr hle), hlast]
  omega

theorem mappages_run {va size : Word} (pa perm : Word) (h : Region va size)
    (habsent : ∀ b, Among (page va) (size.toNat / 4096) b → ¬ d.present b) (s : Kmem) :
    ∃ d' ok t, mappages d va size pa perm s = .ok ((d', ok), t) ∧ Grows d d' s t ∧
      Maps d d' va pa perm (size.toNat / 4096) ok := by
  have hstart := h.start
  have hwhole := h.whole
  have hpos := h.pos
  have hfits := h.fits
  have hcount : size.toNat / 4096 - 1 + 1 = size.toNat / 4096 := by omega
  have hk : page va + (size.toNat / 4096 - 1) < 2 ^ 20 := by
    rw [page]
    omega
  rw [mappages, region_last h, PGROUNDDOWN_page hstart]
  rw [← hcount] at habsent ⊢
  exact mapFrom_run perm pa hk hstart habsent s

theorem one_page (ha : a.toNat % 4096 = 0) : Region a PGSIZE where
  start := ha
  whole := rfl
  pos := by decide
  fits := by
    have hsize : PGSIZE.toNat = 4096 := rfl
    have hlt := a.isLt
    omega

/-- A page that does not fit any more is left out, and the others stay. -/
theorem mappages_one (pa perm : Word) (ha : a.toNat % 4096 = 0) (habsent : ¬ d.present a)
    (s : Kmem) :
    ∃ d' ok t, mappages d a PGSIZE pa perm s = .ok ((d', ok), t) ∧ Grows d d' s t ∧
      (∀ b, page b ≠ page a → d'.pte b = d.pte b) ∧
      (ok = false → ∀ b, d'.pte b = d.pte b) ∧
      (ok = true → ∀ b, page b = page a → d'.pte b = pa ||| perm ||| PTE_P) := by
  have hzero : (PGROUNDDOWN (a + PGSIZE - 1) - PGROUNDDOWN a).toNat / 4096 = 0 := by
    rw [region_last (one_page ha)]
    rfl
  rw [mappages, hzero, PGROUNDDOWN_page ha]
  obtain ⟨t, hfail | ⟨e, hgrows, hset, hkeep, hrun⟩⟩ := mapFrom_round perm pa 0 habsent s
  · exact ⟨d, false, t, hfail.1, hfail.2, fun _ _ => rfl, fun _ _ => rfl, by rintro ⟨⟩⟩
  · exact ⟨e, true, t, hrun, hgrows, hkeep, by rintro ⟨⟩, fun _ => hset⟩

/-! What an entry says. -/

theorem low_zero {w m : Word} (hw : w.toNat % 4096 = 0) (hm : m &&& 0xFFF = m) : w &&& m = 0 := by
  have hmask : (~~~(PGSIZE - 1) : Word) &&& 0xFFF = 0 := by decide
  have hself : w &&& ~~~(PGSIZE - 1) = w := PGROUNDDOWN_page hw
  calc w &&& m = w &&& ~~~(PGSIZE - 1) &&& (0xFFF &&& m) := by
        rw [hself, BitVec.and_comm 0xFFF m, hm]
    _ = w &&& (~~~(PGSIZE - 1) &&& 0xFFF) &&& m := by
        rw [BitVec.and_assoc, BitVec.and_assoc, BitVec.and_assoc]
    _ = 0 := by
        rw [hmask]
        simp only [BitVec.ofNat_eq_ofNat, BitVec.and_zero, BitVec.zero_and]

theorem entry_addr {w perm : Word} (hw : w.toNat % 4096 = 0) (hperm : PTE_FLAGS perm = perm) :
    PTE_ADDR (w ||| perm ||| PTE_P) = w := by
  have hself : w &&& ~~~0xFFF = w := PGROUNDDOWN_page hw
  have hflags : perm &&& ~~~0xFFF = 0 := by
    rw [← hperm, PTE_FLAGS, BitVec.and_assoc]
    exact BitVec.and_zero
  have hpresent : PTE_P &&& ~~~0xFFF = 0 := by decide
  rw [PTE_ADDR, BitVec.and_or_distrib_right, BitVec.and_or_distrib_right, hself, hflags, hpresent]
  simp only [BitVec.ofNat_eq_ofNat, BitVec.or_zero]

theorem entry_flag {w perm m : Word} (hw : w.toNat % 4096 = 0) (hm : m &&& 0xFFF = m) :
    (w ||| perm ||| PTE_P) &&& m = (perm ||| PTE_P) &&& m := by
  rw [BitVec.or_assoc, BitVec.and_or_distrib_right, low_zero hw hm]
  exact BitVec.zero_or

theorem V2P_mod (f : Frame) : (V2P f).toNat % 4096 = 0 := by
  rw [V2P_toNat]
  omega

/-- A copied entry keeps the flags of a present one. -/
theorem copied_flags (f : Frame) {pte : Word} (h : pte &&& PTE_P ≠ 0) :
    PTE_FLAGS (V2P f ||| PTE_FLAGS pte ||| PTE_P) = PTE_FLAGS pte := by
  have hbit := (has_P pte).mp h
  have hflag : (V2P f ||| PTE_FLAGS pte ||| PTE_P) &&& 0xFFF =
      (PTE_FLAGS pte ||| PTE_P) &&& 0xFFF := entry_flag (V2P_mod f) (by decide)
  have hor : pte ||| PTE_P = pte := by
    apply BitVec.eq_of_getLsbD_eq
    intro i hi
    rw [BitVec.getLsbD_or]
    by_cases hzero : i = 0
    · rw [hzero, hbit, Bool.true_or]
    · have hP : PTE_P.getLsbD i = false := by
        have hone : PTE_P = 1#32 := rfl
        rw [hone, BitVec.getLsbD_one]
        simp only [hzero, decide_false, Bool.and_false]
      rw [hP, Bool.or_false]
  have hlow : PTE_P &&& 0xFFF = PTE_P := by decide
  calc PTE_FLAGS (V2P f ||| PTE_FLAGS pte ||| PTE_P)
      = (PTE_FLAGS pte ||| PTE_P) &&& 0xFFF := hflag
    _ = (pte &&& 0xFFF &&& 0xFFF) ||| (PTE_P &&& 0xFFF) := by
        rw [BitVec.and_or_distrib_right, PTE_FLAGS]
    _ = (pte &&& 0xFFF) ||| (PTE_P &&& 0xFFF) := by rw [BitVec.and_assoc, BitVec.and_self]
    _ = PTE_FLAGS pte := by rw [← BitVec.and_or_distrib_right, hor, PTE_FLAGS]

/-! mappages() ends by an equality test. -/

/-- The loop of mappages() as it stands in vm.c. -/
def mapLoop (perm last : Word) : ℕ → PageDir → Word → Word → VM (PageDir × Bool)
  | 0, _, _, _ => throw .loop
  | k + 1, d, a, pa => do
    match ← walkpgdir d a true with
    | none => pure (d, false)
    | some d =>
      if d.present a then panic "remap"
      else
        let d := d.setPte a (pa ||| perm ||| PTE_P)
        if a = last then pure (d, true)
        else mapLoop perm last k d (a + PGSIZE) (pa + PGSIZE)

theorem mapLoop_mapFrom {j : ℕ} (perm last : Word) (hk : k < 2 ^ 20)
    (hlast : last = a + BitVec.ofNat 32 (k * 4096)) (d : PageDir) (pa : Word) :
    mapLoop perm last (k + 1 + j) d a pa = mapFrom perm k d a pa := by
  induction k generalizing d a pa with
  | zero =>
    have hstop : a = last := by
      rw [hlast, Nat.zero_mul]
      exact (BitVec.add_zero a).symm
    rw [Nat.add_right_comm, mapLoop, mapFrom]
    refine congrArg (walkpgdir d a true >>= ·) (funext fun r => ?_)
    cases r with
    | none => rfl
    | some e => simp only [if_pos hstop]
  | succ k ih =>
    have hgo : a ≠ last := by
      intro heq
      have hsame := congrArg BitVec.toNat (heq.trans hlast)
      have hlt := a.isLt
      rw [BitVec.toNat_add, BitVec.toNat_ofNat] at hsame
      omega
    have hrest : last = a + PGSIZE + BitVec.ofNat 32 (k * 4096) := by
      have hsize : PGSIZE = BitVec.ofNat 32 4096 := rfl
      have hsum : (k + 1) * 4096 = 4096 + k * 4096 := by omega
      rw [hlast, hsize, BitVec.add_assoc, ← BitVec.ofNat_add, hsum]
    rw [Nat.add_right_comm, mapLoop, mapFrom]
    refine congrArg (walkpgdir d a true >>= ·) (funext fun r => ?_)
    cases r with
    | none => rfl
    | some e => simp only [if_neg hgo, ih (by omega) hrest]

/-- Every run of the loop of mappages() meets its last page. -/
theorem mappages_loop (d : PageDir) (va size pa perm : Word) :
    mappages d va size pa perm =
      mapLoop perm (PGROUNDDOWN (va + size - 1)) bound d (PGROUNDDOWN va) pa := by
  have hlo := PGROUNDDOWN_toNat va
  have hhi := PGROUNDDOWN_toNat (va + size - 1)
  rw [mappages]
  generalize PGROUNDDOWN (va + size - 1) = last at hhi ⊢
  generalize PGROUNDDOWN va = a at hlo ⊢
  have hdiff : (last - a).toNat % 4096 = 0 := by
    rw [BitVec.toNat_sub]
    omega
  have hlt := (last - a).isLt
  have hfew : (last - a).toNat / 4096 < 2 ^ 20 := by omega
  have hlast : last = a + BitVec.ofNat 32 ((last - a).toNat / 4096 * 4096) := by
    rw [Nat.div_mul_cancel (Nat.dvd_of_mod_eq_zero hdiff), BitVec.ofNat_toNat,
      BitVec.setWidth_eq, BitVec.add_comm, BitVec.sub_add_cancel]
  obtain ⟨j, hj⟩ : ∃ j, bound = (last - a).toNat / 4096 + 1 + j :=
    ⟨bound - ((last - a).toNat / 4096 + 1), by simp only [bound]; omega⟩
  rw [hj, mapLoop_mapFrom perm last hfew hlast d pa]

/-! Whose frame a frame is. -/

theorem mem_entryFrames {i : Index} {x : Option PageTable} {f : Frame} :
    f ∈ entryFrames i x ↔ ∃ tab, x = some tab ∧
      (tab.frame = f ∨ i < 512 ∧ ∃ j, tab.pte j &&& PTE_P ≠ 0 ∧
        frameAt (PTE_ADDR (tab.pte j)) = f) := by
  cases x with
  | none => simp [entryFrames]
  | some tab =>
    have hmapped : ∀ w, f ∈ mapped w ↔ w &&& PTE_P ≠ 0 ∧ frameAt (PTE_ADDR w) = f := by
      intro w
      by_cases hw : w &&& PTE_P ≠ 0
      · rw [mapped_present hw, Multiset.mem_singleton]
        exact ⟨fun h => ⟨hw, h.symm⟩, fun h => h.2.symm⟩
      · rw [mapped_absent hw]
        exact iff_of_false (Multiset.notMem_zero f) fun h => hw h.1
    simp only [entryFrames, Option.some.injEq, exists_eq_left', Multiset.mem_add,
      Multiset.mem_singleton]
    refine or_congr eq_comm ?_
    by_cases hi : i < 512
    · rw [if_pos hi, Multiset.mem_sum]
      simp only [Finset.mem_univ, true_and, hmapped, hi]
    · rw [if_neg hi]
      exact iff_of_false (Multiset.notMem_zero f) fun h => hi h.1

/-- A frame is the directory, a page table of it, or a user page. -/
def Holds (d : PageDir) (f : Frame) : Prop := d.frame = f ∨
  (∃ i tab, d.pde i = some tab ∧ tab.frame = f) ∨
  ∃ b, b < KERNBASE ∧ d.present b ∧ frameOf d b = f

theorem mem_frames (d : PageDir) (f : Frame) : f ∈ frames d ↔ Holds d f := by
  have huser : (∃ i tab, d.pde i = some tab ∧ i < 512 ∧ ∃ j, tab.pte j &&& PTE_P ≠ 0 ∧
      frameAt (PTE_ADDR (tab.pte j)) = f) ↔
      ∃ b, b < KERNBASE ∧ d.present b ∧ frameOf d b = f := by
    constructor
    · rintro ⟨i, tab, hd, hi, j, hpres, hf⟩
      obtain ⟨b, rfl, rfl⟩ := address_of i j
      have hpte : d.pte b = tab.pte (PTX b) := by simp only [PageDir.pte, hd]
      refine ⟨b, (user_iff b).mp hi, ?_, ?_⟩
      · rw [PageDir.present, hpte]
        exact hpres
      · rw [frameOf, hpte]
        exact hf
    · rintro ⟨b, hb, hpres, hf⟩
      obtain ⟨tab, hd⟩ := Option.isSome_iff_exists.mp (table_of_present hpres)
      have hpte : d.pte b = tab.pte (PTX b) := by simp only [PageDir.pte, hd]
      rw [PageDir.present, hpte] at hpres
      rw [frameOf, hpte] at hf
      exact ⟨PDX b, tab, hd, (user_iff b).mpr hb, PTX b, hpres, hf⟩
  rw [Holds, ← huser, frames, Multiset.mem_add, Multiset.mem_singleton, Multiset.mem_sum]
  simp only [Finset.mem_univ, true_and, mem_entryFrames]
  refine or_congr eq_comm ⟨?_, ?_⟩
  · rintro ⟨i, tab, hd, hf | hf⟩
    · exact Or.inl ⟨i, tab, hd, hf⟩
    · exact Or.inr ⟨i, tab, hd, hf⟩
  · rintro (⟨i, tab, hd, hf⟩ | ⟨i, tab, hd, hf⟩)
    · exact ⟨i, tab, hd, Or.inl hf⟩
    · exact ⟨i, tab, hd, Or.inr hf⟩

/-- Two free pages beside the process of two pages. -/
theorem twoPages_held {f : Frame} (h : Holds twoPages f) :
    f = 0x400 ∨ f = 0x401 ∨ f = 0x402 ∨ f = 0x403 := by
  rcases h with h | ⟨i, tab, hd, h⟩ | ⟨b, hb, hpres, h⟩
  · exact Or.inl h.symm
  · simp only [twoPages] at hd
    split at hd
    · cases hd
      exact Or.inr (Or.inl h.symm)
    · cases hd
  · rw [twoPages_frame ((twoPages_present b).mp hpres)] at h
    split at h
    · exact Or.inr (Or.inr (Or.inl h.symm))
    · exact Or.inr (Or.inr (Or.inr h.symm))

theorem twoPages_holds (f : Frame) (h : Holds twoPages f) : f ∉ ([0x500, 0x501] : List Frame) := by
  rcases twoPages_held h with rfl | rfl | rfl | rfl <;> decide

theorem twoPages_exact : Exact twoPages (up (8192 : Word).toNat) := by
  intro b _
  have hup : up (8192 : Word).toNat = 8192 := rfl
  rw [hup, twoPages_present, page]
  omega

theorem freePages_usable (f : Frame) (h : f ∈ ([0x500, 0x501] : List Frame)) :
    Usable smallKernel f := by
  simp only [List.mem_cons, List.not_mem_nil, or_false] at h
  rcases h with rfl | rfl
  · exact ⟨by decide, by decide, by decide⟩
  · exact ⟨by decide, by decide, by decide⟩

theorem mem_of_holds {f : Frame} (h : Holds d f) : f ∈ frames d := by
  rw [mem_frames]
  exact h

/-! freevm(). -/

theorem release_mem {l : List Frame} {f : Frame} (h : f ∉ l) (s : Kmem) :
    (release l s).mem f = s.mem f := if_neg h

theorem freeTables_run (is : List Index)
    (hu : ∀ i tab, d.pde i = some tab → Usable img tab.frame) (s : Kmem) :
    ∃ t, freeTables img d is s = .ok ((), t) ∧
      ∀ f, (∀ i tab, d.pde i = some tab → tab.frame ≠ f) → t.mem f = s.mem f := by
  induction is generalizing s with
  | nil => exact ⟨s, rfl, fun _ _ => rfl⟩
  | cons i is ih =>
    rw [freeTables]
    cases hd : d.pde i with
    | none =>
      obtain ⟨t, hrun, hmem⟩ := ih s
      exact ⟨t, hrun, hmem⟩
    | some tab =>
      obtain ⟨t, hrun, hmem⟩ := ih (release [tab.frame] s)
      refine ⟨t, (run_bind (kfree_run (hu i tab hd) s)).trans hrun, fun f hf => ?_⟩
      rw [hmem f hf]
      apply release_mem
      rw [List.mem_singleton]
      exact (hf i tab hd).symm

theorem cleared_table {R : Word → Prop} (h : Cleared d d' R) {i : Index} {tab : PageTable}
    (hd : d'.pde i = some tab) : ∃ tab', d.pde i = some tab' ∧ tab'.frame = tab.frame := by
  have hframe := h.tables i
  rw [hd] at hframe
  cases hold : d.pde i with
  | none =>
    rw [hold] at hframe
    cases hframe
  | some tab' =>
    rw [hold] at hframe
    exact ⟨tab', rfl, (Option.some.inj hframe).symm⟩

theorem freevm_run (hu : ∀ f, Holds d f → Usable img f) (s : Kmem) :
    ∃ t, freevm img d s = .ok ((), t) ∧ ∀ f, ¬ Holds d f → t.mem f = s.mem f := by
  have hbase : KERNBASE.toNat = 2147483648 := rfl
  have hpages : pages KERNBASE = 524288 := by decide
  have hzero : pages 0 = 0 := by decide
  have hall : (0 : Word) < KERNBASE := by decide
  have hdealloc := (deallocuvm_pages img d (BitVec.le_refl KERNBASE) hall).1
  rw [hzero, Nat.sub_zero] at hdealloc
  generalize pages KERNBASE = n at hpages hdealloc
  have hn : 0 + n ≤ 2 ^ 20 := by omega
  have hlow : ∀ b, Among 0 n b → b < KERNBASE := by
    intro b hb
    simp only [Among, page] at hb
    rw [BitVec.lt_def]
    omega
  have husable : ∀ b, Among 0 n b → d.present b → Usable img (frameOf d b) := by
    intro b hb hpres
    exact hu _ (Or.inr (Or.inr ⟨b, hlow b hb, hpres, rfl⟩))
  obtain ⟨e, hclear, hc⟩ := clearPages_run (p := 0) (n := n) (by omega) husable s
  have htable : ∀ i tab, e.pde i = some tab → Holds d tab.frame := by
    intro i tab he
    obtain ⟨tab', hd, hframe⟩ := cleared_table hc he
    exact Or.inr (Or.inl ⟨i, tab', hd, hframe⟩)
  obtain ⟨t, htables, hmem⟩ := freeTables_run (d := e) indices
    (fun i tab he => hu _ (htable i tab he)) (release (mappedFrames d n 0).reverse s)
  have hdir : Usable img e.frame := by
    rw [hc.frame]
    exact hu _ (Or.inl rfl)
  refine ⟨release [e.frame] t, ?_, fun f hf => ?_⟩
  · rw [freevm, hdealloc]
    rw [run_bind (run_bind hclear)]
    exact (run_bind htables).trans (kfree_run hdir t)
  · have hnotDir : f ∉ [e.frame] := by
      rw [List.mem_singleton, hc.frame]
      rintro rfl
      exact hf (Or.inl rfl)
    have hnotMapped : f ∉ (mappedFrames d n 0).reverse := by
      rw [List.mem_reverse, mem_mappedFrames hn]
      rintro ⟨b, hb, hpres, hframe⟩
      exact hf (Or.inr (Or.inr ⟨b, hlow b hb, hpres, hframe⟩))
    rw [release_mem hnotDir, hmem f fun i tab he heq => hf (heq ▸ htable i tab he),
      release_mem hnotMapped]

/-! A new user page: kalloc(), memset() or memmove(), mappages(). -/

/-- What a directory `d` and a state `s` become when the frame `f` that kalloc() gave is filled
with `p` and mapped at page `a`. -/
structure Placed (all : Supply) (d e : PageDir) (a perm : Word) (f : Frame) (p : Page)
    (s v : Kmem) (ok : Bool) : Prop where
  frame : e.frame = d.frame
  other : ∀ b, page b ≠ page a → e.pte b = d.pte b
  failed : ok = false → ∀ b, e.pte b = d.pte b
  entry : ok = true → ∀ b, page b = page a → e.pte b = V2P f ||| perm ||| PTE_P
  tables : ∀ i, (d.pde i).isSome → (e.pde i).map PageTable.frame = (d.pde i).map PageTable.frame
  mine : f ∈ s.freelist
  filled : v.mem f = p
  mem : ∀ g, g ≠ f → v.mem g = s.mem g
  free : v.freelist ⊆ s.freelist
  books : Books all (frames e + if ok = true then 0 else {f}) v

theorem place_run {all : Supply} {perm : Word} {f : Frame} (hperm : PTE_FLAGS perm = perm)
    (ha : a.toNat % 4096 = 0) (hlow : a < KERNBASE) (habsent : ¬ d.present a)
    (hbooks : Books all (frames d) s) (halloc : kalloc s = .ok (some f, u)) (p : Page) :
    ∃ w e ok v, fill f p u = .ok ((), w) ∧
      mappages d a PGSIZE (V2P f) perm w = .ok ((e, ok), v) ∧
      Placed all d e a perm f p s v ok := by
  obtain ⟨r, u', hkalloc, hmem, hlist⟩ := kalloc_run s
  rw [halloc] at hkalloc
  cases hkalloc
  have hlist : s.freelist = f :: u.freelist := hlist
  obtain ⟨w, hfill, hw, hfree⟩ : ∃ w, fill f p u = .ok ((), w) ∧
      w.mem = Function.update u.mem f p ∧ w.freelist = u.freelist := ⟨_, rfl, rfl, rfl⟩
  obtain ⟨e, ok, v, hrun, hgrows, hother, hleft, hmapped⟩ :=
    mappages_one (V2P f) perm ha habsent w
  have htaken : Books all (given (some f) + frames d) u :=
    kalloc_spec (frames d) s (some f) u (by rw [zero_add]; exact hbooks) halloc
  have hfilled : Books all (0 + (given (some f) + frames d)) w :=
    fill_neutral f p (given (some f) + frames d) u () w (by rw [zero_add]; exact htaken) hfill
  rw [zero_add, show given (some f) + frames d = frames d + {f} from add_comm _ _,
    ← add_zero (frames d + {f})] at hfilled
  have hplaced : Books all (frames e + (if ok = true then 0 else {f}) + 0) v :=
    mapPage_spec f ha hlow hperm 0 w (e, ok) v hfilled hrun
  rw [add_zero] at hplaced
  refine ⟨w, e, ok, v, hfill, hrun, hgrows.frame, hother, hleft, hmapped, hgrows.old, ?_, ?_,
    fun g hg => ?_, ?_, hplaced⟩
  · rw [hlist]
    exact List.mem_cons_self
  · rw [hgrows.mem, hw, Function.update_self]
  · rw [hgrows.mem, hw, Function.update_of_ne hg, hmem]
  · intro g hg
    rw [hlist]
    have hin := hgrows.free.subset hg
    rw [hfree] at hin
    exact List.mem_cons_of_mem f hin

end PageMapping
