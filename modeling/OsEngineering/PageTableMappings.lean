import OsEngineering.PageTables

/-! What the functions of vm.c do to the set of present pages, when they succeed. -/
namespace PageTableMappings

open ByteBlock FaultState PageTables

/-! Addresses. -/

def page (va : Word) : ℕ := va.toNat / 4096

/-- The size in whole pages. -/
def up (n : ℕ) : ℕ := (n + 4095) / 4096 * 4096

theorem V2P_toNat (f : Frame) : (V2P f).toNat = f.toNat * 4096 := by
  have hzero : (0 : BitVec 12).toNat = 0 := rfl
  rw [V2P, BitVec.toNat_append, hzero, Nat.or_zero, Nat.shiftLeft_eq]

theorem PGROUNDDOWN_toNat (a : Word) : (PGROUNDDOWN a).toNat = a.toNat / 4096 * 4096 := by
  have hmask : ~~~(PGSIZE - 1) = BitVec.allOnes 32 <<< 12 := by decide
  rw [PGROUNDDOWN, hmask]
  exact mask_toNat a 12

theorem PGROUNDUP_mod (a : Word) : (PGROUNDUP a).toNat % 4096 = 0 := by
  change (PGROUNDDOWN (a + PGSIZE - 1)).toNat % 4096 = 0
  rw [PGROUNDDOWN_toNat]
  omega

theorem PGROUNDUP_toNat {sz : Word} (h : sz.toNat ≤ KERNBASE.toNat) :
    (PGROUNDUP sz).toNat = up sz.toNat := by
  have hdef : PGROUNDUP sz = PGROUNDDOWN (sz + PGSIZE - 1) := rfl
  have hsum : (sz + PGSIZE - 1).toNat = sz.toNat + 4095 := by
    simp only [KERNBASE, PGSIZE] at *
    bv_omega
  rw [hdef, PGROUNDDOWN_toNat, hsum, up]

theorem PDX_toNat (va : Word) : (PDX va).toNat = va.toNat / 4194304 := by
  unfold PDX
  rw [BitVec.extractLsb'_toNat]
  simp only [Nat.shiftRight_eq_div_pow]
  omega

theorem PTX_toNat (va : Word) : (PTX va).toNat = va.toNat / 4096 % 1024 := by
  unfold PTX
  rw [BitVec.extractLsb'_toNat]
  simp only [Nat.shiftRight_eq_div_pow]

theorem index_eq {a b : Word} : page a = page b ↔ PDX a = PDX b ∧ PTX a = PTX b := by
  simp only [← BitVec.toNat_inj, PDX_toNat, PTX_toNat, page]
  omega

/-! Entries. -/

theorem has_P (pte : Word) : pte &&& PTE_P ≠ 0 ↔ pte.getLsbD 0 = true := by
  have h : PTE_P = 1#32 := rfl
  rw [h, BitVec.and_one_eq_setWidth_ofBool_getLsbD]
  cases pte.getLsbD 0 <;> simp

theorem set_P (pa perm : Word) : (pa ||| perm ||| PTE_P) &&& PTE_P ≠ 0 := by
  rw [has_P]
  simp [PTE_P]

theorem keep_P (pte : Word) : (pte &&& ~~~PTE_U) &&& PTE_P = pte &&& PTE_P := by
  rw [BitVec.and_assoc]
  rfl

theorem pte_congr (d : PageDir) {a b : Word} (h : page a = page b) : d.pte a = d.pte b := by
  obtain ⟨hd, ht⟩ := index_eq.mp h
  simp only [PageDir.pte, hd, ht]

theorem pte_setPte_self {d : PageDir} {a b w : Word} (hc : (d.pde (PDX a)).isSome)
    (h : page b = page a) : (d.setPte a w).pte b = w := by
  obtain ⟨hd, ht⟩ := index_eq.mp h
  obtain ⟨t, ht'⟩ := Option.isSome_iff_exists.mp hc
  simp [PageDir.pte, PageDir.setPte, hd, ht, ht']

theorem pte_setPte_ne (d : PageDir) {a b w : Word} (h : page b ≠ page a) :
    (d.setPte a w).pte b = d.pte b := by
  have hne : ¬ (PDX b = PDX a ∧ PTX b = PTX a) := fun k => h (index_eq.mpr k)
  unfold PageDir.pte PageDir.setPte
  by_cases hd : PDX b = PDX a
  · have ht : PTX b ≠ PTX a := fun k => hne ⟨hd, k⟩
    rw [hd]
    cases d.pde (PDX a) <;> simp [ht]
  · simp [hd]

/-- A new, empty page table shows no new entry. -/
theorem pte_new {d : PageDir} {a : Word} (h : d.pde (PDX a) = none) (f : Frame) (b : Word) :
    ({ d with pde := Function.update d.pde (PDX a) (some ⟨f, fun _ => 0⟩) } : PageDir).pte b =
      d.pte b := by
  unfold PageDir.pte
  by_cases hd : PDX b = PDX a
  · simp [hd, h]
  · simp [hd]

theorem present_congr {d d' : PageDir} {b : Word} (h : d'.pte b = d.pte b) :
    d'.present b ↔ d.present b := by
  simp only [PageDir.present, h]

/-! walkpgdir() and mappages(). -/

theorem walkpgdir_false (d : PageDir) (va : Word) :
    walkpgdir d va false = pure (if (d.pde (PDX va)).isSome then some d else none) := by
  unfold walkpgdir
  cases d.pde (PDX va) <;> rfl

theorem walkpgdir_ok {d d' : PageDir} {va : Word} {alloc : Bool} {s t : Kmem}
    (h : walkpgdir d va alloc s = .ok (some d', t)) :
    (d'.pde (PDX va)).isSome ∧ ∀ b, d'.pte b = d.pte b := by
  unfold walkpgdir at h
  cases hd : d.pde (PDX va) with
  | some tab =>
    simp only [hd] at h
    obtain ⟨h, -⟩ := pure_ok h
    obtain rfl := Option.some.inj h
    exact ⟨by simp [hd], fun _ => rfl⟩
  | none =>
    simp only [hd] at h
    cases alloc with
    | false => cases (pure_ok h).1
    | true =>
      obtain ⟨r, u, -, h⟩ := bind_ok h
      cases r with
      | none => cases (pure_ok h).1
      | some f =>
        obtain ⟨h, -⟩ := pure_ok h
        obtain rfl := Option.some.inj h
        exact ⟨by simp, fun b => pte_new hd f b⟩

theorem present_map {d d' : PageDir} {a pa perm : Word} (hc : (d'.pde (PDX a)).isSome)
    (hp : ∀ b, d'.pte b = d.pte b) (b : Word) :
    (d'.setPte a (pa ||| perm ||| PTE_P)).present b ↔ d.present b ∨ page b = page a := by
  by_cases h : page b = page a
  · simp only [PageDir.present, pte_setPte_self hc h, h, or_true, iff_true]
    exact set_P pa perm
  · simp only [PageDir.present, pte_setPte_ne d' h, hp b, h, or_false]

/-- The pages a loop of `k + 1` rounds visits from `a` on. -/
def Span (a : Word) (k : ℕ) (b : Word) : Prop :=
  ∃ j ≤ k, page b = page (a + BitVec.ofNat 32 (j * 4096))

theorem span_zero {a b : Word} : Span a 0 b ↔ page b = page a := by
  simp [Span]

theorem span_succ {a b : Word} {k : ℕ} :
    Span a (k + 1) b ↔ page b = page a ∨ Span (a + PGSIZE) k b := by
  have hshift : ∀ j : ℕ, a + PGSIZE + BitVec.ofNat 32 (j * 4096) =
      a + BitVec.ofNat 32 ((j + 1) * 4096) := fun j => by
    have : (4096 : Word) = BitVec.ofNat 32 4096 := rfl
    rw [PGSIZE, this, BitVec.add_assoc, ← BitVec.ofNat_add]
    congr 2
    omega
  constructor
  · rintro ⟨j, hj, h⟩
    cases j with
    | zero => exact Or.inl (by simpa using h)
    | succ j => exact Or.inr ⟨j, by omega, by rw [hshift]; exact h⟩
  · rintro (h | ⟨j, hj, h⟩)
    · exact ⟨0, Nat.zero_le _, by simpa using h⟩
    · exact ⟨j + 1, by omega, by rw [← hshift]; exact h⟩

theorem mapFrom_ok {perm : Word} {k : ℕ} {d d' : PageDir} {a pa : Word} {s t : Kmem}
    (h : mapFrom perm k d a pa s = .ok ((d', true), t)) (b : Word) :
    d'.present b ↔ d.present b ∨ Span a k b := by
  induction k generalizing d a pa s with
  | zero =>
    unfold mapFrom at h
    obtain ⟨r, u, hw, h⟩ := bind_ok h
    cases r with
    | none => cases (pure_ok h).1
    | some e =>
      obtain ⟨hc, hp⟩ := walkpgdir_ok hw
      dsimp only at h
      split at h
      · exact (throw_ok h).elim
      · obtain ⟨h, -⟩ := pure_ok h
        cases h
        rw [span_zero]
        exact present_map hc hp b
  | succ k ih =>
    unfold mapFrom at h
    obtain ⟨r, u, hw, h⟩ := bind_ok h
    cases r with
    | none => cases (pure_ok h).1
    | some e =>
      obtain ⟨hc, hp⟩ := walkpgdir_ok hw
      dsimp only at h
      split at h
      · exact (throw_ok h).elim
      · rw [ih h, present_map hc hp, span_succ, or_assoc]

theorem PGROUNDDOWN_page {a : Word} (ha : a.toNat % 4096 = 0) : PGROUNDDOWN a = a := by
  rw [← BitVec.toNat_inj, PGROUNDDOWN_toNat]
  omega

theorem PGROUNDDOWN_last {a : Word} (ha : a.toNat % 4096 = 0) :
    PGROUNDDOWN (a + PGSIZE - 1) = a := by
  have hsum : (a + PGSIZE - 1).toNat = a.toNat + 4095 := by
    simp only [PGSIZE]
    bv_omega
  rw [← BitVec.toNat_inj, PGROUNDDOWN_toNat, hsum]
  omega

/-- One page. -/
theorem mappages_page {perm : Word} {d d' : PageDir} {a pa : Word} {s t : Kmem}
    (ha : a.toNat % 4096 = 0) (h : mappages d a PGSIZE pa perm s = .ok ((d', true), t))
    (b : Word) : d'.present b ↔ d.present b ∨ page b = page a := by
  unfold mappages at h
  simp only [PGROUNDDOWN_page ha, PGROUNDDOWN_last ha, BitVec.sub_self, BitVec.toNat_zero,
    Nat.zero_div] at h
  rw [mapFrom_ok h, span_zero]

/-- Exactly the pages below `n` of the user half are present. -/
def Exact (d : PageDir) (n : ℕ) : Prop :=
  ∀ b : Word, b < KERNBASE → (d.present b ↔ b.toNat < n)

theorem Exact.congr {d d' : PageDir} {n : ℕ} (h : Exact d n)
    (hp : ∀ b, d'.present b ↔ d.present b) : Exact d' n :=
  fun b hb => (hp b).trans (h b hb)

theorem Exact.grow {d d' : PageDir} {a : Word} (h : Exact d a.toNat) (ha : a.toNat % 4096 = 0)
    (hp : ∀ b, d'.present b ↔ d.present b ∨ page b = page a) : Exact d' (a.toNat + 4096) := by
  intro b hb
  rw [hp, h b hb]
  unfold page
  omega

/-! setupkvm() leaves the user half empty. -/

/-- A range in the kernel half. -/
def Upper (va size : Word) : Prop :=
  KERNBASE.toNat ≤ va.toNat ∧ 0 < size.toNat ∧ va.toNat + size.toNat ≤ 2 ^ 32

theorem kmap_upper (img : KernelImage) :
    ∀ k ∈ kmap img, Upper k.virt (k.phys_end - k.phys_start) := by
  have ha := img.above
  have hb := img.below
  simp only [KERNLINK, KERNBASE, EXTMEM, PHYSTOP] at ha hb
  intro k hk
  simp only [kmap, List.mem_cons, List.not_mem_nil, or_false] at hk
  rcases hk with rfl | rfl | rfl | rfl
  · exact ⟨Nat.le_refl _, by decide +kernel, by decide +kernel⟩
  · simp only [Upper, KERNLINK, KERNBASE, EXTMEM]
    bv_omega
  · simp only [Upper, KERNBASE, PHYSTOP]
    bv_omega
  · exact ⟨by decide +kernel, by decide +kernel, by decide +kernel⟩

theorem span_upper {va size b : Word} (hu : Upper va size)
    (h : Span (PGROUNDDOWN va)
      ((PGROUNDDOWN (va + size - 1) - PGROUNDDOWN va).toNat / 4096) b) : KERNBASE ≤ b := by
  obtain ⟨hv, hpos, hend⟩ := hu
  obtain ⟨j, hj, h⟩ := h
  have hsum : (va + size - 1).toNat = va.toNat + size.toNat - 1 := by bv_omega
  have hlo := PGROUNDDOWN_toNat va
  have hhi := PGROUNDDOWN_toNat (va + size - 1)
  rw [hsum] at hhi
  generalize PGROUNDDOWN (va + size - 1) = last at hj hhi
  generalize PGROUNDDOWN va = a at hj hlo h
  have hle : a.toNat ≤ last.toNat := by omega
  rw [BitVec.toNat_sub_of_le hle] at hj
  have hstep : (a + BitVec.ofNat 32 (j * 4096)).toNat = a.toNat + j * 4096 := by
    have hlast := last.isLt
    rw [BitVec.toNat_add, BitVec.toNat_ofNat]
    omega
  have hbase : KERNBASE.toNat = 2147483648 := rfl
  rw [page, page, hstep] at h
  rw [BitVec.le_def]
  omega

theorem mapAll_ok {img : KernelImage} {ks : List Kmap}
    (hks : ∀ k ∈ ks, Upper k.virt (k.phys_end - k.phys_start)) {d d' : PageDir} {s t : Kmem} (h : mapAll img ks d s = .ok (some d', t)) {b : Word}
    (hb : b < KERNBASE) : d'.present b ↔ d.present b := by
  induction ks generalizing d s with
  | nil =>
    obtain ⟨h, -⟩ := pure_ok h
    cases h
    exact Iff.rfl
  | cons k ks ih =>
    unfold mapAll at h
    obtain ⟨⟨e, ok⟩, u, hm, h⟩ := bind_ok h
    cases ok with
    | false =>
      obtain ⟨_, v, -, h⟩ := bind_ok h
      cases (pure_ok h).1
    | true =>
      have hno : ¬ Span _ _ b := fun hspan =>
        absurd (span_upper (hks k List.mem_cons_self) hspan) (BitVec.not_le.mpr hb)
      rw [ih (fun k' hk' => hks k' (List.mem_cons_of_mem k hk')) h, mapFrom_ok hm]
      exact or_iff_left hno

theorem setupkvm_ok {img : KernelImage} {d : PageDir} {s t : Kmem}
    (h : setupkvm img s = .ok (some d, t)) : Exact d 0 := by
  unfold setupkvm at h
  obtain ⟨r, u, -, h⟩ := bind_ok h
  cases r with
  | none => cases (pure_ok h).1
  | some f =>
    intro b hb
    rw [mapAll_ok (kmap_upper img) h hb]
    simp [PageDir.present, PageDir.pte]

/-! allocuvm(), clearpteu() and copyuvm(). -/

/-- Where a loop over the pages below `n` ends. -/
theorem eq_up {a n : Word} (ha : a.toNat % 4096 = 0) (hle : a.toNat ≤ up n.toNat)
    (h : ¬ a < n) : a.toNat = up n.toNat := by
  rw [BitVec.lt_def, Nat.not_lt] at h
  unfold up at *
  omega

theorem step_up {a n : Word} (ha : a.toNat % 4096 = 0) (h : a < n)
    (hn : n.toNat ≤ KERNBASE.toNat) :
    (a + PGSIZE).toNat = a.toNat + 4096 ∧ a.toNat + 4096 ≤ up n.toNat := by
  have hbase : KERNBASE.toNat = 2147483648 := rfl
  have hsize : PGSIZE.toNat = 4096 := rfl
  rw [BitVec.lt_def] at h
  rw [BitVec.toNat_add, hsize]
  unfold up
  omega

theorem allocFrom_ok {img : KernelImage} {oldsz newsz r : Word} {k : ℕ} {d d' : PageDir}
    {a : Word} {s t : Kmem} (h : allocFrom img oldsz newsz k d a s = .ok ((d', r), t))
    (hr : r ≠ 0) (hnew : newsz < KERNBASE) (ha : a.toNat % 4096 = 0)
    (hle : a.toNat ≤ up newsz.toNat) (hd : Exact d a.toNat) :
    r = newsz ∧ Exact d' (up newsz.toNat) := by
  induction k generalizing d a s with
  | zero =>
    unfold allocFrom at h
    split at h
    · exact (throw_ok h).elim
    next hlt =>
      obtain ⟨h, -⟩ := pure_ok h
      cases h
      exact ⟨rfl, eq_up ha hle hlt ▸ hd⟩
  | succ k ih =>
    unfold allocFrom at h
    split at h
    next hlt =>
      obtain ⟨mem, u, -, h⟩ := bind_ok h
      cases mem with
      | none =>
        obtain ⟨_, _, -, h⟩ := bind_ok h
        cases (pure_ok h).1
        exact absurd rfl hr
      | some f =>
        obtain ⟨_, v, -, h⟩ := bind_ok h
        obtain ⟨⟨e, ok⟩, w, hm, h⟩ := bind_ok h
        cases ok with
        | false =>
          obtain ⟨_, _, -, h⟩ := bind_ok h
          obtain ⟨_, _, -, h⟩ := bind_ok h
          cases (pure_ok h).1
          exact absurd rfl hr
        | true =>
          obtain ⟨hnext, hup⟩ := step_up ha hlt (Nat.le_of_lt hnew)
          refine ih h (by omega) (by omega) ?_
          rw [hnext]
          exact hd.grow ha (mappages_page ha hm)
    next hlt =>
      obtain ⟨h, -⟩ := pure_ok h
      cases h
      exact ⟨rfl, eq_up ha hle hlt ▸ hd⟩

theorem allocuvm_ok {img : KernelImage} {oldsz newsz r : Word} {d d' : PageDir} {s t : Kmem}
    (h : allocuvm img d oldsz newsz s = .ok ((d', r), t)) (hr : r ≠ 0)
    (hold : oldsz < KERNBASE) (hd : Exact d (up oldsz.toNat)) :
    r < KERNBASE ∧ (r = newsz ∨ newsz < oldsz) ∧ Exact d' (up r.toNat) := by
  unfold allocuvm at h
  split at h
  · cases (pure_ok h).1
    exact absurd rfl hr
  next hnew =>
  replace hnew := BitVec.not_le.mp hnew
  split at h
  next hlt =>
    cases (pure_ok h).1
    exact ⟨hold, Or.inr hlt, hd⟩
  next hge =>
    have hround := PGROUNDUP_toNat (Nat.le_of_lt hold)
    rw [BitVec.lt_def, Nat.not_lt] at hge
    have hup : up oldsz.toNat ≤ up newsz.toNat := by
      unfold up
      omega
    have hmod : up oldsz.toNat % 4096 = 0 := by
      unfold up
      omega
    rw [← hround] at hd hup hmod
    obtain ⟨rfl, hd'⟩ := allocFrom_ok h hr hnew hmod hup hd
    exact ⟨hnew, Or.inl rfl, hd'⟩

theorem clearpteu_ok {d d' : PageDir} {uva : Word} {s t : Kmem}
    (h : clearpteu d uva s = .ok (d', t)) (b : Word) : d'.present b ↔ d.present b := by
  unfold clearpteu at h
  obtain ⟨r, u, hw, h⟩ := bind_ok h
  cases r with
  | none => exact (throw_ok h).elim
  | some e =>
    obtain ⟨hc, hp⟩ := walkpgdir_ok hw
    obtain ⟨rfl, -⟩ := pure_ok h
    by_cases hb : page b = page uva
    · simp only [PageDir.present, pte_setPte_self hc hb, keep_P, ← hp b, pte_congr e hb]
    · simp only [PageDir.present, pte_setPte_ne e hb, hp b]

/-- A complete copy has been made only of present pages. -/
theorem copyFrom_ok {img : KernelImage} {pgdir d d' : PageDir} {sz i : Word} {n k : ℕ}
    {s t : Kmem} (h : copyFrom img pgdir sz k d i s = .ok (some d', t))
    (hsrc : Exact pgdir n) (hn : n % 4096 = 0) (hn' : n < KERNBASE.toNat)
    (hi : i.toNat % 4096 = 0) (hin : i.toNat ≤ n) (hle : i.toNat ≤ up sz.toNat)
    (hd : Exact d i.toNat) : sz.toNat ≤ n ∧ Exact d' (up sz.toNat) := by
  have hbase : KERNBASE.toNat = 2147483648 := rfl
  induction k generalizing d i s with
  | zero =>
    unfold copyFrom at h
    split at h
    · exact (throw_ok h).elim
    next hlt =>
      obtain ⟨h, -⟩ := pure_ok h
      cases h
      rw [BitVec.lt_def, Nat.not_lt] at hlt
      exact ⟨by omega, eq_up hi hle (BitVec.not_lt.mpr hlt) ▸ hd⟩
  | succ k ih =>
    unfold copyFrom at h
    split at h
    next hlt =>
      rw [walkpgdir_false] at h
      obtain ⟨r, _, -, h⟩ := bind_ok h
      cases r with
      | none => exact (throw_ok h).elim
      | some _ =>
      dsimp only at h
      split at h
      · exact (throw_ok h).elim
      next hpres =>
      have hlow : i < KERNBASE := by
        rw [BitVec.lt_def]
        omega
      have hinn : i.toNat < n := (hsrc i hlow).mp (not_not.mp hpres)
      obtain ⟨mem, u, -, h⟩ := bind_ok h
      cases mem with
      | none =>
        obtain ⟨_, _, -, h⟩ := bind_ok h
        cases (pure_ok h).1
      | some f =>
        obtain ⟨_, _, -, h⟩ := bind_ok h
        obtain ⟨_, _, -, h⟩ := bind_ok h
        obtain ⟨⟨e, ok⟩, w, hm, h⟩ := bind_ok h
        cases ok with
        | false =>
          obtain ⟨_, _, -, h⟩ := bind_ok h
          obtain ⟨_, _, -, h⟩ := bind_ok h
          cases (pure_ok h).1
        | true =>
          have hnext : (i + PGSIZE).toNat = i.toNat + 4096 := by
            have hsize : PGSIZE.toNat = 4096 := rfl
            rw [BitVec.toNat_add, hsize]
            omega
          have hup : i.toNat + 4096 ≤ up sz.toNat := by
            rw [BitVec.lt_def] at hlt
            unfold up
            omega
          refine ih h (by omega) (by omega) (by omega) ?_
          rw [hnext]
          exact hd.grow hi (mappages_page hi hm)
    next hlt =>
      obtain ⟨h, -⟩ := pure_ok h
      cases h
      rw [BitVec.lt_def, Nat.not_lt] at hlt
      exact ⟨by omega, eq_up hi hle (BitVec.not_lt.mpr hlt) ▸ hd⟩

theorem copyuvm_ok {img : KernelImage} {pgdir d : PageDir} {sz : Word} {n : ℕ} {s t : Kmem}
    (h : copyuvm img pgdir sz s = .ok (some d, t)) (hsrc : Exact pgdir n)
    (hn : n % 4096 = 0) (hn' : n < KERNBASE.toNat) :
    sz.toNat ≤ n ∧ Exact d (up sz.toNat) := by
  unfold copyuvm at h
  obtain ⟨r, u, hs, h⟩ := bind_ok h
  cases r with
  | none => cases (pure_ok h).1
  | some e =>
    exact copyFrom_ok h hsrc hn hn' rfl (Nat.zero_le n) (Nat.zero_le _) (setupkvm_ok hs)

end PageTableMappings
