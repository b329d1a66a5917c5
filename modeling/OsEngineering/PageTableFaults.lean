import OsEngineering.PageTableMappings

/-! When the functions of vm.c can fail: the panics of copyuvm(), and how many free frames
setupkvm() and mappages() need. -/
namespace PageTableFaults

open ByteBlock FaultState PageTables PageTableMappings

/-- The two panics of copyuvm(). -/
def CopyPanic (e : Fault) : Prop :=
  e = .panic "copyuvm: pte should exist" ∨ e = .panic "copyuvm: page not present"

instance (e : Fault) : Decidable (CopyPanic e) := inferInstanceAs (Decidable (_ ∨ _))

/-- The code faults with nothing that copyuvm() panics with. -/
abbrev Spared {α : Type} (c : VM α) : Prop := Faults (fun e => ¬ CopyPanic e) c

theorem spared_kalloc : Spared kalloc := by
  intro s e h
  cases h

theorem spared_modify (f : Kmem → Kmem) : Spared (modify f) := by
  intro s e h
  cases h

theorem spared_get : Spared (get : VM Kmem) := by
  intro s e h
  cases h

theorem spared_kfree (img : KernelImage) (f : Frame) : Spared (kfree img f) := by
  unfold kfree
  split
  · exact faults_throw (by decide)
  · exact faults_bind (spared_modify _) fun _ => spared_modify _

theorem spared_walkpgdir (d : PageDir) (va : Word) (alloc : Bool) :
    Spared (walkpgdir d va alloc) := by
  unfold walkpgdir
  split
  · exact faults_pure _
  · split
    · exact faults_pure _
    · refine faults_bind spared_kalloc fun r => ?_
      cases r with
      | none => exact faults_pure _
      | some f => exact faults_pure _

theorem spared_mapFrom (perm : Word) (k : ℕ) (d : PageDir) (a pa : Word) :
    Spared (mapFrom perm k d a pa) := by
  induction k generalizing d a pa with
  | zero =>
    unfold mapFrom
    refine faults_bind (spared_walkpgdir d a true) fun r => ?_
    cases r with
    | none => exact faults_pure _
    | some e =>
      dsimp only
      split
      · exact faults_throw (by decide)
      · exact faults_pure _
  | succ k ih =>
    unfold mapFrom
    refine faults_bind (spared_walkpgdir d a true) fun r => ?_
    cases r with
    | none => exact faults_pure _
    | some e =>
      dsimp only
      split
      · exact faults_throw (by decide)
      · exact ih _ _ _

theorem spared_deallocFrom (img : KernelImage) (oldsz : Word) (k : ℕ) (d : PageDir) (a : Word) :
    Spared (deallocFrom img oldsz k d a) := by
  induction k generalizing d a with
  | zero =>
    unfold deallocFrom
    split
    · exact faults_throw (by decide)
    · exact faults_pure _
  | succ k ih =>
    unfold deallocFrom
    split
    · refine faults_bind (spared_walkpgdir d a false) fun r => ?_
      cases r with
      | none => exact ih _ _
      | some e =>
        dsimp only
        split
        · split
          · exact faults_throw (by decide)
          · exact faults_bind (spared_kfree img _) fun _ => ih _ _
        · exact ih _ _
    · exact faults_pure _

theorem spared_freevm (img : KernelImage) (d : PageDir) : Spared (freevm img d) := by
  have htables : ∀ d is, Spared (freeTables img d is) := by
    intro d is
    induction is with
    | nil => exact faults_pure _
    | cons i is ih =>
      unfold freeTables
      split
      · exact faults_bind (spared_kfree img _) fun _ => ih
      · exact ih
  unfold freevm deallocuvm
  split
  · exact faults_bind (faults_pure _) fun _ => faults_bind (htables _ _) fun _ => spared_kfree img _
  · exact faults_bind (faults_bind (spared_deallocFrom img _ _ _ _) fun _ => faults_pure _)
      fun _ => faults_bind (htables _ _) fun _ => spared_kfree img _

theorem spared_setupkvm (img : KernelImage) : Spared (setupkvm img) := by
  have hall : ∀ ks d, Spared (mapAll img ks d) := by
    intro ks
    induction ks with
    | nil => exact fun d => faults_pure _
    | cons k ks ih =>
      intro d
      unfold mapAll
      refine faults_bind (spared_mapFrom _ _ _ _ _) fun r => ?_
      obtain ⟨e, ok⟩ := r
      cases ok with
      | true => exact ih e
      | false => exact faults_bind (spared_freevm img e) fun _ => faults_pure _
  unfold setupkvm
  refine faults_bind spared_kalloc fun r => ?_
  cases r with
  | none => exact faults_pure _
  | some f => exact hall _ _

/-- With every page below `sz` present, copyuvm() does not panic. -/
theorem spared_copyuvm (img : KernelImage) {pgdir : PageDir} {sz : Word}
    (hp : ∀ va, va < sz → pgdir.present va) : Spared (copyuvm img pgdir sz) := by
  have hloop : ∀ k d i, Spared (copyFrom img pgdir sz k d i) := by
    intro k
    induction k with
    | zero =>
      intro d i
      unfold copyFrom
      split
      · exact faults_throw (by decide)
      · exact faults_pure _
    | succ k ih =>
      intro d i
      unfold copyFrom
      split
      next hlt =>
        have hpres := hp i hlt
        have hc : (pgdir.pde (PDX i)).isSome := by
          cases hpde : pgdir.pde (PDX i) with
          | some t => rfl
          | none => simp [PageDir.present, PageDir.pte, hpde] at hpres
        rw [walkpgdir_false, if_pos hc, pure_bind]
        dsimp only
        rw [if_neg (not_not.mpr hpres)]
        refine faults_bind spared_kalloc fun r => ?_
        cases r with
        | none => exact faults_bind (spared_freevm img _) fun _ => faults_pure _
        | some mem =>
          refine faults_bind spared_get fun _ => faults_bind (spared_modify _) fun _ =>
            faults_bind (spared_mapFrom _ _ _ _ _) fun r => ?_
          obtain ⟨e, ok⟩ := r
          cases ok with
          | true => exact ih _ _
          | false =>
            exact faults_bind (spared_kfree img _) fun _ =>
              faults_bind (spared_freevm img _) fun _ => faults_pure _
      · exact faults_pure _
  unfold copyuvm
  refine faults_bind (spared_setupkvm img) fun r => ?_
  cases r with
  | none => exact faults_pure _
  | some d => exact hloop _ _ _

theorem spared_allocuvm (img : KernelImage) (d : PageDir) (oldsz newsz : Word) :
    Spared (allocuvm img d oldsz newsz) := by
  have hdealloc : ∀ d, Spared (deallocuvm img d newsz oldsz) := by
    intro d
    unfold deallocuvm
    split
    · exact faults_pure _
    · exact faults_bind (spared_deallocFrom img _ _ _ _) fun _ => faults_pure _
  have hloop : ∀ k d a, Spared (allocFrom img oldsz newsz k d a) := by
    intro k
    induction k with
    | zero =>
      intro d a
      unfold allocFrom
      split
      · exact faults_throw (by decide)
      · exact faults_pure _
    | succ k ih =>
      intro d a
      unfold allocFrom
      split
      · refine faults_bind spared_kalloc fun r => ?_
        cases r with
        | none => exact faults_bind (hdealloc _) fun _ => faults_pure _
        | some mem =>
          refine faults_bind (spared_modify _) fun _ =>
            faults_bind (spared_mapFrom _ _ _ _ _) fun r => ?_
          obtain ⟨e, ok⟩ := r
          cases ok with
          | true => exact ih _ _
          | false =>
            exact faults_bind (hdealloc _) fun _ =>
              faults_bind (spared_kfree img _) fun _ => faults_pure _
      · exact faults_pure _
  unfold allocuvm
  split
  · exact faults_pure _
  · split
    · exact faults_pure _
    · exact hloop _ _ _

theorem spared_loaduvm (d : PageDir) (addr : Word) (readi : Reader) (offset sz : Word) :
    Spared (loaduvm d addr readi offset sz) := by
  have hloop : ∀ k i, Spared (loadFrom d addr readi offset sz k i) := by
    intro k
    induction k with
    | zero =>
      intro i
      unfold loadFrom
      split
      · exact faults_throw (by decide)
      · exact faults_pure _
    | succ k ih =>
      intro i
      unfold loadFrom
      split
      · refine faults_bind (spared_walkpgdir _ _ _) fun r => ?_
        cases r with
        | none => exact faults_throw (by decide)
        | some e =>
          dsimp only
          generalize readi (offset + i) _ = data
          cases data with
          | none => exact faults_pure _
          | some bytes =>
            refine faults_bind (spared_modify _) fun _ => ?_
            generalize (if sz - i < PGSIZE then sz - i else PGSIZE) = n
            split
            · exact ih _
            · exact faults_pure _
      · exact faults_pure _
  unfold loaduvm
  split
  · exact faults_throw (by decide)
  · exact hloop _ _

theorem spared_clearpteu (d : PageDir) (uva : Word) : Spared (clearpteu d uva) := by
  unfold clearpteu
  refine faults_bind (spared_walkpgdir _ _ _) fun r => ?_
  cases r with
  | none => exact faults_throw (by decide)
  | some e => exact faults_pure _

theorem spared_copyout (d : PageDir) (va : Word) (buf : List Byte) :
    Spared (copyout d va buf) := by
  have huva : ∀ va, Spared (uva2ka d va) := by
    intro va
    unfold uva2ka
    refine faults_bind (spared_walkpgdir _ _ _) fun r => ?_
    cases r with
    | none => exact faults_throw (by decide)
    | some e =>
      dsimp only
      split <;> exact faults_pure _
  have hloop : ∀ k va buf, Spared (copyoutFrom d k va buf) := by
    intro k
    induction k with
    | zero =>
      intro va buf
      unfold copyoutFrom
      split
      · exact faults_pure _
      · exact faults_throw (by decide)
    | succ k ih =>
      intro va buf
      unfold copyoutFrom
      split
      · exact faults_pure _
      · refine faults_bind (huva _) fun r => ?_
        cases r with
        | none => exact faults_pure _
        | some f => exact faults_bind (spared_modify _) fun _ => ih _ _
  exact hloop _ _ _

/-! Enough free frames. -/

def absent (d : PageDir) (is : List Index) : ℕ := is.countP fun i => (d.pde i).isNone

def indices : List Index := (List.range 1024).map (BitVec.ofNat 10)

/-- The free list has a frame for every page table missing under `is` and `n` more, all
available. -/
structure EnoughFor (is : List Index) (n : ℕ) (d : PageDir) (s : Kmem) : Prop where
  calm : s.refuse = []
  free : absent d is + n ≤ s.freelist.length

abbrev Enough (n : ℕ) (d : PageDir) (s : Kmem) : Prop := EnoughFor indices n d s

theorem mem_indices (i : Index) : i ∈ indices := by
  refine List.mem_map.mpr ⟨i.toNat, List.mem_range.mpr i.isLt, ?_⟩
  simp

/-- One page table more, one entry less that misses one. -/
theorem absent_new {d : PageDir} {i : Index} (h : d.pde i = none) (t : PageTable)
    {is : List Index} (hi : i ∈ is) :
    absent { d with pde := Function.update d.pde i (some t) } is + 1 ≤ absent d is := by
  have hle : ∀ is, absent { d with pde := Function.update d.pde i (some t) } is ≤ absent d is := by
    intro is
    refine List.countP_mono_left fun j _ hj => ?_
    by_cases hji : j = i
    · subst hji
      simp at hj
    · simpa [hji] using hj
  induction is with
  | nil => cases hi
  | cons j is ih =>
    simp only [absent, List.countP_cons] at *
    by_cases hji : j = i
    · subst hji
      have := hle is
      simp [h]
      omega
    · have := ih ((List.mem_cons.mp hi).resolve_left (Ne.symm hji))
      simp only [Function.update_of_ne hji]
      omega

theorem absent_setPte (d : PageDir) (a w : Word) (is : List Index) :
    absent (d.setPte a w) is = absent d is := by
  unfold absent
  congr 1
  funext i
  by_cases h : i = PDX a
  · subst h
    simp [PageDir.setPte]
  · simp [PageDir.setPte, h]

theorem kalloc_enough {s : Kmem} (hc : s.refuse = []) (hf : 0 < s.freelist.length) :
    ∃ f fs, s.freelist = f :: fs ∧ kalloc s = .ok (some f, { s with freelist := fs }) := by
  cases hs : s.freelist with
  | nil => simp [hs] at hf
  | cons f fs => exact ⟨f, fs, rfl, by simp [kalloc, Kmem.take, hc, hs]⟩

theorem EnoughFor.setPte {is : List Index} {n : ℕ} {d : PageDir} {s : Kmem}
    (h : EnoughFor is n d s) (a w : Word) : EnoughFor is n (d.setPte a w) s :=
  ⟨h.calm, (absent_setPte d a w is).symm ▸ h.free⟩

theorem walkpgdir_enough {is : List Index} {n : ℕ} {d : PageDir} {s : Kmem}
    (h : EnoughFor is n d s) {va : Word} (hva : PDX va ∈ is) :
    ∃ d' t, walkpgdir d va true s = .ok (some d', t) ∧ EnoughFor is n d' t := by
  cases hd : d.pde (PDX va) with
  | some tab => exact ⟨d, s, by simp only [walkpgdir, hd]; rfl, h⟩
  | none =>
    have hpos : 0 < s.freelist.length := by
      have := absent_new hd ⟨0, fun _ => 0⟩ hva
      have := h.free
      omega
    obtain ⟨f, fs, hfs, hk⟩ := kalloc_enough h.calm hpos
    refine ⟨{ d with pde := Function.update d.pde (PDX va) (some ⟨f, fun _ => 0⟩) },
      { s with freelist := fs }, ?_, h.calm, ?_⟩
    · simp only [walkpgdir, hd, Bool.not_true, Bool.false_eq_true, if_false]
      rw [run_bind hk]
      rfl
    · have hnew := absent_new hd ⟨f, fun _ => 0⟩ hva
      have hlen := h.free
      rw [hfs, List.length_cons] at hlen
      simp only
      omega

theorem span_far {a : Word} {k : ℕ} (hk : k + 1 < 2 ^ 20) : ¬ Span (a + PGSIZE) k a := by
  rintro ⟨j, hj, h⟩
  have hsize : PGSIZE.toNat = 4096 := rfl
  have ha := a.isLt
  simp only [page, BitVec.toNat_add, BitVec.toNat_ofNat, hsize] at h
  omega

theorem mapFrom_enough {is : List Index} {n k : ℕ} {d : PageDir} {s : Kmem} (perm a pa : Word)
    (h : EnoughFor is n d s) (hk : k < 2 ^ 20) (his : ∀ b, Span a k b → PDX b ∈ is)
    (hfree : ∀ b, Span a k b → ¬ d.present b) :
    ∃ d' t, mapFrom perm k d a pa s = .ok ((d', true), t) ∧ EnoughFor is n d' t := by
  induction k generalizing d a pa s with
  | zero =>
    obtain ⟨e, t, hw, he⟩ := walkpgdir_enough h (his a (span_zero.mpr rfl))
    have hnew : ¬ e.present a := by
      rw [present_congr ((walkpgdir_ok hw).2 a)]
      exact hfree a (span_zero.mpr rfl)
    refine ⟨e.setPte a (pa ||| perm ||| PTE_P), t, ?_, he.setPte _ _⟩
    unfold mapFrom
    rw [run_bind hw]
    dsimp only
    rw [if_neg hnew]
    rfl
  | succ k ih =>
    obtain ⟨e, t, hw, he⟩ := walkpgdir_enough h (his a (span_succ.mpr (Or.inl rfl)))
    obtain ⟨hc, hp⟩ := walkpgdir_ok hw
    have hnew : ¬ e.present a := by
      rw [present_congr (hp a)]
      exact hfree a (span_succ.mpr (Or.inl rfl))
    have hrest : ∀ b, Span (a + PGSIZE) k b →
        ¬ (e.setPte a (pa ||| perm ||| PTE_P)).present b := by
      intro b hb
      rw [present_map hc hp b]
      rintro (hpres | hpage)
      · exact hfree b (span_succ.mpr (Or.inr hb)) hpres
      · obtain ⟨j, hj, hj'⟩ := hb
        exact span_far hk ⟨j, hj, hpage.symm.trans hj'⟩
    obtain ⟨d', u, hrun, hd'⟩ :=
      ih (a + PGSIZE) (pa + PGSIZE) (he.setPte a _) (by omega)
        (fun b hb => his b (span_succ.mpr (Or.inr hb))) hrest
    refine ⟨d', u, ?_, hd'⟩
    unfold mapFrom
    rw [run_bind hw]
    dsimp only
    rw [if_neg hnew]
    exact hrun

/-- All present pages lie below address `n`. -/
def Below (d : PageDir) (n : ℕ) : Prop := ∀ b, d.present b → page b * 4096 < n

theorem mappages_enough {is : List Index} {n : ℕ} {d : PageDir} {va size : Word} {s : Kmem}
    (pa perm : Word) (h : EnoughFor is n d s) (hva : va.toNat % 4096 = 0)
    (hsize : size.toNat % 4096 = 0) (hu : Upper va size)
    (his : ∀ b, KERNBASE ≤ b → PDX b ∈ is) (hd : Below d va.toNat) :
    ∃ d' t, mappages d va size pa perm s = .ok ((d', true), t) ∧ EnoughFor is n d' t ∧
      Below d' (va.toNat + size.toNat) := by
  obtain ⟨hlow, hpos, hend⟩ := hu
  have hlo := PGROUNDDOWN_toNat va
  have hhi := PGROUNDDOWN_toNat (va + size - 1)
  have hsum : (va + size - 1).toNat = va.toNat + size.toNat - 1 := by bv_omega
  rw [hsum] at hhi
  have hk : (PGROUNDDOWN (va + size - 1) - PGROUNDDOWN va).toNat / 4096 =
      size.toNat / 4096 - 1 := by
    rw [BitVec.toNat_sub_of_le (by rw [BitVec.le_def]; omega), hlo, hhi]
    omega
  have hspan : ∀ b, Span (PGROUNDDOWN va) (size.toNat / 4096 - 1) b →
      va.toNat ≤ page b * 4096 ∧ page b * 4096 < va.toNat + size.toNat := by
    rintro b ⟨j, hj, hb⟩
    rw [hb, page, BitVec.toNat_add, BitVec.toNat_ofNat, hlo]
    omega
  have hfree : ∀ b, Span (PGROUNDDOWN va) (size.toNat / 4096 - 1) b → ¬ d.present b := by
    intro b hb hpres
    have := hd b hpres
    have := (hspan b hb).1
    omega
  have hupper : ∀ b, Span (PGROUNDDOWN va) (size.toNat / 4096 - 1) b → PDX b ∈ is := by
    intro b hb
    apply his
    have := (hspan b hb).1
    simp only [page] at this
    rw [BitVec.le_def]
    omega
  obtain ⟨d', t, hrun, hd'⟩ :=
    mapFrom_enough perm (PGROUNDDOWN va) pa h (by omega) hupper hfree
  refine ⟨d', t, ?_, hd', fun b hb => ?_⟩
  · unfold mappages
    simp only [hk]
    exact hrun
  · rcases (mapFrom_ok hrun b).mp hb with hb | hb
    · have := hd b hb
      omega
    · exact (hspan b hb).2

theorem Below.mono {d : PageDir} {m n : ℕ} (h : Below d m) (hmn : m ≤ n) : Below d n :=
  fun b hb => (h b hb).trans_le hmn

/-- mapAll() of entries in rising order, each of whole pages. -/
theorem mapAll_enough {img : KernelImage} {is : List Index} {n m : ℕ} {d : PageDir} {s : Kmem}
    {ks : List Kmap} (his : ∀ b, KERNBASE ≤ b → PDX b ∈ is)
    (hks : ∀ k ∈ ks, k.virt.toNat % 4096 = 0 ∧ (k.phys_end - k.phys_start).toNat % 4096 = 0 ∧
      Upper k.virt (k.phys_end - k.phys_start))
    (hord : ks.Pairwise fun k l =>
      k.virt.toNat + (k.phys_end - k.phys_start).toNat ≤ l.virt.toNat)
    (hm : ∀ k ∈ ks, m ≤ k.virt.toNat) (h : EnoughFor is n d s) (hd : Below d m) :
    ∃ d' t, mapAll img ks d s = .ok (some d', t) ∧ EnoughFor is n d' t := by
  induction ks generalizing m d s with
  | nil => exact ⟨d, s, rfl, h⟩
  | cons k ks ih =>
    obtain ⟨hva, hsize, hu⟩ := hks k List.mem_cons_self
    obtain ⟨hfirst, hrest⟩ := List.pairwise_cons.mp hord
    obtain ⟨e, t, hrun, he, hb⟩ := mappages_enough k.phys_start k.perm h hva hsize hu his
      (hd.mono (hm k List.mem_cons_self))
    obtain ⟨d', u, hrun', hd'⟩ :=
      ih (fun l hl => hks l (List.mem_cons_of_mem k hl)) hrest hfirst he hb
    refine ⟨d', u, ?_, hd'⟩
    unfold mapAll
    rw [run_bind hrun]
    exact hrun'

theorem kmap_sizes (img : KernelImage) :
    (img.data - KERNBASE - (KERNLINK - KERNBASE)).toNat = img.data.toNat - KERNLINK.toNat ∧
    (PHYSTOP - (img.data - KERNBASE)).toNat =
      KERNBASE.toNat + PHYSTOP.toNat - img.data.toNat ∧
    KERNLINK.toNat < img.data.toNat ∧ img.data.toNat < KERNBASE.toNat + PHYSTOP.toNat := by
  have ha := img.above
  have hb := img.below
  simp only [KERNLINK, KERNBASE, EXTMEM, PHYSTOP] at ha hb ⊢
  refine ⟨?_, ?_, ?_, ?_⟩ <;> bv_omega

/-- Page tables are missing above KERNBASE at most. -/
theorem setupkvm_enoughFor (img : KernelImage) {is : List Index} {n : ℕ} {s : Kmem}
    (hc : s.refuse = []) (his : ∀ b, KERNBASE ≤ b → PDX b ∈ is)
    (hf : is.length + 1 + n ≤ s.freelist.length) :
    ∃ d t, setupkvm img s = .ok (some d, t) ∧ EnoughFor is n d t := by
  obtain ⟨f, fs, hfs, hk⟩ := kalloc_enough hc (by omega)
  obtain ⟨hlink, hdata, habove, hbelow⟩ := kmap_sizes img
  have hal := img.aligned
  have hbase : KERNBASE.toNat = 2147483648 := rfl
  have hlinkN : KERNLINK.toNat = 2148532224 := rfl
  have hext : (EXTMEM - 0).toNat = 1048576 := rfl
  have hstop : PHYSTOP.toNat = 234881024 := rfl
  have hdev : DEVSPACE.toNat = 4261412864 := rfl
  have hdevs : (0 - DEVSPACE).toNat = 33554432 := rfl
  have hparts : ∀ k ∈ kmap img, k.virt.toNat % 4096 = 0 ∧
      (k.phys_end - k.phys_start).toNat % 4096 = 0 := by
    intro k hk
    simp only [kmap, List.mem_cons, List.not_mem_nil, or_false] at hk
    rcases hk with rfl | rfl | rfl | rfl
    · exact ⟨rfl, rfl⟩
    · simp only [hlink]
      omega
    · simp only [hdata]
      omega
    · exact ⟨rfl, rfl⟩
  have hord : (kmap img).Pairwise fun k l =>
      k.virt.toNat + (k.phys_end - k.phys_start).toNat ≤ l.virt.toNat := by
    simp only [kmap, List.pairwise_cons, List.mem_cons, List.not_mem_nil, or_false,
      forall_eq_or_imp, forall_eq, hlink, hdata, hext, hlinkN, hbase, hstop, hdev,
      false_implies, implies_true, List.Pairwise.nil, and_true]
    omega
  have hempty : Below ⟨f, fun _ => none⟩ KERNBASE.toNat := by
    intro b hb
    simp [PageDir.present, PageDir.pte] at hb
  have henough : EnoughFor is n ⟨f, fun _ => none⟩ { s with freelist := fs } := by
    refine ⟨hc, ?_⟩
    have : absent ⟨f, fun _ => none⟩ is ≤ is.length := List.countP_le_length
    rw [hfs, List.length_cons] at hf
    simp only
    omega
  obtain ⟨d, t, hrun, hd⟩ := mapAll_enough his
    (fun k hk => ⟨(hparts k hk).1, (hparts k hk).2, kmap_upper img k hk⟩) hord
    (fun k hk => (kmap_upper img k hk).1) henough hempty
  refine ⟨d, t, ?_, hd⟩
  unfold setupkvm
  rw [run_bind hk]
  exact hrun

theorem setupkvm_enough (img : KernelImage) {n : ℕ} {s : Kmem} (hc : s.refuse = [])
    (hf : 1025 + n ≤ s.freelist.length) :
    ∃ d t, setupkvm img s = .ok (some d, t) ∧ Enough n d t := by
  apply setupkvm_enoughFor img hc fun b _ => mem_indices (PDX b)
  have hlen : indices.length = 1024 := by simp [indices]
  omega

theorem page_enough {n : ℕ} {d : PageDir} {s : Kmem} (va pa perm : Word)
    (h : Enough n d s) (hva : va.toNat % 4096 = 0) (hd : ¬ d.present va) :
    ∃ d' t, mappages d va PGSIZE pa perm s = .ok ((d', true), t) ∧ Enough n d' t := by
  have hfirst : PGROUNDDOWN va = va := PGROUNDDOWN_page hva
  have hlast : PGROUNDDOWN (va + PGSIZE - 1) = va := PGROUNDDOWN_last hva
  unfold mappages
  simp only [hfirst, hlast, BitVec.sub_self, BitVec.toNat_zero, Nat.zero_div]
  refine mapFrom_enough perm va pa h (by omega) (fun b _ => mem_indices (PDX b)) fun b hb => ?_
  simpa only [PageDir.present, pte_congr d (span_zero.mp hb)] using hd

/-- A user page added where `n + 1` frames are left. -/
theorem inituvm_enough {n : ℕ} {d : PageDir} {s : Kmem} (init : Page)
    (h : Enough (n + 1) d s) (hd : Exact d 0) :
    ∃ d' t, inituvm d init s = .ok (d', t) ∧ Enough n d' t ∧ Exact d' 4096 := by
  have hpos : 0 < s.freelist.length := by
    have := h.free
    omega
  obtain ⟨f, fs, hfs, hk⟩ := kalloc_enough h.calm hpos
  have h' : Enough n d { s with freelist := fs, mem := Function.update s.mem f zeros } := by
    have := h.free
    rw [hfs, List.length_cons] at this
    exact ⟨h.calm, by simp only; omega⟩
  have hfree : ¬ d.present 0 := fun hp => absurd ((hd 0 (by decide)).mp hp) (Nat.not_lt_zero _)
  obtain ⟨e, t, hrun, he⟩ := page_enough 0 (V2P f) (PTE_W ||| PTE_U) h' rfl hfree
  refine ⟨e, { t with mem := Function.update t.mem f init }, ?_, ⟨he.calm, he.free⟩, ?_⟩
  · unfold inituvm
    rw [run_bind hk]
    have hfill : fill f zeros { s with freelist := fs } =
        .ok ((), { s with freelist := fs, mem := Function.update s.mem f zeros }) := rfl
    dsimp only
    rw [run_bind hfill, run_bind hrun]
    rfl
  · have hgrow : Exact d (0 : Word).toNat := hd
    exact hgrow.grow rfl (mappages_page rfl hrun)

end PageTableFaults
