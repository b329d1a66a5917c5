import OsEngineering.KernelMap

/-! copyout(): which bytes it writes, and the addresses at which uva2ka() reads an entry of a page
table that is not there. -/
namespace CopyOut

open ByteBlock FaultState PageTables PageTableMappings PageClearing KernelMap

/-- The address of byte `i`, in 32 bits. -/
def at32 (va : Word) (i : ℕ) : Word := va + BitVec.ofNat 32 i

/-- Where a user address lies in physical memory. -/
def phys (d : PageDir) (va : Word) : Frame × ℕ := (frameOf d va, va.toNat % 4096)

def byteAt (m : Kmem) (x : Frame × ℕ) : Byte := byte (m.mem x.1) x.2

/-- Every page that overlaps [va, va + len) is accessible, and the range does not wrap around. -/
def Covered (d : PageDir) (va : Word) (len : ℕ) : Prop :=
  va.toNat + len ≤ 2 ^ 32 ∧ ∀ b i, i < len → page b = (va.toNat + i) / 4096 → accessible d b

/-- The bytes of the range are those of the buffer, and no others have changed. -/
structure Delivered (d : PageDir) (va : Word) (buf : List Byte) (s t : Kmem) : Prop where
  bytes : ∀ i < buf.length, byteAt t (phys d (at32 va i)) = buf.getD i 0
  others : ∀ x : Frame × ℕ, x.2 < 4096 → (∀ i < buf.length, phys d (at32 va i) ≠ x) →
    byteAt t x = byteAt s x
  free : t.freelist = s.freelist

/-- No fault, 0 exactly for a covered range, and then the buffer is delivered. -/
def SafeAndExact (d : PageDir) (va : Word) (buf : List Byte) (s : Kmem) : Prop :=
  ∃ r t, copyout d va buf s = .ok (r, t) ∧ (r = true ↔ Covered d va buf.length) ∧
    (r = true → Delivered d va buf s t)

variable {d : PageDir} {va : Word} {buf : List Byte} {s t : Kmem} {k n i j : ℕ}

/-! One page. -/

theorem accessible_congr {a b : Word} (h : page a = page b) :
    accessible d a ↔ accessible d b := by
  simp only [accessible, PageDir.present, user, pte_congr d h]

theorem down_page (va : Word) : page (PGROUNDDOWN va) = page va := by
  rw [page, page, PGROUNDDOWN_toNat]
  omega

theorem PDX_congr {a b : Word} (h : page a = page b) : PDX a = PDX b := (index_eq.mp h).1

theorem offset_toNat (va : Word) : (va - PGROUNDDOWN va).toNat = va.toNat % 4096 := by
  have hdown := PGROUNDDOWN_toNat va
  have hle : (PGROUNDDOWN va).toNat ≤ va.toNat := by omega
  rw [BitVec.toNat_sub_of_le (BitVec.le_def.mpr hle), hdown]
  omega

/-- What one round of the loop takes. -/
def chunk (va : Word) (len : ℕ) : ℕ := min (4096 - va.toNat % 4096) len

theorem at32_near (hi : i < 4096 - va.toNat % 4096) :
    (at32 va i).toNat = va.toNat + i ∧ page (at32 va i) = page va := by
  have hlt := va.isLt
  have hsum : (at32 va i).toNat = va.toNat + i := by
    rw [at32, BitVec.toNat_add, BitVec.toNat_ofNat]
    omega
  refine ⟨hsum, ?_⟩
  rw [page, page, hsum]
  omega

theorem phys_near (hi : i < 4096 - va.toNat % 4096) :
    phys d (at32 va i) = (frameOf d va, va.toNat % 4096 + i) := by
  obtain ⟨hsum, hpage⟩ := at32_near hi
  have hoff : (va.toNat + i) % 4096 = va.toNat % 4096 + i := by omega
  rw [phys, hsum, hoff, frameOf, frameOf, pte_congr d hpage]

/-- The bytes past the first page, from the next page on. -/
theorem at32_far (va : Word) (hi : 4096 - va.toNat % 4096 ≤ i) :
    at32 va i = at32 (PGROUNDDOWN va + PGSIZE) (i - (4096 - va.toNat % 4096)) := by
  have hdown := PGROUNDDOWN_toNat va
  have hsize : PGSIZE.toNat = 4096 := rfl
  rw [← BitVec.toNat_inj]
  simp only [at32, BitVec.toNat_add, BitVec.toNat_ofNat, hsize, hdown]
  omega

theorem at32_zero (va : Word) : at32 va 0 = va := BitVec.add_zero va

theorem uva2ka_some (h : accessible d va) : uva2ka d va = pure (some (frameOf d va)) := by
  have htable := table_of_present h.1
  have hin : ¬ (d.pte va &&& PTE_P = 0 ∨ d.pte va &&& PTE_U = 0) := not_or.mpr h
  rw [uva2ka, walkpgdir_false, if_pos htable, pure_bind]
  simp only [if_neg hin]
  rfl

theorem uva2ka_none (htable : (d.pde (PDX va)).isSome) (h : ¬ accessible d va) :
    uva2ka d va = pure none := by
  have hin : d.pte va &&& PTE_P = 0 ∨ d.pte va &&& PTE_U = 0 := by
    by_contra hno
    exact h (not_or.mp hno)
  rw [uva2ka, walkpgdir_false, if_pos htable, pure_bind]
  simp only [if_pos hin]

theorem uva2ka_null (htable : d.pde (PDX va) = none) : uva2ka d va = throw .null := by
  rw [uva2ka, walkpgdir_false, htable, pure_bind]
  rfl

/-- Where a byte is after store(). -/
theorem store_run (f : Frame) (off : ℕ) (bytes : List Byte) (s : Kmem) :
    ∃ t, store f off bytes s = .ok ((), t) ∧ t.freelist = s.freelist ∧
      ∀ x : Frame × ℕ, x.2 < 4096 → byteAt t x =
        if x.1 = f ∧ off ≤ x.2 ∧ x.2 < off + bytes.length then bytes.getD (x.2 - off) 0
        else byteAt s x := by
  refine ⟨_, rfl, rfl, fun x hx => ?_⟩
  simp only [byteAt, byte, hx, dif_pos]
  by_cases hf : x.1 = f
  · rw [hf]
    simp only [Function.update_self, true_and]
  · simp only [Function.update_of_ne hf, hf, false_and, if_false]

/-! The loop. -/

/-- The first round, on an accessible page. -/
theorem copyoutFrom_round (hbuf : buf ≠ []) (h : accessible d va) (s : Kmem) :
    ∃ t, copyoutFrom d (k + 1) va buf s =
        copyoutFrom d k (PGROUNDDOWN va + PGSIZE) (buf.drop (chunk va buf.length)) t ∧
      t.freelist = s.freelist ∧
      ∀ x : Frame × ℕ, x.2 < 4096 → byteAt t x =
        if x.1 = frameOf d va ∧ va.toNat % 4096 ≤ x.2 ∧
            x.2 < va.toNat % 4096 + chunk va buf.length then
          buf.getD (x.2 - va.toNat % 4096) 0
        else byteAt s x := by
  have hpage := down_page va
  have hacc : accessible d (PGROUNDDOWN va) := (accessible_congr hpage).mpr h
  have hframe : frameOf d (PGROUNDDOWN va) = frameOf d va := by
    rw [frameOf, frameOf, pte_congr d hpage]
  obtain ⟨t, hrun, hfree, hbyte⟩ := store_run (frameOf d va) (va.toNat % 4096)
    (buf.take (chunk va buf.length)) s
  refine ⟨t, ?_, hfree, fun x hx => ?_⟩
  · rw [copyoutFrom, if_neg hbuf]
    simp only [uva2ka_some hacc, pure_bind, hframe, offset_toNat]
    exact run_bind hrun
  · have hlen : (buf.take (chunk va buf.length)).length = chunk va buf.length := by
      rw [List.length_take, chunk]
      omega
    rw [hbyte x hx, hlen]
    by_cases hin : x.1 = frameOf d va ∧ va.toNat % 4096 ≤ x.2 ∧
        x.2 < va.toNat % 4096 + chunk va buf.length
    · rw [if_pos hin, if_pos hin, List.getD_eq_getElem?_getD, List.getD_eq_getElem?_getD,
        List.getElem?_take_of_lt (by omega)]
    · rw [if_neg hin, if_neg hin]

theorem copyoutFrom_hole (hbuf : buf ≠ []) (hno : ¬ accessible d va) (s : Kmem) :
    ((d.pde (PDX va)).isSome → copyoutFrom d (k + 1) va buf s = .ok (false, s)) ∧
      (d.pde (PDX va) = none → copyoutFrom d (k + 1) va buf s = .error .null) := by
  have hpage := down_page va
  have hpdx := PDX_congr hpage
  have hdown : ¬ accessible d (PGROUNDDOWN va) := fun h => hno ((accessible_congr hpage).mp h)
  constructor
  · intro htable
    rw [copyoutFrom, if_neg hbuf]
    simp only [uva2ka_none (hpdx ▸ htable) hdown, pure_bind]
    rfl
  · intro htable
    rw [copyoutFrom, if_neg hbuf]
    simp only [uva2ka_null (hpdx ▸ htable)]
    rfl

/-- What is left after the first round. -/
theorem rest_length (va : Word) (buf : List Byte) :
    (buf.drop (chunk va buf.length)).length = buf.length - chunk va buf.length :=
  List.length_drop

theorem rest_address (va : Word) (buf : List Byte) (hi : i < buf.length - chunk va buf.length) :
    at32 (PGROUNDDOWN va + PGSIZE) i = at32 va (i + chunk va buf.length) := by
  have hchunk : chunk va buf.length = 4096 - va.toNat % 4096 := by
    simp only [chunk] at hi ⊢
    omega
  rw [hchunk, at32_far va (Nat.le_add_left _ _), Nat.add_sub_cancel]

theorem chunk_pos (va : Word) (hbuf : buf ≠ []) : 0 < chunk va buf.length := by
  have hlen := List.length_pos_iff.mpr hbuf
  simp only [chunk]
  omega

/-- After a run through accessible pages each byte of memory is the last one copied to it, or has
stayed. -/
theorem copyoutFrom_all (hk : buf.length ≤ k)
    (h : ∀ i < buf.length, accessible d (at32 va i)) (s : Kmem) :
    ∃ t, copyoutFrom d k va buf s = .ok (true, t) ∧ t.freelist = s.freelist ∧
      ∀ x : Frame × ℕ, x.2 < 4096 →
        (∃ i < buf.length, phys d (at32 va i) = x ∧ byteAt t x = buf.getD i 0) ∨
          (∀ i < buf.length, phys d (at32 va i) ≠ x) ∧ byteAt t x = byteAt s x := by
  induction k generalizing va buf s with
  | zero =>
    have hbuf : buf = [] := List.eq_nil_of_length_eq_zero (Nat.le_zero.mp hk)
    subst hbuf
    exact ⟨s, by rw [copyoutFrom, if_pos rfl]; rfl, rfl, fun x _ => Or.inr ⟨nofun, rfl⟩⟩
  | succ k ih =>
    by_cases hbuf : buf = []
    · subst hbuf
      exact ⟨s, by rw [copyoutFrom, if_pos rfl]; rfl, rfl, fun x _ => Or.inr ⟨nofun, rfl⟩⟩
    · have hpos := List.length_pos_iff.mpr hbuf
      have hchunk := chunk_pos va hbuf
      have hrest := rest_length va buf
      have hfirst : accessible d va := at32_zero va ▸ h 0 hpos
      obtain ⟨u, hround, hfree, hbyte⟩ := copyoutFrom_round (k := k) hbuf hfirst s
      obtain ⟨t, hrun, hfree', hbyte'⟩ := @ih (PGROUNDDOWN va + PGSIZE)
        (buf.drop (chunk va buf.length)) (by omega) (by
          intro i hi
          rw [hrest] at hi
          rw [rest_address va buf hi]
          exact h _ (by omega)) u
      refine ⟨t, hround.trans hrun, hfree'.trans hfree, fun x hx => ?_⟩
      rcases hbyte' x hx with ⟨i, hi, hphys, hval⟩ | ⟨hout, hsame⟩
      · rw [hrest] at hi
        refine Or.inl ⟨i + chunk va buf.length, by omega, ?_, ?_⟩
        · rw [← rest_address va buf hi]
          exact hphys
        · rw [hval, List.getD_eq_getElem?_getD, List.getD_eq_getElem?_getD, List.getElem?_drop,
            Nat.add_comm]
      · rw [hbyte x hx] at hsame
        by_cases hin : x.1 = frameOf d va ∧ va.toNat % 4096 ≤ x.2 ∧
            x.2 < va.toNat % 4096 + chunk va buf.length
        · obtain ⟨hframe, hlo, hhi⟩ := hin
          rw [if_pos ⟨hframe, hlo, hhi⟩] at hsame
          have hnear : x.2 - va.toNat % 4096 < 4096 - va.toNat % 4096 := by omega
          refine Or.inl ⟨x.2 - va.toNat % 4096, ?_, ?_, hsame⟩
          · simp only [chunk] at hhi
            omega
          · rw [phys_near hnear, ← hframe]
            exact Prod.ext rfl (by dsimp only; omega)
        · rw [if_neg hin] at hsame
          refine Or.inr ⟨fun i hi heq => ?_, hsame⟩
          by_cases hnear : i < chunk va buf.length
          · have hlt : i < 4096 - va.toNat % 4096 := by
              simp only [chunk] at hnear
              omega
            rw [phys_near hlt] at heq
            subst heq
            exact hin ⟨rfl, by dsimp only; omega, by dsimp only; omega⟩
          · have hfar : i - chunk va buf.length < buf.length - chunk va buf.length := by omega
            apply hout (i - chunk va buf.length) (by omega)
            rw [rest_address va buf hfar, Nat.sub_add_cancel (Nat.le_of_not_lt hnear)]
            exact heq

/-- The first inaccessible byte ends the loop. -/
theorem copyoutFrom_stop (hk : buf.length ≤ k) (hi : i < buf.length)
    (hbefore : ∀ j < i, accessible d (at32 va j)) (hno : ¬ accessible d (at32 va i)) (s : Kmem) :
    ((d.pde (PDX (at32 va i))).isSome → ∃ t, copyoutFrom d k va buf s = .ok (false, t)) ∧
      (d.pde (PDX (at32 va i)) = none → copyoutFrom d k va buf s = .error .null) := by
  induction k generalizing va buf i s with
  | zero => omega
  | succ k ih =>
    have hbuf : buf ≠ [] := by
      rintro rfl
      exact absurd hi (Nat.not_lt_zero i)
    by_cases hfirst : accessible d va
    · have hfar : 4096 - va.toNat % 4096 ≤ i := by
        by_contra hnear
        exact hno ((accessible_congr (at32_near (Nat.lt_of_not_le hnear)).2).mpr hfirst)
      have hchunk : chunk va buf.length = 4096 - va.toNat % 4096 := by
        simp only [chunk]
        omega
      have hrest := rest_length va buf
      have hsame : at32 (PGROUNDDOWN va + PGSIZE) (i - chunk va buf.length) = at32 va i := by
        rw [rest_address va buf (by omega), Nat.sub_add_cancel (by omega)]
      obtain ⟨u, hround, -, -⟩ := copyoutFrom_round (k := k) hbuf hfirst s
      have hpos := chunk_pos va hbuf
      obtain ⟨hstop, hnull⟩ := @ih (PGROUNDDOWN va + PGSIZE)
        (buf.drop (chunk va buf.length)) (i - chunk va buf.length) (by omega)
        (by omega) (by
          intro j hj
          rw [rest_address va buf (by omega)]
          exact hbefore _ (by omega)) (by rw [hsame]; exact hno) u
      rw [hsame] at hstop hnull
      rw [hround]
      exact ⟨hstop, hnull⟩
    · have hzero : i = 0 := by
        by_contra hne
        exact hfirst (at32_zero va ▸ hbefore 0 (Nat.pos_of_ne_zero hne))
      subst hzero
      rw [at32_zero]
      obtain ⟨hstop, hnull⟩ := copyoutFrom_hole (k := k) hbuf hfirst s
      exact ⟨fun h => ⟨s, hstop h⟩, hnull⟩

/-! copyout(). -/

/-- The bytes up to the first inaccessible one lie under page tables. -/
def Tables (d : PageDir) (va : Word) (len : ℕ) : Prop :=
  ∀ i < len, (∀ j < i, accessible d (at32 va j)) → (d.pde (PDX (at32 va i))).isSome

/-- Bytes that share their place in physical memory are equal. -/
def Unshared (d : PageDir) (va : Word) (buf : List Byte) : Prop :=
  ∀ i < buf.length, ∀ j < buf.length, phys d (at32 va i) = phys d (at32 va j) →
    buf.getD i 0 = buf.getD j 0

/-- The range is accessible, though it may wrap around. -/
def Open (d : PageDir) (va : Word) (len : ℕ) : Prop := ∀ i < len, accessible d (at32 va i)

theorem covered_iff (d : PageDir) (va : Word) (len : ℕ) :
    Covered d va len ↔ va.toNat + len ≤ 2 ^ 32 ∧ Open d va len := by
  refine and_congr_right fun hfit => ?_
  have hsum : ∀ i < len, (at32 va i).toNat = va.toNat + i := by
    intro i hi
    rw [at32, BitVec.toNat_add, BitVec.toNat_ofNat]
    omega
  constructor
  · intro h i hi
    exact h _ i hi (by rw [page, hsum i hi])
  · intro h b i hi hb
    have hpage : page b = page (at32 va i) := by
      rw [hb, page, hsum i hi]
    exact (accessible_congr hpage).mpr (h i hi)

/-- A range that is not open has a first inaccessible byte. -/
theorem first_hole {len : ℕ} (h : ¬ Open d va len) :
    ∃ i < len, (∀ j < i, accessible d (at32 va j)) ∧ ¬ accessible d (at32 va i) := by
  have hex : ∃ i, i < len ∧ ¬ accessible d (at32 va i) := by
    simp only [Open, not_forall] at h
    obtain ⟨i, hi, hno⟩ := h
    exact ⟨i, hi, hno⟩
  obtain ⟨hi, hno⟩ := Nat.find_spec hex
  refine ⟨Nat.find hex, hi, fun j hj => ?_, hno⟩
  by_contra hbad
  exact Nat.find_min hex hj ⟨hj.trans hi, hbad⟩

theorem copyout_open (h : Open d va buf.length) (s : Kmem) :
    ∃ t, copyout d va buf s = .ok (true, t) ∧ (Unshared d va buf ↔ Delivered d va buf s t) := by
  obtain ⟨t, hrun, hfree, hbyte⟩ := copyoutFrom_all (Nat.le_refl _) h s
  have hlow : ∀ va, (phys d va).2 < 4096 := fun va => Nat.mod_lt _ (by decide)
  refine ⟨t, hrun, fun hsame => ⟨fun i hi => ?_, fun x hx hout => ?_, hfree⟩,
    fun hdone i hi j hj heq => ?_⟩
  · rcases hbyte _ (hlow (at32 va i)) with ⟨j, hj, hphys, hval⟩ | ⟨hout, -⟩
    · rw [hval]
      exact hsame j hj i hi hphys
    · exact absurd rfl (hout i hi)
  · rcases hbyte x hx with ⟨i, hi, hphys, -⟩ | ⟨-, hkeep⟩
    · exact absurd hphys (hout i hi)
    · exact hkeep
  · rw [← hdone.bytes i hi, ← hdone.bytes j hj, heq]

theorem copyout_null {d : PageDir} {va : Word} {buf : List Byte} (hi : i < buf.length)
    (hbefore : ∀ j < i, accessible d (at32 va j)) (hnone : d.pde (PDX (at32 va i)) = none)
    (s : Kmem) : copyout d va buf s = .error .null := by
  have hno : ¬ accessible d (at32 va i) := fun h => absent_of_none hnone h.1
  exact (copyoutFrom_stop (Nat.le_refl _) hi hbefore hno s).2 hnone

/-- copyout() is safe and exact just where it meets no missing page table, an accessible range
does not wrap around, and no two bytes share a place. -/
theorem copyout_safe_iff (d : PageDir) (va : Word) (buf : List Byte) (s : Kmem) :
    SafeAndExact d va buf s ↔ Tables d va buf.length ∧
      (Open d va buf.length → va.toNat + buf.length ≤ 2 ^ 32 ∧ Unshared d va buf) := by
  by_cases hopen : Open d va buf.length
  · obtain ⟨t, hrun, hdone⟩ := copyout_open hopen s
    have htables : Tables d va buf.length := fun i hi _ => table_of_present (hopen i hi).1
    constructor
    · rintro ⟨r, t', hrun', hcovered, hdelivered⟩
      rw [hrun] at hrun'
      cases hrun'
      exact ⟨htables, fun _ => ⟨(hcovered.mp rfl).1, hdone.mpr (hdelivered rfl)⟩⟩
    · rintro ⟨-, h⟩
      obtain ⟨hfit, hsame⟩ := h hopen
      exact ⟨true, t, hrun, iff_of_true rfl ((covered_iff d va _).mpr ⟨hfit, hopen⟩),
        fun _ => hdone.mp hsame⟩
  · obtain ⟨i, hi, hbefore, hno⟩ := first_hole hopen
    have huncovered : ¬ Covered d va buf.length := fun h => hopen ((covered_iff d va _).mp h).2
    constructor
    · rintro ⟨r, t, hrun, -⟩
      refine ⟨fun j hj hall => ?_, fun h => absurd h hopen⟩
      cases htable : d.pde (PDX (at32 va j)) with
      | some tab => rfl
      | none =>
        rw [copyout_null hj hall htable s] at hrun
        cases hrun
    · rintro ⟨htables, -⟩
      obtain ⟨t, hrun⟩ := (copyoutFrom_stop (Nat.le_refl _) hi hbefore hno s).1
        (htables i hi hbefore)
      exact ⟨false, t, hrun, iff_of_false Bool.false_ne_true huncovered, nofun⟩

/-- An argument of more than 32 megabytes: exec() with a stack that ends at 8192 copies it to an
address under no page table. -/
theorem copyout_reads_null : ¬ SafeAndExact twoPages 0xFDF02000 (List.replicate 34603008 65)
    ⟨[], [], fun _ => zeros⟩ := by
  rintro ⟨r, t, hrun, -⟩
  have hpos : 0 < (List.replicate 34603008 (65 : Byte)).length := by
    rw [List.length_replicate]
    decide
  have hnone : twoPages.pde (PDX (at32 0xFDF02000 0)) = none := by
    rw [at32_zero]
    decide
  rw [copyout_null hpos nofun hnone] at hrun
  cases hrun

end CopyOut
