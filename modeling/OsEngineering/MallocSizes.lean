import OsEngineering.MallocRuns

/-! The sizes in malloc() and morecore() as 32-bit numbers, with the sbrk() of the kernel: it adds
its argument to the size of the process, whatever comes out. -/
namespace MallocSizes

open ByteBlock SortedRing Malloc MallocBlocks MallocCalls MallocRuns

/-- The size of the process in bytes. -/
def sz (h : Heap) : Word := BitVec.ofNat 32 (h.brk * 8)

/-- A call of sbrk() by morecore(), made with this size of the process, and the number of units that
the header of the new block gets. -/
structure Sbrk where
  sz : Word
  n : Word
  size : ℕ
  deriving DecidableEq

/-- sys_sbrk(): the old size is returned. -/
def sbrk (h : Heap) (n : Word) : Heap × Word := ({ h with brk := (sz h + n).toNat / 8 }, sz h)

def morecore (h : Heap) (nu : ℕ) : Sbrk × Option (Heap × Option ℕ) :=
  let nu := if nu < 4096 then 4096 else nu
  let n : Word := BitVec.ofNat 32 (nu * 8)
  let (h', p) := sbrk h n
  (⟨sz h, n, nu⟩,
    if p = -1 then some (h', none)
    else
      let hp := p.toNat / 8
      (free { h' with size := Function.update h'.size hp nu } (hp + 1)).map fun h => (h, h.freep))

/-- The loop of malloc(), with the calls of sbrk() that it makes. -/
def search (nunits : ℕ) : ℕ → Heap → ℕ → ℕ → List Sbrk × Option (Heap × Option ℕ)
  | 0, _, _, _ => ([], none)
  | k + 1, h, prevp, p =>
    if nunits ≤ h.size p then
      let (h, ap) := take h nunits prevp p
      ([], some (h, some ap))
    else if h.freep = some p then
      match morecore h nunits with
      | (call, none) => ([call], none)
      | (call, some (h, none)) => ([call], some (h, none))
      | (call, some (h, some p)) =>
        let (calls, r) := search nunits k h p (h.ptr p)
        (call :: calls, r)
    else search nunits k h p (h.ptr p)

def malloc (base : ℕ) (h : Heap) (nbytes : Word) : List Sbrk × Option (Heap × Option ℕ) :=
  match h.freep with
  | some prevp => search (nunits nbytes) (2 * h.rounds) h prevp (h.ptr prevp)
  | none =>
    let h := start base h
    search (nunits nbytes) (2 * h.rounds) h base (h.ptr base)

/-- The argument is positive and the bytes of the units that the header gets, and the size of the
process grows by no less. -/
structure Sbrk.Exact (c : Sbrk) : Prop where
  positive : 0 < c.n.toInt
  exact_bytes : c.n.toInt = c.size * 8
  obtained : (c.size * 8 : ℤ) ≤ (c.sz + c.n).toNat - c.sz.toNat

/-- What malloc() hands out has room for the bytes asked for, and its sbrk() calls are exact. -/
structure SizesRight (base : ℕ) (h : Heap) (nbytes : Word) : Prop where
  room : ∀ h' p, (malloc base h nbytes).2 = some (h', some p) →
    nbytes.toNat ≤ (h'.size (p - 1) - 1) * 8
  calls : ∀ c ∈ (malloc base h nbytes).1, c.Exact

/-- The units morecore() asks for. -/
def moreUnits (nunits : ℕ) : ℕ := if nunits < 4096 then 4096 else nunits

/-- Rounding up does not overflow, and where no free block is large enough, the bytes for morecore()
are a positive int and the size of the process does not overflow with them. -/
def FitsWord (h : Heap) (F : Finset ℕ) (nbytes : Word) : Prop :=
  nbytes.toNat + 7 < 2 ^ 32 ∧
    ((∀ a ∈ F, h.size a < nunits nbytes) →
      moreUnits (nunits nbytes) * 8 < 2 ^ 31 ∧
        h.brk * 8 + moreUnits (nunits nbytes) * 8 < 2 ^ 32)

/-! The numbers -/

theorem nunits_eq (nbytes : Word) :
    nunits nbytes = if nbytes.toNat + 7 < 2 ^ 32 then (nbytes.toNat + 7) / 8 + 1 else 1 := by
  have hsum : (nbytes + 8 - 1).toNat = (nbytes.toNat + 7) % 2 ^ 32 := by bv_omega
  have hdiv : ((nbytes + 8 - 1) / 8).toNat = (nbytes.toNat + 7) % 2 ^ 32 / 8 := by
    rw [BitVec.toNat_udiv, hsum]
    rfl
  have hone : (1 : Word).toNat = 1 := rfl
  have hbound := nbytes.isLt
  rw [nunits, BitVec.toNat_add, hdiv, hone]
  split
  · omega
  · omega

theorem nunits_pos (nbytes : Word) : 0 < nunits nbytes := by
  rw [nunits_eq]
  split <;> omega

theorem nunits_le (nbytes : Word) : nunits nbytes ≤ 2 ^ 29 := by
  rw [nunits_eq]
  split <;> omega

theorem nunits_room {nbytes : Word} (hfits : nbytes.toNat + 7 < 2 ^ 32) :
    nbytes.toNat ≤ (nunits nbytes - 1) * 8 := by
  rw [nunits_eq, if_pos hfits]
  omega

/-- Beyond, the block has no room at all. -/
theorem nunits_no_room {nbytes : Word} (hlarge : ¬ nbytes.toNat + 7 < 2 ^ 32) :
    ¬ nbytes.toNat ≤ (nunits nbytes - 1) * 8 := by
  rw [nunits_eq, if_neg hlarge]
  omega

theorem exact_iff {b nu : ℕ} (hb : b * 8 < 2 ^ 32) (hnu : 0 < nu) (hle : nu ≤ 2 ^ 29) :
    Sbrk.Exact ⟨BitVec.ofNat 32 (b * 8), BitVec.ofNat 32 (nu * 8), nu⟩ ↔
      nu * 8 < 2 ^ 31 ∧ b * 8 + nu * 8 < 2 ^ 32 := by
  have hn : (BitVec.ofNat 32 (nu * 8)).toNat = nu * 8 % 2 ^ 32 := BitVec.toNat_ofNat ..
  have hsz : (BitVec.ofNat 32 (b * 8)).toNat = b * 8 := by
    rw [BitVec.toNat_ofNat, Nat.mod_eq_of_lt hb]
  have hsum : (BitVec.ofNat 32 (b * 8) + BitVec.ofNat 32 (nu * 8)).toNat =
      (b * 8 + nu * 8 % 2 ^ 32) % 2 ^ 32 := by
    rw [BitVec.toNat_add, hn, hsz]
  have hint := BitVec.toInt_eq_toNat_cond (BitVec.ofNat 32 (nu * 8))
  rw [hn] at hint
  constructor
  · rintro ⟨-, hbytes, hgrown⟩
    dsimp only at hbytes hgrown
    rw [hint] at hbytes
    rw [hsum, hsz] at hgrown
    split at hbytes <;> omega
  · rintro ⟨hsmall, hfits⟩
    have hpos : 2 * (nu * 8 % 2 ^ 32) < 2 ^ 32 := by omega
    rw [if_pos hpos] at hint
    constructor
    · dsimp only
      omega
    · dsimp only
      omega
    · dsimp only
      rw [hsum, hsz]
      omega

theorem moreUnits_bounds {n : ℕ} (hle : n ≤ 2 ^ 29) : 0 < moreUnits n ∧ moreUnits n ≤ 2 ^ 29 := by
  unfold moreUnits
  split <;> omega

/-! One call -/

section Call

variable {base first : ℕ} {h : Heap} {F L : Finset ℕ} {f n : ℕ}

/-- The call of sbrk() that morecore() makes. -/
def firstCall (h : Heap) (n : ℕ) : Sbrk := ⟨sz h, BitVec.ofNat 32 (moreUnits n * 8), moreUnits n⟩

/-- While the size of the process does not overflow, sbrk() grants the units. -/
theorem morecore_granted (hfits : h.brk * 8 + moreUnits n * 8 < 2 ^ 32) :
    morecore h n = (firstCall h n, Malloc.morecore h n true) := by
  have hsz : (sz h).toNat = h.brk * 8 := by
    rw [sz, BitVec.toNat_ofNat, Nat.mod_eq_of_lt (by omega)]
  have hbrk : (sz h + BitVec.ofNat 32 (moreUnits n * 8)).toNat / 8 = h.brk + moreUnits n := by
    rw [BitVec.toNat_add, hsz, BitVec.toNat_ofNat]
    omega
  have hhp : (sz h).toNat / 8 = h.brk := by omega
  have hne : ¬ sz h = -1 := by
    intro heq
    rw [heq] at hsz
    have hmax : (-1 : Word).toNat = 2 ^ 32 - 1 := rfl
    omega
  unfold moreUnits at hbrk
  unfold morecore Malloc.morecore sbrk firstCall moreUnits
  dsimp only
  rw [hbrk, hhp, if_neg hne, if_pos rfl]

theorem morecore_call (h : Heap) (n : ℕ) : (morecore h n).1 = firstCall h n := rfl

theorem search_found (k q p : ℕ) (hlarge : n ≤ h.size p) :
    search n (k + 1) h q p = ([], some ((take h n q p).1, some (take h n q p).2)) := by
  rw [search, if_pos hlarge]

theorem search_next (k q p : ℕ) (hsmall : ¬ n ≤ h.size p) (hmore : h.freep ≠ some p) :
    search n (k + 1) h q p = search n k h p (h.ptr p) := by
  rw [search, if_neg hsmall, if_neg hmore]

theorem search_first (k q p : ℕ) (hsmall : ¬ n ≤ h.size p) (hmore : h.freep = some p) :
    firstCall h n ∈ (search n (k + 1) h q p).1 := by
  rw [search, if_neg hsmall, if_pos hmore]
  have hcall := morecore_call h n
  generalize morecore h n = r at hcall
  obtain ⟨call, r⟩ := r
  obtain rfl : call = firstCall h n := hcall
  cases r with
  | none => exact List.mem_cons_self
  | some r =>
    obtain ⟨h', p⟩ := r
    cases p with
    | none => exact List.mem_cons_self
    | some p => exact List.mem_cons_self

/-- A large free block is found without a call of sbrk(). -/
theorem search_served (hg : Good base first h F L) (hfreep : h.freep = some f)
    (hf : f ∈ insert base F) (hn : 0 < n) (hfits : ∃ z ∈ F, n ≤ h.size z) {k : ℕ}
    (hk : (insert base F).card ≤ k) :
    ∃ h' F' b, search n k h f (h.ptr f) = ([], some (h', some (b + 1))) ∧
      Served base first h L n b h' F' := by
  rcases round_ring (s := fun k => search n k h) search_found search_next hg hfreep hf hk with
    ⟨q, p, hq, hp, hlarge, hfound⟩ | ⟨hall, -⟩
  · obtain ⟨b, F', hb, hserved⟩ := take_served hg hq hp hn hlarge
    rw [hb] at hfound
    exact ⟨_, F', b, hfound, hserved⟩
  · obtain ⟨z, hz, hlarge⟩ := hfits
    exact absurd (hall z (Finset.mem_insert_of_mem hz)) (not_lt.mpr hlarge)

/-- With small free blocks only, sbrk() is called; if the process has room for the units, one call
is enough. -/
theorem search_grown (hg : Good base first h F L) (hfreep : h.freep = some f)
    (hf : f ∈ insert base F) (hn : 0 < n) (hsmall : ∀ z ∈ F, h.size z < n) :
    firstCall h n ∈ (search n (2 * h.rounds) h f (h.ptr f)).1 ∧
      (h.brk * 8 + moreUnits n * 8 < 2 ^ 32 →
        ∃ h' b, search n (2 * h.rounds) h f (h.ptr f) = ([firstCall h n], some (h', some (b + 1))) ∧
          h'.size b = n) := by
  have hcard := hg.card_le
  have hrounds : 2 * h.rounds = 2 * h.brk + 2 := by
    rw [Heap.rounds]
    omega
  have hall : ∀ z ∈ insert base F, ¬ n ≤ h.size z := by
    intro z hz
    rcases Finset.mem_insert.mp hz with rfl | hz
    · rw [hg.empty]
      omega
    · exact not_le.mpr (hsmall z hz)
  rcases round_ring (s := fun k => search n k h) search_found search_next hg hfreep hf
    (k := 2 * h.rounds) (by omega) with ⟨q, p, hq, rfl, hlarge, -⟩ | ⟨-, q, j, hj, hon⟩
  · exact absurd hlarge (hall _ (hg.ring.next_mem hq))
  · rw [hon]
    refine ⟨search_first j q f (hall f hf) hfreep, fun hroom => ?_⟩
    obtain ⟨h₁, F₁, f₁, hmore, hgrown⟩ := morecore_grown (n := n) hg
    obtain ⟨h', F', b, hfound, hserved⟩ := search_served (k := j) hgrown.good hgrown.freep
      hgrown.mem hn hgrown.fits (by have hle := hgrown.card; omega)
    refine ⟨h', b, ?_, hserved.fits⟩
    rw [search, if_neg (hall f hf), if_pos hfreep, morecore_granted hroom, hmore]
    simp only [hfound]

theorem malloc_found {nbytes : Word} (hh : Heaped base first h F L)
    (hfits : ∃ z ∈ F, nunits nbytes ≤ h.size z) :
    ∃ h' b, malloc base h nbytes = ([], some (h', some (b + 1))) ∧ h'.size b = nunits nbytes := by
  rcases hh with ⟨-, rfl, -⟩ | hg
  · obtain ⟨z, hz, -⟩ := hfits
    exact absurd hz (Finset.notMem_empty z)
  · obtain ⟨f, hf, hfreep⟩ := hg.freep
    have hcard := hg.card_le
    obtain ⟨h', F', b, hfound, hserved⟩ := search_served hg hfreep hf (nunits_pos nbytes) hfits
      (k := 2 * h.rounds) (by rw [Heap.rounds]; omega)
    refine ⟨h', b, ?_, hserved.fits⟩
    rw [malloc, hfreep]
    exact hfound

theorem malloc_grown (nbytes : Word) (hh : Heaped base first h F L)
    (hsmall : ∀ z ∈ F, h.size z < nunits nbytes) :
    firstCall h (nunits nbytes) ∈ (malloc base h nbytes).1 ∧
      (h.brk * 8 + moreUnits (nunits nbytes) * 8 < 2 ^ 32 →
        ∃ h' b, malloc base h nbytes =
            ([firstCall h (nunits nbytes)], some (h', some (b + 1))) ∧
          h'.size b = nunits nbytes) := by
  have hn := nunits_pos nbytes
  rcases hh with ⟨hfreep, -, -, rfl, hbelow⟩ | hg
  · have hg := start_good h hbelow
    rw [malloc, hfreep]
    exact search_grown (f := base) hg rfl (Finset.mem_insert_self base ∅) hn
      fun z hz => absurd hz (Finset.notMem_empty z)
  · obtain ⟨f, hf, hfreep⟩ := hg.freep
    rw [malloc, hfreep]
    exact search_grown hg hfreep hf hn hsmall

end Call

theorem firstCall_exact {h : Heap} {n : ℕ} (hsz : h.brk * 8 < 2 ^ 32) (hn : n ≤ 2 ^ 29) :
    (firstCall h n).Exact ↔ moreUnits n * 8 < 2 ^ 31 ∧ h.brk * 8 + moreUnits n * 8 < 2 ^ 32 :=
  exact_iff hsz (moreUnits_bounds hn).1 (moreUnits_bounds hn).2

section Sizes

variable {base first : ℕ} {h : Heap} {F L : Finset ℕ} {nbytes : Word}

/-- A block of exactly the units asked for. -/
theorem sizesRight_of_served {h' : Heap} {b : ℕ} {calls : List Sbrk}
    (hm : malloc base h nbytes = (calls, some (h', some (b + 1))))
    (hsize : h'.size b = nunits nbytes) :
    SizesRight base h nbytes ↔ nbytes.toNat + 7 < 2 ^ 32 ∧ ∀ c ∈ calls, c.Exact := by
  constructor
  · rintro ⟨hroom, hcalls⟩
    rw [hm] at hroom hcalls
    refine ⟨?_, hcalls⟩
    by_contra hlarge
    have hle := hroom h' (b + 1) rfl
    rw [Nat.add_sub_cancel, hsize] at hle
    exact nunits_no_room hlarge hle
  · rintro ⟨hfits, hcalls⟩
    constructor
    · intro h₁ p hp
      rw [hm] at hp
      obtain ⟨rfl, hb⟩ := Prod.mk.inj (Option.some.inj hp)
      obtain rfl := Option.some.inj hb
      rw [Nat.add_sub_cancel, hsize]
      exact nunits_room hfits
    · rw [hm]
      exact hcalls

/-- The sizes are right exactly where the units and their bytes fit into a word, and then malloc()
returns a block. -/
theorem malloc_sizes_right (hh : Heaped base first h F L) (hsz : h.brk * 8 < 2 ^ 32) :
    (SizesRight base h nbytes ↔ FitsWord h F nbytes) ∧
      (FitsWord h F nbytes → ∃ h' p, (malloc base h nbytes).2 = some (h', some p)) := by
  unfold FitsWord
  by_cases hfound : ∃ z ∈ F, nunits nbytes ≤ h.size z
  · obtain ⟨h', b, hm, hsize⟩ := malloc_found hh hfound
    have hvacuous : ¬ ∀ a ∈ F, h.size a < nunits nbytes := by
      intro hall
      obtain ⟨z, hz, hle⟩ := hfound
      exact absurd (hall z hz) (not_lt.mpr hle)
    refine ⟨?_, fun _ => ⟨h', b + 1, by rw [hm]⟩⟩
    rw [sizesRight_of_served hm hsize]
    refine and_congr_right fun _ => iff_of_true (fun c hc => ?_) fun hall => absurd hall hvacuous
    exact absurd hc List.not_mem_nil
  · push Not at hfound
    obtain ⟨hcall, hgrown⟩ := malloc_grown nbytes hh hfound
    rw [forall_prop_of_true hfound, ← firstCall_exact hsz (nunits_le nbytes)]
    have hexact := firstCall_exact (n := nunits nbytes) hsz (nunits_le nbytes)
    constructor
    · constructor
      · intro hright
        have hone := hright.calls _ hcall
        obtain ⟨h', b, hm, hsize⟩ := hgrown (hexact.mp hone).2
        exact ⟨((sizesRight_of_served hm hsize).mp hright).1, hone⟩
      · rintro ⟨hfits, hone⟩
        obtain ⟨h', b, hm, hsize⟩ := hgrown (hexact.mp hone).2
        refine (sizesRight_of_served hm hsize).mpr ⟨hfits, fun c hc => ?_⟩
        rw [List.mem_singleton.mp hc]
        exact hone
    · rintro ⟨-, hone⟩
      obtain ⟨h', b, hm, -⟩ := hgrown (hexact.mp hone).2
      exact ⟨h', b + 1, by rw [hm]⟩

end Sizes

theorem malloc_sizes_right_small :
    (SizesRight 0 empty.heap 100 ↔ FitsWord empty.heap ∅ 100) ∧
      (FitsWord empty.heap ∅ 100 → ∃ h' p, (malloc 0 empty.heap 100).2 = some (h', some p)) := by
  have hheap : Heaped 0 1 empty.heap ∅ ∅ := Or.inl ⟨rfl, rfl, rfl, rfl, Nat.one_pos⟩
  exact malloc_sizes_right hheap (by decide)

/-- malloc(2^32 - 1) returns a block of one unit, which is its header. -/
theorem malloc_too_small : ∃ h' p,
    malloc 0 empty.heap 0xFFFFFFFF = ([⟨8, 32768, 4096⟩], some (h', some p)) ∧
      h'.size (p - 1) = 1 ∧ ¬ SizesRight 0 empty.heap 0xFFFFFFFF := by
  have hheap : Heaped 0 1 empty.heap ∅ ∅ := Or.inl ⟨rfl, rfl, rfl, rfl, Nat.one_pos⟩
  obtain ⟨h', b, hm, hsize⟩ := (malloc_grown 0xFFFFFFFF hheap
    fun z hz => absurd hz (Finset.notMem_empty z)).2 (by decide)
  refine ⟨h', b + 1, hm, hsize, fun hright => ?_⟩
  exact absurd ((sizesRight_of_served hm hsize).mp hright).1 (by decide)

end MallocSizes
