import OsEngineering.MallocBlocks

/-! malloc(): at most twice around the ring, and what it hands out. -/
namespace MallocCalls

open FiniteTally SortedRing Malloc MallocBlocks

variable {base first : ℕ} {h : Heap} {F L : Finset ℕ} {f n p q : ℕ}

/-- What malloc() leaves when it hands out the block `b`. -/
structure Served (base first : ℕ) (h : Heap) (L : Finset ℕ) (n b : ℕ) (h' : Heap)
    (F' : Finset ℕ) : Prop where
  good : Good base first h' F' (insert b L)
  fits : h'.size b = n
  live : ∀ x ∈ L, h'.size x = h.size x

/-- The next header is not inside a block. -/
theorem next_outside (hb : Blocks base first h F L) (hp : p ∈ F) {x : ℕ} (hpx : p < x)
    (hx : x < p + h.size p) : x ≠ h.ptr p := by
  rintro rfl
  have hbelow := hb.below
  have hlow := (hb.inside p (Finset.mem_union_left L hp)).1
  have hnext : h.ptr p ∈ F := Finset.mem_of_mem_insert_of_ne
    (hb.ring.next_mem (Finset.mem_insert_of_mem hp)) (by omega)
  have hapart := hb.apart p (Finset.mem_union_left L hp) _ (Finset.mem_union_left L hnext) hpx
  omega

/-- The block fits exactly and leaves the ring. -/
theorem unlink_good (hg : Good base first h F L) (hq : q ∈ insert base F) (hp : h.ptr q = p)
    (hpF : p ∈ F) :
    Good base first { h with ptr := Function.update h.ptr q (h.ptr p), freep := some q }
      (F.erase p) (insert p L) := by
  have hbelow := hg.below
  have hlow := (hg.inside p (Finset.mem_union_left L hpF)).1
  have hpbase : p ≠ base := by omega
  have hqp : q < p := by
    rcases hg.ring.follows q hq with ⟨-, hlt, -⟩ | ⟨heq, -⟩
    · rw [hp] at hlt
      exact hlt
    · exact absurd (hp.symm.trans heq) hpbase
  have hpL : p ∉ L := Finset.disjoint_left.mp hg.split hpF
  have hunion : F.erase p ∪ insert p L = F ∪ L := by
    rw [Finset.union_insert, ← Finset.insert_union, Finset.insert_erase hpF]
  have hqF : q ∈ insert base (F.erase p) := by
    rw [← Finset.erase_insert_of_ne hpbase.symm]
    exact Finset.mem_erase.mpr ⟨hqp.ne, hq⟩
  refine ⟨⟨?_, hg.empty, hg.below, fun x hx => ?_, fun x hx y hy => ?_, ?_, ?_⟩, fun x hx => ?_,
    ⟨q, hqF, rfl⟩⟩
  · have hring := hg.ring.erase hq hp hpbase
    rw [Finset.erase_insert_of_ne hpbase.symm] at hring
    exact hring
  · rw [hunion] at hx
    exact hg.inside x hx
  · rw [hunion] at hx hy
    exact hg.apart x hx y hy
  · rw [Finset.disjoint_insert_right]
    exact ⟨Finset.notMem_erase p F, hg.split.mono_left (Finset.erase_subset p F)⟩
  · have hunits := hg.units
    have hfree := Finset.add_sum_erase F h.size hpF
    rw [Finset.sum_insert hpL]
    simp only
    omega
  · obtain ⟨hxp, hxF⟩ := Finset.mem_erase.mp hx
    by_cases hxq : x = q
    · -- the unlinked block lies between `q` and the next
      rw [hxq] at hxF ⊢
      have hapart := hg.apart q (Finset.mem_union_left L hxF) p (Finset.mem_union_left L hpF) hqp
      have hqlow := hg.inside q (Finset.mem_union_left L hxF)
      have hpin := hg.inside p (Finset.mem_union_left L hpF)
      simp only [Function.update_self]
      rcases hg.ring.follows p (Finset.mem_insert_of_mem hpF) with ⟨-, hlt, -⟩ | ⟨heq, -⟩
      · omega
      · rw [heq]
        omega
    · simp only [Function.update_of_ne hxq]
      exact hg.gaps x hxF

theorem mem_with {b x : ℕ} (hx : x ∈ F ∪ insert b L) : x = b ∨ x ∈ F ∪ L := by
  rw [Finset.union_insert] at hx
  exact Finset.mem_insert.mp hx

/-- The sizes after the tail of `p` has become a block of `n` units. -/
def splitSize (h : Heap) (p n : ℕ) : ℕ → ℕ :=
  Function.update (Function.update h.size p (h.size p - n)) (p + (h.size p - n)) n

theorem splitSize_tail : splitSize h p n (p + (h.size p - n)) = n := Function.update_self _ _ _

theorem splitSize_front (hlarge : n < h.size p) : splitSize h p n p = h.size p - n := by
  have hne : p ≠ p + (h.size p - n) := by omega
  rw [splitSize, Function.update_of_ne hne, Function.update_self]

theorem splitSize_other {x : ℕ} (hp : x ≠ p) (htail : x ≠ p + (h.size p - n)) :
    splitSize h p n x = h.size x := by
  rw [splitSize, Function.update_of_ne htail, Function.update_of_ne hp]

/-- No header lies inside a block. -/
theorem tail_fresh (hb : Blocks base first h F L) (hpF : p ∈ F) (hn : 0 < n)
    (hlarge : n < h.size p) : ∀ x ∈ F ∪ L, x ≠ p + (h.size p - n) := by
  rintro x hx rfl
  have hapart := hb.apart p (Finset.mem_union_left L hpF) _ hx (by omega)
  omega

/-- The tail of a block is handed out. -/
theorem split_good (hg : Good base first h F L) (hq : q ∈ insert base F) (hpF : p ∈ F)
    (hn : 0 < n) (hlarge : n < h.size p) :
    Good base first { h with size := splitSize h p n, freep := some q } F
      (insert (p + (h.size p - n)) L) := by
  have hbelow := hg.below
  obtain ⟨hlow, hpos, hend⟩ := hg.inside p (Finset.mem_union_left L hpF)
  have hfresh := tail_fresh hg.toBlocks hpF hn hlarge
  have hfront := splitSize_front hlarge
  have htail : splitSize h p n (p + (h.size p - n)) = n := splitSize_tail
  have hother : ∀ x ∈ F ∪ L, x ≠ p → splitSize h p n x = h.size x := fun x hx hxp =>
    splitSize_other hxp (hfresh x hx)
  have hpL : p ∉ L := Finset.disjoint_left.mp hg.split hpF
  have hbL : p + (h.size p - n) ∉ L := fun hmem => hfresh _ (Finset.mem_union_right F hmem) rfl
  have hbF : p + (h.size p - n) ∉ F := fun hmem => hfresh _ (Finset.mem_union_left L hmem) rfl
  have hahead : ∀ x ∈ F ∪ L, x < p → x + h.size x ≤ p := fun x hx hlt =>
    hg.apart x hx p (Finset.mem_union_left L hpF) hlt
  have hbehind : ∀ x ∈ F ∪ L, p < x → p + h.size p ≤ x := fun x hx hlt =>
    hg.apart p (Finset.mem_union_left L hpF) x hx hlt
  refine ⟨⟨hg.ring, ?_, hg.below, fun x hx => ?_, fun x hx y hy hlt => ?_, ?_, ?_⟩,
    fun x hx => ?_, ⟨q, hq, rfl⟩⟩
  · exact (splitSize_other (by omega) (by omega)).trans hg.empty
  · rcases mem_with hx with rfl | hx
    · simp only [htail]
      omega
    · by_cases hxp : x = p
      · simp only [hxp, hfront]
        omega
      · simp only [hother x hx hxp]
        exact hg.inside x hx
  · rcases mem_with hx with rfl | hx
    · simp only [htail]
      rcases mem_with hy with rfl | hy
      · exact absurd hlt (lt_irrefl _)
      · have hafter := hbehind y hy (by omega)
        omega
    · rcases mem_with hy with rfl | hy
      · by_cases hxp : x = p
        · simp only [hxp, hfront, le_refl]
        · simp only [hother x hx hxp]
          rcases Nat.lt_or_gt_of_ne hxp with hbefore | hafter
          · have hup := hahead x hx hbefore
            omega
          · have hup := hbehind x hx hafter
            omega
      · by_cases hxp : x = p
        · rw [hxp] at hlt ⊢
          simp only [hfront]
          have hup := hbehind y hy hlt
          omega
        · simp only [hother x hx hxp]
          exact hg.apart x hx y hy hlt
  · rw [Finset.disjoint_insert_right]
    exact ⟨hbF, hg.split⟩
  · have hunits := hg.units
    have hfree := sum_change (g := splitSize h p n) hpF fun x hx hxp =>
      hother x (Finset.mem_union_left L hx) hxp
    rw [hfront] at hfree
    have hlive : ∑ x ∈ L, splitSize h p n x = ∑ x ∈ L, h.size x := by
      apply Finset.sum_congr rfl
      intro x hx
      apply hother x (Finset.mem_union_right F hx)
      rintro rfl
      exact hpL hx
    simp only
    rw [Finset.sum_insert hbL, htail, hlive]
    omega
  · by_cases hxp : x = p
    · simp only [hxp, hfront]
      exact next_outside hg.toBlocks hpF (by omega) (by omega)
    · simp only [hother x (Finset.mem_union_left L hx) hxp]
      exact hg.gaps x hx

theorem take_served (hg : Good base first h F L) (hq : q ∈ insert base F) (hp : h.ptr q = p)
    (hn : 0 < n) (hlarge : n ≤ h.size p) :
    ∃ b F', (take h n q p).2 = b + 1 ∧ Served base first h L n b (take h n q p).1 F' := by
  have hpF : p ∈ F := by
    refine Finset.mem_of_mem_insert_of_ne (hp ▸ hg.ring.next_mem hq) ?_
    rintro rfl
    rw [hg.empty] at hlarge
    omega
  by_cases hexact : h.size p = n
  · rw [take, if_pos hexact]
    exact ⟨p, F.erase p, rfl, unlink_good hg hq hp hpF, hexact, fun x _ => rfl⟩
  · have hless : n < h.size p := by omega
    rw [take, if_neg hexact]
    refine ⟨p + (h.size p - n), F, rfl, split_good hg hq hpF hn hless, splitSize_tail,
      fun x hx => splitSize_other ?_ (tail_fresh hg.toBlocks hpF hn hless x
        (Finset.mem_union_right F hx))⟩
    rintro rfl
    exact Finset.disjoint_left.mp hg.split hpF hx

/-! morecore(). -/

/-- What morecore() leaves when sbrk() succeeds. -/
structure Grown (base first : ℕ) (h : Heap) (F L : Finset ℕ) (n : ℕ) (h' : Heap) (F' : Finset ℕ)
    (f : ℕ) : Prop where
  good : Good base first h' F' L
  freep : h'.freep = some f
  mem : f ∈ insert base F'
  fits : ∃ z ∈ F', n ≤ h'.size z
  live : ∀ x ∈ L, h'.size x = h.size x
  card : (insert base F').card ≤ (insert base F).card + 1

/-- The new region is a live block until free() has it. -/
theorem region_good (hg : Good base first h F L) {nu : ℕ} (hnu : 0 < nu) :
    Good base first { h with brk := h.brk + nu, size := Function.update h.size h.brk nu } F
      (insert h.brk L) := by
  have hbelow := hg.below
  have hfirst := hg.first_le
  have hout : ∀ x ∈ F ∪ L, x ≠ h.brk := by
    rintro x hx rfl
    have hin := hg.inside _ hx
    omega
  have hold : ∀ x ∈ F ∪ L, Function.update h.size h.brk nu x = h.size x := fun x hx =>
    Function.update_of_ne (hout x hx) _ _
  have hbL : h.brk ∉ L := fun hmem => hout _ (Finset.mem_union_right F hmem) rfl
  have hbF : h.brk ∉ F := fun hmem => hout _ (Finset.mem_union_left L hmem) rfl
  obtain ⟨f, hf, hfreep⟩ := hg.freep
  refine ⟨⟨hg.ring, ?_, hg.below, fun x hx => ?_, fun x hx y hy hlt => ?_, ?_, ?_⟩,
    fun x hx => ?_, ⟨f, hf, hfreep⟩⟩
  · simp only
    rw [Function.update_of_ne (by omega)]
    exact hg.empty
  · simp only
    rcases mem_with hx with rfl | hx
    · rw [Function.update_self]
      omega
    · rw [hold x hx]
      have hin := hg.inside x hx
      omega
  · simp only
    rcases mem_with hx with rfl | hx
    · rcases mem_with hy with rfl | hy
      · exact absurd hlt (lt_irrefl _)
      · have hin := hg.inside y hy
        omega
    · rw [hold x hx]
      rcases mem_with hy with rfl | hy
      · exact (hg.inside x hx).2.2
      · exact hg.apart x hx y hy hlt
  · rw [Finset.disjoint_insert_right]
    exact ⟨hbF, hg.split⟩
  · have hunits := hg.units
    have hfree : ∑ x ∈ F, Function.update h.size h.brk nu x = ∑ x ∈ F, h.size x :=
      Finset.sum_congr rfl fun x hx => hold x (Finset.mem_union_left L hx)
    have hlive : ∑ x ∈ L, Function.update h.size h.brk nu x = ∑ x ∈ L, h.size x :=
      Finset.sum_congr rfl fun x hx => hold x (Finset.mem_union_right F hx)
    simp only
    rw [Finset.sum_insert hbL, Function.update_self, hfree, hlive]
    omega
  · simp only
    rw [hold x (Finset.mem_union_left L hx)]
    exact hg.gaps x hx

theorem morecore_grown (hg : Good base first h F L) :
    ∃ h' F' f, morecore h n true = some (h', some f) ∧ Grown base first h F L n h' F' f := by
  have hnu : 0 < (if n < 4096 then 4096 else n) := by
    split_ifs <;> omega
  have hle : n ≤ (if n < 4096 then 4096 else n) := by
    split_ifs <;> omega
  have hregion := region_good hg hnu
  obtain ⟨h', F', hfree, -, hfreed⟩ := free_freed hregion (Finset.mem_insert_self h.brk L)
  have hfirst := hg.first_le
  have hbL : h.brk ∉ L := by
    intro hmem
    have hin := hg.inside _ (Finset.mem_union_right F hmem)
    omega
  have herase : (insert h.brk L).erase h.brk = L := Finset.erase_insert hbL
  have hgood := hfreed.good
  rw [herase] at hgood
  obtain ⟨f, hf, hfreep⟩ := hgood.freep
  refine ⟨h', F', f, ?_, hgood, hfreep, hf, ?_, fun x hx => ?_, ?_⟩
  · simp only [morecore, if_true, hfree, Option.map_some, hfreep]
  · obtain ⟨z, hz, hfits⟩ := hfreed.fits
    simp only [Function.update_self] at hfits
    exact ⟨z, hz, hle.trans hfits⟩
  · have hsame := hfreed.live x (by rw [herase]; exact hx)
    rw [hsame]
    apply Function.update_of_ne
    rintro rfl
    exact hbL hx
  · have hsub : insert base F' ⊆ insert h.brk (insert base F) := by
      rw [Finset.insert_comm]
      exact Finset.insert_subset_insert base hfreed.sub
    exact (Finset.card_le_card hsub).trans (Finset.card_insert_le _ _)

theorem morecore_failed (h : Heap) (n : ℕ) : morecore h n false = some (h, none) := rfl

/-! The loop of malloc(). -/

section Round

variable {β : Type*} {s : ℕ → ℕ → ℕ → β} {found : ℕ → ℕ → β}

/-- Up to freep: a block is found, or none was large enough. -/
theorem round_path (hfound : ∀ k q p, n ≤ h.size p → s (k + 1) q p = found q p)
    (hnext : ∀ k q p, ¬ n ≤ h.size p → h.freep ≠ some p → s (k + 1) q p = s k p (h.ptr p))
    {k x y : ℕ} {r : List ℕ} (hfreep : h.freep = some y) (hpath : Path h.ptr x r y)
    (hout : y ∉ r) (hk : r.length < k) :
    (∃ q p, q ∈ x :: r ∧ h.ptr q = p ∧ n ≤ h.size p ∧ s k x (h.ptr x) = found q p) ∨
    ((∀ z ∈ r ++ [y], h.size z < n) ∧ ∃ q, s k x (h.ptr x) = s (k - r.length) q y) := by
  induction r generalizing x k with
  | nil =>
    obtain ⟨k, rfl⟩ : ∃ j, k = j + 1 := ⟨k - 1, by omega⟩
    have hend : h.ptr x = y := hpath
    by_cases hlarge : n ≤ h.size y
    · refine Or.inl ⟨x, y, List.mem_cons_self, hend, hlarge, ?_⟩
      rw [hend, hfound k x y hlarge]
    · refine Or.inr ⟨fun z hz => ?_, x, ?_⟩
      · rw [List.nil_append, List.mem_singleton] at hz
        rw [hz]
        omega
      · rw [hend, List.length_nil, Nat.sub_zero]
  | cons a r ih =>
    obtain ⟨k, rfl⟩ : ∃ j, k = j + 1 := ⟨k - 1, by omega⟩
    obtain ⟨hstart, hrest⟩ := hpath
    rw [List.mem_cons, not_or] at hout
    rw [List.length_cons] at hk
    by_cases hlarge : n ≤ h.size a
    · refine Or.inl ⟨x, a, List.mem_cons_self, hstart, hlarge, ?_⟩
      rw [hstart, hfound k x a hlarge]
    · have hstep : s (k + 1) x (h.ptr x) = s k a (h.ptr a) := by
        have hmore : h.freep ≠ some a := by
          rw [hfreep]
          exact fun heq => hout.1 (Option.some.inj heq)
        rw [hstart, hnext k x a hlarge hmore]
      rw [hstep]
      rcases ih hrest hout.2 (k := k) (by omega) with ⟨q, p, hq, hp, hfits, hfind⟩ | ⟨hall, q, hon⟩
      · exact Or.inl ⟨q, p, List.mem_cons_of_mem x hq, hp, hfits, hfind⟩
      · refine Or.inr ⟨fun z hz => ?_, q, ?_⟩
        · rcases List.mem_cons.mp hz with rfl | hz
          · omega
          · exact hall z hz
        · rw [hon, List.length_cons, Nat.succ_sub_succ]

/-- The loop from freep around the ring. -/
theorem round_ring (hfound : ∀ k q p, n ≤ h.size p → s (k + 1) q p = found q p)
    (hnext : ∀ k q p, ¬ n ≤ h.size p → h.freep ≠ some p → s (k + 1) q p = s k p (h.ptr p))
    (hg : Good base first h F L) (hfreep : h.freep = some f) (hf : f ∈ insert base F) {k : ℕ}
    (hk : (insert base F).card ≤ k) :
    (∃ q p, q ∈ insert base F ∧ h.ptr q = p ∧ n ≤ h.size p ∧ s k f (h.ptr f) = found q p) ∨
    ((∀ z ∈ insert base F, h.size z < n) ∧
      ∃ q j, k = j + (insert base F).card ∧ s k f (h.ptr f) = s (j + 1) q f) := by
  obtain ⟨r, hpath, hmem, hout, hlen⟩ := hg.round hf
  rcases round_path hfound hnext (k := k) hfreep hpath hout (by omega) with
    ⟨q, p, hq, hp, hlarge, hfind⟩ | ⟨hall, q, hon⟩
  · exact Or.inl ⟨q, p, (hmem q).mp hq, hp, hlarge, hfind⟩
  · refine Or.inr ⟨fun z hz => hall z ?_, q, k - (insert base F).card, by omega, ?_⟩
    · rcases List.mem_cons.mp ((hmem z).mpr hz) with rfl | hr
      · exact List.mem_append_right r List.mem_cons_self
      · exact List.mem_append_left [f] hr
    · rw [hon]
      congr 1
      omega

end Round

theorem search_found (grants : List Bool) (k q p : ℕ) (hlarge : n ≤ h.size p) :
    search n (k + 1) grants h q p = some ((take h n q p).1, some (take h n q p).2) := by
  rw [search, if_pos hlarge]

theorem search_next (grants : List Bool) (k q p : ℕ) (hsmall : ¬ n ≤ h.size p)
    (hmore : h.freep ≠ some p) :
    search n (k + 1) grants h q p = search n k grants h p (h.ptr p) := by
  rw [search, if_neg hsmall, if_neg hmore]

/-- With a large block in the ring the loop finds one before it is around. -/
theorem search_served (grants : List Bool) (hg : Good base first h F L)
    (hfreep : h.freep = some f) (hf : f ∈ insert base F) (hn : 0 < n)
    (hfits : ∃ z ∈ F, n ≤ h.size z) {k : ℕ} (hk : (insert base F).card ≤ k) :
    ∃ h' F' b, search n k grants h f (h.ptr f) = some (h', some (b + 1)) ∧
      Served base first h L n b h' F' := by
  rcases round_ring (s := fun k => search n k grants h) (search_found grants) (search_next grants)
    hg hfreep hf hk with ⟨q, p, hq, hp, hlarge, hfound⟩ | ⟨hall, -⟩
  · obtain ⟨b, F', hb, hserved⟩ := take_served hg hq hp hn hlarge
    rw [hb] at hfound
    exact ⟨_, F', b, hfound, hserved⟩
  · obtain ⟨z, hz, hlarge⟩ := hfits
    exact absurd (hall z (Finset.mem_insert_of_mem hz)) (not_lt.mpr hlarge)

/-- What a call of malloc() comes to: a block, or 0 with nothing changed. -/
inductive Outcome (base first : ℕ) (h : Heap) (F L : Finset ℕ) (n : ℕ) (granted : Bool) :
    Heap × Option ℕ → Prop
  | served (h' : Heap) (F' : Finset ℕ) (b : ℕ) (hs : Served base first h L n b h' F') :
    Outcome base first h F L n granted (h', some (b + 1))
  | refused (hno : granted = false) : Outcome base first h F L n granted (h, none)

theorem search_outcome (hg : Good base first h F L) (hfreep : h.freep = some f)
    (hf : f ∈ insert base F) (hn : 0 < n) (grants : List Bool) :
    ∃ r, search n (2 * h.rounds) grants h f (h.ptr f) = some r ∧
      Outcome base first h F L n (grants.headD false) r := by
  have hcard := hg.card_le
  have hrounds : 2 * h.rounds = 2 * h.brk + 2 := by
    rw [Heap.rounds]
    omega
  rcases round_ring (s := fun k => search n k grants h) (search_found grants) (search_next grants)
    hg hfreep hf (k := 2 * h.rounds) (by omega) with
    ⟨q, p, hq, hp, hlarge, hfound⟩ | ⟨hall, q, j, hj, hon⟩
  · obtain ⟨b, F', hb, hserved⟩ := take_served hg hq hp hn hlarge
    rw [hb] at hfound
    exact ⟨_, hfound, Outcome.served _ F' b hserved⟩
  · -- the loop is back at freep
    rw [hon, search, if_neg (not_le.mpr (hall f hf)), if_pos hfreep]
    cases hgrant : grants.headD false with
    | false =>
      simp only [morecore_failed]
      exact ⟨_, rfl, Outcome.refused rfl⟩
    | true =>
      obtain ⟨h₁, F₁, f₁, hmore, hgrown⟩ := morecore_grown (n := n) hg
      simp only [hmore]
      obtain ⟨h', F', b, hfound, hserved⟩ := search_served (k := j) grants.tail
        hgrown.good hgrown.freep hgrown.mem hn hgrown.fits (by have hle := hgrown.card; omega)
      refine ⟨_, hfound, Outcome.served h' F' b ⟨hserved.good, hserved.fits, fun x hx => ?_⟩⟩
      exact (hserved.live x hx).trans (hgrown.live x hx)

end MallocCalls
