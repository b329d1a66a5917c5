import OsEngineering.FiniteTally
import OsEngineering.Malloc
import OsEngineering.SortedRing

/-! The blocks of the allocator: the free ones form a ring in the order of their addresses, and
together with the live ones they tile what sbrk() has given. -/
namespace MallocBlocks

open FiniteTally SortedRing Malloc

/-- The ring has the free blocks `F`, the program the live ones `L`; `first` is where the first
region of sbrk() starts. -/
structure Blocks (base first : ℕ) (h : Heap) (F L : Finset ℕ) : Prop where
  ring : Ring (insert base F) base h.ptr
  empty : h.size base = 0
  below : base < first
  inside : ∀ a ∈ F ∪ L, first ≤ a ∧ 0 < h.size a ∧ a + h.size a ≤ h.brk
  apart : ∀ a ∈ F ∪ L, ∀ b ∈ F ∪ L, a < b → a + h.size a ≤ b
  split : Disjoint F L
  units : ∑ a ∈ F, h.size a + ∑ a ∈ L, h.size a + first = h.brk

/-- No free block touches the next. -/
structure Good (base first : ℕ) (h : Heap) (F L : Finset ℕ) : Prop
    extends Blocks base first h F L where
  gaps : ∀ a ∈ F, a + h.size a ≠ h.ptr a
  freep : ∃ f ∈ insert base F, h.freep = some f

variable {base first : ℕ} {h : Heap} {F L : Finset ℕ} {a b p q bp : ℕ}

theorem Blocks.base_not_free (hb : Blocks base first h F L) : base ∉ F := by
  intro hmem
  have hin := (hb.inside base (Finset.mem_union_left L hmem)).1
  have hbelow := hb.below
  omega

/-- Only the headers matter. -/
theorem Blocks.congr {h' : Heap} (hb : Blocks base first h F L)
    (hptr : ∀ x ∈ insert base F, h'.ptr x = h.ptr x)
    (hsize : ∀ x ∈ insert base (F ∪ L), h'.size x = h.size x) (hbrk : h'.brk = h.brk) :
    Blocks base first h' F L := by
  have hall : ∀ x ∈ F ∪ L, h'.size x = h.size x := fun x hx =>
    hsize x (Finset.mem_insert_of_mem hx)
  refine ⟨hb.ring.congr hptr, (hsize base (Finset.mem_insert_self _ _)).trans hb.empty, hb.below,
    fun x hx => ?_, fun x hx y hy hlt => ?_, hb.split, ?_⟩
  · rw [hall x hx, hbrk]
    exact hb.inside x hx
  · rw [hall x hx]
    exact hb.apart x hx y hy hlt
  · rw [hbrk, ← hb.units]
    congr 2
    · exact Finset.sum_congr rfl fun x hx => hall x (Finset.mem_union_left L hx)
    · exact Finset.sum_congr rfl fun x hx => hall x (Finset.mem_union_right F hx)

/-! link() is an insertion and two merges. -/

def insertAfter (h : Heap) (q bp : ℕ) : Heap :=
  { h with ptr := Function.update (Function.update h.ptr bp (h.ptr q)) q bp }

def merge (h : Heap) (a : ℕ) : Heap :=
  { h with
    size := Function.update h.size a (h.size a + h.size (h.ptr a))
    ptr := Function.update h.ptr a (h.ptr (h.ptr a)) }

def mergeIf (h : Heap) (a : ℕ) : Heap := if a + h.size a = h.ptr a then merge h a else h

theorem joinNext_merge (hlt : q < bp) (hpos : 0 < h.size bp) :
    mergeIf (insertAfter h q bp) bp =
      { joinNext h q bp with ptr := Function.update (joinNext h q bp).ptr q bp } := by
  have hne : bp ≠ q := by omega
  have hbp : (insertAfter h q bp).ptr bp = h.ptr q := by
    simp only [insertAfter, Function.update_of_ne hne, Function.update_self]
  have htest : (bp + (insertAfter h q bp).size bp = (insertAfter h q bp).ptr bp) ↔
      bp + h.size bp = h.ptr q := by
    rw [hbp]
    exact Iff.rfl
  by_cases hup : bp + h.size bp = h.ptr q
  · have hnext : (insertAfter h q bp).ptr (h.ptr q) = h.ptr (h.ptr q) := by
      have hq : h.ptr q ≠ q := by omega
      have hb : h.ptr q ≠ bp := by omega
      simp only [insertAfter, Function.update_of_ne hq, Function.update_of_ne hb]
    have hswap : Function.update (Function.update (Function.update h.ptr bp (h.ptr q)) q bp) bp
        (h.ptr (h.ptr q)) = Function.update (Function.update h.ptr bp (h.ptr (h.ptr q))) q bp := by
      rw [Function.update_comm hne, Function.update_idem, Function.update_comm hne.symm]
    rw [mergeIf, if_pos (htest.mpr hup), joinNext, if_pos hup, merge, hbp, hnext]
    simp only [insertAfter, hswap]
  · rw [mergeIf, if_neg fun h => hup (htest.mp h), joinNext, if_neg hup]
    rfl

theorem joinPrev_merge (h : Heap) (hne : bp ≠ q) :
    mergeIf { h with ptr := Function.update h.ptr q bp } q = joinPrev h q bp := by
  by_cases hdown : q + h.size q = bp
  · have htest : q + h.size q = Function.update h.ptr q bp q := by
      rw [Function.update_self]
      exact hdown
    rw [mergeIf, if_pos htest, joinPrev, if_pos hdown]
    simp only [merge, Function.update_self, Function.update_idem, Function.update_of_ne hne]
  · have htest : ¬ q + h.size q = Function.update h.ptr q bp q := by
      rw [Function.update_self]
      exact hdown
    rw [mergeIf, if_neg htest, joinPrev, if_neg hdown]

/-- link() is an insertion and two merges. -/
theorem link_merges (hlt : q < bp) (hpos : 0 < h.size bp) :
    link h q bp = { mergeIf (mergeIf (insertAfter h q bp) bp) q with freep := some q } := by
  have hne : bp ≠ q := by omega
  rw [joinNext_merge hlt hpos, joinPrev_merge _ hne, link]

/-! What an insertion and a merge do to the blocks. -/

theorem insert_blocks (hb : Blocks base first h F L) (hbp : bp ∈ L)
    (hq : Before (insert base F) q bp) :
    Blocks base first (insertAfter h q bp) (insert bp F) (L.erase bp) := by
  have hout : bp ∉ F := fun hF => Finset.disjoint_left.mp hb.split hF hbp
  have hin := (hb.inside bp (Finset.mem_union_right F hbp)).1
  have hbelow := hb.below
  have hnew : bp ∉ insert base F := by
    rw [Finset.mem_insert, not_or]
    exact ⟨by omega, hout⟩
  have hunion : insert bp F ∪ L.erase bp = F ∪ L := by
    rw [Finset.insert_union, ← Finset.union_insert, Finset.insert_erase hbp]
  refine ⟨?_, hb.empty, hb.below, fun x hx => ?_, fun x hx y hy => ?_, ?_, ?_⟩
  · rw [Finset.insert_comm]
    exact hb.ring.insert hq hnew
  · rw [hunion] at hx
    exact hb.inside x hx
  · rw [hunion] at hx hy
    exact hb.apart x hx y hy
  · rw [Finset.disjoint_insert_left]
    exact ⟨Finset.notMem_erase bp L, hb.split.mono_right (Finset.erase_subset bp L)⟩
  · have hunits := hb.units
    have hlive := Finset.add_sum_erase L h.size hbp
    simp only [insertAfter]
    rw [Finset.sum_insert hout]
    omega

theorem merge_blocks (hb : Blocks base first h F L) (ha : a ∈ F) (htouch : a + h.size a = h.ptr a) :
    h.ptr a ∈ F ∧ Blocks base first (merge h a) (F.erase (h.ptr a)) L := by
  obtain ⟨hlow, hpos, -⟩ := hb.inside a (Finset.mem_union_left L ha)
  have hbelow := hb.below
  have hnbase : h.ptr a ≠ base := by omega
  have hnself : h.ptr a ≠ a := by omega
  have hnext : h.ptr a ∈ F := Finset.mem_of_mem_insert_of_ne
    (hb.ring.next_mem (Finset.mem_insert_of_mem ha)) hnbase
  have hinnext := hb.inside _ (Finset.mem_union_left L hnext)
  have hself : (merge h a).size a = h.size a + h.size (h.ptr a) := Function.update_self _ _ _
  have hother : ∀ x, x ≠ a → (merge h a).size x = h.size x := fun x hx =>
    Function.update_of_ne hx _ _
  have hsub : ∀ x ∈ F.erase (h.ptr a) ∪ L, x ∈ F ∪ L ∧ x ≠ h.ptr a := by
    intro x hx
    rcases Finset.mem_union.mp hx with hx | hx
    · exact ⟨Finset.mem_union_left L (Finset.mem_of_mem_erase hx), Finset.ne_of_mem_erase hx⟩
    · refine ⟨Finset.mem_union_right F hx, ?_⟩
      rintro rfl
      exact Finset.disjoint_left.mp hb.split hnext hx
  refine ⟨hnext, ?_, ?_, hb.below, fun x hx => ?_, fun x hx y hy hlt => ?_, ?_, ?_⟩
  · have hring := hb.ring.erase (Finset.mem_insert_of_mem ha) rfl hnbase
    rw [Finset.erase_insert_of_ne hnbase.symm] at hring
    exact hring
  · rw [hother base (by omega)]
    exact hb.empty
  · obtain ⟨hxin, -⟩ := hsub x hx
    obtain ⟨hxlow, hxpos, hxend⟩ := hb.inside x hxin
    have hbrk : (merge h a).brk = h.brk := rfl
    by_cases hxa : x = a
    · rw [hxa, hself, hbrk]
      omega
    · rw [hother x hxa, hbrk]
      exact ⟨hxlow, hxpos, hxend⟩
  · obtain ⟨hxin, -⟩ := hsub x hx
    obtain ⟨hyin, hynext⟩ := hsub y hy
    by_cases hxa : x = a
    · -- what lies behind `a` lies behind the block that it takes in
      rw [hxa] at hlt ⊢
      have hafter := hb.apart a (Finset.mem_union_left L ha) y hyin hlt
      have hbehind := hb.apart _ (Finset.mem_union_left L hnext) y hyin (by omega)
      rw [hself]
      omega
    · rw [hother x hxa]
      exact hb.apart x hxin y hyin hlt
  · exact hb.split.mono_left (Finset.erase_subset _ F)
  · have haerase : a ∈ F.erase (h.ptr a) := Finset.mem_erase.mpr ⟨hnself.symm, ha⟩
    have hfree := sum_change (g := (merge h a).size) haerase fun x _ hx => hother x hx
    have hold := Finset.add_sum_erase F h.size hnext
    have hlive : ∑ x ∈ L, (merge h a).size x = ∑ x ∈ L, h.size x := by
      apply Finset.sum_congr rfl
      intro x hx
      apply hother
      rintro rfl
      exact Finset.disjoint_left.mp hb.split ha hx
    have hunits := hb.units
    have hbrk : (merge h a).brk = h.brk := rfl
    rw [hlive, hbrk]
    rw [hself] at hfree
    omega

/-- What mergeIf leaves: blocks with a gap behind `a`, and nothing lost. -/
structure Merged (base first : ℕ) (h : Heap) (F L : Finset ℕ) (a : ℕ) (F' : Finset ℕ) : Prop where
  blocks : Blocks base first (mergeIf h a) F' L
  mem : a ∈ F'
  gap : a + (mergeIf h a).size a ≠ (mergeIf h a).ptr a
  sub : F' ⊆ F
  keep : ∀ x ∈ F, x ≠ a →
    (x + (mergeIf h a).size x ≠ (mergeIf h a).ptr x ↔ x + h.size x ≠ h.ptr x)
  stay : ∀ x ∈ F, a + h.size a ≠ x → x ∈ F'
  fits : ∀ x ∈ F, ∃ z ∈ F', h.size x ≤ (mergeIf h a).size z
  live : ∀ x, x ≠ a → (mergeIf h a).size x = h.size x
  next : ∀ x, x ≠ a → (mergeIf h a).ptr x = h.ptr x

theorem mergeIf_merged (hb : Blocks base first h F L) (ha : a ∈ F)
    (hnext : a + h.size a = h.ptr a → h.ptr a + h.size (h.ptr a) ≠ h.ptr (h.ptr a)) :
    ∃ F', Merged base first h F L a F' := by
  by_cases htouch : a + h.size a = h.ptr a
  · obtain ⟨hmem, hblocks⟩ := merge_blocks hb ha htouch
    have hpos := (hb.inside a (Finset.mem_union_left L ha)).2.1
    have hself : (merge h a).size a = h.size a + h.size (h.ptr a) := Function.update_self _ _ _
    have hptr : (merge h a).ptr a = h.ptr (h.ptr a) := Function.update_self _ _ _
    have hsize : ∀ x, x ≠ a → (merge h a).size x = h.size x := fun x hx =>
      Function.update_of_ne hx _ _
    have hother : ∀ x, x ≠ a → (merge h a).ptr x = h.ptr x := fun x hx =>
      Function.update_of_ne hx _ _
    have haF : a ∈ F.erase (h.ptr a) := Finset.mem_erase.mpr ⟨by omega, ha⟩
    have heq : mergeIf h a = merge h a := if_pos htouch
    refine ⟨F.erase (h.ptr a), ?_⟩
    constructor
    · rw [heq]
      exact hblocks
    · exact haF
    · rw [heq, hself, hptr, ← Nat.add_assoc, htouch]
      exact hnext htouch
    · exact Finset.erase_subset _ F
    · intro x _ hx
      rw [heq, hsize x hx, hother x hx]
    · intro x hx hne
      exact Finset.mem_erase.mpr ⟨fun h => hne (htouch.trans h.symm), hx⟩
    · intro x hx
      rw [heq]
      by_cases hxa : x = a
      · exact ⟨a, haF, by rw [hself, hxa]; omega⟩
      · by_cases hxn : x = h.ptr a
        · exact ⟨a, haF, by rw [hself, hxn]; omega⟩
        · exact ⟨x, Finset.mem_erase.mpr ⟨hxn, hx⟩, by rw [hsize x hxa]⟩
    · rw [heq]
      exact hsize
    · rw [heq]
      exact hother
  · have heq : mergeIf h a = h := if_neg htouch
    refine ⟨F, ?_⟩
    constructor
    · rw [heq]
      exact hb
    · exact ha
    · rw [heq]
      exact htouch
    · exact Finset.Subset.refl F
    · intro x _ _
      rw [heq]
    · exact fun x hx _ => hx
    · intro x hx
      rw [heq]
      exact ⟨x, hx, le_rfl⟩
    · intro x _
      rw [heq]
    · intro x _
      rw [heq]

/-- What free() makes of the blocks once it has found the place of `bp`. -/
structure Freed (base first : ℕ) (h : Heap) (F L : Finset ℕ) (bp : ℕ) (h' : Heap)
    (F' : Finset ℕ) : Prop where
  good : Good base first h' F' (L.erase bp)
  sub : F' ⊆ insert bp F
  fits : ∃ z ∈ F', h.size bp ≤ h'.size z
  live : ∀ x ∈ L.erase bp, h'.size x = h.size x

theorem link_freed (hg : Good base first h F L) (hbp : bp ∈ L)
    (hq : Before (insert base F) q bp) : ∃ F', Freed base first h F L bp (link h q bp) F' := by
  have hqmem := hq.1
  have hlt := hq.2.1
  have hbelow := hg.below
  obtain ⟨hlow, hpos, -⟩ := hg.inside bp (Finset.mem_union_right F hbp)
  have hout : bp ∉ F := fun hF => Finset.disjoint_left.mp hg.split hF hbp
  rw [link_merges hlt hpos]
  have hblocks := insert_blocks hg.toBlocks hbp hq
  have hsize : (insertAfter h q bp).size = h.size := rfl
  have hptr : ∀ x, x ≠ q → x ≠ bp → (insertAfter h q bp).ptr x = h.ptr x := by
    intro x hxq hxb
    simp only [insertAfter, Function.update_of_ne hxq, Function.update_of_ne hxb]
  have hqptr : (insertAfter h q bp).ptr q = bp := Function.update_self _ _ _
  -- the block joins the one behind it
  obtain ⟨F₂, hm⟩ := mergeIf_merged hblocks (Finset.mem_insert_self bp F) (by
    intro htouch
    have hnb : (insertAfter h q bp).ptr bp ≠ bp := by
      rw [hsize] at htouch
      omega
    have hnq : (insertAfter h q bp).ptr bp ≠ q := by
      rw [hsize] at htouch
      omega
    have hnext := (merge_blocks hblocks (Finset.mem_insert_self bp F) htouch).1
    rw [hptr _ hnq hnb, hsize]
    exact hg.gaps _ (Finset.mem_of_mem_insert_of_ne hnext hnb))
  have hgaps : ∀ x ∈ F₂, x ≠ q → x + (mergeIf (insertAfter h q bp) bp).size x ≠
      (mergeIf (insertAfter h q bp) bp).ptr x := by
    intro x hx hxq
    by_cases hxb : x = bp
    · rw [hxb]
      exact hm.gap
    · rw [hm.keep x (hm.sub hx) hxb, hsize, hptr x hxq hxb]
      exact hg.gaps x (Finset.mem_of_mem_insert_of_ne (hm.sub hx) hxb)
  have hqb : q ≠ bp := by omega
  have hnextq : (mergeIf (insertAfter h q bp) bp).ptr q = bp := by
    rw [hm.next q hqb, hqptr]
  obtain ⟨z, hz, hfits⟩ := hm.fits bp (Finset.mem_insert_self bp F)
  have hlive₂ : ∀ x ∈ L.erase bp, (mergeIf (insertAfter h q bp) bp).size x = h.size x :=
    fun x hx => hm.live x (Finset.ne_of_mem_erase hx)
  by_cases hqbase : q = base
  · -- the static header never touches a block
    have hno : mergeIf (mergeIf (insertAfter h q bp) bp) q = mergeIf (insertAfter h q bp) bp := by
      apply if_neg
      have hempty := hm.blocks.empty
      rw [← hqbase] at hempty
      rw [hnextq, hempty]
      omega
    rw [hno]
    refine ⟨F₂, ⟨⟨hm.blocks.congr (fun _ _ => rfl) (fun _ _ => rfl) rfl, fun x hx => ?_, ?_⟩,
      hm.sub, ⟨z, hz, hfits⟩, hlive₂⟩⟩
    · refine hgaps x hx ?_
      rw [hqbase]
      rintro rfl
      exact hm.blocks.base_not_free hx
    · exact ⟨q, by rw [hqbase]; exact Finset.mem_insert_self _ _, rfl⟩
  · -- so does the one before it
    have hqF : q ∈ F := Finset.mem_of_mem_insert_of_ne hqmem hqbase
    have hqF₂ : q ∈ F₂ := hm.stay q (Finset.mem_insert_of_mem hqF) (by rw [hsize]; omega)
    obtain ⟨F₃, hm'⟩ := mergeIf_merged hm.blocks hqF₂ (by
      intro _
      rw [hnextq]
      exact hm.gap)
    obtain ⟨y, hy, hfits'⟩ := hm'.fits z hz
    refine ⟨F₃, ⟨⟨hm'.blocks.congr (fun _ _ => rfl) (fun _ _ => rfl) rfl, fun x hx => ?_, ?_⟩,
      hm'.sub.trans hm.sub, ⟨y, hy, hfits.trans hfits'⟩, fun x hx => ?_⟩⟩
    · by_cases hxq : x = q
      · rw [hxq]
        exact hm'.gap
      · have hx₂ := hm'.sub hx
        exact (hm'.keep x hx₂ hxq).mpr (hgaps x hx₂ hxq)
    · exact ⟨q, Finset.mem_insert_of_mem hm'.mem, rfl⟩
    · have hxq : x ≠ q := by
        rintro rfl
        exact Finset.disjoint_left.mp hg.split hqF (Finset.mem_of_mem_erase hx)
      exact (hm'.live x hxq).trans (hlive₂ x hx)

/-! The loop of free(). -/

/-- Once around the ring. -/
theorem Blocks.round {f : ℕ} (hb : Blocks base first h F L) (hf : f ∈ insert base F) :
    ∃ r, Path h.ptr f r f ∧ (∀ z, z ∈ f :: r ↔ z ∈ insert base F) ∧ f ∉ r ∧
      r.length + 1 = (insert base F).card := by
  obtain ⟨l, m, hsorted, hall, hpath⟩ := hb.ring.visits hf
  have hnodup : (l ++ f :: m).Nodup := hsorted.imp fun hlt => hlt.ne
  have hperm : (l ++ f :: m).Perm (f :: (m ++ l)) := List.perm_append_comm
  have hround : (f :: (m ++ l)).Nodup := hperm.nodup_iff.mp hnodup
  have hmem : ∀ z, z ∈ f :: (m ++ l) ↔ z ∈ insert base F := fun z =>
    hperm.mem_iff.symm.trans (hall z)
  refine ⟨m ++ l, hpath, hmem, (List.nodup_cons.mp hround).1, ?_⟩
  have hset : (f :: (m ++ l)).toFinset = insert base F := by
    ext z
    rw [List.mem_toFinset, hmem]
  rw [← hset, List.toFinset_card_of_nodup hround, List.length_cons]

theorem Blocks.first_le (hb : Blocks base first h F L) : first ≤ h.brk := by
  have hunits := hb.units
  omega

theorem Blocks.card_le (hb : Blocks base first h F L) : (insert base F).card ≤ h.brk := by
  have hfirst := hb.first_le
  have hbelow := hb.below
  have hsub : insert base F ⊆ Finset.range h.brk := by
    intro x hx
    rw [Finset.mem_range]
    rcases Finset.mem_insert.mp hx with rfl | hx
    · omega
    · have hin := hb.inside x (Finset.mem_union_left L hx)
      omega
  calc (insert base F).card ≤ (Finset.range h.brk).card := Finset.card_le_card hsub
    _ = h.brk := Finset.card_range h.brk

theorem findFrom_step (h : Heap) (bp k p : ℕ) :
    findFrom h bp (k + 1) p =
      if p < bp ∧ bp < h.ptr p ∨ h.ptr p ≤ p ∧ (p < bp ∨ bp < h.ptr p) then some p
      else findFrom h bp k (h.ptr p) := by
  by_cases hbetween : p < bp ∧ bp < h.ptr p
  · rw [findFrom, if_pos hbetween, if_pos (Or.inl hbetween)]
  · by_cases hwrap : h.ptr p ≤ p ∧ (p < bp ∨ bp < h.ptr p)
    · rw [findFrom, if_neg hbetween, if_pos hwrap, if_pos (Or.inr hwrap)]
    · rw [findFrom, if_neg hbetween, if_neg hwrap, if_neg (not_or.mpr ⟨hbetween, hwrap⟩)]

theorem findFrom_path {x y k : ℕ} {r : List ℕ} (hpath : Path h.ptr x r y) (hq : q ∈ x :: r)
    (hstop : ∀ z ∈ x :: r,
      (z < bp ∧ bp < h.ptr z ∨ h.ptr z ≤ z ∧ (z < bp ∨ bp < h.ptr z)) ↔ z = q)
    (hk : r.length < k) : findFrom h bp k x = some q := by
  obtain ⟨k, rfl⟩ : ∃ j, k = j + 1 := ⟨k - 1, by omega⟩
  rw [findFrom_step]
  by_cases hx : x = q
  · rw [if_pos ((hstop x List.mem_cons_self).mpr hx), hx]
  · rw [if_neg fun h => hx ((hstop x List.mem_cons_self).mp h)]
    induction r generalizing x k with
    | nil => exact absurd (List.mem_singleton.mp hq).symm hx
    | cons a r ih =>
      obtain ⟨hnext, hrest⟩ := hpath
      have hqr : q ∈ a :: r := (List.mem_cons.mp hq).resolve_left (Ne.symm hx)
      have hstop' : ∀ z ∈ a :: r,
          (z < bp ∧ bp < h.ptr z ∨ h.ptr z ≤ z ∧ (z < bp ∨ bp < h.ptr z)) ↔ z = q :=
        fun z hz => hstop z (List.mem_cons_of_mem x hz)
      rw [List.length_cons] at hk
      obtain ⟨k, rfl⟩ : ∃ j, k = j + 1 := ⟨k - 1, by omega⟩
      rw [hnext, findFrom_step]
      by_cases ha : a = q
      · rw [if_pos ((hstop' a List.mem_cons_self).mpr ha), ha]
      · rw [if_neg fun h => ha ((hstop' a List.mem_cons_self).mp h)]
        exact ih hrest hqr hstop' k (by omega) ha

theorem link_brk (h : Heap) (p bp : ℕ) : (link h p bp).brk = h.brk := by
  simp only [link, joinPrev, joinNext, apply_ite Heap.brk, ite_self]

/-- free() of a live block comes back, with the block among the free ones. -/
theorem free_freed (hg : Good base first h F L) (hbp : bp ∈ L) :
    ∃ h' F', free h (bp + 1) = some h' ∧ h'.brk = h.brk ∧ Freed base first h F L bp h' F' := by
  have hbelow := hg.below
  have hin := (hg.inside bp (Finset.mem_union_right F hbp)).1
  have hbase : base < bp := by omega
  have hout : bp ∉ insert base F := by
    rw [Finset.mem_insert, not_or]
    exact ⟨by omega, fun hF => Finset.disjoint_left.mp hg.split hF hbp⟩
  obtain ⟨f, hf, hfreep⟩ := hg.freep
  obtain ⟨q, hq⟩ := hg.ring.exists_before hbase
  obtain ⟨r, hpath, hmem, -, hlen⟩ := hg.round hf
  have hcard := hg.card_le
  have hfind : findFrom h bp h.rounds f = some q := by
    apply findFrom_path hpath ((hmem q).mpr hq.1)
    · intro z hz
      rw [hg.ring.stops_iff hbase hout ((hmem z).mp hz)]
      constructor
      · intro hz
        exact hz.unique hq
      · rintro rfl
        exact hq
    · rw [Heap.rounds]
      omega
  obtain ⟨F', hfreed⟩ := link_freed hg hbp hq
  refine ⟨link h q bp, F', ?_, link_brk h q bp, hfreed⟩
  have hsub : bp + 1 - 1 = bp := Nat.add_sub_cancel bp 1
  simp only [free, hfreep, hsub, hfind, Option.map_some]

end MallocBlocks
