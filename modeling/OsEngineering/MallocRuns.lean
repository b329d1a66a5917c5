import OsEngineering.MallocCalls
import Mathlib.Order.Interval.Finset.Nat

/-! The allocator over every sequence of calls: the blocks stay disjoint, none is lost, and every
call comes back. -/
namespace MallocRuns

open ByteBlock TransitionSystem SortedRing Malloc MallocBlocks MallocCalls

variable {base first : ℕ} {s t : State} {F : Finset ℕ} {n : Word}

theorem nunits_toNat (hsmall : NoOverflow n) : nunits n = (n.toNat + 7) / 8 + 1 := by
  have hlow := hsmall.1
  have hsum : (n + 8 - 1).toNat = n.toNat + 7 := by
    bv_omega
  have hdiv : ((n + 8 - 1) / 8).toNat = (n.toNat + 7) / 8 := by
    rw [BitVec.toNat_udiv, hsum]
    rfl
  rw [nunits, BitVec.toNat_add, hdiv]
  apply Nat.mod_eq_of_lt
  have hone : (1 : Word).toNat = 1 := rfl
  omega

/-- Before the first call, or with a ring. -/
def Heaped (base first : ℕ) (h : Heap) (F L : Finset ℕ) : Prop :=
  (h.freep = none ∧ F = ∅ ∧ L = ∅ ∧ h.brk = first ∧ base < first) ∨ Good base first h F L

structure Kept (base first : ℕ) (s : State) (F : Finset ℕ) : Prop where
  returns : s.stuck = false
  heap : Heaped base first s.heap F s.live
  holds : ∀ a ∈ s.live, s.asked a ≤ (s.heap.size a - 1) * 8

theorem start_good (h : Heap) (hbelow : base < h.brk) :
    Good base h.brk (start base h) ∅ ∅ := by
  have hptr : (start base h).ptr base = base := Function.update_self _ _ _
  refine ⟨⟨⟨Finset.mem_insert_self base ∅, fun x hx => ?_, fun x hx => ?_⟩,
    Function.update_self _ _ _, hbelow, fun a ha => ?_, fun a ha => ?_, ?_, ?_⟩, fun a ha => ?_,
    ⟨base, Finset.mem_insert_self base ∅, rfl⟩⟩
  · rw [insert_empty_eq, Finset.mem_singleton] at hx
    exact hx.ge
  · rw [insert_empty_eq, Finset.mem_singleton] at hx
    refine Or.inr ⟨hx ▸ hptr, fun z hz => ?_⟩
    rw [insert_empty_eq, Finset.mem_singleton] at hz
    rw [hz, hx]
  · exact absurd ha (Finset.notMem_empty a)
  · exact absurd ha (Finset.notMem_empty a)
  · exact Finset.disjoint_empty_left ∅
  · simp only [Finset.sum_empty, Nat.zero_add]
    rfl
  · exact absurd ha (Finset.notMem_empty a)

/-- malloc() comes back, and with a block when sbrk() has one. -/
theorem malloc_outcome {h : Heap} {L : Finset ℕ} (hh : Heaped base first h F L)
    (hsmall : NoOverflow n) (grants : List Bool) :
    ∃ h₀ r, malloc base h n grants = some r ∧ Good base first h₀ F L ∧
      (∀ x ∈ L, h₀.size x = h.size x) ∧
      Outcome base first h₀ F L (nunits n) (grants.headD false) r := by
  have hn : 0 < nunits n := by
    rw [nunits_toNat hsmall]
    omega
  rcases hh with ⟨hfreep, rfl, rfl, rfl, hbelow⟩ | hg
  · have hg := start_good h hbelow
    obtain ⟨r, hr, hout⟩ := search_outcome (f := base) hg rfl (Finset.mem_insert_self base ∅) hn
      grants
    refine ⟨start base h, r, ?_, hg, fun x hx => absurd hx (Finset.notMem_empty x), hout⟩
    rw [malloc, hfreep]
    exact hr
  · obtain ⟨f, hf, hfreep⟩ := hg.freep
    obtain ⟨r, hr, hout⟩ := search_outcome (f := f) hg hfreep hf hn grants
    refine ⟨h, r, ?_, hg, fun x _ => rfl, hout⟩
    rw [malloc, hfreep]
    exact hr

theorem malloc_kept {grants : List Bool} (hk : Kept base first s F) (hsmall : NoOverflow n) :
    ∃ F', Kept base first (next base s (.malloc n grants)) F' := by
  obtain ⟨h₀, r, hr, hg, hsame, hout⟩ := malloc_outcome hk.heap hsmall grants
  cases hout with
  | served h' F' b hs =>
    refine ⟨F', ?_⟩
    rw [next, hr]
    refine ⟨hk.returns, Or.inr ?_, fun a ha => ?_⟩
    · exact hs.good
    · simp only [Nat.add_sub_cancel] at ha ⊢
      by_cases hab : a = b
      · rw [hab, Function.update_self, hs.fits, nunits_toNat hsmall]
        omega
      · have haL : a ∈ s.live := Finset.mem_of_mem_insert_of_ne ha hab
        rw [Function.update_of_ne hab, hs.live a haL, hsame a haL]
        exact hk.holds a haL
  | refused hno =>
    refine ⟨F, ?_⟩
    rw [next, hr]
    refine ⟨hk.returns, Or.inr hg, fun a ha => ?_⟩
    simp only
    rw [hsame a ha]
    exact hk.holds a ha

theorem free_kept {a : ℕ} (hk : Kept base first s F) (ha : a ∈ s.live) :
    ∃ F', Kept base first (next base s (.free (a + 1))) F' := by
  rcases hk.heap with ⟨-, -, hnone, -, -⟩ | hg
  · rw [hnone] at ha
    exact absurd ha (Finset.notMem_empty a)
  · obtain ⟨h', F', hfree, -, hfreed⟩ := free_freed hg ha
    refine ⟨F', ?_⟩
    rw [next, hfree]
    refine ⟨hk.returns, Or.inr hfreed.good, fun x hx => ?_⟩
    simp only [Nat.add_sub_cancel] at hx ⊢
    rw [hfreed.live x hx]
    exact hk.holds x (Finset.mem_of_mem_erase hx)

theorem not_payload (hg : Good base first s.heap F s.live) {x : ℕ}
    (hx : x ∈ insert base (F ∪ s.live)) : ¬ Payload s x := by
  rintro ⟨b, hb, hbx, hxb⟩
  have hbin := hg.inside b (Finset.mem_union_right F hb)
  have hbelow := hg.below
  rcases Finset.mem_insert.mp hx with rfl | hx
  · omega
  · have hapart := hg.apart b (Finset.mem_union_right F hb) x hx hbx
    omega

theorem store_kept {ptr size : ℕ → ℕ} (hk : Kept base first s F)
    (hpay : ∀ a, ¬ Payload s a → ptr a = s.heap.ptr a ∧ size a = s.heap.size a) :
    Kept base first (next base s (.store ptr size)) F := by
  rcases hk.heap with ⟨hfreep, hF, hlive, hbrk, hbelow⟩ | hg
  · refine ⟨hk.returns, Or.inl ⟨hfreep, hF, hlive, hbrk, hbelow⟩, fun a ha => ?_⟩
    rw [next, hlive] at ha
    exact absurd ha (Finset.notMem_empty a)
  · have hhead : ∀ x ∈ insert base (F ∪ s.live),
        ptr x = s.heap.ptr x ∧ size x = s.heap.size x := fun x hx => hpay x (not_payload hg hx)
    have hring : ∀ x ∈ insert base F, x ∈ insert base (F ∪ s.live) := fun x hx =>
      Finset.insert_subset_insert base Finset.subset_union_left hx
    refine ⟨hk.returns, Or.inr ⟨hg.toBlocks.congr (fun x hx => (hhead x (hring x hx)).1)
      (fun x hx => (hhead x hx).2) rfl, fun a ha => ?_, hg.freep⟩, fun a ha => ?_⟩
    · obtain ⟨hp, hs⟩ := hhead a (hring a (Finset.mem_insert_of_mem ha))
      simp only [next]
      rw [hp, hs]
      exact hg.gaps a ha
    · have hs := (hhead a (Finset.mem_insert_of_mem (Finset.mem_union_right F ha))).2
      simp only [next]
      rw [hs]
      exact hk.holds a ha

theorem next_kept {e : Event} (hk : Kept base first s F) (he : Enabled s e) :
    ∃ F', Kept base first (next base s e) F' := by
  obtain ⟨-, he⟩ := he
  cases e with
  | malloc n grants => exact malloc_kept hk he
  | free ap =>
    obtain ⟨a, ha, rfl⟩ := he
    exact free_kept hk ha
  | store ptr size => exact ⟨F, store_kept hk he⟩

theorem run_kept {s₀ : State} {es : List Event} (h₀ : Init base s₀)
    (hrun : Run (machine base).Step (· = s₀) es s) : ∃ F, Kept base s₀.heap.brk s F := by
  refine hrun.invariant (I := fun s => ∃ F, Kept base s₀.heap.brk s F) ?_ ?_
  · rintro s rfl
    obtain ⟨hfreep, hbelow, hlive, hstuck⟩ := h₀
    refine ⟨∅, hstuck, Or.inl ⟨hfreep, rfl, hlive, rfl, hbelow⟩, fun a ha => ?_⟩
    rw [hlive] at ha
    exact absurd ha (Finset.notMem_empty a)
  · rintro s e t ⟨F, hk⟩ ⟨he, rfl⟩
    exact next_kept hk he

/-- The units of a block, its header first. -/
def units (h : Heap) (a : ℕ) : Finset ℕ := Finset.Ico a (a + h.size a)

/-- What a program may rely on, with the free blocks `F`; sbrk() has given out the units from
`first` to the break. -/
structure Sound (base first : ℕ) (s : State) (F : Finset ℕ) : Prop where
  returns : s.stuck = false
  live_apart : ∀ a ∈ s.live, ∀ b ∈ s.live, a ≠ b → Disjoint (units s.heap a) (units s.heap b)
  free_apart : ∀ a ∈ s.live, ∀ b ∈ F, Disjoint (units s.heap a) (units s.heap b)
  inside : ∀ a ∈ s.live, units s.heap a ⊆ Finset.Ico first s.heap.brk
  holds : ∀ a ∈ s.live, 0 < s.heap.size a ∧ s.asked a ≤ (s.heap.size a - 1) * 8
  ring : (s.heap.freep = none ∧ F = ∅) ∨ ∃ f l m, s.heap.freep = some f ∧
    (l ++ f :: m).Pairwise (· < ·) ∧ (∀ z, z ∈ l ++ f :: m ↔ z ∈ insert base F) ∧
    Path s.heap.ptr f (m ++ l) f
  gaps : ∀ a ∈ F, ∀ b ∈ F, a + s.heap.size a ≠ b
  tally : ∑ a ∈ s.live, s.heap.size a + ∑ a ∈ F, s.heap.size a = s.heap.brk - first
  finds : ∀ n grants, NoOverflow n → ∃ h ap, malloc base s.heap n grants = some (h, ap) ∧
    (grants.headD false = true → ap ≠ none)

theorem units_disjoint {h : Heap} {L : Finset ℕ} (hb : Blocks base first h F L) {a b : ℕ}
    (ha : a ∈ F ∪ L) (hab : b ∈ F ∪ L) (hne : a ≠ b) : Disjoint (units h a) (units h b) := by
  rw [Finset.disjoint_left]
  intro x hxa hxb
  obtain ⟨hax, hxa⟩ := Finset.mem_Ico.mp hxa
  obtain ⟨hbx, hxb⟩ := Finset.mem_Ico.mp hxb
  rcases Nat.lt_or_gt_of_ne hne with hlt | hlt
  · have hapart := hb.apart a ha b hab hlt
    omega
  · have hapart := hb.apart b hab a ha hlt
    omega

/-- No free block touches another, not only the next. -/
theorem no_touch {h : Heap} {L : Finset ℕ} (hg : Good base first h F L) {a b : ℕ} (ha : a ∈ F)
    (hb : b ∈ F) : a + h.size a ≠ b := by
  intro htouch
  have hbelow := hg.below
  obtain ⟨hlow, hpos, -⟩ := hg.inside a (Finset.mem_union_left L ha)
  have hnext := hg.ring.follows a (Finset.mem_insert_of_mem ha)
  rcases hnext with ⟨hmem, hlt, hleast⟩ | ⟨-, hlast⟩
  · have hle := hleast b (Finset.mem_insert_of_mem hb) (by omega)
    have hnF : h.ptr a ∈ F := Finset.mem_of_mem_insert_of_ne hmem (by omega)
    have hapart := hg.apart a (Finset.mem_union_left L ha) _ (Finset.mem_union_left L hnF) hlt
    exact hg.gaps a ha (by omega)
  · have hle := hlast b (Finset.mem_insert_of_mem hb)
    omega

theorem Kept.sound (hk : Kept base first s F) : Sound base first s F := by
  have hfinds : ∀ n grants, NoOverflow n → ∃ h ap, malloc base s.heap n grants = some (h, ap) ∧
      (grants.headD false = true → ap ≠ none) := by
    intro n grants hsmall
    obtain ⟨h₀, r, hr, -, -, hout⟩ := malloc_outcome hk.heap hsmall grants
    cases hout with
    | served h' F' b hs => exact ⟨h', some (b + 1), hr, fun _ => Option.some_ne_none _⟩
    | refused hno => exact ⟨h₀, none, hr, fun hyes => absurd (hno.symm.trans hyes) Bool.false_ne_true⟩
  rcases hk.heap with ⟨hfreep, rfl, hlive, hbrk, -⟩ | hg
  · have hno : ∀ a, a ∉ s.live := fun a => hlive ▸ Finset.notMem_empty a
    constructor
    · exact hk.returns
    · exact fun a ha => absurd ha (hno a)
    · exact fun a ha => absurd ha (hno a)
    · exact fun a ha => absurd ha (hno a)
    · exact fun a ha => absurd ha (hno a)
    · exact Or.inl ⟨hfreep, rfl⟩
    · exact fun a ha => absurd ha (Finset.notMem_empty a)
    · rw [hlive, hbrk, Nat.sub_self, Finset.sum_empty, Nat.zero_add]
    · exact hfinds
  · constructor
    · exact hk.returns
    · exact fun a ha b hb => units_disjoint hg.toBlocks (Finset.mem_union_right F ha)
        (Finset.mem_union_right F hb)
    · intro a ha b hb
      refine units_disjoint hg.toBlocks (Finset.mem_union_right F ha)
        (Finset.mem_union_left s.live hb) ?_
      rintro rfl
      exact Finset.disjoint_left.mp hg.split hb ha
    · intro a ha
      obtain ⟨hlow, -, hend⟩ := hg.inside a (Finset.mem_union_right F ha)
      exact Finset.Ico_subset_Ico hlow hend
    · exact fun a ha => ⟨(hg.inside a (Finset.mem_union_right F ha)).2.1, hk.holds a ha⟩
    · obtain ⟨f, hf, hfreep⟩ := hg.freep
      obtain ⟨l, m, hsorted, hall, hpath⟩ := hg.ring.visits hf
      exact Or.inr ⟨f, l, m, hfreep, hsorted, hall, hpath⟩
    · exact fun a ha b hb => no_touch hg ha hb
    · have hunits := hg.units
      omega
    · exact hfinds

/-- Over every sequence of calls, with any writes of the program into its blocks between them. -/
theorem malloc_sound {s₀ : State} {es : List Event} (h₀ : Init base s₀)
    (hrun : Run (machine base).Step (· = s₀) es s) : ∃ F, Sound base s₀.heap.brk s F := by
  obtain ⟨F, hk⟩ := run_kept h₀ hrun
  exact ⟨F, hk.sound⟩

def empty : State := ⟨⟨fun _ => 0, fun _ => 0, none, 1⟩, ∅, fun _ => 0, false⟩

/-- Two blocks, and the first of them freed. -/
theorem malloc_sound_freed :
    ∃ s F, Run (machine 0).Step (· = empty) [.malloc 16 [true], .malloc 8 [], .free 4095] s ∧
      Sound 0 1 s F := by
  have h₀ : Init 0 empty := ⟨rfl, Nat.one_pos, rfl, rfl⟩
  have hfirst : Enabled empty (.malloc 16 [true]) := ⟨rfl, by decide, by decide⟩
  have hsecond : Enabled (next 0 empty (.malloc 16 [true])) (.malloc 8 []) :=
    ⟨by decide +kernel, by decide, by decide⟩
  have hthird : Enabled (next 0 (next 0 empty (.malloc 16 [true])) (.malloc 8 [])) (.free 4095) :=
    ⟨by decide +kernel, 4094, by decide +kernel, rfl⟩
  have hone : Run (machine 0).Step (· = empty) ([] ++ [.malloc 16 [true]]) _ :=
    .snoc (.nil rfl) ⟨hfirst, rfl⟩
  have htwo : Run (machine 0).Step (· = empty) (_ ++ [.malloc 8 []]) _ :=
    .snoc hone ⟨hsecond, rfl⟩
  have hrun : Run (machine 0).Step (· = empty) (_ ++ [.free 4095]) _ :=
    .snoc htwo ⟨hthird, rfl⟩
  obtain ⟨F, hsound⟩ := malloc_sound h₀ hrun
  exact ⟨_, F, hrun, hsound⟩

end MallocRuns
