import OsEngineering.StabContract
import Mathlib.Data.Int.LeastGreatest

/-! Where stab_binsearch() ends in a part of the table whose entries of the type are sorted, also
without a match. -/
namespace StabLanding

open IntervalHalving Relation StabSearch StabContract

/-- The search of [l, r] ends with these regions. An entry that has the address starts it again
from there, for the next address. -/
inductive Lands (stabs : Stabs) (type : ℤ) : ℤ → ℤ → BitVec 32 → ℤ × ℤ → Prop where
  | missing {l r : ℤ} {addr : BitVec 32} : (∀ i, l ≤ i → i ≤ r → ¬ Typed stabs type i) →
      Lands stabs type l r addr (l, l - 1)
  | before {l r : ℤ} {addr : BitVec 32} {j : ℤ} : l ≤ j → j ≤ r → Typed stabs type j →
      (∀ i, l ≤ i → i < j → ¬ Typed stabs type i) → addr.toNat < value stabs j →
      Lands stabs type l r addr (min l (j - 1), j - 1)
  | between {l r : ℤ} {addr : BitVec 32} {p : ℤ × ℤ} : Bracketed stabs type l r addr p →
      (∀ i, l ≤ i → i ≤ r → Typed stabs type i → value stabs i ≠ addr.toNat) →
      Lands stabs type l r addr p
  | again {l r : ℤ} {addr : BitVec 32} {q : ℤ × ℤ} {m : ℤ} {p : ℤ × ℤ} :
      TriedAt stabs type addr.toNat (l, r) q m → Lands stabs type m q.2 (addr + 1) p →
      Lands stabs type l r addr p

variable {stabs : Stabs} {type l r : ℤ} {addr : BitVec 32} {p : ℤ × ℤ}

/-! The search lands -/

section Search

variable {s t : Search}

theorem rounds_missing (h : Rounds stabs type s t) (hl : 0 ≤ s.l)
    (hno : ∀ i, s.l ≤ i → i ≤ s.r → ¬ Typed stabs type i) :
    t.anyMatches = s.anyMatches ∧ t.regionLeft = s.regionLeft ∧ s.l ≤ t.l ∧ t.r = s.r := by
  induction h with
  | refl => exact ⟨rfl, rfl, le_refl _, rfl⟩
  | @tail t u _ hround ih =>
    obtain ⟨hany, hleft, hlow, hr⟩ := ih
    obtain ⟨hlr, rfl⟩ := hround
    have hprobe : ∀ {m}, ¬ Probe (Typed stabs type) t.l t.r m := by
      intro m hm
      have hmlow := hm.low
      have hmhigh := hm.high hlr
      exact hno m (by omega) (by omega) hm.counts
    have hturn := round_turn stabs type (s := t) (by omega) hlr
    generalize round stabs type t = u at hturn
    cases hturn with
    | skip => exact ⟨hany, hleft, by dsimp only; omega, hr⟩
    | below hm => exact absurd hm hprobe
    | above hm => exact absurd hm hprobe
    | equal hm => exact absurd hm hprobe

theorem seeking_lands (hs : Fresh s) (hany : s.anyMatches = false ∨ Typed stabs type s.l)
    (ht : Seeking stabs type s t) (hend : t.r < t.l) :
    Lands stabs type s.l s.r s.addr (regions stabs type t) := by
  by_cases hno : ∀ i, s.l ≤ i → i ≤ s.r → ¬ Typed stabs type i
  · obtain ⟨hsame, hleft, -, -⟩ := rounds_missing ht.rounds hs.first hno
    have hnone : s.anyMatches = false := by
      obtain h | h := hany
      · exact h
      · exact absurd h (hno _ (le_refl _) hs.bounds)
    unfold regions
    rw [hsame, hnone, hleft, hs.left]
    exact Lands.missing hno
  · have hne : ∀ i, s.l ≤ i → i ≤ s.r → Typed stabs type i → value stabs i ≠ s.addr.toNat := by
      intro i hi hir hty
      by_cases hil : i < t.l
      · exact Nat.ne_of_lt (ht.below i hi hil hty)
      · exact Nat.ne_of_gt (ht.above i (by omega) hir hty)
    by_cases hhit : ∃ i, s.l ≤ i ∧ i ≤ s.r ∧ Typed stabs type i ∧ value stabs i ≤ s.addr.toNat
    · exact Lands.between (seeking_divided ht hend hhit).bracketed hne
    · -- every entry of the type is above the address, so only the right end has moved
      have hbelow : ∀ i, s.l ≤ i → i < t.l → i ≤ s.r → ¬ Typed stabs type i := fun i hi hil hir hty =>
        hhit ⟨i, hi, hir, hty, Nat.le_of_lt (ht.below i hi hil hty)⟩
      push Not at hno
      obtain ⟨k, hk, hkr, hkty⟩ := hno
      have hkl : t.l ≤ k := by
        by_contra hlt
        exact hbelow k hk (Int.not_le.mp hlt) hkr hkty
      have hleft : t.regionLeft = s.l := by
        obtain h | ⟨hlt, hty⟩ := ht.left_from
        · exact h
        · exact absurd hty (hbelow _ ht.left_low hlt ht.left_high)
      have hmatch : t.anyMatches = true := by
        obtain h | ⟨heq, -⟩ := ht.matched
        · exact h
        · omega
      obtain heq | ⟨q, hq, -, hqr, hprobe⟩ := ht.cut
      · omega
      · have hin := hq.within (i := t.r + 1) ⟨hprobe.low, hqr⟩
        have hlow : s.l ≤ t.r + 1 := hin.1
        have hhigh : t.r + 1 ≤ s.r := hin.2
        have habove := ht.above (t.r + 1) (by omega) hhigh hprobe.counts
        have hland := Lands.before hlow hhigh hprobe.counts
          (fun i hi hij => hbelow i hi (by omega) (by omega)) habove
        rw [regions_eq hmatch ht.right (none_left ht hend), hleft]
        rw [Int.add_sub_cancel] at hland
        exact hland

theorem fresh_lands (hs : Fresh s) (hsort : Sorted stabs type s.l s.r)
    (hany : s.anyMatches = false ∨ Typed stabs type s.l) :
    ∃ t, Rounds stabs type s t ∧ t.r < t.l ∧
      Lands stabs type s.l s.r s.addr (regions stabs type t) := by
  induction hn : 2 ^ 32 - s.addr.toNat using Nat.strongRecOn generalizing s with
  | ind n ih =>
    obtain ⟨t, ht, hend | ⟨m, hm⟩⟩ := Seeking.run hs.first hsort (hs.seeking stabs type)
    · exact ⟨t, ht.rounds, hend, seeking_lands hs hany ht hend⟩
    · have hfresh := hm.fresh hs.first
      have hlow := hm.low
      have hhigh := ht.high
      have htried := hm.firstTried
      have haddr : (t.take m).addr = s.addr + 1 := by
        change t.addr + 1 = _
        rw [ht.addr]
      have hsub : Sorted stabs type (t.take m).l (t.take m).r := fun i k hi hik hk =>
        hsort i k (Int.le_trans hlow hi) hik (Int.le_trans hk hhigh)
      have hval := hm.address
      have hbound := s.addr.isLt
      by_cases hwrap : s.addr.toNat = 2 ^ 32 - 1
      · have hzero : (t.take m).addr = 0 := by
          rw [haddr]
          bv_omega
        have hpos : 0 < value stabs m := by omega
        obtain ⟨u, hu, hcross, hregions⟩ := wrapped_end hfresh hsub hzero hm.probe.counts hpos
        refine ⟨u, hm.rounds.trans hu, hcross, Lands.again htried ?_⟩
        have hland : Lands stabs type m t.r (t.take m).addr (min m (m - 1), m - 1) := by
          refine Lands.before (le_refl m) (hm.probe.high hm.bounds) hm.probe.counts
            (fun i hi hlt => by omega) ?_
          rw [hzero]
          exact hpos
        rw [min_eq_right (by omega), haddr] at hland
        rw [hregions]
        exact hland
      · have hnext : (t.take m).addr.toNat = s.addr.toNat + 1 := by
          rw [haddr]
          bv_omega
        obtain ⟨u, hu, hcross, hland⟩ := ih (2 ^ 32 - (t.take m).addr.toNat) (by omega) hfresh hsub
          (Or.inr hm.probe.counts) rfl
        rw [haddr] at hland
        exact ⟨u, hm.rounds.trans hu, hcross, Lands.again htried hland⟩

end Search

/-- The search returns, and it has landed. -/
theorem search_lands (addr : BitVec 32) (hl : 0 ≤ l) (hsort : Sorted stabs type l r) :
    ∃ fuel p, stabBinsearch stabs type fuel l r addr = some p ∧ Lands stabs type l r addr p := by
  by_cases hlr : l ≤ r
  · obtain ⟨t, ht, hend, hland⟩ := fresh_lands (s := start l r addr) ⟨hl, hlr, rfl, rfl⟩ hsort
      (Or.inl rfl)
    exact (returns_iff ht hend).mpr hland
  · have hend : r < l := Int.not_le.mp hlr
    exact (returns_iff (t := start l r addr) ReflTransGen.refl hend).mpr
      (Lands.missing fun i hi hir => by omega)

/-! What a landing says of the table -/

theorem TriedAt.typed {v : ℕ} {q : ℤ × ℤ} {m : ℤ} (h : TriedAt stabs type v (l, r) q m) :
    l ≤ m ∧ m ≤ q.2 ∧ q.2 ≤ r ∧ Typed stabs type m ∧ value stabs m = v := by
  have hin := h.inside
  have hm := h.halves.within hin
  have hr : q.2 ≤ r := (h.halves.within (i := q.2) ⟨Int.le_trans hin.1 hin.2, le_refl _⟩).2
  exact ⟨hm.1, hin.2, hr, h.probe.counts, h.holds⟩

theorem sorted_sub {l' r' : ℤ} (h : Sorted stabs type l r) (hl : l ≤ l') (hr : r' ≤ r) :
    Sorted stabs type l' r' :=
  fun i j hi hij hj => h i j (Int.le_trans hl hi) hij (Int.le_trans hj hr)

theorem match_unique {i k : ℤ} (h : Match stabs type l r addr i) (h' : Match stabs type l r addr k) :
    i = k := by
  have h₁ : ¬ i < k := fun hlt => by
    have := h.greatest k hlt h'.high h'.typed
    have := h'.below
    omega
  have h₂ : ¬ k < i := fun hlt => by
    have := h'.greatest i hlt h.high h.typed
    have := h.below
    omega
  omega

theorem nextAbove_unique {i j k : ℤ} (h : NextAbove stabs type r addr i j)
    (h' : NextAbove stabs type r addr i k) : j = k := by
  have h₁ : ¬ j < k := fun hlt => by
    have := h'.smallest j h.low hlt h.typed
    have := h.above
    omega
  have h₂ : ¬ k < j := fun hlt => by
    have := h.smallest k h'.low hlt h'.typed
    have := h'.above
    omega
  omega

theorem bracketed_unique {p' : ℤ × ℤ} (h : Bracketed stabs type l r addr p)
    (h' : Bracketed stabs type l r addr p') : p = p' := by
  have hleft := match_unique h.region_left h'.region_left
  have hright := h'.region_right
  rw [← hleft] at hright
  refine Prod.ext hleft ?_
  obtain hnext | ⟨heq, hnone⟩ := h.region_right
  · obtain hnext' | ⟨-, hnone'⟩ := hright
    · have := nextAbove_unique hnext hnext'
      omega
    · exact absurd hnext (hnone' _)
  · obtain hnext' | ⟨heq', -⟩ := hright
    · exact absurd hnext' (hnone _)
    · rw [heq, heq']

theorem lands_unique (hsort : Sorted stabs type l r) (h : Lands stabs type l r addr p)
    {p' : ℤ × ℤ} (h' : Lands stabs type l r addr p') : p = p' := by
  induction h generalizing p' with
  | missing hno =>
    cases h' with
    | missing => rfl
    | before hj hjr hty => exact absurd hty (hno _ hj hjr)
    | between hb => exact absurd hb.region_left.typed (hno _ hb.region_left.low hb.region_left.high)
    | again ht =>
      obtain ⟨hm, hmq, hqr, hty, -⟩ := TriedAt.typed ht
      exact absurd hty (hno _ hm (Int.le_trans hmq hqr))
  | @before l r addr j hj hjr hty hfirst habove =>
    have hall : ∀ i, l ≤ i → i ≤ r → Typed stabs type i → addr.toNat < value stabs i := by
      intro i hi hir hity
      by_cases hij : i < j
      · exact absurd hity (hfirst i hi hij)
      · exact Nat.lt_of_lt_of_le habove (hsort j i hj (Int.not_lt.mp hij) hir hty hity)
    cases h' with
    | missing hno => exact absurd hty (hno j hj hjr)
    | @before _ _ _ k hk _ hkty hkfirst =>
      have h₁ : ¬ j < k := fun hlt => hkfirst j hj hlt hty
      have h₂ : ¬ k < j := fun hlt => hfirst k hk hlt hkty
      obtain rfl : j = k := by omega
      rfl
    | between hb =>
      have := hall _ hb.region_left.low hb.region_left.high hb.region_left.typed
      have := hb.region_left.below
      omega
    | again ht =>
      obtain ⟨hm, hmq, hqr, hmty, hval⟩ := TriedAt.typed ht
      have := hall _ hm (Int.le_trans hmq hqr) hmty
      omega
  | @between l r addr p hb hne =>
    cases h' with
    | missing hno => exact absurd hb.region_left.typed (hno _ hb.region_left.low hb.region_left.high)
    | @before _ _ _ j hj hjr hty hfirst habove =>
      have hpj : ¬ p.1 < j := fun hlt => hfirst _ hb.region_left.low hlt hb.region_left.typed
      have := hsort j p.1 hj (by omega) hb.region_left.high hty hb.region_left.typed
      have := hb.region_left.below
      omega
    | between hb' => exact bracketed_unique hb hb'
    | again ht =>
      obtain ⟨hm, hmq, hqr, hty, hval⟩ := TriedAt.typed ht
      exact absurd hval (hne _ hm (Int.le_trans hmq hqr) hty)
  | @again l r addr q m p ht hland ih =>
    obtain ⟨hm, hmq, hqr, hty, hval⟩ := TriedAt.typed ht
    cases h' with
    | missing hno => exact absurd hty (hno _ hm (Int.le_trans hmq hqr))
    | @before _ _ _ j hj hjr hjty hfirst habove =>
      have hmj : ¬ m < j := fun hlt => hfirst _ hm hlt hty
      have := hsort j m hj (by omega) (by omega) hjty hty
      omega
    | between hb hne => exact absurd hval (hne _ hm (Int.le_trans hmq hqr) hty)
    | again ht' hland' =>
      obtain ⟨rfl, rfl⟩ := ht.unique ht'
      exact ih (sorted_sub hsort hm hqr) hland'

/-- Where a search lands, only the first entry can be of the type. -/
theorem lands_gap (h : Lands stabs type l r addr p) {i : ℤ} (hi : p.1 < i) (hir : i ≤ p.2) :
    ¬ Typed stabs type i := by
  induction h with
  | missing => dsimp only at *; omega
  | before hj hjr hty hfirst habove =>
    dsimp only at *
    exact hfirst i (by omega) (by omega)
  | @between l r addr p hb hne =>
    intro hty
    obtain hnext | ⟨heq, hnone⟩ := hb.region_right
    · have := hb.region_left.greatest i hi (by have := hnext.high; omega) hty
      have := hnext.smallest i hi (by omega) hty
      omega
    · -- the first such entry would be the next above the address
      obtain ⟨k, ⟨hk, hkr, hkty⟩, hleast⟩ := Int.exists_least_of_bdd
        (P := fun k => p.1 < k ∧ k ≤ r ∧ Typed stabs type k)
        ⟨p.1, fun k hk => Int.le_of_lt hk.1⟩ ⟨i, hi, by omega, hty⟩
      refine hnone k ⟨hk, hkr, hkty, hb.region_left.greatest k hk hkr hkty, ?_⟩
      intro x hx hxk hxty
      have := hleast x ⟨hx, by omega, hxty⟩
      omega
  | again ht hland ih => exact ih hi hir

/-- The regions where some entry is of the type. -/
theorem lands_bounds (h : Lands stabs type l r addr p)
    (hty : ∃ i, l ≤ i ∧ i ≤ r ∧ Typed stabs type i) : l - 1 ≤ p.1 ∧ p.1 ≤ p.2 ∧ p.2 ≤ r := by
  induction h with
  | missing hno =>
    obtain ⟨i, hi, hir, hity⟩ := hty
    exact absurd hity (hno i hi hir)
  | before hj hjr => dsimp only; omega
  | between hb hne =>
    have hlow := hb.region_left.low
    have hhigh := hb.region_left.high
    obtain hnext | ⟨heq, -⟩ := hb.region_right
    · have := hnext.low
      have := hnext.high
      omega
    · omega
  | again ht hland ih =>
    obtain ⟨hm, hmq, hqr, hmty, -⟩ := TriedAt.typed ht
    have := ih ⟨_, le_refl _, hmq, hmty⟩
    omega

/-- A region does not start before the range unless the first entry is of the type. -/
theorem lands_low (h : Lands stabs type l r addr p) (hl : ¬ Typed stabs type l) : l ≤ p.1 := by
  induction h with
  | missing => exact le_refl _
  | @before l r addr j hj hjr hty =>
    have hne : l ≠ j := fun heq => hl (heq ▸ hty)
    dsimp only
    omega
  | between hb => exact hb.region_left.low
  | @again l r addr q m p ht hland =>
    obtain ⟨hm, hmq, hqr, hmty, -⟩ := TriedAt.typed ht
    have hne : l ≠ m := fun heq => hl (heq ▸ hmty)
    have := (lands_bounds hland ⟨m, le_refl m, hmq, hmty⟩).1
    omega

/-- A region that starts before the range is one entry. -/
theorem lands_early (h : Lands stabs type l r addr p) (hp : p.1 < l) : p.2 ≤ p.1 := by
  induction h with
  | missing => dsimp only at *; omega
  | before hj => dsimp only at *; omega
  | between hb =>
    have := hb.region_left.low
    omega
  | again ht _ ih =>
    have := (TriedAt.typed ht).1
    exact ih (by omega)

/-- From an entry above `j` on the search for an address not below that of `j` ends above it. -/
theorem lands_above {j : ℤ} (h : Lands stabs type l r addr p) (hl : Typed stabs type l) (hlr : l ≤ r)
    (hj : value stabs j < 2 ^ 32 - 1) (hjl : j < l ∨ j = l ∧ value stabs j ≤ addr.toNat) :
    j ≤ p.1 := by
  induction h with
  | missing hno => exact absurd hl (hno _ (le_refl _) hlr)
  | @before l r addr k hk hkr hty hfirst habove =>
    have hkl : ¬ l < k := fun hlt => hfirst l (le_refl _) hlt hl
    obtain rfl : l = k := by omega
    obtain hlt | ⟨rfl, hle⟩ := hjl
    · dsimp only
      omega
    · omega
  | between hb hne =>
    have := hb.region_left.low
    omega
  | @again l r addr q m p ht hland ih =>
    obtain ⟨hm, hmq, hqr, hmty, hval⟩ := TriedAt.typed ht
    refine ih hmty hmq ?_
    by_cases hjm : j < m
    · exact Or.inl hjm
    · obtain rfl : j = m := by omega
      refine Or.inr ⟨rfl, ?_⟩
      bv_omega

/-! When the region of a search without `left > right` starts with a match -/

/-- `p` is reported as a match only where its first entry is one. -/
def Sound (stabs : Stabs) (type : ℤ) (addr : BitVec 32) (p : ℤ × ℤ) : Prop :=
  p.1 ≤ p.2 → Typed stabs type p.1 ∧ value stabs p.1 ≤ addr.toNat

/-- Where the search for addr tries an entry at addr first, it does not go on to a later entry. For
the last address the search goes on with 0, and ends before that entry. -/
def StopsAt (stabs : Stabs) (type l r : ℤ) (addr : BitVec 32) : Prop :=
  ∀ q m, TriedAt stabs type addr.toNat (l, r) q m →
    if addr.toNat + 1 = 2 ^ 32 then Typed stabs type (m - 1) ∧ value stabs (m - 1) ≤ addr.toNat
    else (∀ i, m ≤ i → i ≤ q.2 → Typed stabs type i → value stabs i ≠ addr.toNat + 1) ∨
      WrapsBack stabs type addr m q.2

/-- [l, r] has no entry of the type; or one not above addr, and the search stops at it; or its
first entry is above addr and the entry before it, which the search does not look at, is a match. -/
def SearchOk (stabs : Stabs) (type l r : ℤ) (addr : BitVec 32) : Prop :=
  (∀ i, l ≤ i → i ≤ r → ¬ Typed stabs type i) ∨
  ((∃ i, l ≤ i ∧ i ≤ r ∧ Typed stabs type i ∧ value stabs i ≤ addr.toNat) ∧
    StopsAt stabs type l r addr) ∨
  (l ≤ r ∧ Typed stabs type l ∧ addr.toNat < value stabs l ∧ Typed stabs type (l - 1) ∧
    value stabs (l - 1) ≤ addr.toNat)

/-- A landing before the first entry. -/
theorem lands_before {j : ℤ} (hsort : Sorted stabs type l r) (h : Lands stabs type l r addr p)
    (hj : l ≤ j) (hjr : j ≤ r) (hty : Typed stabs type j)
    (hfirst : ∀ i, l ≤ i → i < j → ¬ Typed stabs type i) (habove : addr.toNat < value stabs j) :
    p = (min l (j - 1), j - 1) :=
  lands_unique hsort h (Lands.before hj hjr hty hfirst habove)

/-- After the last address the search ends before the entry it starts from. -/
theorem lands_wrapped {m : ℤ} (hsort : Sorted stabs type m r) (h : Lands stabs type m r addr p)
    (hmr : m ≤ r) (hty : Typed stabs type m) (haddr : addr.toNat = 0) (hpos : 0 < value stabs m) :
    p = (m - 1, m - 1) := by
  have heq := lands_before hsort h (le_refl m) hmr hty (fun i hi hlt => by omega)
    (by rw [haddr]; exact hpos)
  rw [heq, min_eq_right (by omega)]

theorem sound_wrapped {m : ℤ} : Sound stabs type addr (m - 1, m - 1) ↔
    Typed stabs type (m - 1) ∧ value stabs (m - 1) ≤ addr.toNat := by
  unfold Sound
  exact forall_prop_of_true (le_refl _)

/-- The search goes on for the next address from an entry that it has found. -/
theorem sound_again_iff {m : ℤ} (hsort : Sorted stabs type m r) (hmr : m ≤ r)
    (hty : Typed stabs type m) (hval : value stabs m = addr.toNat) (hne : addr.toNat + 1 ≠ 2 ^ 32)
    (h : Lands stabs type m r (addr + 1) p) :
    Sound stabs type addr p ↔
      (∀ i, m ≤ i → i ≤ r → Typed stabs type i → value stabs i ≠ addr.toNat + 1) ∨
        WrapsBack stabs type addr m r := by
  have hbound := addr.isLt
  have hnext : (addr + 1).toNat = addr.toNat + 1 := by bv_omega
  cases h with
  | missing hno => exact absurd hty (hno m (le_refl m) hmr)
  | @before _ _ _ j hj hjr hjty hfirst habove =>
    have hmj : ¬ m < j := fun hlt => hfirst m (le_refl m) hlt hty
    obtain rfl : m = j := by omega
    omega
  | between hb hnone =>
    rw [hnext] at hnone
    refine iff_of_true (fun _ => ⟨hb.region_left.typed, ?_⟩) (Or.inl hnone)
    have := hb.region_left.below
    have := hnone _ hb.region_left.low hb.region_left.high hb.region_left.typed
    omega
  | @again _ _ _ q k _ ht hland =>
    obtain ⟨hk, hkq, hqr, hkty, hkval⟩ := TriedAt.typed ht
    rw [hnext] at hkval ht
    have hsub : Sorted stabs type k q.2 := sorted_sub hsort hk hqr
    rw [or_iff_right fun hnone => hnone k hk (Int.le_trans hkq hqr) hkty hkval]
    have hmk : m ≠ k := fun heq => by rw [heq] at hval; omega
    by_cases hwrap : addr.toNat + 2 = 2 ^ 32
    · rw [lands_wrapped hsub hland hkq hkty (by bv_omega) (by omega), sound_wrapped]
      constructor
      · rintro ⟨hpty, hple⟩
        refine ⟨hwrap, q, k, ht, hpty, Nat.le_antisymm hple ?_⟩
        rw [← hval]
        exact hsort m (k - 1) (le_refl m) (by omega) (by omega) hty hpty
      · rintro ⟨-, q', k', ht', hpty, hpval⟩
        obtain ⟨-, rfl⟩ := ht.unique ht'
        exact ⟨hpty, Nat.le_of_eq hpval⟩
    · refine iff_of_false (fun hsound => ?_) fun hw => hwrap hw.1
      have hkp := lands_above (j := k) hland hkty hkq (by omega)
        (Or.inr ⟨rfl, by rw [hkval]; bv_omega⟩)
      obtain ⟨-, hpp, hpq⟩ := lands_bounds hland ⟨k, le_refl k, hkq, hkty⟩
      obtain ⟨hpty, hple⟩ := hsound hpp
      have := hsub k p.1 (le_refl k) hkp (by omega) hkty hpty
      omega

/-- A search of a sorted part of the table is sound exactly under `SearchOk`. -/
theorem lands_sound_iff (hsort : Sorted stabs type l r) (h : Lands stabs type l r addr p) :
    Sound stabs type addr p ↔ SearchOk stabs type l r addr := by
  cases h with
  | missing hno =>
    refine iff_of_true (fun hle => ?_) (Or.inl hno)
    dsimp only at hle
    omega
  | @before _ _ _ j hj hjr hty hfirst habove =>
    have hnone : ¬ ∀ i, l ≤ i → i ≤ r → ¬ Typed stabs type i := fun hno => hno j hj hjr hty
    have hhit : ¬ ∃ i, l ≤ i ∧ i ≤ r ∧ Typed stabs type i ∧ value stabs i ≤ addr.toNat := by
      rintro ⟨i, hi, hir, hity, hle⟩
      have hij : ¬ i < j := fun hlt => hfirst i hi hlt hity
      have := hsort j i hj (by omega) hir hty hity
      omega
    unfold SearchOk
    rw [or_iff_right hnone, or_iff_right fun h => hhit h.1]
    obtain heq | hlt := eq_or_lt_of_le hj
    · subst heq
      rw [min_eq_right (by omega), sound_wrapped]
      exact ⟨fun hp => ⟨hjr, hty, habove, hp⟩, fun hp => hp.2.2.2⟩
    · rw [min_eq_left (by omega)]
      refine iff_of_false (fun hsound => ?_) fun hp => hfirst l (le_refl l) hlt hp.2.1
      exact hfirst l (le_refl l) hlt (hsound (by dsimp only; omega)).1
  | between hb hne =>
    refine iff_of_true (fun _ => ⟨hb.region_left.typed, hb.region_left.below⟩)
      (Or.inr (Or.inl ⟨⟨p.1, hb.region_left.low, hb.region_left.high, hb.region_left.typed,
        hb.region_left.below⟩, fun q m ht => ?_⟩))
    obtain ⟨hm, hmq, hqr, hty, hval⟩ := TriedAt.typed ht
    exact absurd hval (hne m hm (Int.le_trans hmq hqr) hty)
  | @again _ _ _ q m _ ht hland =>
    obtain ⟨hm, hmq, hqr, hty, hval⟩ := TriedAt.typed ht
    have hmr : m ≤ r := Int.le_trans hmq hqr
    have hstops : SearchOk stabs type l r addr ↔ StopsAt stabs type l r addr := by
      unfold SearchOk
      rw [or_iff_right fun hno => hno m hm hmr hty, or_iff_left, and_iff_right]
      · exact ⟨m, hm, hmr, hty, Nat.le_of_eq hval⟩
      · rintro ⟨-, hlty, habove, -⟩
        have := hsort l m (le_refl l) hm hmr hlty hty
        omega
    have hone : StopsAt stabs type l r addr ↔
        if addr.toNat + 1 = 2 ^ 32 then Typed stabs type (m - 1) ∧ value stabs (m - 1) ≤ addr.toNat
        else (∀ i, m ≤ i → i ≤ q.2 → Typed stabs type i → value stabs i ≠ addr.toNat + 1) ∨
          WrapsBack stabs type addr m q.2 := by
      refine ⟨fun h => h q m ht, fun h q' m' ht' => ?_⟩
      obtain ⟨rfl, rfl⟩ := ht.unique ht'
      exact h
    have hsub : Sorted stabs type m q.2 := sorted_sub hsort hm hqr
    rw [hstops, hone]
    split
    next hlast =>
      rw [lands_wrapped hsub hland hmq hty (by bv_omega) (by omega), sound_wrapped]
    next hne => exact sound_again_iff hsub hmq hty hval hne hland

end StabLanding
