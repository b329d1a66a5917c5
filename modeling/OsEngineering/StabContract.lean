import OsEngineering.StabSearch

/-! When stab_binsearch() meets its contract. The search for the right edge goes on with
addr + 1, so an entry that has this address is taken for a match as well. -/
namespace StabContract

open IntervalHalving Relation StabSearch

/-! Runs to the end -/

section Ends

variable {stabs : Stabs} {type : ℤ} {s t u : Search}

theorem search_rounds {k : ℕ} (h : search stabs type k s = some t) :
    Rounds stabs type s t ∧ t.r < t.l := by
  induction k generalizing s with
  | zero =>
    unfold search at h
    split at h
    · cases h
    next hend =>
      cases h
      exact ⟨ReflTransGen.refl, by omega⟩
  | succ k ih =>
    unfold search at h
    split at h
    next hlr =>
      obtain ⟨hrun, hend⟩ := ih h
      exact ⟨ReflTransGen.head ⟨hlr, rfl⟩ hrun, hend⟩
    next hend =>
      cases h
      exact ⟨ReflTransGen.refl, by omega⟩

theorem rounds_search (h : Rounds stabs type s t) (hend : t.r < t.l) :
    ∃ k, search stabs type k s = some t := by
  induction h using ReflTransGen.head_induction_on with
  | refl =>
    refine ⟨0, ?_⟩
    unfold search
    rw [if_neg (by omega)]
  | head hround _ ih =>
    obtain ⟨hlr, rfl⟩ := hround
    obtain ⟨k, hk⟩ := ih
    refine ⟨k + 1, ?_⟩
    unfold search
    rw [if_pos hlr]
    exact hk

theorem search_mono {k K : ℕ} (h : search stabs type k s = some t) (hk : k ≤ K) :
    search stabs type K s = some t := by
  induction K generalizing k s with
  | zero => rwa [Nat.le_zero.mp hk] at h
  | succ K ih =>
    cases k with
    | zero =>
      unfold search at h ⊢
      split at h
      · cases h
      next hend => rwa [if_neg hend]
    | succ k =>
      unfold search at h ⊢
      split at h
      next hlr =>
        rw [if_pos hlr]
        exact ih h (by omega)
      next hend => rwa [if_neg hend]

theorem ended (h : Rounds stabs type t u) (hend : t.r < t.l) : t = u := by
  obtain heq | ⟨c, ⟨hlr, -⟩, -⟩ := h.cases_head
  · exact heq
  · omega

theorem ends_unique (h : Rounds stabs type s t) (hend : t.r < t.l)
    (h' : Rounds stabs type s u) (hend' : u.r < u.l) : t = u := by
  have hdet : Relator.RightUnique (Round stabs type) := fun a b c hb hc => hb.2.trans hc.2.symm
  obtain hr | hr := h.total_of_right_unique hdet h'
  · exact ended hr hend
  · exact (ended hr hend').symm

/-- The search returns one result, whatever the fuel. -/
theorem returns_iff {left right : ℤ} {addr : BitVec 32} {Q : ℤ × ℤ → Prop}
    (h : Rounds stabs type (start left right addr) t) (hend : t.r < t.l) :
    (∃ fuel p, stabBinsearch stabs type fuel left right addr = some p ∧ Q p) ↔
      Q (regions stabs type t) := by
  unfold stabBinsearch
  constructor
  · rintro ⟨fuel, p, hp, hq⟩
    obtain ⟨u, hu, rfl⟩ := Option.map_eq_some_iff.mp hp
    obtain ⟨hrun, hend'⟩ := search_rounds hu
    rw [ends_unique h hend hrun hend']
    exact hq
  · intro hq
    obtain ⟨k, hk⟩ := rounds_search h hend
    exact ⟨k, _, by rw [hk]; rfl, hq⟩

theorem returns_unique {left right : ℤ} {addr : BitVec 32} {k k' : ℕ} {p q : ℤ × ℤ}
    (hp : stabBinsearch stabs type k left right addr = some p)
    (hq : stabBinsearch stabs type k' left right addr = some q) : p = q := by
  unfold stabBinsearch at hp
  obtain ⟨t, ht, -⟩ := Option.map_eq_some_iff.mp hp
  obtain ⟨hrun, hend⟩ := search_rounds ht
  have hall := (returns_iff (Q := (· = q)) hrun hend).mp ⟨k', q, hq, rfl⟩
  have hone := (returns_iff (Q := (· = p)) hrun hend).mp ⟨k, p, hp, rfl⟩
  exact hone.symm.trans hall

end Ends

/-! Endings -/

section Endings

variable {stabs : Stabs} {type : ℤ} {left right : ℤ} {addr : BitVec 32} {s t u : Search}

theorem regions_eq (hany : t.anyMatches = true) (hright : t.regionRight = t.r)
    (hlast : ∀ i, t.regionLeft < i → i ≤ t.r → ¬ Typed stabs type i) :
    regions stabs type t = (min t.regionLeft t.r, t.r) := by
  unfold regions
  rw [if_pos hany, hright]
  obtain ⟨hle, hno, hyes, hlow⟩ := scanBack_spec stabs type (t.regionLeft + 1)
    (t.r - t.regionLeft).toNat (m := t.r) (by omega)
  have hnot : ¬ t.regionLeft + 1 ≤ scanBack stabs type (t.regionLeft + 1)
      (t.r - t.regionLeft).toNat t.r := fun h => hlast _ (by omega) hle (hyes h)
  refine Prod.ext ?_ rfl
  dsimp only
  by_cases h : t.regionLeft ≤ t.r
  · rw [min_eq_left h]
    have := hlow (by omega)
    omega
  · rw [min_eq_right (by omega)]
    by_contra hne
    have hk : (t.r - t.regionLeft).toNat = 0 := by omega
    rw [hk] at hne
    exact hne rfl

/-- The search has divided [left, right] at `addr`. -/
structure Divided (stabs : Stabs) (type left right : ℤ) (addr : BitVec 32) (t : Search) :
    Prop where
  crossed : t.r < t.l
  matched : t.anyMatches = true
  closes : t.regionRight = t.r
  left_low : left ≤ t.regionLeft
  left_high : t.regionLeft ≤ right
  left_lt : t.regionLeft < t.l
  typed : Typed stabs type t.regionLeft
  left_last : ∀ i, t.regionLeft < i → i < t.l → ¬ Typed stabs type i
  below : ∀ i, left ≤ i → i < t.l → Typed stabs type i → value stabs i ≤ addr.toNat
  above : ∀ i, t.r < i → i ≤ right → Typed stabs type i → addr.toNat < value stabs i
  edge : t.r = right ∨ t.r + 1 ≤ right ∧ Typed stabs type (t.r + 1)

theorem Divided.bracketed (h : Divided stabs type left right addr t) :
    Bracketed stabs type left right addr (regions stabs type t) := by
  have hcross := h.crossed
  have hlt := h.left_lt
  have hle : t.regionLeft ≤ t.r := by
    by_contra hgt
    have h₁ := h.above _ (Int.not_le.mp hgt) h.left_high h.typed
    have h₂ := h.below _ h.left_low h.left_lt h.typed
    omega
  rw [regions_eq h.matched h.closes fun i hi hir => h.left_last i hi (by omega),
    min_eq_left hle]
  have hmatch : Match stabs type left right addr t.regionLeft :=
    { low := h.left_low
      high := h.left_high
      typed := h.typed
      below := h.below _ h.left_low h.left_lt h.typed
      greatest := fun k hk hkr hty => by
        by_cases hkl : k < t.l
        · exact absurd hty (h.left_last k hk hkl)
        · exact h.above k (by omega) hkr hty }
  refine ⟨hmatch, ?_⟩
  obtain heq | ⟨hedge, hty⟩ := h.edge
  · refine Or.inr ⟨heq, fun j hj => ?_⟩
    exact h.left_last j hj.low (by have := hj.high; omega) hj.typed
  · refine Or.inl ⟨by dsimp only; omega, hedge, hty, h.above _ (by dsimp only; omega) hedge hty,
      fun k hk hkr hk' => ?_⟩
    exact absurd hk' (h.left_last k hk (by dsimp only at hkr; omega))

theorem none_left (h : Seeking stabs type s t) (hend : t.r < t.l) (i : ℤ)
    (hi : t.regionLeft < i) (hir : i ≤ t.r) : ¬ Typed stabs type i :=
  h.left_last i hi (by omega)

/-- A search that has met no entry at the address ends with the entries divided at it. -/
theorem seeking_divided (ht : Seeking stabs type s t) (hend : t.r < t.l)
    (hhit : ∃ i, s.l ≤ i ∧ i ≤ s.r ∧ Typed stabs type i ∧ value stabs i ≤ s.addr.toNat) :
    Divided stabs type s.l s.r s.addr t := by
  obtain ⟨i, hil, hir, hity, hival⟩ := hhit
  have hit : i < t.l := by
    by_contra hge
    have := ht.above i (by omega) hir hity
    omega
  have hlast : i ≤ t.regionLeft := by
    by_contra hgt
    exact ht.left_last i (Int.not_le.mp hgt) hit hity
  have hlt : t.regionLeft < t.l ∧ Typed stabs type t.regionLeft := by
    obtain heq | hfrom := ht.left_from
    · have hleft := ht.left_low
      obtain rfl : i = t.regionLeft := by omega
      exact ⟨hit, hity⟩
    · exact hfrom
  exact
    { crossed := hend
      matched := by
        obtain hany | ⟨heq, hnone⟩ := ht.matched
        · exact hany
        · exact absurd hity (hnone i hil hit)
      closes := ht.right
      left_low := ht.left_low
      left_high := ht.left_high
      left_lt := hlt.1
      typed := hlt.2
      left_last := ht.left_last
      below := fun k hk hkl hty => Nat.le_of_lt (ht.below k hk hkl hty)
      above := ht.above
      edge := by
        refine ht.cut.imp_right fun ⟨p, hp, _, hpr, hprobe⟩ => ⟨?_, hprobe.counts⟩
        exact (hp.within (i := t.r + 1) ⟨hprobe.low, hpr⟩).2 }

/-- Once addr + 1 has wrapped around, the right end moves down to the last match. -/
theorem wrapped_end (hs : Fresh s) (hsort : Sorted stabs type s.l s.r) (haddr : s.addr = 0)
    (hty : Typed stabs type s.l) (hpos : 0 < value stabs s.l) :
    ∃ t, Rounds stabs type s t ∧ t.r < t.l ∧
      regions stabs type t = (s.l - 1, s.l - 1) := by
  obtain ⟨t, ht, hend⟩ := Seeking.run hs.first hsort (hs.seeking stabs type)
  have hzero : s.addr.toNat = 0 := by rw [haddr]; rfl
  have hlow := ht.low
  have hl : t.l = s.l := by
    by_contra hne
    have := ht.below s.l (le_refl _) (by omega) hty
    omega
  obtain hend | ⟨m, hm⟩ := hend
  · have hbounds := hs.bounds
    have hleft : t.regionLeft = s.l := by
      obtain h | ⟨hlt, -⟩ := ht.left_from
      · exact h
      · have := ht.left_low
        omega
    obtain heq | ⟨p, hp, hpl, hpr, hprobe⟩ := ht.cut
    · omega
    · have hin := hp.within (i := t.r + 1) ⟨hprobe.low, hpr⟩
      have hr : t.r = s.l - 1 := by
        have : s.l ≤ t.r + 1 := hin.1
        omega
      have hany : t.anyMatches = true := by
        obtain h | ⟨heq, -⟩ := ht.matched
        · exact h
        · omega
      refine ⟨t, ht.rounds, hend, ?_⟩
      rw [regions_eq hany ht.right (none_left ht hend), hleft, hr, min_eq_right (by omega)]
  · have hle := hsort s.l m (le_refl _) hm.low hm.high hty hm.probe.counts
    have := hm.address
    omega

/-- From a match above `j` on the search for a greater address ends above `j`. -/
theorem overshot {j : ℤ} (hj : value stabs j < 2 ^ 32 - 1) (hjt : Typed stabs type j)
    (hs : Fresh s) (hsort : Sorted stabs type j s.r) (hjs : j ≤ s.l)
    (hty : Typed stabs type s.l) (hle : value stabs j ≤ s.addr.toNat) :
    ∃ t, Rounds stabs type s t ∧ t.r < t.l ∧ j ≤ (regions stabs type t).1 := by
  induction hn : 2 ^ 32 - s.addr.toNat using Nat.strongRecOn generalizing s with
  | ind n ih =>
    have hsub : Sorted stabs type s.l s.r := fun i k hi => hsort i k (by omega)
    have hbounds := hs.bounds
    obtain ⟨t, ht, hend⟩ := Seeking.run hs.first hsub
      (hs.seeking stabs type)
    have hlow := ht.low
    have hhigh := ht.high
    obtain hend | ⟨m, hm⟩ := hend
    · have hjr : j ≤ t.r := by
        by_contra hgt
        have := ht.above j (Int.not_le.mp hgt) (by omega) hjt
        omega
      have hleft : j ≤ t.regionLeft := Int.le_trans hjs ht.left_low
      have hany : t.anyMatches = true := by
        obtain h | ⟨heq, hnone⟩ := ht.matched
        · exact h
        · exact absurd hty (hnone s.l (le_refl _) (by omega))
      refine ⟨t, ht.rounds, hend, ?_⟩
      rw [regions_eq hany ht.right (none_left ht hend)]
      exact le_min hleft hjr
    · have hmlow := hm.low
      have hval := hm.address
      have hstep := hm.rounds
      have hfresh := hm.fresh hs.first
      have hbound := s.addr.isLt
      by_cases hwrap : s.addr.toNat = 2 ^ 32 - 1
      · have hjm : j < m := by
          by_contra hge
          have : m = j := by omega
          rw [this] at hval
          omega
        have haddr : (t.take m).addr = 0 := by
          change t.addr + 1 = 0
          rw [ht.addr]
          bv_omega
        obtain ⟨u, hu, hucross, hregions⟩ := wrapped_end hfresh
          (fun i k hi hik hk => hsort i k (Int.le_trans (Int.le_of_lt hjm) hi) hik (Int.le_trans hk hhigh))
          haddr hm.probe.counts (by change 0 < value stabs m; omega)
        refine ⟨u, hstep.trans hu, hucross, ?_⟩
        rw [hregions]
        change j ≤ m - 1
        omega
      · have hnext : (t.take m).addr.toNat = s.addr.toNat + 1 := by
          change (t.addr + 1).toNat = _
          rw [ht.addr, BitVec.toNat_add]
          change (s.addr.toNat + 1) % 2 ^ 32 = _
          omega
        have hjm : j ≤ (t.take m).l := by
          change j ≤ m
          omega
        obtain ⟨u, hu, hucross, hju⟩ := ih (2 ^ 32 - (t.take m).addr.toNat) (by omega) hfresh
          (fun i k hi hik hk => hsort i k hi hik (Int.le_trans hk hhigh)) hjm
          hm.probe.counts (by omega) rfl
        exact ⟨u, hstep.trans hu, hucross, hju⟩

end Endings

/-! The exact condition -/

section Condition

variable (stabs : Stabs) (type left right : ℤ) (addr : BitVec 32)

/-- Halving the entries of the type tries `m` first of those at the address `v`, in `p`. -/
abbrev TriedAt (v : ℕ) (a p : ℤ × ℤ) (m : ℤ) : Prop :=
  FirstTried (Typed stabs type) (fun i => value stabs i = v) a p m

/-- addr + 1 is the last address, and the first entry there that is tried comes directly after
an entry of the type at addr. -/
def WrapsBack (m r : ℤ) : Prop :=
  addr.toNat + 2 = 2 ^ 32 ∧ ∃ q k, TriedAt stabs type (addr.toNat + 1) (m, r) q k ∧
    Typed stabs type (k - 1) ∧ value stabs (k - 1) = addr.toNat

/-- When the first entry at addr is tried, none at addr + 1 is left to the right of it. -/
def NoNeighbour : Prop :=
  ∀ p m, TriedAt stabs type addr.toNat (left, right) p m →
    (∀ i, m ≤ i → i ≤ p.2 → Typed stabs type i → value stabs i ≠ addr.toNat + 1) ∨
      WrapsBack stabs type addr m p.2

end Condition

section Result

variable {stabs : Stabs} {type : ℤ} {left right : ℤ} {addr : BitVec 32} {t u : Search}

theorem start_fresh (h : Searchable stabs type left right addr) :
    Fresh (start left right addr) := ⟨h.first, h.bounds, rfl, rfl⟩

/-- No entry of the type is at addr. -/
theorem divided_without (h : Searchable stabs type left right addr)
    (ht : Seeking stabs type (start left right addr) t) (hend : t.r < t.l) :
    Divided stabs type left right addr t := seeking_divided ht hend h.hit

variable {m k : ℤ}

section Again

variable (h : Searchable stabs type left right addr)
  (hit : Hit stabs type (start left right addr) t m)

include h

theorem next_address (hit : Hit stabs type (start left right addr) t m) :
    (t.take m).addr.toNat = addr.toNat + 1 := by
  have haddr := h.addr_lt
  change (t.addr + 1).toNat = _
  rw [hit.seeking.addr, BitVec.toNat_add]
  change (addr.toNat + 1) % 2 ^ 32 = _
  omega

include hit

/-- After an entry at addr none at addr + 1 is tried. -/
theorem divided_after (hu : Seeking stabs type (t.take m) u) (hend : u.r < u.l) :
    Divided stabs type left right addr u := by
  have hnext := next_address h hit
  have hlow : left ≤ m := hit.low
  have hml : (t.take m).l = m := rfl
  have hmr : (t.take m).r = t.r := rfl
  have hprobe := hit.probe
  have hmhigh := hprobe.high hit.bounds
  have hval : value stabs m = addr.toNat := hit.address
  have hright : t.r ≤ right := hit.seeking.high
  have hul := hu.low
  have hur := hu.high
  have hmu : m < u.l := by
    by_contra hge
    have : (t.take m).addr.toNat < value stabs m := hu.above m (by omega) hmhigh hprobe.counts
    omega
  exact
    { crossed := hend
      matched := by
        obtain hany | ⟨-, hnone⟩ := hu.matched
        · exact hany
        · exact absurd hprobe.counts (hnone m (le_refl _) hmu)
      closes := hu.right
      left_low := Int.le_trans hlow hu.left_low
      left_high := Int.le_trans hu.left_high hright
      left_lt := by
        obtain heq | hfrom := hu.left_from
        · rw [heq]
          exact hmu
        · exact hfrom.1
      typed := by
        obtain heq | hfrom := hu.left_from
        · rw [heq]
          exact hprobe.counts
        · exact hfrom.2
      left_last := hu.left_last
      below := fun i hi hil hty => by
        by_cases him : i ≤ m
        · rw [← hval]
          exact h.sorted i m hi him (Int.le_trans hmhigh hright) hty hprobe.counts
        · have := hu.below i (Int.le_of_lt (Int.not_le.mp him)) hil hty
          omega
      above := fun i hi hir hty => by
        by_cases hit' : t.r < i
        · exact hit.seeking.above i hit' hir hty
        · have := hu.above i hi (by omega) hty
          omega
      edge := by
        obtain heq | ⟨p, hp, -, hpr, hpp⟩ := hu.cut
        · rw [heq]
          refine hit.seeking.cut.imp_right fun ⟨p, hp, _, hpr, hpp⟩ => ⟨?_, hpp.counts⟩
          exact (hp.within (i := t.r + 1) ⟨hpp.low, hpr⟩).2
        · refine Or.inr ⟨?_, hpp.counts⟩
          exact Int.le_trans (hp.within (i := u.r + 1) ⟨hpp.low, hpr⟩).2 hright }

/-- An entry at addr + 1 is taken for a match. -/
theorem overshot_after (hagain : Hit stabs type (t.take m) u k) :
    ∃ v, Rounds stabs type (start left right addr) v ∧ v.r < v.l ∧
      (Bracketed stabs type left right addr (regions stabs type v) ↔
        WrapsBack stabs type addr m t.r) := by
  have hnext := next_address h hit
  have hfirst := hit.fresh h.first
  have hright : t.r ≤ right := hit.seeking.high
  have hlow : left ≤ m := hit.low
  have hm : value stabs m = addr.toNat := hit.address
  have hk : value stabs k = addr.toNat + 1 := hagain.address.trans hnext
  have hmk : m ≤ k := hagain.low
  have hkt : k ≤ t.r := hagain.high
  have hku : k ≤ u.r := hagain.probe.high hagain.bounds
  have hur : u.r ≤ t.r := hagain.seeking.high
  have hkty := hagain.probe.counts
  have hfresh := hagain.fresh hfirst.first
  have hrun : Rounds stabs type (start left right addr) (u.take k) := hit.rounds.trans hagain.rounds
  have hsort : Sorted stabs type k (u.take k).r := fun i j hi hij hj =>
    h.sorted i j (by omega) hij (Int.le_trans hj (Int.le_trans hur hright))
  by_cases hwrap : addr.toNat + 2 = 2 ^ 32
  · have haddr : (u.take k).addr = 0 := by
      change u.addr + 1 = 0
      have := hagain.seeking.addr
      rw [this]
      bv_omega
    obtain ⟨v, hv, hcross, hregions⟩ := wrapped_end hfresh hsort haddr hkty
      (by change 0 < value stabs k; omega)
    have hregions : regions stabs type v = (k - 1, k - 1) := hregions
    refine ⟨v, hrun.trans hv, hcross, ?_⟩
    rw [hregions]
    constructor
    · intro hb
      have hle := hb.region_left.below
      have hty := hb.region_left.typed
      refine ⟨hwrap, (u.l, u.r), k, ?_, hty, ?_⟩
      · have := hagain.firstTried
        rw [hnext] at this
        exact this
      · have hmk' : m ≠ k := fun heq => by rw [heq] at hm; omega
        have := h.sorted m (k - 1) hlow (by omega) (by omega) hit.probe.counts hty
        exact Nat.le_antisymm hle (by omega)
    · rintro ⟨-, q, k', hk', hty, hval⟩
      have hagain' := hagain.firstTried
      rw [hnext] at hagain'
      obtain ⟨-, rfl⟩ := hk'.unique hagain'
      have hmk' : m ≠ k' := fun heq => by rw [heq] at hm; omega
      refine ⟨⟨by omega, by dsimp only; omega, hty, Nat.le_of_eq hval, fun i hi hir hity => ?_⟩,
        Or.inl ⟨by dsimp only; omega, by dsimp only; omega, ?_, ?_, fun i hi hik => ?_⟩⟩
      · have := h.sorted k' i (by omega) (by dsimp only at hi; omega) hir hkty hity
        omega
      · dsimp only
        rw [Int.sub_add_cancel]
        exact hkty
      · dsimp only
        rw [Int.sub_add_cancel, hk]
        omega
      · dsimp only at hi hik
        omega
  · obtain ⟨v, hv, hcross, hkv⟩ := overshot (by have := addr.isLt; omega) hkty hfresh hsort
      (le_refl _) hkty (by
        change _ ≤ (u.addr + 1).toNat
        have := hagain.seeking.addr
        rw [this]
        have := addr.isLt
        bv_omega)
    refine ⟨v, hrun.trans hv, hcross, fun hb => ?_, fun hw => absurd hw.1 hwrap⟩
    have hle := hb.region_left.below
    have := h.sorted k _ (by omega) hkv hb.region_left.high hkty hb.region_left.typed
    omega

omit h in
theorem noNeighbour_iff :
    NoNeighbour stabs type left right addr ↔
      (∀ i, m ≤ i → i ≤ t.r → Typed stabs type i → value stabs i ≠ addr.toNat + 1) ∨
        WrapsBack stabs type addr m t.r := by
  have hfirst : TriedAt stabs type addr.toNat (left, right) (t.l, t.r) m := hit.firstTried
  constructor
  · intro hno
    exact hno _ _ hfirst
  · intro hno p i hi
    obtain ⟨rfl, rfl⟩ := hi.unique hfirst
    exact hno

end Again

/-- On a hit stab_binsearch() brackets the address exactly when no entry at the next address is
in the way of the search for the right edge. -/
theorem stabBinsearch_brackets (h : Searchable stabs type left right addr) :
    (∃ fuel p, stabBinsearch stabs type fuel left right addr = some p ∧
      Bracketed stabs type left right addr p) ↔ NoNeighbour stabs type left right addr := by
  have hfresh := start_fresh h
  obtain ⟨t, ht, hend | ⟨m, hit⟩⟩ := Seeking.run hfresh.first h.sorted
    (hfresh.seeking stabs type)
  · rw [returns_iff ht.rounds hend]
    refine iff_of_true (divided_without h ht hend).bracketed fun p m hm => ?_
    have hin : Has (left, right) m := hm.halves.within hm.inside
    have hval : value stabs m = addr.toNat := hm.holds
    have hlt : ¬ m < t.l := fun hlt =>
      absurd (ht.below m hin.1 hlt hm.probe.counts) (by rw [hval]; exact Nat.lt_irrefl _)
    have hgt := ht.above m (by omega) hin.2 hm.probe.counts
    rw [hval] at hgt
    exact absurd hgt (Nat.lt_irrefl _)
  · rw [noNeighbour_iff hit]
    have hfirst := hit.fresh hfresh.first
    have hsort : Sorted stabs type (t.take m).l (t.take m).r := fun i j hi hij hj =>
      h.sorted i j (Int.le_trans hit.low hi) hij (Int.le_trans hj hit.seeking.high)
    obtain ⟨u, hu, hend | ⟨k, hagain⟩⟩ := Seeking.run hfirst.first hsort
      (hfirst.seeking stabs type)
    · rw [returns_iff (hit.rounds.trans hu.rounds) hend]
      refine iff_of_true (divided_after h hit hu hend).bracketed (Or.inl fun i hi hir hty => ?_)
      rw [← next_address h hit]
      by_cases hlt : i < u.l
      · exact Nat.ne_of_lt (hu.below i hi hlt hty)
      · exact Nat.ne_of_gt (hu.above i (by omega) hir hty)
    · obtain ⟨v, hv, hcross, hiff⟩ := overshot_after h hit hagain
      rw [returns_iff hv hcross, hiff, or_iff_right]
      intro hno
      exact hno k hagain.low hagain.high hagain.probe.counts
        (hagain.address.trans (next_address h hit))

/-- Two N_FUN entries at neighbouring addresses. -/
def neighbours : Stabs := #[⟨0x24, 5⟩, ⟨0x24, 6⟩]

theorem neighbours_searchable : Searchable neighbours 0x24 0 1 5 where
  first := by decide
  bounds := by decide
  last := by decide
  addr_lt := by decide
  sorted := fun i j hi hij hj _ _ => by
    obtain rfl | rfl : i = 0 ∨ i = 1 := by omega
    · obtain rfl | rfl : j = 0 ∨ j = 1 := by omega
      all_goals decide
    · obtain rfl : j = 1 := by omega
      decide
  hit := ⟨0, by decide⟩

theorem stabBinsearch_brackets_neighbours :
    (∃ fuel p, stabBinsearch neighbours 0x24 fuel 0 1 5 = some p ∧
      Bracketed neighbours 0x24 0 1 5 p) ↔ NoNeighbour neighbours 0x24 0 1 5 :=
  stabBinsearch_brackets neighbours_searchable

/-- Looking for address 5 ends at the entry for address 6. -/
theorem stabBinsearch_misses : Searchable neighbours 0x24 0 1 5 ∧
    stabBinsearch neighbours 0x24 4 0 1 5 = some (1, 1) ∧
    ¬ ∃ fuel p, stabBinsearch neighbours 0x24 fuel 0 1 5 = some p ∧
      Bracketed neighbours 0x24 0 1 5 p := by
  have hmiss : stabBinsearch neighbours 0x24 4 0 1 5 = some (1, 1) := by decide
  refine ⟨neighbours_searchable, hmiss, ?_⟩
  rintro ⟨fuel, p, hp, hb⟩
  obtain rfl := returns_unique hmiss hp
  exact absurd hb.region_left.below (by decide)

end Result

end StabContract
