import OsEngineering.IntervalHalving
import Mathlib.Algebra.GroupWithZero.Nat
import Mathlib.Data.Int.Order.Basic

/-! stab_binsearch() of kern/kdebug.c in lab 1, and what it does until an entry has the very
address it looks for. -/
namespace StabSearch

open IntervalHalving Relation

structure Stab where
  n_type : BitVec 8
  n_value : BitVec 32

/-- An array that fits into the memory of the machine has indices whose sum is an int. -/
abbrev Stabs := Array Stab

def entry (stabs : Stabs) (i : ℤ) : Stab := stabs.getD i.toNat ⟨0, 0⟩

def Typed (stabs : Stabs) (type : ℤ) (i : ℤ) : Prop := ((entry stabs i).n_type.toNat : ℤ) = type

instance (stabs : Stabs) (type i : ℤ) : Decidable (Typed stabs type i) :=
  inferInstanceAs (Decidable (_ = _))

def value (stabs : Stabs) (i : ℤ) : ℕ := (entry stabs i).n_value.toNat

/-- Both loops that go down one by one: to an entry of the type or below `low`. -/
def scanBack (stabs : Stabs) (type low : ℤ) : ℕ → ℤ → ℤ
  | 0, m => m
  | k + 1, m => if low ≤ m ∧ ¬ Typed stabs type m then scanBack stabs type low k (m - 1) else m

structure Search where
  l : ℤ
  r : ℤ
  regionLeft : ℤ
  regionRight : ℤ
  anyMatches : Bool
  addr : BitVec 32

section Source

variable (stabs : Stabs) (type : ℤ)

def round (s : Search) : Search :=
  let true_m := (s.l + s.r).tdiv 2
  let m := scanBack stabs type s.l (true_m - s.l + 1).toNat true_m
  if m < s.l then { s with l := true_m + 1 }
  else
    let s := { s with anyMatches := true }
    let n_value := (entry stabs m).n_value
    if n_value < s.addr then { s with regionLeft := m, l := true_m + 1 }
    else if s.addr < n_value then { s with regionRight := m - 1, r := m - 1 }
    else { s with regionLeft := m, l := m, addr := s.addr + 1 }

def search : ℕ → Search → Option Search
  | 0, s => if s.l ≤ s.r then none else some s
  | k + 1, s => if s.l ≤ s.r then search k (round stabs type s) else some s

/-- What the search leaves in *region_left and *region_right. -/
def regions (s : Search) : ℤ × ℤ :=
  if s.anyMatches then
    (scanBack stabs type (s.regionLeft + 1) (s.regionRight - s.regionLeft).toNat s.regionRight,
      s.regionRight)
  else (s.regionLeft, s.regionLeft - 1)

def start (left right : ℤ) (addr : BitVec 32) : Search := ⟨left, right, left, right, false, addr⟩

def stabBinsearch (fuel : ℕ) (left right : ℤ) (addr : BitVec 32) : Option (ℤ × ℤ) :=
  (search stabs type fuel (start left right addr)).map (regions stabs type)

end Source

/-! The contract -/

section Contract

variable (stabs : Stabs) (type left right : ℤ) (addr : BitVec 32)

structure Searchable : Prop where
  first : 0 ≤ left
  bounds : left ≤ right
  last : right < stabs.size
  addr_lt : addr.toNat < 2 ^ 32 - 1
  sorted : ∀ i j, left ≤ i → i ≤ j → j ≤ right → Typed stabs type i → Typed stabs type j →
    value stabs i ≤ value stabs j
  hit : ∃ i, left ≤ i ∧ i ≤ right ∧ Typed stabs type i ∧ value stabs i ≤ addr.toNat

/-- `i` is the greatest index of the type whose address is not above `addr`. -/
structure Match (i : ℤ) : Prop where
  low : left ≤ i
  high : i ≤ right
  typed : Typed stabs type i
  below : value stabs i ≤ addr.toNat
  greatest : ∀ k, i < k → k ≤ right → Typed stabs type k → addr.toNat < value stabs k

/-- `j` is the smallest index of the type after `i` whose address is above `addr`. -/
structure NextAbove (i j : ℤ) : Prop where
  low : i < j
  high : j ≤ right
  typed : Typed stabs type j
  above : addr.toNat < value stabs j
  smallest : ∀ k, i < k → k < j → Typed stabs type k → value stabs k ≤ addr.toNat

structure Bracketed (p : ℤ × ℤ) : Prop where
  region_left : Match stabs type left right addr p.1
  region_right : NextAbove stabs type right addr p.1 (p.2 + 1) ∨
    p.2 = right ∧ ∀ j, ¬ NextAbove stabs type right addr p.1 j

end Contract

/-! One round -/

section Round

variable {stabs : Stabs} {type : ℤ}

theorem scanBack_spec (stabs : Stabs) (type low : ℤ) (k : ℕ) {m : ℤ} (hk : (m - low + 1).toNat ≤ k) :
    scanBack stabs type low k m ≤ m ∧
    (∀ i, scanBack stabs type low k m < i → i ≤ m → low ≤ i → ¬ Typed stabs type i) ∧
    (low ≤ scanBack stabs type low k m → Typed stabs type (scanBack stabs type low k m)) ∧
    (low ≤ m + 1 → low ≤ scanBack stabs type low k m + 1) := by
  induction k generalizing m with
  | zero =>
    unfold scanBack
    exact ⟨le_refl _, fun i _ _ _ => by omega, fun _ => by omega, fun h => h⟩
  | succ k ih =>
    unfold scanBack
    split
    next hdown =>
      obtain ⟨hle, hno, hyes, hlow⟩ := ih (m := m - 1) (by omega)
      refine ⟨by omega, fun i hi him hlo => ?_, hyes, fun _ => hlow (by omega)⟩
      obtain rfl | hne := eq_or_ne i m
      · exact hdown.2
      · exact hno i hi (by omega) hlo
    next hstop =>
      refine ⟨le_refl _, fun i _ _ _ => by omega, fun h => ?_, fun h => h⟩
      exact Decidable.not_not.mp fun hno => hstop ⟨h, hno⟩

/-- An entry that has the address is a match, and the right edge is looked for with the next
address. -/
def Search.take (s : Search) (m : ℤ) : Search :=
  { s with anyMatches := true, regionLeft := m, l := m, addr := s.addr + 1 }

/-- What one round does to the search. -/
inductive Turn (stabs : Stabs) (type : ℤ) (s : Search) : Search → Prop where
  | skip : (∀ i, s.l ≤ i → i ≤ (s.l + s.r) / 2 → ¬ Typed stabs type i) →
      Turn stabs type s { s with l := (s.l + s.r) / 2 + 1 }
  | below {m : ℤ} : Probe (Typed stabs type) s.l s.r m → value stabs m < s.addr.toNat →
      Turn stabs type s
        { s with anyMatches := true, regionLeft := m, l := (s.l + s.r) / 2 + 1 }
  | above {m : ℤ} : Probe (Typed stabs type) s.l s.r m → s.addr.toNat < value stabs m →
      Turn stabs type s { s with anyMatches := true, regionRight := m - 1, r := m - 1 }
  | equal {m : ℤ} : Probe (Typed stabs type) s.l s.r m → value stabs m = s.addr.toNat →
      Turn stabs type s (s.take m)

theorem round_turn (stabs : Stabs) (type : ℤ) {s : Search} (hl : 0 ≤ s.l) (hlr : s.l ≤ s.r) :
    Turn stabs type s (round stabs type s) := by
  have hmid : (s.l + s.r).tdiv 2 = (s.l + s.r) / 2 := Int.tdiv_eq_ediv_of_nonneg (by omega)
  obtain ⟨hle, hno, hyes, hlow⟩ := scanBack_spec stabs type s.l
    ((s.l + s.r) / 2 - s.l + 1).toNat (m := (s.l + s.r) / 2) (Nat.le_refl _)
  unfold round
  rw [hmid]
  dsimp only
  split
  next hm => exact Turn.skip fun i hi hhalf => hno i (by omega) hhalf hi
  next hm =>
    have hprobe : Probe (Typed stabs type) s.l s.r (scanBack stabs type s.l
        ((s.l + s.r) / 2 - s.l + 1).toNat ((s.l + s.r) / 2)) :=
      ⟨by omega, hle, hyes (by omega), fun i hi hhalf => hno i hi hhalf (by omega)⟩
    split
    next hlt => exact Turn.below hprobe hlt
    next hge =>
      split
      next hgt => exact Turn.above hprobe hgt
      next hle' =>
        refine Turn.equal hprobe ?_
        rw [BitVec.not_lt, BitVec.le_def] at hge hle'
        exact Nat.le_antisymm hle' hge

end Round

/-! The rounds before an entry is found to have the address -/

section Seek

variable {stabs : Stabs} {type : ℤ}

def Round (stabs : Stabs) (type : ℤ) (s t : Search) : Prop :=
  s.l ≤ s.r ∧ t = round stabs type s

def Rounds (stabs : Stabs) (type : ℤ) : Search → Search → Prop :=
  ReflTransGen (Round stabs type)

/-- The interval to search and the address are new, but the left end is the last match. -/
structure Fresh (s : Search) : Prop where
  first : 0 ≤ s.l
  bounds : s.l ≤ s.r
  left : s.regionLeft = s.l
  right : s.regionRight = s.r

/-- `t` comes from `s` while no entry tried had the address. -/
structure Seeking (stabs : Stabs) (type : ℤ) (s t : Search) : Prop where
  rounds : Rounds stabs type s t
  halves : Halves (Typed stabs type) (s.l, s.r) (t.l, t.r)
  addr : t.addr = s.addr
  right : t.regionRight = t.r
  low : s.l ≤ t.l
  high : t.r ≤ s.r
  left_low : s.l ≤ t.regionLeft
  left_high : t.regionLeft ≤ s.r
  left_from : t.regionLeft = s.l ∨ t.regionLeft < t.l ∧ Typed stabs type t.regionLeft
  left_last : ∀ i, t.regionLeft < i → i < t.l → ¬ Typed stabs type i
  below : ∀ i, s.l ≤ i → i < t.l → Typed stabs type i → value stabs i < s.addr.toNat
  above : ∀ i, t.r < i → i ≤ s.r → Typed stabs type i → s.addr.toNat < value stabs i
  cut : t.r = s.r ∨ ∃ p, Halves (Typed stabs type) (s.l, s.r) p ∧ p.1 ≤ t.l ∧ t.r + 1 ≤ p.2 ∧
    Probe (Typed stabs type) p.1 p.2 (t.r + 1)
  matched : t.anyMatches ∨ t.r = s.r ∧ ∀ i, s.l ≤ i → i < t.l → ¬ Typed stabs type i

/-- The entries of the type have non-decreasing addresses in [left, right]. -/
def Sorted (stabs : Stabs) (type left right : ℤ) : Prop :=
  ∀ i j, left ≤ i → i ≤ j → j ≤ right → Typed stabs type i → Typed stabs type j →
    value stabs i ≤ value stabs j

theorem Fresh.seeking (stabs : Stabs) (type : ℤ) {s : Search} (h : Fresh s) :
    Seeking stabs type s s :=
  { rounds := ReflTransGen.refl
    halves := ReflTransGen.refl
    addr := rfl
    right := h.right
    low := le_refl _
    high := le_refl _
    left_low := le_of_eq h.left.symm
    left_high := by rw [h.left]; exact h.bounds
    left_from := Or.inl h.left
    left_last := fun i hi hlt => by rw [h.left] at hi; omega
    below := fun i hi hlt => by omega
    above := fun i hi hle => by omega
    cut := Or.inl rfl
    matched := Or.inr ⟨rfl, fun i hi hlt => by omega⟩ }

variable {s t : Search}

/-- In `t`, which comes from `s`, the entry `m` is tried, and it has the address. -/
structure Hit (stabs : Stabs) (type : ℤ) (s t : Search) (m : ℤ) : Prop where
  seeking : Seeking stabs type s t
  bounds : t.l ≤ t.r
  probe : Probe (Typed stabs type) t.l t.r m
  address : value stabs m = s.addr.toNat
  turn : round stabs type t = t.take m

theorem Hit.low {m : ℤ} (h : Hit stabs type s t m) : s.l ≤ m :=
  Int.le_trans h.seeking.low h.probe.low

theorem Hit.high {m : ℤ} (h : Hit stabs type s t m) : m ≤ s.r :=
  Int.le_trans (h.probe.high h.bounds) h.seeking.high

theorem Hit.fresh {m : ℤ} (hs : 0 ≤ s.l) (h : Hit stabs type s t m) : Fresh (t.take m) :=
  ⟨Int.le_trans hs h.low, h.probe.high h.bounds, rfl, h.seeking.right⟩

theorem Hit.rounds {m : ℤ} (h : Hit stabs type s t m) : Rounds stabs type s (t.take m) :=
  h.seeking.rounds.tail ⟨h.bounds, h.turn.symm⟩

theorem Hit.firstTried {m : ℤ} (h : Hit stabs type s t m) :
    FirstTried (Typed stabs type) (fun i => value stabs i = s.addr.toNat) (s.l, s.r) (t.l, t.r)
      m where
  halves := h.seeking.halves
  probe := h.probe
  inside := ⟨h.probe.low, h.probe.high h.bounds⟩
  holds := h.address
  all := fun i hin hty hvi => by
    constructor
    · by_contra hlt
      have := h.seeking.below i hin.1 (Int.not_le.mp hlt) hty
      omega
    · by_contra hgt
      have := h.seeking.above i (Int.not_le.mp hgt) hin.2 hty
      omega

/-- One round keeps `Seeking`, or it tries an entry that has the address. -/
theorem Seeking.step (hs : 0 ≤ s.l) (hsort : Sorted stabs type s.l s.r)
    (h : Seeking stabs type s t) (hlr : t.l ≤ t.r) :
    (∃ m, Hit stabs type s t m) ∨
    Seeking stabs type s (round stabs type t) ∧
      (round stabs type t).r - (round stabs type t).l < t.r - t.l := by
  have hl := h.low
  have hr := h.high
  have hleft := h.left_low
  have hturn := round_turn stabs type (s := t) (by omega) hlr
  have hrounds : Rounds stabs type s (round stabs type t) := h.rounds.tail ⟨hlr, rfl⟩
  revert hrounds
  generalize hu : round stabs type t = u at hturn
  intro hrounds
  cases hturn with
  | skip hno =>
    refine Or.inr ⟨{ h with
      rounds := hrounds
      halves := h.halves.tail (Part.skip hlr hno)
      low := by dsimp only; omega
      left_from := ?_
      left_last := fun i hi hlt => ?_
      below := fun i hi hlt hty => ?_
      cut := ?_
      matched := ?_ }, by dsimp only; omega⟩
    · exact h.left_from.imp_right fun hm => ⟨by dsimp only; omega, hm.2⟩
    · by_cases hlo : i < t.l
      · exact h.left_last i hi hlo
      · exact hno i (by omega) (by dsimp only at hlt; omega)
    · by_cases hlo : i < t.l
      · exact h.below i hi hlo hty
      · exact absurd hty (hno i (by omega) (by dsimp only at hlt; omega))
    · exact h.cut.imp_right fun ⟨p, hp, hpl, hpr⟩ => ⟨p, hp, by dsimp only; omega, hpr⟩
    · refine h.matched.imp_right fun ⟨heq, hnone⟩ => ⟨heq, fun i hi hlt => ?_⟩
      by_cases hlo : i < t.l
      · exact hnone i hi hlo
      · exact hno i (by omega) (by dsimp only at hlt; omega)
  | @below m hm hlt =>
    have hmlow := hm.low
    have hmhigh := hm.high hlr
    have hhalf := hm.half
    refine Or.inr ⟨{ h with
      rounds := hrounds
      halves := h.halves.tail (Part.upper hlr hm)
      low := by dsimp only; omega
      left_low := by dsimp only; omega
      left_high := by dsimp only; omega
      left_from := Or.inr ⟨by dsimp only; omega, hm.counts⟩
      left_last := fun i hi hlt' => hm.last i hi (by dsimp only at hlt'; omega)
      below := fun i hi hlt' hty => ?_
      cut := ?_
      matched := Or.inl rfl }, by dsimp only; omega⟩
    · rw [h.addr] at hlt
      by_cases hle : i ≤ m
      · exact Nat.lt_of_le_of_lt (hsort i m hi hle (by omega) hty hm.counts) hlt
      · exact absurd hty (hm.last i (by omega) (by dsimp only at hlt'; omega))
    · exact h.cut.imp_right fun ⟨p, hp, hpl, hpr⟩ => ⟨p, hp, by dsimp only; omega, hpr⟩
  | @above m hm hgt =>
    have hmlow := hm.low
    have hmhigh := hm.high hlr
    refine Or.inr ⟨{ h with
      rounds := hrounds
      halves := h.halves.tail (Part.lower hlr hm)
      right := rfl
      high := by dsimp only; omega
      above := fun i hi hle hty => ?_
      cut := Or.inr ⟨(t.l, t.r), h.halves, le_refl _, by dsimp only; omega, ?_⟩
      matched := Or.inl rfl }, by dsimp only; omega⟩
    · rw [h.addr] at hgt
      exact Nat.lt_of_lt_of_le hgt
        (hsort m i (by omega) (by dsimp only at hi; omega) hle hm.counts hty)
    · dsimp only
      rw [Int.sub_add_cancel]
      exact hm
  | @equal m hm heq => exact Or.inl ⟨m, h, hlr, hm, by rw [← h.addr]; exact heq, hu⟩

/-- The search comes to its end or to an entry that has the address. -/
theorem Seeking.run (hs : 0 ≤ s.l) (hsort : Sorted stabs type s.l s.r)
    (h : Seeking stabs type s t) :
    ∃ u, Seeking stabs type s u ∧ (u.r < u.l ∨ ∃ m, Hit stabs type s u m) := by
  induction hn : (t.r - t.l + 1).toNat using Nat.strongRecOn generalizing t with
  | ind n ih =>
    by_cases hlr : t.l ≤ t.r
    · obtain ⟨m, hm⟩ | ⟨hnext, hless⟩ := h.step hs hsort hlr
      · exact ⟨t, h, Or.inr ⟨m, hm⟩⟩
      · exact ih _ (by omega) hnext rfl
    · exact ⟨t, h, Or.inl (by omega)⟩

end Seek

end StabSearch
