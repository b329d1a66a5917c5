import OsEngineering.InodeCache
import Mathlib.Data.Fintype.Basic

/-! References, locks and keys of the inode cache, whatever numbers are looked up. -/
set_option linter.unusedSectionVars false

namespace InodeAccounts

open BlockAllocation ByteBlock FiniteTally HeldLocks InodeCache TransitionSystem

/-- The entry a handle counts a reference of. -/
def on : Use → Option Slot
  | .ref _ j | .loading _ j | .locked _ j | .changing j | .putting _ j => some j
  | _ => none

/-- The entry a handle has locked. -/
def locker : Use → Option Slot
  | .loading _ j | .locked _ j | .changing j => some j
  | .putting .dropping _ => none
  | .putting _ j => some j
  | _ => none

def SameKey (x y : Entry) : Prop := x.dev = y.dev ∧ x.inum = y.inum

variable {η : Type*} [Fintype η] [DecidableEq η]

structure Accounts (s : State η) : Prop where
  refs : Counts (fun j => (s.icache j).ref) (fun h => on (s.use h))
  locks : Agree (fun h => locker (s.use h)) s.lock
  unique : ∀ j k, 0 < (s.icache j).ref → 0 < (s.icache k).ref →
    SameKey (s.icache j) (s.icache k) → j = k

theorem on_of_locker {u : Use} {j : Slot} (h : locker u = some j) : on u = some j := by
  cases u with
  | putting phase k => cases phase <;> first | exact h | exact absurd h nofun
  | _ => first | exact h | exact absurd h nofun

theorem locker_of_eq {u v : Use} {j : Slot} (h : u = v) (hv : locker v = some j) :
    locker u = some j := h ▸ hv

theorem on_of_eq {u v : Use} {j : Slot} (h : u = v) (hv : on v = some j) : on u = some j := h ▸ hv

theorem source_on {u : Use} {j : Slot} (h : Source u j) : on u = some j := by
  simp only [Source] at h
  split at h
  · exact congrArg some h
  · exact congrArg some h
  · exact congrArg some h
  · exact h.elim

theorem find_some {s : State η} {dev : Dev} {inum : ℕ} {j : Slot} (h : find s dev inum = some j) :
    0 < (s.icache j).ref ∧ (s.icache j).dev = dev ∧ (s.icache j).inum = inum := by
  simpa using List.find?_some h

theorem find_none {s : State η} {dev : Dev} {inum : ℕ} (h : find s dev inum = none) (j : Slot)
    (hr : 0 < (s.icache j).ref) : ¬ ((s.icache j).dev = dev ∧ (s.icache j).inum = inum) := by
  have hj := List.find?_eq_none.mp h j (List.mem_finRange j)
  intro hk
  simp [hr, hk.1, hk.2] at hj

theorem empty_some {s : State η} {j : Slot} (h : empty s = some j) : (s.icache j).ref = 0 := by
  simpa using List.find?_some h

/-! What the updates do to each part. -/

section Parts

variable {s t : State η} {h : η} {j : Slot} {x : Entry} {u : Use}

theorem refs_update (hicache : t.icache = Function.update s.icache j x) :
    (fun k => (t.icache k).ref) = Function.update (fun k => (s.icache k).ref) j x.ref := by
  rw [hicache]
  exact Function.comp_update Entry.ref s.icache j x

theorem held_update {α : Type*} (f : Use → α) (huse : t.use = Function.update s.use h u) :
    (fun g => f (t.use g)) = Function.update (fun g => f (s.use g)) h (f u) := by
  rw [huse]
  exact Function.comp_update f s.use h u

theorem refs_keep (k : Accounts s) (hicache : t.icache = Function.update s.icache j x)
    (huse : t.use = Function.update s.use h u) (href : x.ref = (s.icache j).ref)
    (hon : on u = on (s.use h)) :
    Counts (fun j => (t.icache j).ref) (fun h => on (t.use h)) := by
  rw [refs_update hicache, held_update on huse, href, Function.update_eq_self]
  exact k.refs.keep hon

theorem refs_take (k : Accounts s) (hicache : t.icache = Function.update s.icache j x)
    (huse : t.use = Function.update s.use h u) (href : x.ref = (s.icache j).ref + 1)
    (hbefore : on (s.use h) = none) (hon : on u = some j) :
    Counts (fun j => (t.icache j).ref) (fun h => on (t.use h)) := by
  rw [refs_update hicache, held_update on huse, href, hon]
  exact k.refs.take hbefore

theorem refs_give (k : Accounts s) (hicache : t.icache = Function.update s.icache j x)
    (huse : t.use = Function.update s.use h u) (href : x.ref = (s.icache j).ref - 1)
    (hbefore : on (s.use h) = some j) (hon : on u = none) :
    Counts (fun j => (t.icache j).ref) (fun h => on (t.use h)) := by
  rw [refs_update hicache, held_update on huse, href, hon]
  exact k.refs.give hbefore

theorem locks_keep (k : Accounts s) (hlock : t.lock = s.lock)
    (huse : t.use = Function.update s.use h u) (hu : locker u = locker (s.use h)) :
    Agree (fun h => locker (t.use h)) t.lock := by
  rw [held_update locker huse, hlock]
  exact k.locks.keep hu

theorem locks_acquire (k : Accounts s) (hlock : t.lock = Function.update s.lock j (some h))
    (huse : t.use = Function.update s.use h u) (hfree : s.lock j = none)
    (hbefore : locker (s.use h) = none) (hu : locker u = some j) :
    Agree (fun h => locker (t.use h)) t.lock := by
  rw [held_update locker huse, hlock, hu]
  exact k.locks.acquire hbefore hfree

theorem locks_release (k : Accounts s) (hlock : t.lock = Function.update s.lock j none)
    (huse : t.use = Function.update s.use h u) (hbefore : locker (s.use h) = some j)
    (hu : locker u = none) : Agree (fun h => locker (t.use h)) t.lock := by
  rw [held_update locker huse, hlock, hu]
  exact k.locks.release hbefore

/-- An entry in use keeps its key and one that is not stays so. -/
theorem unique_keep (k : Accounts s) (hicache : t.icache = Function.update s.icache j x)
    (hkey : SameKey x (s.icache j)) (href : 0 < x.ref → 0 < (s.icache j).ref) :
    ∀ a b, 0 < (t.icache a).ref → 0 < (t.icache b).ref → SameKey (t.icache a) (t.icache b) →
      a = b := by
  have hold : ∀ a, SameKey (t.icache a) (s.icache a) ∧
      (0 < (t.icache a).ref → 0 < (s.icache a).ref) := by
    intro a
    by_cases ha : a = j
    · rw [ha, hicache, Function.update_self]
      exact ⟨hkey, href⟩
    · rw [hicache, Function.update_of_ne ha]
      exact ⟨⟨rfl, rfl⟩, id⟩
  intro a b ha hb hab
  obtain ⟨hka, hra⟩ := hold a
  obtain ⟨hkb, hrb⟩ := hold b
  refine k.unique a b (hra ha) (hrb hb) ?_
  exact ⟨hka.1.symm.trans (hab.1.trans hkb.1), hka.2.symm.trans (hab.2.trans hkb.2)⟩

/-- The events of a handle that keeps its reference. -/
theorem keep_accounts (k : Accounts s) (hicache : t.icache = Function.update s.icache j x)
    (huse : t.use = Function.update s.use h u) (hkey : SameKey x (s.icache j))
    (href : x.ref = (s.icache j).ref) (hon : on u = on (s.use h))
    (hlocks : Agree (fun h => locker (t.use h)) t.lock) : Accounts t := by
  refine ⟨refs_keep k hicache huse href hon, hlocks, unique_keep k hicache hkey ?_⟩
  rw [href]
  exact id

/-- The events that leave the entries as they are. -/
theorem move_accounts (k : Accounts s) (hicache : t.icache = s.icache)
    (huse : t.use = Function.update s.use h u) (hon : on u = on (s.use h))
    (hlocks : Agree (fun h => locker (t.use h)) t.lock) : Accounts t := by
  refine ⟨?_, hlocks, ?_⟩
  · rw [held_update on huse, hicache]
    exact k.refs.keep hon
  · rw [hicache]
    exact k.unique

theorem halt_accounts (k : Accounts s) (msg : String) :
    Accounts { s with halted := some msg } := ⟨k.refs, k.locks, k.unique⟩

end Parts

/-! The events. -/

section Events

variable {s : State η} {h : η}

theorem igetFor_hit {dev : Dev} {inum : ℕ} {new : Option Half} {j : Slot}
    (hj : find s dev inum = some j) : igetFor s h dev inum new =
      (s.setEntry j { s.icache j with ref := (s.icache j).ref + 1 }).setUse h (.ref new j) := by
  simp only [igetFor, iget, hj]

theorem igetFor_recycle {dev : Dev} {inum : ℕ} {new : Option Half} {j : Slot}
    (hn : find s dev inum = none) (hj : empty s = some j) : igetFor s h dev inum new =
      (s.setEntry j { s.icache j with
        dev := dev
        inum := inum
        ref := 1
        valid := false }).setUse h (.ref new j) := by
  simp only [igetFor, iget, hn, hj, Option.map]

theorem igetFor_full {dev : Dev} {inum : ℕ} {new : Option Half}
    (hn : find s dev inum = none) (hj : empty s = none) : igetFor s h dev inum new =
      { s with halted := some "iget: no inodes" } := by
  simp only [igetFor, iget, hn, hj, Option.map]

theorem igetFor_accounts (k : Accounts s) (hbefore : on (s.use h) = none)
    (hlocker : locker (s.use h) = none) (dev : Dev) (inum : ℕ) (new : Option Half) :
    Accounts (igetFor s h dev inum new) := by
  cases hn : find s dev inum with
  | some j =>
    obtain ⟨hpos, -⟩ := find_some hn
    rw [igetFor_hit hn]
    exact ⟨refs_take k rfl rfl rfl hbefore rfl, locks_keep k rfl rfl hlocker.symm,
      unique_keep k rfl ⟨rfl, rfl⟩ fun _ => hpos⟩
  | none =>
    cases hj : empty s with
    | none =>
      rw [igetFor_full hn hj]
      exact halt_accounts k _
    | some j =>
      have hzero := empty_some hj
      rw [igetFor_recycle hn hj]
      refine ⟨refs_take k rfl rfl ?_ hbefore rfl, locks_keep k rfl rfl hlocker.symm, ?_⟩
      · rw [hzero]
        rfl
      · -- the recycled entry has the key no other entry in use has
        intro a b ha hb hab
        change 0 < (Function.update s.icache j _ a).ref at ha
        change 0 < (Function.update s.icache j _ b).ref at hb
        change SameKey (Function.update s.icache j _ a) (Function.update s.icache j _ b) at hab
        by_cases haj : a = j
        · by_cases hbj : b = j
          · rw [haj, hbj]
          · rw [Function.update_of_ne hbj] at hb hab
            rw [haj, Function.update_self] at hab
            exact absurd ⟨hab.1.symm, hab.2.symm⟩ (find_none hn b hb)
        · rw [Function.update_of_ne haj] at ha hab
          by_cases hbj : b = j
          · rw [hbj, Function.update_self] at hab
            exact absurd ⟨hab.1, hab.2⟩ (find_none hn a ha)
          · rw [Function.update_of_ne hbj] at hb hab
            exact k.unique a b ha hb hab

theorem scan_accounts (k : Accounts s) {dev : Dev} {type : Half} {inum : ℕ} (ninodes : ℕ)
    (hu : s.use h = .scanning dev type inum) : Accounts (scan ninodes s h dev type inum) := by
  have hon : on (s.use h) = none := by rw [hu]; rfl
  have hlk : locker (s.use h) = none := by rw [hu]; rfl
  simp only [scan]
  split
  · split
    · exact move_accounts k rfl rfl hon.symm (locks_keep k rfl rfl hlk.symm)
    · exact move_accounts k rfl rfl hon.symm (locks_keep k rfl rfl hlk.symm)
  · exact halt_accounts k _

theorem load_accounts (k : Accounts s) {new : Option Half} {j : Slot}
    (hu : s.use h = .loading new j) : Accounts (load s h new j) := by
  have hon := on_of_eq hu rfl
  have hlk := locker_of_eq hu rfl
  simp only [load]
  split
  · have hsame : s.use = Function.update s.use h (s.use h) := (Function.update_eq_self h s.use).symm
    exact keep_accounts k rfl hsame ⟨rfl, rfl⟩ rfl rfl (locks_keep k rfl hsame rfl)
  · exact keep_accounts k rfl rfl ⟨rfl, rfl⟩ rfl hon.symm (locks_keep k rfl rfl hlk.symm)

end Events

theorem next_accounts {s : State η} (k : Accounts s) (ninodes : ℕ) {e : Event η}
    (he : Enabled s e) : Accounts (next ninodes s e) := by
  obtain ⟨-, he⟩ := he
  cases e with
  | ialloc h dev type =>
    have hon : on (s.use h) = none := by rw [he.1]; rfl
    have hlk : locker (s.use h) = none := by rw [he.1]; rfl
    exact move_accounts k rfl rfl hon.symm (locks_keep k rfl rfl hlk.symm)
  | scan h dev type inum => exact scan_accounts k ninodes he
  | igetNew h dev type inum =>
    exact igetFor_accounts k (by rw [he]; rfl) (by rw [he]; rfl) dev inum (some type)
  | iget h dev inum =>
    exact igetFor_accounts k (by rw [he]; rfl) (by rw [he]; rfl) dev inum none
  | idup h g j =>
    obtain ⟨hh, hg⟩ := he
    have hon : on (s.use h) = none := by rw [hh]; rfl
    have hlk : locker (s.use h) = none := by rw [hh]; rfl
    have hpos : 0 < (s.icache j).ref := k.refs.pos (source_on hg)
    exact ⟨refs_take k rfl rfl rfl hon rfl, locks_keep k rfl rfl hlk.symm,
      unique_keep k rfl ⟨rfl, rfl⟩ fun _ => hpos⟩
  | ilock h new j =>
    obtain ⟨hh, hfree⟩ := he
    have hlk : locker (s.use h) = none := by rw [hh]; rfl
    refine move_accounts (h := h) k rfl rfl ?_ (locks_acquire k rfl rfl hfree hlk ?_)
    · rw [hh]
      split <;> rfl
    · split <;> rfl
  | load h new j => exact load_accounts k he
  | change h new j x =>
    have hlk := locker_of_eq he rfl
    exact keep_accounts k rfl rfl ⟨rfl, rfl⟩ rfl (on_of_locker hlk).symm
      (locks_keep k rfl rfl hlk.symm)
  | iupdate h j =>
    have hlk := locker_of_eq he rfl
    exact move_accounts k rfl rfl (on_of_locker hlk).symm (locks_keep k rfl rfl hlk.symm)
  | iunlock h new j =>
    have hlk := locker_of_eq he rfl
    exact move_accounts k rfl rfl (on_of_locker hlk).symm (locks_release k rfl rfl hlk rfl)
  | iput h j =>
    obtain ⟨hh, hfree⟩ := he
    have hlk : locker (s.use h) = none := by rw [hh]; rfl
    refine move_accounts (h := h) k rfl rfl ?_ (locks_acquire k rfl rfl hfree hlk ?_)
    · rw [hh]
      rfl
    · split <;> rfl
  | check h j =>
    have hlk := locker_of_eq he rfl
    refine move_accounts (h := h) k rfl rfl (on_of_locker hlk).symm (locks_keep k rfl rfl ?_)
    rw [hlk]
    split <;> rfl
  | itrunc h j =>
    have hlk := locker_of_eq he rfl
    exact keep_accounts k rfl rfl ⟨rfl, rfl⟩ rfl (on_of_locker hlk).symm
      (locks_keep k rfl rfl hlk.symm)
  | clear h j =>
    have hlk := locker_of_eq he rfl
    exact keep_accounts k rfl rfl ⟨rfl, rfl⟩ rfl (on_of_locker hlk).symm
      (locks_keep k rfl rfl hlk.symm)
  | invalidate h j =>
    have hlk := locker_of_eq he rfl
    exact keep_accounts k rfl rfl ⟨rfl, rfl⟩ rfl (on_of_locker hlk).symm
      (locks_keep k rfl rfl hlk.symm)
  | releasesleep h j =>
    have hlk := locker_of_eq he rfl
    exact move_accounts k rfl rfl (on_of_locker hlk).symm (locks_release k rfl rfl hlk rfl)
  | decrement h j =>
    have hon := on_of_eq he rfl
    have hlk : locker (s.use h) = none := by rw [he]; rfl
    have hpos : 0 < (s.icache j).ref := k.refs.pos hon
    refine ⟨?_, locks_keep k rfl rfl hlk.symm, unique_keep k rfl ⟨rfl, rfl⟩ fun _ => hpos⟩
    exact refs_give k rfl rfl rfl hon rfl

theorem initial_accounts (disk : Dev → ℕ → Dinode) : Accounts (initial disk : State η) := by
  refine ⟨?_, ?_, ?_⟩
  · intro j
    simp [initial, tally, on]
  · intro h j
    exact iff_of_false nofun nofun
  · intro j k hj
    exact absurd hj (lt_irrefl 0)

theorem run_accounts {ninodes : ℕ} {disk : Dev → ℕ → Dinode} {es : List (Event η)} {s : State η}
    (r : Run (machine ninodes).Step (· = initial disk) es s) : Accounts s := by
  refine r.invariant (I := Accounts) ?_ ?_
  · rintro s rfl
    exact initial_accounts disk
  · rintro s e t k ⟨he, rfl⟩
    exact next_accounts k ninodes he

end InodeAccounts
