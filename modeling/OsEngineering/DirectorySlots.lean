import OsEngineering.Directories
import OsEngineering.FileArrays
import OsEngineering.NamedSlots

/-! The bytes of a directory as a table of slots, and the loops of dirlookup() and dirlink(). -/
namespace DirectorySlots

open ByteBlock FaultState KernelParams BlockAllocation BlockSlots BlockOwnership FreeBlocks
open FileReads FileContents FileWrites ListOverwrite NamedSlots Directories

/-- The bytes that strncmp() may look at before a zero. -/
def significantTo : ℕ → List Byte → List Byte
  | 0, _ => []
  | n + 1, p => if p.headD 0 = 0 then [] else p.headD 0 :: significantTo n p.tail

def significant (name : List Byte) : List Byte := significantTo DIRSIZ name

theorem strncmp_eq_zero (n : ℕ) (p q : List Byte) :
    strncmp n p q = 0 ↔ significantTo n p = significantTo n q := by
  induction n generalizing p q with
  | zero => exact iff_of_true rfl rfl
  | succ n ih =>
    rw [strncmp, significantTo, significantTo]
    have hsub : ((p.headD 0).toNat : ℤ) - (q.headD 0).toNat = 0 ↔ p.headD 0 = q.headD 0 := by
      rw [← BitVec.toNat_inj]
      omega
    by_cases hp : p.headD 0 = 0
    · rw [if_neg fun h => h.1 hp, hsub, hp, if_pos rfl]
      by_cases hq : q.headD 0 = 0
      · rw [if_pos hq, hq]
        exact iff_of_true rfl rfl
      · rw [if_neg hq]
        exact iff_of_false (fun h => hq h.symm) (by rintro ⟨⟩)
    · rw [if_neg hp]
      by_cases hpq : p.headD 0 = q.headD 0
      · rw [if_pos ⟨hp, hpq⟩, ih, if_neg (hpq ▸ hp), hpq, List.cons.injEq, and_iff_right rfl]
      · rw [if_neg fun h => hpq h.2, hsub]
        refine iff_of_false hpq fun h => ?_
        by_cases hq : q.headD 0 = 0
        · rw [if_pos hq] at h
          cases h
        · rw [if_neg hq] at h
          exact hpq (List.cons.inj h).1

theorem namecmp_eq_zero (s t : List Byte) : namecmp s t = 0 ↔ significant s = significant t :=
  strncmp_eq_zero DIRSIZ s t

theorem significantTo_zeros (n m : ℕ) : significantTo n (List.replicate m 0) = [] := by
  cases n with
  | zero => rfl
  | succ n =>
    rw [significantTo, if_pos]
    cases m with
    | zero => rfl
    | succ m => rfl

/-- What strncpy() stores are the significant bytes. -/
theorem significantTo_strncpy (n : ℕ) (t : List Byte) :
    significantTo n (strncpy n t) = significantTo n t := by
  induction n generalizing t with
  | zero => rfl
  | succ n ih =>
    rw [strncpy]
    by_cases ht : t.headD 0 = 0
    · rw [if_pos ht, significantTo_zeros, significantTo, if_pos ht]
    · rw [if_neg ht]
      simp only [significantTo, List.headD_cons, List.tail_cons, if_neg ht, ih]

theorem length_strncpy (n : ℕ) (t : List Byte) : (strncpy n t).length = n := by
  induction n generalizing t with
  | zero => rfl
  | succ n ih =>
    rw [strncpy]
    split
    · rw [List.length_replicate]
    · rw [List.length_cons, ih]

/-! Entries -/

theorem length_dirent (inum : ℕ) (name : List Byte) :
    (dirent inum (strncpy DIRSIZ name)).length = 16 := by
  rw [dirent, List.length_cons, List.length_cons, length_strncpy]
  rfl

/-- A slot is free if its number is 0. -/
def slotOf (de : List Byte) : Option (List Byte × ℕ) :=
  if direntInum de = 0 then none else some (significant (de.drop 2), direntInum de)

theorem slotOf_dirent {inum : ℕ} (hpos : 0 < inum) (hlt : inum < 65536) (name : List Byte) :
    slotOf (dirent inum (strncpy DIRSIZ name)) = some (significant name, inum) := by
  have hinum : direntInum (dirent inum (strncpy DIRSIZ name)) = inum := by
    change (BitVec.ofNat 8 inum).toNat + 256 * (BitVec.ofNat 8 (inum / 256)).toNat = inum
    rw [BitVec.toNat_ofNat, BitVec.toNat_ofNat]
    omega
  have hname : significant ((dirent inum (strncpy DIRSIZ name)).drop 2) = significant name :=
    significantTo_strncpy DIRSIZ name
  rw [slotOf, hinum, if_neg (Nat.ne_of_gt hpos), hname]

theorem slotOf_zeros : slotOf (List.replicate 16 0) = none := rfl

/-- Slot `n` of a directory with the bytes `c`. -/
def slotAt (c : List Byte) (n : ℕ) : Option (List Byte × ℕ) :=
  if 16 * n + 16 ≤ c.length then slotOf (slice c (16 * n) 16) else none

theorem slotAt_overwrite {c de : List Byte} {n : ℕ} (hwhole : 16 ∣ c.length)
    (hn : 16 * n ≤ c.length) (hde : de.length = 16) :
    slotAt (overwrite c (16 * n) de) = Function.update (slotAt c) n (slotOf de) := by
  have hlen := length_overwrite hn de
  have hget := getElem?_overwrite hn de
  rw [hde] at hlen hget
  obtain ⟨m, hm⟩ := hwhole
  funext j
  unfold slotAt
  by_cases hj : j = n
  · subst hj
    have hslice : slice (overwrite c (16 * j) de) (16 * j) 16 = de := by
      apply List.ext_getElem?
      intro k
      unfold slice
      rw [List.getElem?_take, List.getElem?_drop, hget]
      split
      next hk => rw [if_pos (by omega), Nat.add_sub_cancel_left]
      next hk => rw [List.getElem?_eq_none (by omega)]
    rw [Function.update_self, if_pos (by omega), hslice]
  · have hslice : slice (overwrite c (16 * n) de) (16 * j) 16 = slice c (16 * j) 16 := by
      apply List.ext_getElem?
      intro k
      unfold slice
      rw [List.getElem?_take, List.getElem?_take, List.getElem?_drop, List.getElem?_drop, hget]
      split
      next hk => rw [if_neg (by omega)]
      next => rfl
    rw [Function.update_of_ne hj, hslice]
    by_cases hin : 16 * j + 16 ≤ c.length
    · rw [if_pos hin, if_pos (by omega)]
    · rw [if_neg hin, if_neg (by omega)]

/-! The loops -/

variable {sb : Superblock} {s : Fs} {dp : ℕ} {read : Half → Option (Word → ℤ × List Byte)}

def slots (sb : Superblock) (s : Fs) (dp : ℕ) : ℕ → Option (List Byte × ℕ) :=
  slotAt (contents sb s dp)

/-- A directory under its lock: whole entries, and different names. -/
structure Directory (sb : Superblock) (s : Fs) (dp : ℕ) : Prop where
  consistent : Consistent sb s
  inum : dp < sb.ninodes
  locked : Locked s dp
  noHole : NoHole sb s dp
  type_eq : (inode sb s dp).type = T_DIR
  whole : 16 ∣ fileSize sb s dp
  distinct : Distinct (slots sb s dp)

/-- The number of slots. -/
def places (sb : Superblock) (s : Fs) (dp : ℕ) : ℕ := fileSize sb s dp / 16

theorem Directory.type_ne (h : Directory sb s dp) : (inode sb s dp).type ≠ T_DEV := by
  rw [h.type_eq]
  decide

theorem Directory.size_eq (h : Directory sb s dp) : fileSize sb s dp = 16 * places sb s dp :=
  (Nat.mul_div_cancel' h.whole).symm

theorem Directory.places_le (h : Directory sb s dp) : places sb s dp ≤ 4480 := by
  have hmax := h.noHole.size_le
  have hbig : MAXFILE * BSIZE = 71680 := rfl
  have hsize := h.size_eq
  omega

theorem slots_eq (h : Directory sb s dp) (n : ℕ) : slots sb s dp n =
    if n < places sb s dp then slotOf (slice (contents sb s dp) (16 * n) 16) else none := by
  have hsize := h.size_eq
  unfold slots slotAt
  rw [length_contents]
  by_cases hn : n < places sb s dp
  · rw [if_pos hn, if_pos (by omega)]
  · rw [if_neg hn, if_neg (by omega)]

theorem slots_out (h : Directory sb s dp) {n : ℕ} (hn : ¬ n < places sb s dp) :
    slots sb s dp n = none := by
  rw [slots_eq h, if_neg hn]

theorem toNat_place {n : ℕ} (h : Directory sb s dp) (hn : n ≤ places sb s dp) :
    (BitVec.ofNat 32 (16 * n)).toNat = 16 * n := by
  have hle := h.places_le
  rw [BitVec.toNat_ofNat]
  omega

/-- The test of the loops. -/
theorem place_lt {n : ℕ} (h : Directory sb s dp) (hn : n ≤ places sb s dp) :
    BitVec.ofNat 32 (16 * n) < (inode sb s dp).size ↔ n < places sb s dp := by
  have hsize := h.size_eq
  rw [fileSize] at hsize
  rw [BitVec.lt_def, toNat_place h hn]
  omega

theorem place_succ (n : ℕ) :
    BitVec.ofNat 32 (16 * n) + 16 = BitVec.ofNat 32 (16 * (n + 1)) := by
  rw [Nat.mul_add, BitVec.ofNat_add]
  rfl

theorem readi_slot (h : Directory sb s dp) {n : ℕ} (hn : n < places sb s dp) :
    readi sb read dp (BitVec.ofNat 32 (16 * n)) 16 s =
      .ok ((16, slice (contents sb s dp) (16 * n) 16), s) := by
  have hle := h.places_le
  have hsize := h.size_eq
  have hoff := toNat_place h (Nat.le_of_lt hn)
  have h16 : (16 : Word).toNat = 16 := rfl
  have hin : ¬ Refused (fileSize sb s dp) (BitVec.ofNat 32 (16 * n)) 16 := by
    unfold Refused
    rw [hoff, h16]
    omega
  have hlen : (slice (contents sb s dp) (16 * n) 16).length = 16 := by
    rw [slice, List.length_take, List.length_drop, length_contents]
    omega
  rw [readi_run read h.noHole h.type_ne, if_neg hin, hoff, h16, hlen]
  rfl

/-- What the loop of dirlookup() finds from slot `n` on. -/
structure Finds (slot : ℕ → Option (List Byte × ℕ)) (k : List Byte) (n : ℕ)
    (r : Option (ℕ × Word)) : Prop where
  found : ∀ v off, r = some (v, off) → ∃ m, off = BitVec.ofNat 32 (16 * m) ∧ Binds slot k v m
  missed : r = none → ∀ m, n ≤ m → ∀ v, ¬ Binds slot k v m

theorem Finds.later {slot : ℕ → Option (List Byte × ℕ)} {k : List Byte} {n : ℕ}
    {r : Option (ℕ × Word)} (h : Finds slot k (n + 1) r) (hn : ∀ v, ¬ Binds slot k v n) :
    Finds slot k n r where
  found := h.found
  missed := by
    intro hr m hm v
    obtain rfl | hlt := Nat.eq_or_lt_of_le hm
    · exact hn v
    · exact h.missed hr m hlt v

theorem finds_none (h : Directory sb s dp) (k : List Byte) {n : ℕ} (hn : places sb s dp ≤ n) :
    Finds (slots sb s dp) k n none := by
  refine ⟨nofun, fun _ m hm v hb => ?_⟩
  rw [Binds, slots_out h (by omega)] at hb
  cases hb

theorem dirlookupFrom_run (h : Directory sb s dp)
    (read : Half → Option (Word → ℤ × List Byte)) (name : List Byte) {k n : ℕ}
    (hn : n ≤ places sb s dp) (hk : places sb s dp ≤ n + k) :
    ∃ r, dirlookupFrom sb read dp name k (BitVec.ofNat 32 (16 * n)) s = .ok (r, s) ∧
      Finds (slots sb s dp) (significant name) n r := by
  have hip : ip sb dp s = .ok (inode sb s dp, s) := rfl
  induction k generalizing n with
  | zero => exact ⟨none, rfl, finds_none h _ (by omega)⟩
  | succ k ih =>
    rw [dirlookupFrom, run_bind hip]
    by_cases hlt : n < places sb s dp
    · obtain ⟨r, hrun, hfinds⟩ := ih (n := n + 1) hlt (by omega)
      have hslot : slots sb s dp n = slotOf (slice (contents sb s dp) (16 * n) 16) := by
        rw [slots_eq h, if_pos hlt]
      rw [if_pos ((place_lt h hn).mpr hlt), run_bind (readi_slot h hlt)]
      dsimp only
      rw [if_neg (by decide), place_succ]
      by_cases hfree : direntInum (slice (contents sb s dp) (16 * n) 16) = 0
      · rw [if_pos hfree]
        refine ⟨r, hrun, hfinds.later fun v hb => ?_⟩
        rw [Binds, hslot, slotOf, if_pos hfree] at hb
        cases hb
      · rw [slotOf, if_neg hfree] at hslot
        rw [if_neg hfree]
        by_cases hname : namecmp name ((slice (contents sb s dp) (16 * n) 16).drop 2) = 0
        · rw [if_pos hname]
          refine ⟨_, rfl, ?_, nofun⟩
          rintro _ _ ⟨⟩
          refine ⟨n, rfl, ?_⟩
          rw [Binds, hslot, (namecmp_eq_zero _ _).mp hname]
        · rw [if_neg hname]
          refine ⟨r, hrun, hfinds.later fun v hb => ?_⟩
          rw [Binds, hslot, Option.some.injEq, Prod.mk.injEq] at hb
          exact hname ((namecmp_eq_zero _ _).mpr hb.1.symm)
    · rw [if_neg fun hin => hlt ((place_lt h hn).mp hin)]
      exact ⟨none, rfl, finds_none h _ (by omega)⟩

theorem dirlookup_run (h : Directory sb s dp) (read : Half → Option (Word → ℤ × List Byte))
    (name : List Byte) : ∃ r, FileReads.dirlookup sb read dp name s = .ok (r, s) ∧
      Finds (slots sb s dp) (significant name) 0 r := by
  have hip : ip sb dp s = .ok (inode sb s dp, s) := rfl
  have hsize := h.size_eq
  rw [fileSize] at hsize
  obtain ⟨r, hrun, hfinds⟩ := dirlookupFrom_run h read name (Nat.zero_le _)
    (k := (inode sb s dp).size.toNat) (by omega)
  refine ⟨r, ?_, hfinds⟩
  rw [FileReads.dirlookup, run_bind hip, if_neg fun hne => hne h.type_eq]
  exact hrun

/-- With different names, the entry of a name is found. -/
theorem dirlookup_bound (h : Directory sb s dp) (read : Half → Option (Word → ℤ × List Byte))
    {name : List Byte} {v n : ℕ} (hb : Binds (slots sb s dp) (significant name) v n) :
    FileReads.dirlookup sb read dp name s = .ok (some (v, BitVec.ofNat 32 (16 * n)), s) := by
  obtain ⟨r, hrun, hfinds⟩ := dirlookup_run h read name
  cases r with
  | none => exact absurd hb (hfinds.missed rfl n (Nat.zero_le n) v)
  | some p =>
    obtain ⟨w, off⟩ := p
    obtain ⟨m, rfl, hm⟩ := hfinds.found w off rfl
    obtain rfl := h.distinct _ _ _ _ _ hm hb
    obtain rfl := h.distinct.value hm hb
    exact hrun

theorem dirlookup_absent (h : Directory sb s dp) (read : Half → Option (Word → ℤ × List Byte))
    {name : List Byte} (hno : Absent (slots sb s dp) (significant name)) :
    FileReads.dirlookup sb read dp name s = .ok (none, s) := by
  obtain ⟨r, hrun, hfinds⟩ := dirlookup_run h read name
  cases r with
  | none => exact hrun
  | some p =>
    obtain ⟨m, -, hm⟩ := hfinds.found p.1 p.2 rfl
    exact absurd hm (hno _ m)

theorem findEmptyFrom_run (h : Directory sb s dp)
    (read : Half → Option (Word → ℤ × List Byte)) {k n : ℕ} (hn : n ≤ places sb s dp)
    (hk : places sb s dp ≤ n + k) :
    ∃ m, findEmptyFrom sb read dp k (BitVec.ofNat 32 (16 * n)) s =
        .ok (BitVec.ofNat 32 (16 * m), s) ∧ n ≤ m ∧ m ≤ places sb s dp ∧
      slots sb s dp m = none ∧ ∀ j, n ≤ j → j < m → slots sb s dp j ≠ none := by
  have hip : ip sb dp s = .ok (inode sb s dp, s) := rfl
  induction k generalizing n with
  | zero => exact ⟨n, rfl, Nat.le_refl n, hn, slots_out h (by omega), by omega⟩
  | succ k ih =>
    rw [findEmptyFrom, run_bind hip]
    by_cases hlt : n < places sb s dp
    · have hslot : slots sb s dp n = slotOf (slice (contents sb s dp) (16 * n) 16) := by
        rw [slots_eq h, if_pos hlt]
      rw [if_pos ((place_lt h hn).mpr hlt), run_bind (readi_slot h hlt)]
      dsimp only
      rw [if_neg (by decide), place_succ]
      by_cases hfree : direntInum (slice (contents sb s dp) (16 * n) 16) = 0
      · rw [if_pos hfree]
        refine ⟨n, rfl, Nat.le_refl n, hn, ?_, by omega⟩
        rw [hslot, slotOf, if_pos hfree]
      · rw [if_neg hfree]
        obtain ⟨m, hrun, hle, hm, hnone, htaken⟩ := ih (n := n + 1) hlt (by omega)
        refine ⟨m, hrun, by omega, hm, hnone, fun j hj hjm => ?_⟩
        obtain rfl | hlater := Nat.eq_or_lt_of_le hj
        · rw [hslot, slotOf, if_neg hfree]
          nofun
        · exact htaken j hlater hjm
    · rw [if_neg fun hin => hlt ((place_lt h hn).mp hin)]
      exact ⟨n, rfl, Nat.le_refl n, hn, slots_out h hlt, by omega⟩

/-- The first free slot, or the end. -/
theorem findEmpty_run (h : Directory sb s dp) (read : Half → Option (Word → ℤ × List Byte)) :
    ∃ m, findEmpty sb read dp s = .ok (BitVec.ofNat 32 (16 * m), s) ∧ m ≤ places sb s dp ∧
      slots sb s dp m = none ∧ ∀ j < m, slots sb s dp j ≠ none := by
  have hip : ip sb dp s = .ok (inode sb s dp, s) := rfl
  have hsize := h.size_eq
  rw [fileSize] at hsize
  obtain ⟨m, hrun, -, hm, hnone, htaken⟩ := findEmptyFrom_run h read (Nat.zero_le _)
    (k := (inode sb s dp).size.toNat) (by omega)
  refine ⟨m, ?_, hm, hnone, fun j hj => htaken j (Nat.zero_le j) hj⟩
  rw [findEmpty, run_bind hip]
  exact hrun

end DirectorySlots
