import OsEngineering.FileReads
import OsEngineering.ListOverwrite
import OsEngineering.MkfsBooks

/-! The bytes of a file, and readi() of a file without holes. -/
namespace FileContents

open ByteBlock FaultState KernelParams BlockAllocation BlockSlots BlockOwnership FileReads
open MkfsBooks (fileSlot fileSlot_inj fileSlot_ne_index)

section Contents

variable (sb : Superblock) (s : Fs) (i : ℕ)

def fileSize : ℕ := (inode sb s i).size.toNat

/-- The number of block `k` of the file, 0 if there is none. -/
def blockOf (k : ℕ) : Word := slot sb s (fileSlot i k)

/-- A block that is not there counts as all zero, as balloc() would make it. -/
def fileByte (k : ℕ) : Byte :=
  if blockOf sb s i (k / BSIZE) = 0 then 0
  else byte (s.disk (blockOf sb s i (k / BSIZE)).toNat) (k % BSIZE)

def contents : List Byte := (List.range (fileSize sb s i)).map (fileByte sb s i)

def NoHole : Prop := ∀ k < fileSize sb s i, blockOf sb s i (k / BSIZE) ≠ 0

end Contents

variable {sb : Superblock} {s t : Fs} {i j k : ℕ} {ip : Inode}

theorem length_contents (s : Fs) (i : ℕ) : (contents sb s i).length = fileSize sb s i := by
  rw [contents, List.length_map, List.length_range]

theorem getElem?_contents (s : Fs) (i k : ℕ) : (contents sb s i)[k]? =
    if k < fileSize sb s i then some (fileByte sb s i k) else none := by
  unfold contents
  rw [List.getElem?_map]
  split
  next hk => rw [List.getElem?_range hk, Option.map_some]
  next hk => rw [List.getElem?_eq_none (by rw [List.length_range]; omega), Option.map_none]

theorem getElem_contents (h : k < (contents sb s i).length) :
    (contents sb s i)[k] = fileByte sb s i k := by
  simp only [contents, List.getElem_map, List.getElem_range]

theorem contents_congr (hsize : fileSize sb t i = fileSize sb s i)
    (hbyte : ∀ k < fileSize sb s i, fileByte sb t i k = fileByte sb s i k) :
    contents sb t i = contents sb s i := by
  apply List.ext_getElem?
  intro k
  rw [getElem?_contents, getElem?_contents, hsize]
  split
  next hk => rw [hbyte k hk]
  next => rfl

/-- Blocks past the end of the indirect block do not exist. -/
theorem blockOf_lt (h : blockOf sb s i k ≠ 0) : k < MAXFILE := by
  unfold blockOf fileSlot at h
  by_contra hk
  unfold MAXFILE at hk
  rw [if_neg (by omega), slot_entry_out s i (by omega)] at h
  exact h rfl

theorem NoHole.size_le (h : NoHole sb s i) : fileSize sb s i ≤ MAXFILE * BSIZE := by
  by_contra hbig
  have hblock := blockOf_lt (h (MAXFILE * BSIZE) (by omega))
  rw [Nat.mul_div_cancel _ (by decide)] at hblock
  exact Nat.lt_irrefl _ hblock

theorem ref_blockOf (h : blockOf sb s i k ≠ 0) :
    Ref sb s (fileSlot i k) (blockOf sb s i k).toNat := ref_of_slot h

/-! bmap() of a block that is there -/

theorem bmapAddr_mapped (h : slot sb s (.addr i k) ≠ 0) :
    bmapAddr sb i k s = .ok ((slot sb s (.addr i k)).toNat, s) := by
  have hslot : slot sb s (.addr i k) = (inode sb s i).addrs k := by
    rw [slot] at h ⊢
    split at h
    next hin => rw [if_pos hin]
    next => exact absurd rfl h
  have hrun : ip sb i s = .ok (inode sb s i, s) := rfl
  rw [hslot] at h ⊢
  rw [bmapAddr, run_bind hrun, if_neg h]
  rfl

theorem bmap_mapped (h : blockOf sb s i k ≠ 0) :
    bmap sb i k s = .ok ((blockOf sb s i k).toNat, s) := by
  unfold blockOf fileSlot at h ⊢
  unfold bmap
  split at h
  next hk =>
    rw [if_pos hk, if_pos hk]
    exact bmapAddr_mapped h
  next hk =>
    have hj : k - NDIRECT < NINDIRECT := by
      by_contra hj
      exact h (slot_entry_out s i hj)
    rw [if_neg hk, if_neg hk]
    rw [slot_entry_of_index s i hj] at h ⊢
    split at h
    next => exact absurd rfl h
    next hindex =>
      have hread : bread (slot sb s (.addr i NDIRECT)).toNat s =
        .ok (s.disk (slot sb s (.addr i NDIRECT)).toNat, s) := rfl
      rw [if_pos hj, if_neg hindex, run_bind (bmapAddr_mapped hindex), run_bind hread, if_neg h]
      rfl

/-! readi() -/

theorem copyOut_blockOf {off m : ℕ} (hblock : blockOf sb s i (off / BSIZE) ≠ 0)
    (hm : off % BSIZE + m ≤ BSIZE) (hsize : off + m ≤ fileSize sb s i) :
    copyOut (s.disk (blockOf sb s i (off / BSIZE)).toNat) off m =
      ((contents sb s i).drop off).take m := by
  have hb : BSIZE = 512 := rfl
  have hlen : (contents sb s i).length = fileSize sb s i := length_contents s i
  apply List.ext_getElem
  · rw [copyOut, List.length_map, List.length_range, List.length_take, List.length_drop]
    omega
  · intro j hj hj'
    rw [copyOut, List.length_map, List.length_range] at hj
    have hdiv : (off + j) / BSIZE = off / BSIZE := by
      rw [hb] at hm ⊢
      omega
    have hmod : (off + j) % BSIZE = off % BSIZE + j := by
      rw [hb] at hm ⊢
      omega
    simp only [copyOut, List.getElem_map, List.getElem_range, List.getElem_take,
      List.getElem_drop, getElem_contents]
    rw [fileByte, hdiv, hmod, if_neg hblock]

theorem readFrom_run (h : NoHole sb s i) {n k tot off : ℕ} (hk : n ≤ tot + k)
    (hlen : off + (n - tot) ≤ fileSize sb s i) :
    readFrom sb i n k tot off s = .ok (((contents sb s i).drop off).take (n - tot), s) := by
  induction k generalizing tot off with
  | zero =>
    have hdone : n - tot = 0 := by omega
    rw [hdone, List.take_zero]
    rfl
  | succ k ih =>
    rw [readFrom]
    split
    next hlt =>
      have hmod : off % BSIZE < BSIZE := Nat.mod_lt _ (by decide)
      have hread : bread (blockOf sb s i (off / BSIZE)).toNat s =
        .ok (s.disk (blockOf sb s i (off / BSIZE)).toNat, s) := rfl
      rw [run_bind (bmap_mapped (h off (by omega))), run_bind hread]
      generalize hm : min (n - tot) (BSIZE - off % BSIZE) = m
      rw [copyOut_blockOf (h off (by omega)) (by omega) (by omega), run_bind (ih (by omega) (by omega))]
      have hrest : n - tot = m + (n - (tot + m)) := by omega
      rw [hrest, List.take_add, List.drop_drop]
      rfl
    next hle =>
      have hdone : n - tot = 0 := by omega
      rw [hdone, List.take_zero]
      rfl

/-- readi() and writei() refuse an offset past the end and a sum that wraps around. -/
def Refused (size : ℕ) (off n : Word) : Prop := size < off.toNat ∨ 2 ^ 32 ≤ off.toNat + n.toNat

instance (size : ℕ) (off n : Word) : Decidable (Refused size off n) :=
  inferInstanceAs (Decidable (_ ∨ _))

theorem refused_iff {x off n : Word} : x < off ∨ off + n < off ↔ Refused x.toNat off n := by
  unfold Refused
  rw [BitVec.lt_def, BitVec.lt_def, BitVec.toNat_add]
  have := off.isLt
  have := n.isLt
  omega

/-- The part of [off, off + n) that the file has. -/
def slice (c : List Byte) (off n : ℕ) : List Byte := (c.drop off).take n

theorem readi_run (dev : Half → Option (Word → ℤ × List Byte)) (h : NoHole sb s i)
    (htype : (inode sb s i).type ≠ T_DEV) (off n : Word) :
    readi sb dev i off n s = .ok (if Refused (fileSize sb s i) off n then (-1, [])
      else ((slice (contents sb s i) off.toNat n.toNat).length,
        slice (contents sb s i) off.toNat n.toNat), s) := by
  have hrun : ip sb i s = .ok (inode sb s i, s) := rfl
  have hmax := h.size_le
  have hbig : MAXFILE * BSIZE = 71680 := rfl
  have hlen : (contents sb s i).length = fileSize sb s i := length_contents s i
  rw [readi, run_bind hrun, if_neg htype]
  by_cases hout : Refused (fileSize sb s i) off n
  · rw [if_pos (refused_iff.mpr hout), if_pos hout]
    rfl
  · rw [if_neg (fun hin => hout (refused_iff.mp hin)), if_neg hout]
    obtain ⟨hoff, hwrap⟩ := not_or.mp hout
    have hadd : (off + n).toNat = off.toNat + n.toNat := by
      rw [BitVec.toNat_add]
      omega
    generalize hcut : (if (inode sb s i).size < off + n then (inode sb s i).size - off else n) = c
    have hc : c.toNat = min n.toNat (fileSize sb s i - off.toNat) := by
      unfold fileSize at hoff ⊢
      rw [← hcut]
      split
      next hlt =>
        rw [BitVec.lt_def, hadd] at hlt
        rw [BitVec.toNat_sub]
        omega
      next hge =>
        rw [BitVec.lt_def, hadd] at hge
        omega
    have htake : slice (contents sb s i) off.toNat n.toNat =
        ((contents sb s i).drop off.toNat).take (c.toNat - 0) := by
      unfold slice
      rw [hc, Nat.sub_zero, List.take_eq_take_iff, List.length_drop, hlen]
      omega
    have hint : c.toInt = (c.toNat : ℤ) := BitVec.toInt_eq_toNat_of_lt (by omega)
    have hall : (((contents sb s i).drop off.toNat).take (c.toNat - 0)).length = c.toNat := by
      rw [List.length_take, List.length_drop, hlen]
      omega
    rw [run_bind (readFrom_run h (by omega) (by omega)), htake, hint, hall]
    rfl

end FileContents
