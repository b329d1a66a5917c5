import OsEngineering.FileWrites
import Mathlib.Order.Interval.Finset.Nat

/-! A file without holes is an array of bytes to readi() and writei(). -/
namespace FileArrays

open ByteBlock FaultState KernelParams BlockAllocation BlockSlots BlockOwnership FreeBlocks
open FileReads FileContents FileWrites ListOverwrite
open MkfsFiles (touched)

variable {sb : Superblock} {s : Fs} {i : ℕ}

/-- What the caller of readi() and writei() has: the lock of a file that is no device. -/
structure Open (sb : Superblock) (s : Fs) (i : ℕ) : Prop where
  consistent : Consistent sb s
  inum : i < sb.ninodes
  locked : Locked s i
  noHole : NoHole sb s i
  type_ne : (inode sb s i).type ≠ T_DEV

/-- readi() delivers a part of the array and changes nothing. -/
structure Reads (sb : Superblock) (dev : Half → Option (Word → ℤ × List Byte)) (i : ℕ)
    (off n : Word) (s : Fs) : Prop where
  fails_iff : (∃ bytes, readi sb dev i off n s = .ok ((-1, bytes), s)) ↔
    Refused (fileSize sb s i) off n
  delivers : ¬ Refused (fileSize sb s i) off n →
    readi sb dev i off n s = .ok (((slice (contents sb s i) off.toNat n.toNat).length,
      slice (contents sb s i) off.toNat n.toNat), s)

/-- writei() replaces a part of the array, or runs out of blocks. -/
structure Writes (sb : Superblock) (dev : Half → Option (Word → ℤ)) (i : ℕ) (src : ℕ → Byte)
    (off n : Word) (s : Fs) : Prop where
  fails : WriteRefused (fileSize sb s i) off n → writei sb dev i src off n s = .ok (-1, s)
  fails_iff : (∃ t, writei sb dev i src off n s = .ok (-1, t)) ↔
    WriteRefused (fileSize sb s i) off n
  replaces : ∀ r t, writei sb dev i src off n s = .ok (r, t) →
    ¬ WriteRefused (fileSize sb s i) off n →
      r = n.toNat ∧ Rewritten sb i off.toNat (bytesOf src n.toNat) s t ∧
        fileSize sb t i = max (fileSize sb s i) (off.toNat + n.toNat)
  returns : touched off.toNat n.toNat + 1 ≤ (freeBlocks sb s).card →
    ∃ r t, writei sb dev i src off n s = .ok (r, t)
  stops : ∀ e, writei sb dev i src off n s = .error e → e = outOfBlocks

theorem Open.reads (h : Open sb s i) (dev : Half → Option (Word → ℤ × List Byte))
    (off n : Word) : Reads sb dev i off n s := by
  have hrun := readi_run dev h.noHole h.type_ne off n
  constructor
  · by_cases hout : Refused (fileSize sb s i) off n
    · rw [if_pos hout] at hrun
      exact iff_of_true ⟨[], hrun⟩ hout
    · rw [if_neg hout] at hrun
      refine iff_of_false ?_ hout
      rintro ⟨bytes, hbytes⟩
      rw [hrun] at hbytes
      injection hbytes with hpair
      have hr := congrArg (fun p => p.1.1) hpair
      dsimp only at hr
      omega
  · intro hin
    rw [if_neg hin] at hrun
    exact hrun

theorem fileSize_rewritten {t : Fs} {off : ℕ} {src : List Byte}
    (h : Rewritten sb i off src s t) (hoff : off ≤ fileSize sb s i) :
    fileSize sb t i = max (fileSize sb s i) (off + src.length) := by
  rw [← length_contents, ← length_contents, h.contents_eq, length_overwrite]
  rw [length_contents]
  exact hoff

theorem Open.writes (h : Open sb s i) (dev : Half → Option (Word → ℤ)) (src : ℕ → Byte)
    (off n : Word) : Writes sb dev i src off n s := by
  have hrefuse : WriteRefused (fileSize sb s i) off n → writei sb dev i src off n s = .ok (-1, s) :=
    writei_refused dev src h.type_ne
  have haccept := fun (S : Prop) (hin : ¬ WriteRefused (fileSize sb s i) off n)
      (hroom : Room sb i S (touched off.toNat n.toNat + 0) s) =>
    writei_accepted dev src h.consistent h.inum h.locked h.noHole h.type_ne hin hroom
  refine ⟨hrefuse, ?_, ?_, ?_, ?_⟩
  · by_cases hout : WriteRefused (fileSize sb s i) off n
    · exact iff_of_true ⟨s, hrefuse hout⟩ hout
    · refine iff_of_false ?_ hout
      rintro ⟨t, ht⟩
      have := (wp_ok (haccept True hout fun hn => absurd trivial hn) ht).1.1
      omega
  · intro r t ht hin
    obtain ⟨⟨hr, hw⟩, -⟩ := wp_ok (haccept True hin fun hn => absurd trivial hn) ht
    refine ⟨hr, hw, ?_⟩
    have hoff : off.toNat ≤ fileSize sb s i := by
      by_contra hgt
      exact hin (Or.inl (Or.inl (by omega)))
    rw [fileSize_rewritten hw hoff, length_bytesOf]
  · intro hroom
    by_cases hout : WriteRefused (fileSize sb s i) off n
    · exact ⟨-1, s, hrefuse hout⟩
    · have hle := absent_le sb s (.addr i NDIRECT)
      have hwp := haccept False hout fun _ => by omega
      cases hrun : writei sb dev i src off n s with
      | error e => exact absurd (wp_error hwp hrun).2 id
      | ok p => exact ⟨p.1, p.2, rfl⟩
  · intro e he
    by_cases hout : WriteRefused (fileSize sb s i) off n
    · rw [hrefuse hout] at he
      cases he
    · exact (wp_error (haccept True hout fun hn => absurd trivial hn) he).1

/-- Files are arrays of bytes. -/
theorem files_are_arrays (h : Open sb s i) (read : Half → Option (Word → ℤ × List Byte))
    (write : Half → Option (Word → ℤ)) (src : ℕ → Byte) (off n : Word) :
    Reads sb read i off n s ∧ Writes sb write i src off n s :=
  ⟨h.reads read off n, h.writes write src off n⟩

theorem smallFs_open : Open smallDisk smallFs 1 where
  consistent := smallFs_consistent
  inum := by decide
  locked := ⟨orphan, rfl⟩
  noHole := by
    intro k hk
    have hk : k < 3 := hk
    have hz : k / BSIZE = 0 := by
      unfold BSIZE
      omega
    rw [hz]
    decide
  type_ne := by decide

theorem files_are_arrays_small :
    Reads smallDisk (fun _ => none) 1 2 600 smallFs ∧
      Writes smallDisk (fun _ => none) 1 (fun _ => 65) 2 600 smallFs :=
  files_are_arrays smallFs_open _ _ _ _ _

/-- The disk has 940 free blocks. -/
theorem smallFs_free : 940 ≤ (freeBlocks smallDisk smallFs).card := by
  have hfree : Finset.Ico 60 1000 ⊆ freeBlocks smallDisk smallFs := by
    intro b hb
    obtain ⟨hlow, hlt⟩ := Finset.mem_Ico.mp hb
    refine mem_freeBlocks.mpr ⟨hlt, ?_⟩
    rintro ⟨-, hbit⟩
    have hdiv : b / BPB + smallDisk.bmapstart = 58 := by
      change b / 4096 + 58 = 58
      omega
    have hmod : b % BPB = b := Nat.mod_eq_of_lt (by unfold BPB; omega)
    have hdisk : smallFs.disk 58 = smallBitmap := rfl
    rw [hdiv, hmod, hdisk, smallBitmap_bit b hlt, decide_eq_true_eq] at hbit
    omega
  have hcard := Finset.card_le_card hfree
  rwa [Nat.card_Ico] at hcard

/-! The same disk with an empty file. -/

def emptyInode (type : Half) : Inode := ⟨type, 0, 0, 1, 0, fun _ => 0⟩

def smallWith (type : Half) : Fs := putInode smallFs 2 (emptyInode type)

theorem smallWith_slot (type : Half) :
    slot smallDisk (smallWith type) = slot smallDisk smallFs := by
  obtain ⟨haddr, hentry⟩ := @slot_putInode_ne smallDisk smallFs (emptyInode type) 2
  have hfree : ∀ x : Slot, x.inum = 2 → slot smallDisk smallFs x = 0 := fun x hx =>
    slot_of_type_zero (smallFs_type 2 (by decide) (by decide)) hx
  have hcached : (smallWith type).icache 2 = some (emptyInode type) := icache_putInode_self _ _ _
  funext x
  cases x with
  | addr j k =>
    by_cases hj : j = 2
    · rw [hfree (.addr j k) hj, hj, slot, inode_cached hcached]
      exact ite_self _
    · exact haddr j k hj
  | entry j k =>
    by_cases hj : j = 2
    · rw [hfree (.entry j k) hj, hj]
      exact slot_entry_zero hcached rfl k
    · exact hentry j k hj

theorem smallWith_consistent {type : Half} (h : type ≠ 0) :
    Consistent smallDisk (smallWith type) where
  owned := owned_iff_exact.mpr (smallFs_consistent.exact.congr (ref_congr (smallWith_slot type))
    (fun _ => Iff.rfl) fun _ => Iff.rfl)
  cached := cached_putInode smallFs_consistent.cached h
  handed := smallFs_consistent.handed

theorem smallWith_noHole (type : Half) : NoHole smallDisk (smallWith type) 2 := by
  intro k hk
  exact absurd hk (Nat.not_lt_zero k)

theorem smallWith_free (type : Half) :
    940 ≤ (freeBlocks smallDisk (smallWith type)).card := by
  have hsame : freeBlocks smallDisk (smallWith type) = freeBlocks smallDisk smallFs :=
    freeBlocks_congr fun _ => Iff.rfl
  rw [hsame]
  exact smallFs_free

end FileArrays
