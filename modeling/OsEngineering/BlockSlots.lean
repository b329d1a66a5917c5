import OsEngineering.BlockAllocation
import OsEngineering.ResourceLedger

/-! The block numbers a file system refers to, by the slot each stands in, and what a change
of one block or of one inode does to them and to the bitmap. -/
namespace BlockSlots

open ByteBlock FaultState KernelParams ResourceLedger BlockAllocation

inductive Slot where
  | addr (i k : ℕ)
  | entry (i j : ℕ)
  deriving DecidableEq

def Slot.inum : Slot → ℕ
  | .addr i _ => i
  | .entry i _ => i

section Slots

variable (sb : Superblock)

/-- The word in a slot of an allocated inode, and 0 for every other slot. -/
def slot (s : Fs) : Slot → Word
  | .addr i k =>
    if i < sb.ninodes ∧ k ≤ NDIRECT ∧ (inode sb s i).type ≠ 0 then (inode sb s i).addrs k
    else 0
  | .entry i j =>
    if i < sb.ninodes ∧ j < NINDIRECT ∧ (inode sb s i).type ≠ 0 ∧
        (inode sb s i).addrs NDIRECT ≠ 0 then
      word (s.disk ((inode sb s i).addrs NDIRECT).toNat) j
    else 0

def Ref (s : Fs) (x : Slot) (b : ℕ) : Prop := (slot sb s x).toNat = b ∧ b ≠ 0

def used (s : Fs) (b : ℕ) : Prop :=
  b < sb.size ∧ bit (s.disk (b / BPB + sb.bmapstart)) (b % BPB) = true

structure Owned (s : Fs) : Prop where
  unique : ∀ x y b, Ref sb s x b → Ref sb s y b → x = y
  data : ∀ x b, Ref sb s x b → sb.nmeta ≤ b ∧ b < sb.size
  bitmap : ∀ b < sb.size, bit (s.disk (b / BPB + sb.bmapstart)) (b % BPB) = true ↔
    b < sb.nmeta ∨ ∃ x, Ref sb s x b

end Slots

variable {sb : Superblock} {s t : Fs}

theorem nmeta_le_size (sb : Superblock) : sb.nmeta ≤ sb.size := Nat.sub_le _ _

theorem bitmap_block_lt {b : ℕ} (hb : b < sb.size) : b / BPB + sb.bmapstart < sb.nmeta :=
  sb.bitmap_fit b hb

theorem bmapstart_lt {b : ℕ} (hb : b < sb.size) : sb.bmapstart < sb.nmeta :=
  Nat.lt_of_le_of_lt (Nat.le_add_left _ _) (bitmap_block_lt hb)

theorem inode_block_lt {i b : ℕ} (hi : i < sb.ninodes) (hb : sb.bmapstart ≤ b) :
    i / IPB + sb.inodestart ≠ b := by
  have := sb.inodes_fit i hi
  omega

theorem ref_single {x : Slot} {b c : ℕ} (hb : Ref sb s x b) (hc : Ref sb s x c) : b = c :=
  hb.1.symm.trans hc.1

theorem ref_of_slot {x : Slot} (h : slot sb s x ≠ 0) : Ref sb s x (slot sb s x).toNat := by
  refine ⟨rfl, fun h0 => h ?_⟩
  exact BitVec.eq_of_toNat_eq h0

theorem not_ref_of_slot {x : Slot} (h : slot sb s x = 0) (b : ℕ) : ¬ Ref sb s x b := by
  rintro ⟨hb, hne⟩
  rw [h] at hb
  exact hne hb.symm

theorem ref_congr (h : slot sb t = slot sb s) (x : Slot) (b : ℕ) :
    Ref sb t x b ↔ Ref sb s x b := by
  unfold Ref
  rw [h]

theorem owned_iff_exact :
    Owned sb s ↔ Exact (Ref sb s) (· < sb.nmeta) (used sb s) := by
  have hsize := nmeta_le_size sb
  constructor
  · intro h
    refine ⟨h.unique, fun x b c => ref_single, ?_, ?_⟩
    · intro x b hx hb
      exact absurd (h.data x b hx).1 (by omega)
    · intro b
      constructor
      · rintro ⟨hb, hbit⟩
        exact ((h.bitmap b hb).mp hbit).symm
      · rintro (⟨x, hx⟩ | hb)
        · have hlt := (h.data x b hx).2
          exact ⟨hlt, (h.bitmap b hlt).mpr (Or.inr ⟨x, hx⟩)⟩
        · have hlt : b < sb.size := by omega
          exact ⟨hlt, (h.bitmap b hlt).mpr (Or.inl hb)⟩
  · intro h
    refine ⟨h.owner, ?_, ?_⟩
    · intro x b hx
      have := h.apart x b hx
      exact ⟨by omega, (h.used_of_refs hx).1⟩
    · intro b hb
      have hu := h.used_iff b
      constructor
      · intro hbit
        exact (hu.mp ⟨hb, hbit⟩).symm
      · intro hown
        exact (hu.mpr hown.symm).2

/-! One inode area in a block of inodes. -/

theorem word_setWords_ne (v : DiskBlock) {base m n : ℕ} (f : ℕ → Word)
    (h : ∀ k < n, m ≠ base + k) : word (setWords v base n f) m = word v m := by
  induction n with
  | zero => rfl
  | succ n ih =>
    have hlast : m ≠ base + n := h n (Nat.lt_succ_self n)
    unfold setWords at ih ⊢
    rw [List.range_succ, List.foldl_append, List.foldl_cons, List.foldl_nil,
      word_setWord_ne _ _ hlast, ih fun k hk => h k (Nat.lt_succ_of_lt hk)]

theorem half_setWords_ne (v : DiskBlock) {base m n : ℕ} (f : ℕ → Word)
    (h : ∀ k < n, m / 2 ≠ base + k) : half (setWords v base n f) m = half v m := by
  induction n with
  | zero => rfl
  | succ n ih =>
    have hlast : m / 2 ≠ base + n := h n (Nat.lt_succ_self n)
    unfold setWords at ih ⊢
    rw [List.range_succ, List.foldl_append, List.foldl_cons, List.foldl_nil,
      half_setWord_ne _ _ hlast, ih fun k hk => h k (Nat.lt_succ_of_lt hk)]

theorem half_encodeDinode_ne (ip : Inode) (v : DiskBlock) {i m : ℕ} (h : m / 32 ≠ i % IPB) :
    half (encodeDinode ip i v) m = half v m := by
  unfold encodeDinode NDIRECT
  rw [half_setWords_ne _ _ (by omega), half_setWord_ne _ _ (by omega),
    half_setHalf_ne _ _ (by omega), half_setHalf_ne _ _ (by omega),
    half_setHalf_ne _ _ (by omega), half_setHalf_ne _ _ (by omega)]

theorem word_encodeDinode_ne (ip : Inode) (v : DiskBlock) {i m : ℕ} (h : m / 16 ≠ i % IPB) :
    word (encodeDinode ip i v) m = word v m := by
  unfold encodeDinode NDIRECT
  rw [word_setWords_ne _ _ (by omega), word_setWord_ne _ _ (by omega),
    word_setHalf_ne _ _ (by omega), word_setHalf_ne _ _ (by omega),
    word_setHalf_ne _ _ (by omega), word_setHalf_ne _ _ (by omega)]

theorem decodeDinode_encodeDinode_ne (ip : Inode) (v : DiskBlock) {i j : ℕ}
    (h : j % IPB ≠ i % IPB) : decodeDinode (encodeDinode ip i v) j = decodeDinode v j := by
  have hhalf : ∀ r < 4,
      half (encodeDinode ip i v) (32 * (j % IPB) + r) = half v (32 * (j % IPB) + r) := by
    intro r hr
    apply half_encodeDinode_ne
    omega
  have hword : ∀ r < 16,
      word (encodeDinode ip i v) (16 * (j % IPB) + r) = word v (16 * (j % IPB) + r) := by
    intro r hr
    apply word_encodeDinode_ne
    omega
  unfold decodeDinode
  rw [Inode.mk.injEq]
  refine ⟨hhalf 0 (by omega), hhalf 1 (by omega), hhalf 2 (by omega), hhalf 3 (by omega),
    hword 2 (by omega), ?_⟩
  funext k
  split
  · next hk =>
    unfold NDIRECT at hk
    rw [Nat.add_assoc]
    exact hword (3 + k) (by omega)
  · rfl

theorem type_encodeDinode (ip : Inode) (v : DiskBlock) (i : ℕ) :
    (decodeDinode (encodeDinode ip i v) i).type = ip.type := by
  have hi : i % IPB < 8 := Nat.mod_lt _ (by decide)
  unfold decodeDinode encodeDinode NDIRECT
  dsimp only
  rw [half_setWords_ne _ _ (by omega), half_setWord_ne _ _ (by omega),
    half_setHalf_ne _ _ (by omega), half_setHalf_ne _ _ (by omega),
    half_setHalf_ne _ _ (by omega)]
  apply half_setHalf_self
  unfold BSIZE
  omega

theorem word_setWords_self (v : DiskBlock) {base k n : ℕ} (f : ℕ → Word) (hk : k < n)
    (hsize : 4 * (base + n) ≤ BSIZE) : word (setWords v base n f) (base + k) = f k := by
  induction n with
  | zero => exact absurd hk (Nat.not_lt_zero k)
  | succ n ih =>
    unfold setWords at ih ⊢
    rw [List.range_succ, List.foldl_append, List.foldl_cons, List.foldl_nil]
    by_cases hlast : k = n
    · subst hlast
      exact word_setWord_self _ _ (by omega)
    · rw [word_setWord_ne _ _ (by omega)]
      exact ih (by omega) (by omega)

theorem decodeDinode_encodeDinode (ip : Inode) (v : DiskBlock) (i : ℕ)
    (haddrs : ∀ k, NDIRECT < k → ip.addrs k = 0) :
    decodeDinode (encodeDinode ip i v) i = ip := by
  have hi : i % IPB < 8 := Nat.mod_lt _ (by decide)
  have hsize : BSIZE = 512 := rfl
  cases ip with
  | mk type major minor nlink size addrs =>
  simp only [decodeDinode, encodeDinode, Inode.mk.injEq]
  refine ⟨type_encodeDinode ⟨type, major, minor, nlink, size, addrs⟩ v i, ?_, ?_, ?_, ?_, ?_⟩
  · rw [half_setWords_ne _ _ (by unfold NDIRECT; omega), half_setWord_ne _ _ (by omega),
      half_setHalf_ne _ _ (by omega), half_setHalf_ne _ _ (by omega),
      half_setHalf_self _ _ (by omega)]
  · rw [half_setWords_ne _ _ (by unfold NDIRECT; omega), half_setWord_ne _ _ (by omega),
      half_setHalf_ne _ _ (by omega), half_setHalf_self _ _ (by omega)]
  · rw [half_setWords_ne _ _ (by unfold NDIRECT; omega), half_setWord_ne _ _ (by omega),
      half_setHalf_self _ _ (by omega)]
  · rw [word_setWords_ne _ _ (by unfold NDIRECT; omega), word_setWord_self _ _ (by omega)]
  · funext k
    split
    · next hk => exact word_setWords_self _ _ (by omega) (by unfold NDIRECT; omega)
    · next hk => exact (haddrs k (by omega)).symm

/-! Frames: what a change leaves alone. -/

theorem inode_congr {i : ℕ} (hc : t.icache i = s.icache i)
    (hd : s.icache i = none →
      decodeDinode (t.disk (i / IPB + sb.inodestart)) i =
        decodeDinode (s.disk (i / IPB + sb.inodestart)) i) :
    inode sb t i = inode sb s i := by
  unfold inode dinode
  rw [hc]
  cases h : s.icache i with
  | none => exact hd h
  | some ip => rw [Option.getD_some, Option.getD_some]

theorem slot_congr (hi : ∀ i < sb.ninodes, inode sb t i = inode sb s i)
    (hd : ∀ i b, Ref sb s (.addr i NDIRECT) b → t.disk b = s.disk b) :
    slot sb t = slot sb s := by
  funext x
  cases x with
  | addr i k =>
    unfold slot
    by_cases hlt : i < sb.ninodes
    · simp only [hi i hlt]
    · simp only [hlt, false_and, if_false]
  | entry i j =>
    unfold slot
    by_cases hlt : i < sb.ninodes
    · simp only [hi i hlt]
      split
      · next h =>
        have hs : slot sb s (.addr i NDIRECT) = (inode sb s i).addrs NDIRECT :=
          if_pos ⟨hlt, Nat.le_refl _, h.2.2.1⟩
        have hne : slot sb s (.addr i NDIRECT) ≠ 0 := hs ▸ h.2.2.2
        have href := ref_of_slot hne
        rw [hs] at href
        rw [hd i _ href]
      · rfl
    · simp only [hlt, false_and, if_false]

/-- The state after `change`. -/
def putBlock (s : Fs) (b : ℕ) (v : DiskBlock) : Fs :=
  { s with disk := Function.update s.disk b v }

theorem disk_putBlock_self (s : Fs) (b : ℕ) (v : DiskBlock) : (putBlock s b v).disk b = v := by
  simp only [putBlock, Function.update_self]

theorem disk_putBlock_ne (v : DiskBlock) {b c : ℕ} (h : c ≠ b) :
    (putBlock s b v).disk c = s.disk c := by
  simp only [putBlock, Function.update_of_ne h]

/-- A change of a block that is no inode block. -/
theorem inode_putBlock {b i : ℕ} (v : DiskBlock) (hb : sb.bmapstart ≤ b)
    (hi : i < sb.ninodes) : inode sb (putBlock s b v) i = inode sb s i := by
  have hc : (putBlock s b v).icache i = s.icache i := rfl
  apply inode_congr hc
  intro _
  rw [disk_putBlock_ne v (inode_block_lt hi hb)]

/-- A change of a block that is no inode block and no indirect block. -/
theorem slot_putBlock {b : ℕ} (v : DiskBlock) (hb : sb.bmapstart ≤ b)
    (hx : ∀ i, ¬ Ref sb s (.addr i NDIRECT) b) : slot sb (putBlock s b v) = slot sb s := by
  apply slot_congr
  · intro i hi
    exact inode_putBlock v hb hi
  · intro i c hc
    apply disk_putBlock_ne
    rintro rfl
    exact hx i hc

theorem used_putBlock {b : ℕ} (v : DiskBlock) (hb : sb.nmeta ≤ b) (c : ℕ) :
    used sb (putBlock s b v) c ↔ used sb s c := by
  unfold used
  apply and_congr_right
  intro hc
  rw [disk_putBlock_ne v (Nat.ne_of_lt (Nat.lt_of_lt_of_le (bitmap_block_lt hc) hb))]

theorem div_eq_of_bitmap {b c : ℕ} (h : c / BPB + sb.bmapstart = b / BPB + sb.bmapstart) :
    c % BPB = b % BPB ↔ c = b := by
  constructor
  · intro hm
    rw [← Nat.div_add_mod c BPB, ← Nat.div_add_mod b BPB, hm, Nat.add_right_cancel h]
  · rintro rfl
    rfl

theorem used_setBit {b : ℕ} (hb : b < sb.size) (c : ℕ) :
    used sb (putBlock s (b / BPB + sb.bmapstart)
      (setBit (s.disk (b / BPB + sb.bmapstart)) (b % BPB))) c ↔ c = b ∨ used sb s c := by
  have hm : b % BPB / 8 < BSIZE := by
    have : b % 4096 < 4096 := Nat.mod_lt _ (by decide)
    unfold BPB BSIZE
    omega
  unfold used
  by_cases hblk : c / BPB + sb.bmapstart = b / BPB + sb.bmapstart
  · rw [hblk, disk_putBlock_self, bit_setBit _ hm, Bool.or_eq_true, decide_eq_true_eq,
      div_eq_of_bitmap hblk]
    constructor
    · rintro ⟨hc, hbit | rfl⟩
      · exact Or.inr ⟨hc, hbit⟩
      · exact Or.inl rfl
    · rintro (rfl | ⟨hc, hbit⟩)
      · exact ⟨hb, Or.inr rfl⟩
      · exact ⟨hc, Or.inl hbit⟩
  · rw [disk_putBlock_ne _ hblk]
    constructor
    · exact Or.inr
    · rintro (rfl | h)
      · exact absurd rfl hblk
      · exact h

theorem used_clearBit (b c : ℕ) :
    used sb (putBlock s (b / BPB + sb.bmapstart)
      (clearBit (s.disk (b / BPB + sb.bmapstart)) (b % BPB))) c ↔ c ≠ b ∧ used sb s c := by
  have hm : b % BPB / 8 < BSIZE := by
    have : b % 4096 < 4096 := Nat.mod_lt _ (by decide)
    unfold BPB BSIZE
    omega
  unfold used
  by_cases hblk : c / BPB + sb.bmapstart = b / BPB + sb.bmapstart
  · rw [hblk, disk_putBlock_self, bit_clearBit _ hm, Bool.and_eq_true, decide_eq_true_eq,
      Ne, div_eq_of_bitmap hblk]
    constructor
    · rintro ⟨hc, hbit, hne⟩
      exact ⟨hne, hc, hbit⟩
    · rintro ⟨hne, hc, hbit⟩
      exact ⟨hc, hbit, hne⟩
  · rw [disk_putBlock_ne _ hblk]
    constructor
    · intro h
      exact ⟨fun e => hblk (by rw [e]), h⟩
    · exact And.right

theorem slot_addr_putBlock {b : ℕ} (v : DiskBlock) (hb : sb.bmapstart ≤ b) (i k : ℕ) :
    slot sb (putBlock s b v) (.addr i k) = slot sb s (.addr i k) := by
  rw [slot, slot]
  by_cases hi : i < sb.ninodes
  · rw [inode_putBlock v hb hi]
  · rw [if_neg fun h => hi h.1, if_neg fun h => hi h.1]

/-- The entries of an inode in terms of its indirect slot. -/
theorem slot_entry_of_index (s : Fs) (i : ℕ) {j : ℕ} (hj : j < NINDIRECT) :
    slot sb s (.entry i j) = if slot sb s (.addr i NDIRECT) = 0 then 0
      else word (s.disk (slot sb s (.addr i NDIRECT)).toNat) j := by
  rw [slot, slot]
  by_cases h : i < sb.ninodes ∧ (inode sb s i).type ≠ 0
  · have haddr : i < sb.ninodes ∧ NDIRECT ≤ NDIRECT ∧ (inode sb s i).type ≠ 0 :=
      ⟨h.1, Nat.le_refl _, h.2⟩
    rw [if_pos haddr]
    by_cases hz : (inode sb s i).addrs NDIRECT = 0
    · rw [if_pos hz, if_neg fun hn => hn.2.2.2 hz]
    · rw [if_neg hz, if_pos ⟨h.1, hj, h.2, hz⟩]
  · rw [if_neg fun hn => h ⟨hn.1, hn.2.2.1⟩]
    rw [if_pos]
    rw [if_neg fun hn => h ⟨hn.1, hn.2.2⟩]

theorem slot_entry_out (s : Fs) (i : ℕ) {j : ℕ} (hj : ¬ j < NINDIRECT) :
    slot sb s (.entry i j) = 0 := by
  rw [slot, if_neg fun h => hj h.2.1]

theorem slot_addr_out (s : Fs) (i : ℕ) {k : ℕ} (hk : ¬ k ≤ NDIRECT) :
    slot sb s (.addr i k) = 0 := by
  rw [slot, if_neg fun h => hk h.2.1]

theorem slot_entry_of_ref {i a j : ℕ} (ha : Ref sb s (.addr i NDIRECT) a) (hj : j < NINDIRECT) :
    slot sb s (.entry i j) = word (s.disk a) j := by
  have hne : slot sb s (.addr i NDIRECT) ≠ 0 := fun h => not_ref_of_slot h a ha
  rw [slot_entry_of_index s i hj, if_neg hne, ha.1]

/-! A change of one cached inode. -/

theorem inode_cached {i : ℕ} {ip : Inode} (h : s.icache i = some ip) : inode sb s i = ip := by
  rw [inode, h]
  rfl

/-- The state after `setInode`. -/
def putInode (s : Fs) (i : ℕ) (ip : Inode) : Fs :=
  { s with icache := Function.update s.icache i (some ip) }

theorem disk_putInode (s : Fs) (i : ℕ) (ip : Inode) : (putInode s i ip).disk = s.disk := rfl

theorem icache_putInode_self (s : Fs) (i : ℕ) (ip : Inode) :
    (putInode s i ip).icache i = some ip := by
  simp only [putInode, Function.update_self]

theorem icache_putInode_ne (ip : Inode) {i j : ℕ} (h : j ≠ i) :
    (putInode s i ip).icache j = s.icache j := by
  simp only [putInode, Function.update_of_ne h]

theorem inode_putInode_self (s : Fs) (i : ℕ) (ip : Inode) : inode sb (putInode s i ip) i = ip :=
  inode_cached (icache_putInode_self s i ip)

theorem inode_putInode_ne (ip : Inode) {i j : ℕ} (h : j ≠ i) :
    inode sb (putInode s i ip) j = inode sb s j :=
  inode_congr (icache_putInode_ne ip h) fun _ => rfl

theorem slot_putInode_ne (ip : Inode) {i : ℕ} :
    (∀ j k, j ≠ i → slot sb (putInode s i ip) (.addr j k) = slot sb s (.addr j k)) ∧
    (∀ j k, j ≠ i → slot sb (putInode s i ip) (.entry j k) = slot sb s (.entry j k)) := by
  constructor
  · intro j k hj
    unfold slot
    simp only [inode_putInode_ne ip hj]
  · intro j k hj
    unfold slot
    simp only [inode_putInode_ne ip hj, disk_putInode]

/-- A change that keeps the type and the addresses. -/
theorem slot_putInode_same {i : ℕ} (ip : Inode) (ht : ip.type = (inode sb s i).type)
    (ha : ip.addrs = (inode sb s i).addrs) : slot sb (putInode s i ip) = slot sb s := by
  funext x
  cases x with
  | addr j k =>
    by_cases hj : j = i
    · subst hj
      unfold slot
      simp only [inode_putInode_self, ht, ha]
    · exact (slot_putInode_ne ip).1 j k hj
  | entry j k =>
    by_cases hj : j = i
    · subst hj
      unfold slot
      simp only [inode_putInode_self, ht, ha, disk_putInode]
    · exact (slot_putInode_ne ip).2 j k hj

/-- A type of 0 takes all slots away from an inode. -/
theorem slot_of_type_zero {i : ℕ} (h : (inode sb s i).type = 0) {x : Slot} (hx : x.inum = i) :
    slot sb s x = 0 := by
  cases x with
  | addr j k =>
    obtain rfl : j = i := hx
    rw [slot, if_neg fun hn => hn.2.2 h]
  | entry j k =>
    obtain rfl : j = i := hx
    rw [slot, if_neg fun hn => hn.2.2.1 h]

theorem slot_of_inode {j : ℕ} (h : inode sb t j = inode sb s j) (hd : t.disk = s.disk) {x : Slot}
    (hx : x.inum = j) : slot sb t x = slot sb s x := by
  cases x with
  | addr i k =>
    obtain rfl : i = j := hx
    rw [slot, slot, h]
  | entry i k =>
    obtain rfl : i = j := hx
    rw [slot, slot, h, hd]

/-! iupdate() -/

def flushed (sb : Superblock) (s : Fs) (i : ℕ) (ip : Inode) : Fs :=
  putBlock s (i / IPB + sb.inodestart) (encodeDinode ip i (s.disk (i / IPB + sb.inodestart)))

theorem inode_flushed {i : ℕ} {ip : Inode} (hc : s.icache i = some ip) (j : ℕ) :
    inode sb (flushed sb s i ip) j = inode sb s j := by
  have hic : (flushed sb s i ip).icache j = s.icache j := rfl
  apply inode_congr hic
  intro hnone
  have hji : j ≠ i := by
    rintro rfl
    rw [hc] at hnone
    cases hnone
  unfold flushed
  by_cases hblk : j / IPB + sb.inodestart = i / IPB + sb.inodestart
  · have hmod : j % IPB ≠ i % IPB := by
      intro hm
      apply hji
      rw [← Nat.div_add_mod j IPB, ← Nat.div_add_mod i IPB, hm, Nat.add_right_cancel hblk]
    rw [hblk, disk_putBlock_self, decodeDinode_encodeDinode_ne ip _ hmod]
  · rw [disk_putBlock_ne _ hblk]

theorem slot_flushed {i : ℕ} {ip : Inode} (hi : i < sb.ninodes) (hc : s.icache i = some ip)
    (hidx : ∀ j b, Ref sb s (.addr j NDIRECT) b → sb.nmeta ≤ b ∧ b < sb.size) :
    slot sb (flushed sb s i ip) = slot sb s := by
  apply slot_congr
  · intro j _
    exact inode_flushed hc j
  · intro j b hb
    obtain ⟨hlow, hlt⟩ := hidx j b hb
    have hmap := bmapstart_lt hlt
    apply disk_putBlock_ne
    intro h
    exact inode_block_lt hi (by omega) h.symm

theorem used_flushed {i : ℕ} {ip : Inode} (hi : i < sb.ninodes) (c : ℕ) :
    used sb (flushed sb s i ip) c ↔ used sb s c := by
  have hne : c / BPB + sb.bmapstart ≠ i / IPB + sb.inodestart :=
    (inode_block_lt hi (Nat.le_add_left _ _)).symm
  unfold used flushed
  rw [disk_putBlock_ne _ hne]

theorem type_flushed {i : ℕ} {ip : Inode} :
    (dinode sb (flushed sb s i ip) i).type = ip.type := by
  unfold dinode flushed
  rw [disk_putBlock_self, type_encodeDinode]

/-! The copy of a freed inode leaves the cache. -/

def evict (s : Fs) (i : ℕ) : Fs := { s with icache := Function.update s.icache i none }

theorem icache_evict_self (s : Fs) (i : ℕ) : (evict s i).icache i = none := by
  simp only [evict, Function.update_self]

theorem icache_evict_ne {i j : ℕ} (h : j ≠ i) : (evict s i).icache j = s.icache j := by
  simp only [evict, Function.update_of_ne h]

theorem slot_evict {i : ℕ} (hi : (inode sb s i).type = 0) (hd : (dinode sb s i).type = 0) :
    slot sb (evict s i) = slot sb s := by
  funext x
  by_cases hx : x.inum = i
  · have htype : (inode sb (evict s i) i).type = 0 := by
      rw [inode, icache_evict_self, Option.getD_none]
      exact hd
    rw [slot_of_type_zero hi hx, slot_of_type_zero htype hx]
  · have hdisk : (evict s i).disk = s.disk := rfl
    exact slot_of_inode (inode_congr (icache_evict_ne hx) fun _ => rfl) hdisk rfl

end BlockSlots
