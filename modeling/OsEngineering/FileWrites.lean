import OsEngineering.FileContents
import OsEngineering.FreeBlocks
import OsEngineering.MkfsFiles

/-! What bmap() and writei() do to the bytes of files. -/
namespace FileWrites

open ByteBlock FaultState KernelParams BlockAllocation BlockSlots BlockOwnership FreeBlocks
open FileContents ListOverwrite
open MkfsFiles (touched touched_step)
open MkfsBooks (fileSlot fileSlot_inj fileSlot_ne_index)

/-- File `i` may have got more blocks; no byte of a file has changed. -/
structure Enlarged (sb : Superblock) (i : ℕ) (s t : Fs) : Prop where
  consistent : Consistent sb t
  cached : ∃ ip a, s.icache i = some ip ∧ t.icache i = some { ip with addrs := a }
  others : ∀ j < sb.ninodes, j ≠ i → inode sb t j = inode sb s j
  slots : ∀ x, slot sb s x ≠ 0 → slot sb t x = slot sb s x
  foreign : ∀ x, x.inum ≠ i → slot sb t x = slot sb s x
  data : ∀ j k b, Ref sb s (fileSlot j k) b → t.disk b = s.disk b

variable {sb : Superblock} {s t u : Fs} {i j k b : ℕ} {ip : Inode}

theorem slot_ne_of_ref {x : Slot} (h : Ref sb s x b) : slot sb s x ≠ 0 :=
  fun hz => not_ref_of_slot hz b h

theorem Enlarged.refl (h : Consistent sb s) (hc : s.icache i = some ip) : Enlarged sb i s s where
  consistent := h
  cached := ⟨ip, ip.addrs, hc, hc⟩
  others := fun _ _ _ => rfl
  slots := fun _ _ => rfl
  foreign := fun _ _ => rfl
  data := fun _ _ _ _ => rfl

theorem Enlarged.ref (h : Enlarged sb i s t) {x : Slot} (hx : Ref sb s x b) : Ref sb t x b := by
  rw [Ref, h.slots x (slot_ne_of_ref hx)]
  exact hx

theorem Enlarged.trans (h : Enlarged sb i s t) (g : Enlarged sb i t u) : Enlarged sb i s u where
  consistent := g.consistent
  cached := by
    obtain ⟨ip, a, hs, ht⟩ := h.cached
    obtain ⟨ip', a', ht', hu⟩ := g.cached
    rw [ht] at ht'
    cases ht'
    exact ⟨ip, a', hs, hu⟩
  others := fun j hj hne => (g.others j hj hne).trans (h.others j hj hne)
  slots := fun x hx => by
    have ht := h.slots x hx
    rw [g.slots x (by rw [ht]; exact hx), ht]
  foreign := fun x hx => (g.foreign x hx).trans (h.foreign x hx)
  data := fun j k b hb => (g.data j k b (h.ref hb)).trans (h.data j k b hb)

theorem Enlarged.locked (h : Enlarged sb i s t) : Locked t i := by
  obtain ⟨ip, a, -, ht⟩ := h.cached
  exact ⟨_, ht⟩

theorem Enlarged.size (h : Enlarged sb i s t) (hj : j < sb.ninodes) :
    fileSize sb t j = fileSize sb s j := by
  unfold fileSize
  by_cases hne : j = i
  · subst hne
    obtain ⟨ip, a, hs, ht⟩ := h.cached
    rw [inode_cached hs, inode_cached ht]
  · rw [h.others j hj hne]

theorem byte_enlarged (h : Enlarged sb i s t) (hb : blockOf sb s j (k / BSIZE) ≠ 0) :
    fileByte sb t j k = fileByte sb s j k := by
  have hblock : blockOf sb t j (k / BSIZE) = blockOf sb s j (k / BSIZE) := h.slots _ hb
  rw [fileByte, fileByte, hblock, if_neg hb, if_neg hb,
    h.data j _ _ (ref_blockOf hb)]

theorem foreign_enlarged (h : Enlarged sb i s t) (hj : j ≠ i) (k : ℕ) :
    fileByte sb t j k = fileByte sb s j k := by
  have hinum : (fileSlot j (k / BSIZE)).inum = j := by
    unfold fileSlot
    split <;> rfl
  by_cases hb : blockOf sb s j (k / BSIZE) = 0
  · have hblock : blockOf sb t j (k / BSIZE) = 0 :=
      (h.foreign _ (by rw [hinum]; exact hj)).trans hb
    rw [fileByte, fileByte, if_pos hb, if_pos hblock]
  · exact byte_enlarged h hb

/-! A fresh block goes into an empty slot. -/

theorem Taken.ne (h : Taken sb s b t) (hs : Consistent sb s) {x : Slot} {c : ℕ}
    (hx : Ref sb s x c) : c ≠ b := by
  rintro rfl
  exact Fresh.unused h.fresh hs (hs.exact.used_of_refs hx)

theorem Taken.data (h : Taken sb s b t) (hs : Consistent sb s) {x : Slot} {c : ℕ}
    (hx : Ref sb s x c) : t.disk c = s.disk c :=
  h.fresh.data c (hs.owned.data x c hx).1 (Taken.ne h hs hx)

/-- What filling the slot `x` of inode `i` with block `b` comes to. -/
structure Filled (sb : Superblock) (i : ℕ) (x : Slot) (b : ℕ) (s t : Fs) : Prop where
  enlarged : Enlarged sb i s t
  ref : Ref sb t x b
  other : ∀ y, y ≠ x → slot sb t y = slot sb s y

theorem fillAddr (h : Consistent sb s) (hi : i < sb.ninodes) (hc : s.icache i = some ip)
    (hk : k ≤ NDIRECT) (hz : ip.addrs k = 0) (hb : Taken sb s b u) :
    Filled sb i (.addr i k) b s (putInode u i (ip.setAddr k (BitVec.ofNat 32 b))) := by
  have hct : u.icache i = some ip := by rw [hb.fresh.icache, hc]
  have hzero : BitVec.ofNat 32 b ≠ 0 → u.disk (BitVec.ofNat 32 b).toNat = zeros := by
    intro _
    rw [toNat_block hb.fresh.lt, hb.fresh.zero]
  have hother : ∀ y, y ≠ Slot.addr i k →
      slot sb (putInode u i (ip.setAddr k (BitVec.ofNat 32 b))) y = slot sb s y := by
    intro y hy
    rw [slot_setAddr_ne hct hz hzero hy, hb.fresh.slots]
  have hempty : slot sb s (.addr i k) = 0 := by rw [slot_addr h hi hc hk, hz]
  obtain ⟨hcons, href⟩ := hb.fresh.setAddr h hi hc hk hz
  refine ⟨{ consistent := hcons, cached := ?_, others := ?_, slots := ?_, foreign := ?_,
            data := ?_ }, href, hother⟩
  · exact ⟨ip, _, hc, icache_putInode_self _ _ _⟩
  · intro j hj hne
    rw [inode_putInode_ne _ hne, hb.inodes j hj]
  · intro x hx
    exact hother x fun hxe => hx (hxe ▸ hempty)
  · intro x hx
    exact hother x fun hxe => hx (by rw [hxe]; rfl)
  · intro j n c hc'
    rw [disk_putInode]
    exact Taken.data hb h hc'

theorem fillEntry (h : Consistent sb s) {a n : ℕ} (hc : s.icache i = some ip)
    (hn : n < NINDIRECT) (ha : Ref sb s (.addr i NDIRECT) a) (hz : word (s.disk a) n = 0)
    (hb : Taken sb s b u) :
    Filled sb i (.entry i n) b s
      (putBlock u a (setWord (u.disk a) n (BitVec.ofNat 32 b))) := by
  obtain ⟨hlow, hlt⟩ := h.owned.data _ a ha
  have hat : Ref sb u (.addr i NDIRECT) a := (ref_congr hb.fresh.slots _ _).mpr ha
  have hother : ∀ y, y ≠ Slot.entry i n →
      slot sb (putBlock u a (setWord (u.disk a) n (BitVec.ofNat 32 b))) y = slot sb s y := by
    intro y hy
    rw [slot_setEntry_ne hb.fresh.exact.owner (bmapstart_le hlt hlow).1 hat _ hy,
      hb.fresh.slots]
  have hempty : slot sb s (.entry i n) = 0 := by rw [slot_entry_of_ref ha hn, hz]
  obtain ⟨hcons, href⟩ := hb.fresh.setEntry h hn ha hz
  refine ⟨{ consistent := hcons, cached := ?_, others := ?_, slots := ?_, foreign := ?_,
            data := ?_ }, href, hother⟩
  · exact ⟨ip, ip.addrs, hc, (congrFun hb.fresh.icache i).trans hc⟩
  · intro j hj hne
    rw [inode_putBlock _ (bmapstart_le hlt hlow).1 hj, hb.inodes j hj]
  · intro x hx
    exact hother x fun hxe => hx (hxe ▸ hempty)
  · intro x hx
    exact hother x fun hxe => hx (by rw [hxe]; rfl)
  · intro j m c hc'
    have hca : c ≠ a := by
      rintro rfl
      exact fileSlot_ne_index j m i (h.owned.unique _ _ _ hc' ha)
    rw [disk_putBlock_ne _ hca]
    exact Taken.data hb h hc'

/-! bmap() -/

/-- 1 for an empty slot. -/
def absent (sb : Superblock) (s : Fs) (x : Slot) : ℕ := if slot sb s x = 0 then 1 else 0

theorem absent_le (sb : Superblock) (s : Fs) (x : Slot) : absent sb s x ≤ 1 := by
  unfold absent
  split <;> omega

theorem absent_ref {x : Slot} (h : Ref sb s x b) : absent sb s x = 0 :=
  if_neg (slot_ne_of_ref h)

/-- `Short` stands for a disk without enough free blocks. -/
def Fails (Short : Prop) (e : Fault) : Prop := e = outOfBlocks ∧ Short

variable {Short : Prop}

theorem bmapAddr_spec (h : Consistent sb s) (hi : i < sb.ninodes) (hc : s.icache i = some ip)
    (hk : k ≤ NDIRECT) (hroom : ¬ Short → absent sb s (.addr i k) ≤ (freeBlocks sb s).card) :
    wp (bmapAddr sb i k) (fun b t => Filled sb i (.addr i k) b s t ∧
      (freeBlocks sb t).card + absent sb s (.addr i k) = (freeBlocks sb s).card)
      (Fails Short) s := by
  have hslot := slot_addr h hi hc hk
  by_cases hz : slot sb s (.addr i k) = 0
  · have hone : absent sb s (.addr i k) = 1 := if_pos hz
    have hempty : ip.addrs k = 0 := by rw [← hslot, hz]
    refine wp_bind_run rfl ?_
    rw [inode_cached hc, if_pos hempty]
    apply wp_bind
    refine wp_mono (balloc_taken h fun hshort => ?_) ?_
    · exact Finset.card_pos.mp (by have := hroom hshort; omega)
    · intro b t hb
      have hct : t.icache i = some ip := by rw [hb.fresh.icache, hc]
      refine wp_bind_run (setInode_run hct _) (wp_pure ⟨fillAddr h hi hc hk hempty hb, ?_⟩)
      rw [hone]
      exact hb.card
  · refine wp_of_run (bmapAddr_mapped hz) ⟨⟨Enlarged.refl h hc, ref_of_slot hz, fun _ _ => rfl⟩, ?_⟩
    rw [absent, if_neg hz]
    rfl

/-- Free blocks for `r` more blocks of the file, and for its indirect block. -/
def Room (sb : Superblock) (i : ℕ) (Short : Prop) (r : ℕ) (s : Fs) : Prop :=
  ¬ Short → r + absent sb s (.addr i NDIRECT) ≤ (freeBlocks sb s).card

theorem bmap_spec (h : Consistent sb s) (hi : i < sb.ninodes) (hl : Locked s i) {bn r : ℕ}
    (hbn : bn < MAXFILE) (hroom : Room sb i Short (r + 1) s) :
    wp (bmap sb i bn) (fun b t => Enlarged sb i s t ∧ Ref sb t (fileSlot i bn) b ∧
      Room sb i Short r t) (Fails Short) s := by
  obtain ⟨ip, hc⟩ := hl
  have hle := absent_le sb s
  unfold bmap fileSlot
  split
  next hdirect =>
    have hone := hle (.addr i bn)
    refine wp_mono (bmapAddr_spec h hi hc (Nat.le_of_lt hdirect) fun hshort => ?_) ?_
    · have := hroom hshort
      omega
    · rintro b t ⟨hfill, hcard⟩
      refine ⟨hfill.enlarged, hfill.ref, fun hshort => ?_⟩
      have hindex : absent sb t (.addr i NDIRECT) = absent sb s (.addr i NDIRECT) := by
        rw [absent, absent, hfill.other]
        intro heq
        cases heq
        exact Nat.lt_irrefl _ hdirect
      have := hroom hshort
      omega
  next hdirect =>
    have hn : bn - NDIRECT < NINDIRECT := by
      unfold MAXFILE at hbn
      omega
    rw [if_pos hn]
    apply wp_bind
    refine wp_mono (bmapAddr_spec h hi hc (Nat.le_refl _) fun hshort => ?_) ?_
    · have := hroom hshort
      omega
    · rintro a t ⟨hfill, hcard⟩
      obtain ⟨ip', addrs, -, hct⟩ := hfill.enlarged.cached
      have hindex := absent_ref hfill.ref
      have hslot := slot_entry_of_ref hfill.ref hn
      have hroom' : ¬ Short → r + 1 ≤ (freeBlocks sb t).card := by
        intro hshort
        have := hroom hshort
        omega
      refine wp_bind_run rfl ?_
      split
      next hz =>
        apply wp_bind
        refine wp_mono (balloc_taken hfill.enlarged.consistent fun hshort => ?_) ?_
        · exact Finset.card_pos.mp (by have := hroom' hshort; omega)
        · intro b u hb
          have hlow := (hfill.enlarged.consistent.owned.data _ _ hfill.ref).1
          have hentry := fillEntry hfill.enlarged.consistent hct hn hfill.ref hz hb
          refine wp_bind_run (change_run u a _) (wp_pure ⟨hfill.enlarged.trans hentry.enlarged,
            hentry.ref, fun hshort => ?_⟩)
          have hused := freeBlocks_congr (used_putBlock (s := u)
            (setWord (u.disk a) (bn - NDIRECT) (BitVec.ofNat 32 b)) hlow)
          rw [absent_ref (hentry.enlarged.ref hfill.ref), hused]
          have := hroom' hshort
          have := hb.card
          omega
      next hz =>
        refine wp_pure ⟨hfill.enlarged, ?_, fun hshort => ?_⟩
        · rw [← hslot]
          exact ref_of_slot (by rw [hslot]; exact hz)
        · have := hroom' hshort
          omega

/-! The loop of writei() -/

/-- `n` bytes of file `i` from `off` on are those of `src`, and the rest of all files is as it
was. -/
structure Written (sb : Superblock) (i : ℕ) (src : ℕ → Byte) (off n : ℕ) (s t : Fs) : Prop where
  consistent : Consistent sb t
  cached : ∃ ip a, s.icache i = some ip ∧ t.icache i = some { ip with addrs := a }
  others : ∀ j < sb.ninodes, j ≠ i → inode sb t j = inode sb s j
  slots : ∀ x, slot sb s x ≠ 0 → slot sb t x = slot sb s x
  foreign : ∀ x, x.inum ≠ i → slot sb t x = slot sb s x
  filled : ∀ k, off ≤ k → k < off + n → blockOf sb t i (k / BSIZE) ≠ 0
  inside : ∀ k, off ≤ k → k < off + n → fileByte sb t i k = src (k - off)
  outside : ∀ k, k < off ∨ off + n ≤ k → blockOf sb s i (k / BSIZE) ≠ 0 →
    fileByte sb t i k = fileByte sb s i k
  foreignByte : ∀ j k, j ≠ i → fileByte sb t j k = fileByte sb s j k

variable {src : ℕ → Byte} {off n m tot : ℕ}

theorem Written.none (h : Consistent sb s) (hc : s.icache i = some ip) (src : ℕ → Byte)
    (off : ℕ) : Written sb i src off 0 s s where
  consistent := h
  cached := ⟨ip, ip.addrs, hc, hc⟩
  others := fun _ _ _ => rfl
  slots := fun _ _ => rfl
  foreign := fun _ _ => rfl
  filled := fun k hk hlt => by omega
  inside := fun k hk hlt => by omega
  outside := fun _ _ _ => rfl
  foreignByte := fun _ _ _ => rfl

theorem Written.append (h : Written sb i src off n s t)
    (g : Written sb i (fun p => src (n + p)) (off + n) m t u) :
    Written sb i src off (n + m) s u where
  consistent := g.consistent
  cached := by
    obtain ⟨ip, a, hs, ht⟩ := h.cached
    obtain ⟨ip', a', ht', hu⟩ := g.cached
    rw [ht] at ht'
    cases ht'
    exact ⟨ip, a', hs, hu⟩
  others := fun j hj hne => (g.others j hj hne).trans (h.others j hj hne)
  slots := fun x hx => by
    have ht := h.slots x hx
    rw [g.slots x (by rw [ht]; exact hx), ht]
  foreign := fun x hx => (g.foreign x hx).trans (h.foreign x hx)
  filled := fun k hk hlt => by
    by_cases hkn : k < off + n
    · have hold := h.filled k hk hkn
      rw [blockOf, g.slots _ hold]
      exact hold
    · exact g.filled k (by omega) (by omega)
  inside := fun k hk hlt => by
    by_cases hkn : k < off + n
    · rw [g.outside k (Or.inl hkn) (h.filled k hk hkn)]
      exact h.inside k hk hkn
    · rw [g.inside k (by omega) (by omega)]
      congr 1
      omega
  outside := fun k hk hb => by
    have hbt : blockOf sb t i (k / BSIZE) ≠ 0 := by
      rw [blockOf, h.slots _ hb]
      exact hb
    rw [g.outside k (by omega) hbt, h.outside k (by omega) hb]
  foreignByte := fun j k hj => (g.foreignByte j k hj).trans (h.foreignByte j k hj)

theorem byte_copyIn (v : DiskBlock) (src : ℕ → Byte) (tot : ℕ) (hk : k < BSIZE) :
    byte (copyIn v off src tot m) k =
      if off % BSIZE ≤ k ∧ k < off % BSIZE + m then src (tot + (k - off % BSIZE))
      else byte v k := by
  rw [byte, byte, dif_pos hk, dif_pos hk]
  rfl

/-- The state after `change` in a round. -/
def copied (t : Fs) (b off : ℕ) (src : ℕ → Byte) (tot m : ℕ) : Fs :=
  putBlock t b (copyIn (t.disk b) off src tot m)

/-- One round: bmap() has given block `b` for the bytes from `off` on. -/
theorem written_copied (h : Enlarged sb i s t) (hb : Ref sb t (fileSlot i (off / BSIZE)) b)
    (hm : off % BSIZE + m ≤ BSIZE) (src : ℕ → Byte) (tot : ℕ) :
    Written sb i (fun p => src (tot + p)) off m s
      (copied t b off src tot m) := by
  have hsize : BSIZE = 512 := rfl
  obtain ⟨hlow, hlt⟩ := h.consistent.owned.data _ b hb
  obtain ⟨hcons, hslots⟩ := h.consistent.putBlock hb (fun j => fileSlot_ne_index i _ j)
    (copyIn (t.disk b) off src tot m)
  have hslots : slot sb (copied t b off src tot m) = slot sb t := hslots
  have hblock : ∀ j k, blockOf sb (copied t b off src tot m)
      j k = blockOf sb t j k := fun j k => congrFun hslots _
  have hown : ∀ j k, blockOf sb t j k ≠ 0 → (blockOf sb t j k).toNat = b →
      j = i ∧ k = off / BSIZE := by
    intro j k hjk heq
    have href := ref_blockOf hjk
    rw [heq] at href
    exact fileSlot_inj (h.consistent.owned.unique _ _ _ href hb)
  have hother : ∀ j k, ¬ (j = i ∧ k / BSIZE = off / BSIZE) →
      fileByte sb (copied t b off src tot m) j k =
        fileByte sb t j k := by
    intro j k hne
    rw [fileByte, fileByte, hblock]
    split
    · rfl
    next hjk => rw [copied, disk_putBlock_ne _ fun heq => hne (hown j _ hjk heq)]
  have hself : ∀ k, k / BSIZE = off / BSIZE →
      fileByte sb (copied t b off src tot m) i k =
        byte (copyIn (t.disk b) off src tot m) (k % BSIZE) := by
    intro k hk
    have hbt : (blockOf sb t i (k / BSIZE)).toNat = b := by
      rw [hk]
      exact hb.1
    rw [fileByte, hblock, if_neg (by rw [hk]; exact slot_ne_of_ref hb), hbt, copied, disk_putBlock_self]
  exact
    { consistent := hcons
      cached := h.cached
      others := fun j hj hne => by
        rw [copied, inode_putBlock _ (bmapstart_le hlt hlow).1 hj, h.others j hj hne]
      slots := fun x hx => by rw [hslots, h.slots x hx]
      foreign := fun x hx => by rw [hslots, h.foreign x hx]
      filled := fun k hk hlt => by
        have hdiv : k / BSIZE = off / BSIZE := by
          rw [hsize] at hm ⊢
          omega
        rw [hblock, hdiv]
        exact slot_ne_of_ref hb
      inside := fun k hk hlt => by
        have hdiv : k / BSIZE = off / BSIZE := by
          rw [hsize] at hm ⊢
          omega
        have hmod : k % BSIZE = off % BSIZE + (k - off) := by
          rw [hsize] at hm ⊢
          omega
        rw [hself k hdiv, byte_copyIn _ _ _ (Nat.mod_lt _ (by decide)), if_pos (by omega)]
        congr 2
        omega
      outside := fun k hk hks => by
        by_cases hdiv : k / BSIZE = off / BSIZE
        · have hmod : ¬ (off % BSIZE ≤ k % BSIZE ∧ k % BSIZE < off % BSIZE + m) := by
            rw [hsize] at hm hdiv ⊢
            omega
          have hbt : blockOf sb t i (k / BSIZE) = blockOf sb s i (k / BSIZE) := h.slots _ hks
          rw [hself k hdiv, byte_copyIn _ _ _ (Nat.mod_lt _ (by decide)), if_neg hmod,
            ← byte_enlarged h hks, fileByte, hbt, if_neg hks, ← hbt, hdiv]
          rw [show (blockOf sb t i (off / BSIZE)).toNat = b from hb.1]
        · rw [hother i k fun h' => hdiv h'.2, byte_enlarged h hks]
      foreignByte := fun j k hj => by
        rw [hother j k fun h' => hj h'.1, foreign_enlarged h hj] }

theorem Written.locked (h : Written sb i src off n s t) : Locked t i := by
  obtain ⟨ip, a, -, ht⟩ := h.cached
  exact ⟨_, ht⟩

theorem Room.mono {r r' : ℕ} (h : Room sb i Short r s) (hle : r' ≤ r) : Room sb i Short r' s :=
  fun hshort => Nat.le_trans (Nat.add_le_add_right hle _) (h hshort)

theorem Room.congr {r : ℕ} (h : Room sb i Short r s) (hslots : slot sb t = slot sb s)
    (hused : ∀ c, used sb t c ↔ used sb s c) : Room sb i Short r t := by
  intro hshort
  rw [absent, hslots, freeBlocks_congr hused]
  exact h hshort

theorem writeFrom_spec (src : ℕ → Byte) (n k tot off : ℕ) {r : ℕ} (h : Consistent sb s)
    (hi : i < sb.ninodes) (hl : Locked s i) (hk : n - tot ≤ k)
    (hmax : off + (n - tot) ≤ MAXFILE * BSIZE)
    (hroom : Room sb i Short (touched off (n - tot) + r) s) :
    wp (writeFrom sb i src n k tot off)
      (fun _ t => Written sb i (fun p => src (tot + p)) off (n - tot) s t ∧ Room sb i Short r t)
      (Fails Short) s := by
  induction k generalizing s tot off with
  | zero =>
    obtain ⟨ip, hc⟩ := hl
    rw [Nat.le_zero.mp hk]
    exact wp_pure ⟨Written.none h hc _ _, hroom.mono (Nat.le_add_left _ _)⟩
  | succ k ih =>
    unfold writeFrom
    split
    next hlt =>
      have hsize : BSIZE = 512 := rfl
      have hmod : off % BSIZE < BSIZE := Nat.mod_lt _ (by decide)
      generalize hm : min (n - tot) (BSIZE - off % BSIZE) = m
      have htouched : touched (off + m) (n - tot - m) + 1 ≤ touched off (n - tot) :=
        touched_step (by omega) hm.symm
      have hbn : off / BSIZE < MAXFILE := by
        rw [hsize] at hmax ⊢
        omega
      apply wp_bind
      refine wp_mono (bmap_spec (r := touched (off + m) (n - tot - m) + r) h hi hl hbn
        (hroom.mono (by omega))) ?_
      rintro b t ⟨henl, href, hroom'⟩
      have hround := written_copied henl href (by omega : off % BSIZE + m ≤ BSIZE) src tot
      have hrest : n - (tot + m) = n - tot - m := by omega
      have hlow := (henl.consistent.owned.data _ _ href).1
      have hslots := (henl.consistent.putBlock href (fun j => fileSlot_ne_index i _ j)
        (copyIn (t.disk b) off src tot m)).2
      refine wp_bind_run (change_run t b _) (wp_mono (ih (tot + m) (off + m)
        hround.consistent hround.locked (by omega) (by omega) ?_) ?_)
      · rw [hrest]
        exact hroom'.congr hslots (used_putBlock _ hlow)
      · rintro - u ⟨hu, hroom''⟩
        have hassoc : (fun p => src (tot + (m + p))) = fun p => src (tot + m + p) := by
          funext p
          rw [Nat.add_assoc]
        have hall := hround.append (m := n - (tot + m)) (by rw [hassoc]; exact hu)
        rw [hrest, Nat.add_sub_cancel' (by omega)] at hall
        exact ⟨hall, hroom''⟩
    next hge =>
      obtain ⟨ip, hc⟩ := hl
      have hzero : n - tot = 0 := by omega
      rw [hzero]
      exact wp_pure ⟨Written.none h hc _ _, hroom.mono (Nat.le_add_left _ _)⟩

/-! writei() -/

/-- File `i` is written over from `off` on, and no other file has changed. -/
structure Rewritten (sb : Superblock) (i off : ℕ) (src : List Byte) (s t : Fs) : Prop where
  consistent : Consistent sb t
  locked : Locked t i
  contents_eq : contents sb t i = overwrite (contents sb s i) off src
  noHole : NoHole sb t i
  type_eq : (inode sb t i).type = (inode sb s i).type
  nlink_eq : (inode sb t i).nlink = (inode sb s i).nlink
  inode_eq : ∀ j < sb.ninodes, j ≠ i → inode sb t j = inode sb s j
  other : ∀ j < sb.ninodes, j ≠ i → contents sb t j = contents sb s j
  other_noHole : ∀ j < sb.ninodes, j ≠ i → NoHole sb s j → NoHole sb t j

/-- The bytes that writei() takes from `src`. -/
def bytesOf (src : ℕ → Byte) (n : ℕ) : List Byte := (List.range n).map src

theorem length_bytesOf (src : ℕ → Byte) (n : ℕ) : (bytesOf src n).length = n := by
  rw [bytesOf, List.length_map, List.length_range]

theorem getElem?_bytesOf (src : ℕ → Byte) (hk : k < n) : (bytesOf src n)[k]? = some (src k) := by
  rw [bytesOf, List.getElem?_map, List.getElem?_range hk, Option.map_some]

/-- The size of file `i` is set at the end, if it has grown. -/
structure Resized (sb : Superblock) (i size : ℕ) (s t : Fs) : Prop where
  consistent : Consistent sb t
  cached : ∃ ip sz, s.icache i = some ip ∧ t.icache i = some { ip with size := sz } ∧
    sz.toNat = size
  slots : slot sb t = slot sb s
  used_iff : ∀ c, used sb t c ↔ used sb s c
  others : ∀ j < sb.ninodes, j ≠ i → inode sb t j = inode sb s j
  data : ∀ x b, Ref sb s x b → t.disk b = s.disk b

theorem byte_resized {size : ℕ} (h : Resized sb i size s t) (j k : ℕ) :
    fileByte sb t j k = fileByte sb s j k := by
  have hblock : blockOf sb t j (k / BSIZE) = blockOf sb s j (k / BSIZE) := congrFun h.slots _
  rw [fileByte, fileByte, hblock]
  split
  · rfl
  next hb => rw [h.data _ _ (ref_blockOf hb)]

theorem extend_spec (h : Consistent sb s) (hi : i < sb.ninodes) (hc : s.icache i = some ip)
    {off n : Word} {E : Fault → Prop} (hoff : off.toNat ≤ ip.size.toNat + n.toNat) :
    wp (extend sb i off n)
      (fun _ t => Resized sb i (max ip.size.toNat off.toNat) s t) E s := by
  unfold extend
  refine wp_bind_run rfl ?_
  rw [inode_cached hc]
  split
  next hgrow =>
    have hlt : ip.size.toNat < off.toNat := hgrow.2
    obtain ⟨ht, hslots⟩ := h.setSize hc off
    have hct : (putInode s i { ip with size := off }).icache i = some { ip with size := off } :=
      icache_putInode_self _ _ _
    obtain ⟨hu, hflush⟩ := ht.flushed hi hct
    refine wp_bind_run (setInode_run hc _) (wp_of_run (iupdate_run hct) ⟨hu, ?_, ?_, ?_, ?_, ?_⟩)
    · exact ⟨ip, off, hc, hct, by omega⟩
    · exact hflush.trans hslots
    · exact used_flushed hi
    · intro j hj hne
      rw [inode_flushed hct, inode_putInode_ne _ hne]
    · intro x b hx
      obtain ⟨hlow, hlt'⟩ := h.owned.data x b hx
      have hne := inode_block_lt hi (bmapstart_le hlt' hlow).1
      rw [flushed, disk_putBlock_ne _ (Ne.symm hne)]
      rfl
  next hgrow =>
    refine wp_pure ⟨h, ⟨ip, ip.size, hc, hc, ?_⟩, rfl, fun _ => Iff.rfl, fun _ _ _ => rfl,
      fun _ _ _ => rfl⟩
    have hle : off.toNat ≤ ip.size.toNat := by
      by_contra hgt
      refine hgrow ⟨?_, BitVec.lt_def.mpr (by omega)⟩
      rw [BitVec.lt_def]
      change 0 < n.toNat
      omega
    omega

theorem Written.rewritten (h : Written sb i src off n s t) (hhole : NoHole sb s i)
    (hoff : off ≤ fileSize sb s i)
    (g : Resized sb i (max (fileSize sb s i) (off + n)) t u) :
    Rewritten sb i off (bytesOf src n) s u := by
  obtain ⟨ip, a, hs, ht⟩ := h.cached
  obtain ⟨ip', sz, ht', hu, hsz⟩ := g.cached
  rw [ht] at ht'
  cases ht'
  have hinode : inode sb s i = ip := inode_cached hs
  have hsize : fileSize sb u i = max (fileSize sb s i) (off + n) := by
    rw [← hsz, fileSize, inode_cached hu]
  have hlen : (contents sb s i).length = fileSize sb s i := length_contents s i
  have hsrc := length_bytesOf src n
  have hmapped : ∀ k < fileSize sb u i, blockOf sb t i (k / BSIZE) ≠ 0 := by
    intro k hk
    by_cases hin : off ≤ k ∧ k < off + n
    · exact h.filled k hin.1 hin.2
    · have hold := hhole k (by omega)
      rw [blockOf, h.slots _ hold]
      exact hold
  have hothers : ∀ j < sb.ninodes, j ≠ i → inode sb u j = inode sb s j := fun j hj hne =>
    (g.others j hj hne).trans (h.others j hj hne)
  refine ⟨g.consistent, ⟨_, hu⟩, ?_, ?_, ?_, ?_, hothers, ?_, ?_⟩
  · apply eq_overwrite (by omega)
    · intro k hk
      rw [hsrc] at hk
      rw [getElem?_contents, if_pos (by omega), getElem?_bytesOf src hk, byte_resized g,
        h.inside (off + k) (by omega) (by omega), Nat.add_sub_cancel_left]
    · intro k hk
      rw [hsrc] at hk
      rw [getElem?_contents, getElem?_contents]
      by_cases hks : k < fileSize sb s i
      · rw [if_pos hks, if_pos (by omega), byte_resized g, h.outside k hk (hhole k hks)]
      · rw [if_neg hks, if_neg (by omega)]
  · intro k hk
    have hblock : blockOf sb u i (k / BSIZE) = blockOf sb t i (k / BSIZE) := congrFun g.slots _
    rw [hblock]
    exact hmapped k hk
  · rw [inode_cached hu, hinode]
  · rw [inode_cached hu, hinode]
  · intro j hj hne
    refine contents_congr ?_ fun k _ => ?_
    · rw [fileSize, fileSize, hothers j hj hne]
    · rw [byte_resized g, h.foreignByte j k hne]
  · intro j hj hne hold k hk
    rw [fileSize, hothers j hj hne] at hk
    rw [blockOf, g.slots, h.slots _ (hold k hk)]
    exact hold k hk

/-- writei() also refuses to go past the largest file. -/
def WriteRefused (size : ℕ) (off n : Word) : Prop :=
  Refused size off n ∨ MAXFILE * BSIZE < off.toNat + n.toNat

instance (size : ℕ) (off n : Word) : Decidable (WriteRefused size off n) :=
  inferInstanceAs (Decidable (_ ∨ _))

theorem writei_refused (dev : Half → Option (Word → ℤ)) (src : ℕ → Byte) {off n : Word}
    (htype : (inode sb s i).type ≠ T_DEV) (hout : WriteRefused (fileSize sb s i) off n) :
    writei sb dev i src off n s = .ok (-1, s) := by
  have hrun : BlockAllocation.ip sb i s = .ok (inode sb s i, s) := rfl
  rw [writei, run_bind hrun, if_neg htype]
  by_cases href : Refused (fileSize sb s i) off n
  · rw [if_pos (refused_iff.mpr href)]
    rfl
  · obtain hin | hbig := hout
    · exact absurd hin href
    · rw [if_neg fun hin => href (refused_iff.mp hin), if_pos ?_]
      · rfl
      · obtain ⟨-, hwrap⟩ := not_or.mp href
        rw [BitVec.toNat_add]
        omega

theorem writei_accepted (dev : Half → Option (Word → ℤ)) (src : ℕ → Byte) {off n : Word} {r : ℕ}
    (h : Consistent sb s) (hi : i < sb.ninodes) (hl : Locked s i) (hhole : NoHole sb s i)
    (htype : (inode sb s i).type ≠ T_DEV) (hin : ¬ WriteRefused (fileSize sb s i) off n)
    (hroom : Room sb i Short (touched off.toNat n.toNat + r) s) :
    wp (writei sb dev i src off n) (fun c t => (c = n.toNat ∧
      Rewritten sb i off.toNat (bytesOf src n.toNat) s t) ∧ Room sb i Short r t)
      (Fails Short) s := by
  obtain ⟨href, hmax⟩ := not_or.mp hin
  obtain ⟨hoff, hwrap⟩ := not_or.mp href
  have hbig : MAXFILE * BSIZE = 71680 := rfl
  have hadd : (off + n).toNat = off.toNat + n.toNat := by
    rw [BitVec.toNat_add]
    omega
  have hint : n.toInt = (n.toNat : ℤ) := BitVec.toInt_eq_toNat_of_lt (by omega)
  refine wp_bind_run rfl ?_
  rw [if_neg htype, if_neg fun hin => href (refused_iff.mp hin), if_neg (by rw [hadd]; omega)]
  apply wp_bind
  refine wp_mono (writeFrom_spec src n.toNat n.toNat 0 off.toNat h hi hl
    (by omega) (by omega) hroom) ?_
  rintro - t ⟨ht, hroom'⟩
  have hshift : (fun p => src (0 + p)) = src := by
    funext p
    rw [Nat.zero_add]
  rw [hshift, Nat.sub_zero] at ht
  obtain ⟨ip, a, hs, hct⟩ := ht.cached
  have hsize : ip.size.toNat = fileSize sb s i := by rw [fileSize, inode_cached hs]
  apply wp_bind
  refine wp_mono (extend_spec ht.consistent hi hct (by rw [hadd]; dsimp only; omega)) ?_
  intro _ u hu
  dsimp only at hu
  rw [hsize, hadd] at hu
  exact wp_pure ⟨⟨hint, ht.rewritten hhole (by omega) hu⟩, hroom'.congr hu.slots hu.used_iff⟩

end FileWrites
