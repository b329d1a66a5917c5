import OsEngineering.BlockSlots

/-! Every operation on files keeps the ownership of blocks: a block in use has one slot, and
the bitmap marks the metadata and the blocks in use. -/
namespace BlockOwnership

open ByteBlock FaultState KernelParams TransitionSystem ResourceLedger BlockAllocation BlockSlots

/-- What balloc() promises: the block was free and is all zero. -/
def Clean (sb : Superblock) (h : Handed) : Prop :=
  sb.nmeta ≤ h.block ∧ h.block < sb.size ∧
    bit (h.before (h.block / BPB + sb.bmapstart)) (h.block % BPB) = false ∧
    h.after h.block = zeros

structure Consistent (sb : Superblock) (s : Fs) : Prop where
  owned : Owned sb s
  cached : ∀ i ip, s.icache i = some ip → ip.type ≠ 0
  handed : ∀ h ∈ s.handed, Clean sb h

/-- The faults left: not the one of a second bfree(). -/
def NoDoubleFree (e : Fault) : Prop := e ≠ .panic "freeing free block"

def Locked (s : Fs) (i : ℕ) : Prop := ∃ ip, s.icache i = some ip

variable {sb : Superblock} {s t u : Fs} {i : ℕ} {ip : Inode} {E : Fault → Prop}

theorem Consistent.exact (h : Consistent sb s) :
    Exact (Ref sb s) (· < sb.nmeta) (used sb s) :=
  owned_iff_exact.mp h.owned

/-- Data blocks lie above the bitmap. -/
theorem bmapstart_le {b : ℕ} (hlt : b < sb.size) (hlow : sb.nmeta ≤ b) :
    sb.bmapstart ≤ b ∧ b ≠ 0 := by
  have := bmapstart_lt hlt
  omega

theorem slot_addr (h : Consistent sb s) (hi : i < sb.ninodes) (hc : s.icache i = some ip)
    {k : ℕ} (hk : k ≤ NDIRECT) : slot sb s (.addr i k) = ip.addrs k := by
  have htype := h.cached i ip hc
  rw [slot, inode_cached hc, if_pos ⟨hi, hk, htype⟩]

theorem slot_entry_zero (hc : s.icache i = some ip) (ha : ip.addrs NDIRECT = 0) (j : ℕ) :
    slot sb s (.entry i j) = 0 := by
  rw [slot, inode_cached hc, if_neg fun hn => hn.2.2.2 ha]

theorem setInode_run (hc : s.icache i = some ip) (f : Inode → Inode) :
    setInode sb i f s = .ok ((), putInode s i (f ip)) := by
  have hinode : inode sb s i = ip := inode_cached hc
  rw [← hinode]
  rfl

theorem change_run (s : Fs) (b : ℕ) (f : DiskBlock → DiskBlock) :
    change b f s = .ok ((), putBlock s b (f (s.disk b))) := rfl

/-! balloc() -/

theorem findFree_some {v : DiskBlock} {b k bi r : ℕ} (h : findFree sb v b k bi = some r) :
    r < bi + k ∧ b + r < sb.size ∧ bit v r = false := by
  induction k generalizing bi with
  | zero => cases h
  | succ k ih =>
    unfold findFree at h
    split at h
    · next hlt =>
      split at h
      · next hbit =>
        cases h
        exact ⟨by omega, hlt, hbit⟩
      · obtain ⟨hr, hrest⟩ := ih h
        exact ⟨by omega, hrest⟩
    · cases h

/-- The state after balloc() marks and clears block `b`. -/
def takeBlock (sb : Superblock) (s : Fs) (b : ℕ) : Fs :=
  putBlock (putBlock s (b / BPB + sb.bmapstart)
    (setBit (s.disk (b / BPB + sb.bmapstart)) (b % BPB))) b zeros

theorem ballocFrom_wp (k b : ℕ) (hb : b % BPB = 0) :
    wp (ballocFrom sb k b)
      (fun c t => c < sb.size ∧ ¬ used sb s c ∧ t = takeBlock sb s c) NoDoubleFree s := by
  induction k generalizing b with
  | zero => exact wp_throw (by unfold NoDoubleFree; decide)
  | succ k ih =>
    unfold ballocFrom
    split
    · refine wp_bind_run rfl ?_
      split
      · next bi hfind =>
        obtain ⟨hlt, hsize, hbit⟩ := findFree_some hfind
        have hdiv : (b + bi) / BPB = b / BPB := by
          unfold BPB at *
          omega
        have hmod : (b + bi) % BPB = bi := by
          unfold BPB at *
          omega
        refine ⟨hsize, ?_, ?_⟩
        · rintro ⟨-, hset⟩
          rw [hdiv, hmod, hbit] at hset
          cases hset
        · unfold takeBlock
          rw [hdiv, hmod]
          rfl
      · apply ih
        unfold BPB at *
        omega
    · exact wp_throw (by unfold NoDoubleFree; decide)

/-- A block just taken, still in no slot. -/
structure Fresh (sb : Superblock) (s : Fs) (b : ℕ) (t : Fs) : Prop where
  low : sb.nmeta ≤ b
  lt : b < sb.size
  icache : t.icache = s.icache
  slots : slot sb t = slot sb s
  exact : Exact (Ref sb t) (fun c => c = b ∨ c < sb.nmeta) (used sb t)
  zero : t.disk b = zeros
  data : ∀ c, sb.nmeta ≤ c → c ≠ b → t.disk c = s.disk c
  handed : ∀ h ∈ t.handed, Clean sb h

theorem takeBlock_slots (h : Consistent sb s) {b : ℕ} (hlt : b < sb.size)
    (hfree : ¬ used sb s b) : slot sb (takeBlock sb s b) = slot sb s := by
  have hlow : sb.nmeta ≤ b := by
    by_contra hb
    exact hfree ((h.exact.used_iff b).mpr (Or.inr (by omega)))
  have hmap : slot sb (putBlock s (b / BPB + sb.bmapstart)
      (setBit (s.disk (b / BPB + sb.bmapstart)) (b % BPB))) = slot sb s := by
    apply slot_putBlock
    · exact Nat.le_add_left _ _
    · intro i hx
      have := bitmap_block_lt hlt
      have := (h.owned.data _ _ hx).1
      omega
  unfold takeBlock
  rw [slot_putBlock _ (bmapstart_le hlt hlow).1, hmap]
  intro i hx
  exact h.exact.not_refs hfree _ ((ref_congr hmap _ _).mp hx)

theorem takeBlock_used {b : ℕ} (hlt : b < sb.size) (hlow : sb.nmeta ≤ b) (c : ℕ) :
    used sb (takeBlock sb s b) c ↔ c = b ∨ used sb s c := by
  unfold takeBlock
  rw [used_putBlock _ hlow, used_setBit hlt]

theorem Consistent.balloc (h : Consistent sb s) :
    wp (balloc sb) (fun b t => Fresh sb s b t) NoDoubleFree s := by
  refine wp_bind_run rfl ?_
  apply wp_bind
  refine wp_mono (ballocFrom_wp _ 0 (by decide)) ?_
  rintro b t ⟨hlt, hfree, rfl⟩
  have hlow : sb.nmeta ≤ b := by
    by_contra hb
    exact hfree ((h.exact.used_iff b).mpr (Or.inr (by omega)))
  have hslots := takeBlock_slots h hlt hfree
  have hzero : (takeBlock sb s b).disk b = zeros := disk_putBlock_self _ b zeros
  exact {
    low := hlow
    lt := hlt
    icache := rfl
    slots := hslots
    exact := (h.exact.take hfree).congr (ref_congr hslots) (fun _ => Iff.rfl)
      (takeBlock_used hlt hlow)
    zero := hzero
    data := by
      intro c hc hne
      have hmap : c ≠ b / BPB + sb.bmapstart := by
        have := bitmap_block_lt hlt
        omega
      exact (disk_putBlock_ne zeros hne).trans (disk_putBlock_ne _ hmap)
    handed := by
      intro r hr
      rcases List.mem_cons.mp hr with rfl | hr
      · refine ⟨hlow, hlt, ?_, hzero⟩
        by_contra hbit
        exact hfree ⟨hlt, by simpa using hbit⟩
      · exact h.handed r hr }

theorem toNat_block {b : ℕ} (hlt : b < sb.size) : (BitVec.ofNat 32 b).toNat = b := by
  have := sb.small
  rw [BitVec.toNat_ofNat]
  omega

/-- The fresh block goes into an empty slot. -/
theorem Fresh.assign {b : ℕ} {x : Slot} (h : Fresh sb s b t) (hx : slot sb s x = 0)
    (hself : slot sb u x = BitVec.ofNat 32 b) (hother : ∀ y, y ≠ x → slot sb u y = slot sb s y)
    (hused : ∀ c, used sb u c ↔ used sb t c) : Owned sb u := by
  have hpos := (bmapstart_le h.lt h.low).2
  have hempty : ∀ c, ¬ Ref sb t x c := by
    apply not_ref_of_slot
    rw [h.slots, hx]
  have hexact := h.exact.assign (Or.inl rfl) hempty
  refine owned_iff_exact.mpr (hexact.congr ?_ ?_ hused)
  · intro y c
    by_cases hy : y = x
    · subst hy
      unfold Ref
      rw [hself, toNat_block h.lt, h.slots, hx]
      constructor
      · rintro ⟨rfl, -⟩
        exact Or.inl ⟨rfl, rfl⟩
      · rintro (⟨-, rfl⟩ | ⟨h0, hne⟩)
        · exact ⟨rfl, hpos⟩
        · exact absurd h0.symm hne
    · unfold Ref
      rw [hother y hy, h.slots]
      constructor
      · exact Or.inr
      · rintro (⟨rfl, -⟩ | hr)
        · exact absurd rfl hy
        · exact hr
  · intro c
    have := h.low
    omega

/-! bmap() -/

theorem slot_setAddr_addr (hc : s.icache i = some ip) (k : ℕ) (a : Word) (n : ℕ)
    (hn : n ≠ k) : slot sb (putInode s i (ip.setAddr k a)) (.addr i n) =
      slot sb s (.addr i n) := by
  rw [slot, slot, inode_putInode_self, inode_cached hc]
  simp only [Inode.setAddr, Function.update_of_ne hn]

theorem slot_setAddr_entry (hc : s.icache i = some ip) {k : ℕ} (hk : k ≠ NDIRECT) (a : Word)
    (j : ℕ) : slot sb (putInode s i (ip.setAddr k a)) (.entry i j) =
      slot sb s (.entry i j) := by
  rw [slot, slot, inode_putInode_self, inode_cached hc, disk_putInode]
  simp only [Inode.setAddr, Function.update_of_ne (Ne.symm hk)]

theorem slot_setAddr_self (hi : i < sb.ninodes) (htype : ip.type ≠ 0) {k : ℕ}
    (hk : k ≤ NDIRECT) (a : Word) :
    slot sb (putInode s i (ip.setAddr k a)) (.addr i k) = a := by
  rw [slot, inode_putInode_self, if_pos ⟨hi, hk, htype⟩]
  simp only [Inode.setAddr, Function.update_self]

/-- The entries of an indirect block that is all zero, or missing. -/
theorem slot_setAddr_index (a : Word) (ha : a ≠ 0 → s.disk a.toNat = zeros) (j : ℕ) :
    slot sb (putInode s i (ip.setAddr NDIRECT a)) (.entry i j) = 0 := by
  rw [slot, inode_putInode_self]
  simp only [Inode.setAddr, Function.update_self, disk_putInode]
  split
  · next h => rw [ha h.2.2.2, word_zeros]
  · rfl

/-- An empty `addrs[k]` is filled. -/
theorem slot_setAddr_ne {k : ℕ} {a : Word} (hc : s.icache i = some ip) (hz : ip.addrs k = 0)
    (hzero : a ≠ 0 → s.disk a.toNat = zeros) {y : Slot} (hy : y ≠ .addr i k) :
    slot sb (putInode s i (ip.setAddr k a)) y = slot sb s y := by
  cases y with
  | addr j n =>
    by_cases hji : j = i
    · subst hji
      exact slot_setAddr_addr hc k _ n fun hn => hy (by rw [hn])
    · exact (slot_putInode_ne _).1 j n hji
  | entry j n =>
    by_cases hji : j = i
    · subst hji
      by_cases hkd : k = NDIRECT
      · subst hkd
        rw [slot_setAddr_index _ hzero, slot_entry_zero hc hz]
      · exact slot_setAddr_entry hc hkd _ n
    · exact (slot_putInode_ne _).2 j n hji

/-- An entry of the indirect block `a` is changed. -/
theorem slot_setEntry_ne {a j : ℕ} (howner : ∀ x y b, Ref sb s x b → Ref sb s y b → x = y)
    (hlow : sb.bmapstart ≤ a) (ha : Ref sb s (.addr i NDIRECT) a) (b : Word) {y : Slot}
    (hy : y ≠ .entry i j) :
    slot sb (putBlock s a (setWord (s.disk a) j b)) y = slot sb s y := by
  have haddr := slot_addr_putBlock (s := s) (setWord (s.disk a) j b) hlow
  cases y with
  | addr i' k => exact haddr i' k
  | entry i' k =>
    by_cases hk : k < NINDIRECT
    · rw [slot_entry_of_index _ i' hk, slot_entry_of_index _ i' hk, haddr]
      split
      · rfl
      · next hz =>
        have href := ref_of_slot hz
        by_cases hai : (slot sb s (.addr i' NDIRECT)).toNat = a
        · -- only inode `i` has its indirect block in `a`
          rw [hai] at href
          obtain ⟨rfl⟩ := howner _ _ _ href ha
          rw [hai, disk_putBlock_self, word_setWord_ne]
          exact fun hkj => hy (by rw [hkj])
        · rw [disk_putBlock_ne _ hai]
    · rw [slot_entry_out _ i' hk, slot_entry_out _ i' hk]

theorem cached_putInode (h : ∀ j jp, s.icache j = some jp → jp.type ≠ 0) (htype : ip.type ≠ 0) :
    ∀ j jp, (putInode s i ip).icache j = some jp → jp.type ≠ 0 := by
  intro j jp hj
  by_cases hji : j = i
  · subst hji
    rw [icache_putInode_self] at hj
    cases hj
    exact htype
  · rw [icache_putInode_ne ip hji] at hj
    exact h j jp hj

/-- The fresh block goes into an empty `addrs[k]`. -/
theorem Fresh.setAddr (h : Consistent sb s) (hi : i < sb.ninodes) (hc : s.icache i = some ip)
    {k b : ℕ} (hk : k ≤ NDIRECT) (hz : ip.addrs k = 0) (hb : Fresh sb s b t) :
    Consistent sb (putInode t i (ip.setAddr k (BitVec.ofNat 32 b))) ∧
      Ref sb (putInode t i (ip.setAddr k (BitVec.ofNat 32 b))) (.addr i k) b := by
  have htype := h.cached i ip hc
  have hct : t.icache i = some ip := by rw [hb.icache, hc]
  have hself := slot_setAddr_self (s := t) hi htype hk (BitVec.ofNat 32 b)
  have hzero : BitVec.ofNat 32 b ≠ 0 → t.disk (BitVec.ofNat 32 b).toNat = zeros := by
    intro _
    rw [toNat_block hb.lt, hb.zero]
  have hother : ∀ y, y ≠ Slot.addr i k →
      slot sb (putInode t i (ip.setAddr k (BitVec.ofNat 32 b))) y = slot sb s y := by
    intro y hy
    rw [slot_setAddr_ne hct hz hzero hy, hb.slots]
  have hempty : slot sb s (.addr i k) = 0 := by rw [slot_addr h hi hc hk, hz]
  have hcached : ∀ j jp, t.icache j = some jp → jp.type ≠ 0 := by
    rw [hb.icache]
    exact h.cached
  refine ⟨⟨hb.assign hempty hself hother fun c => Iff.rfl, ?_, hb.handed⟩, ?_, ?_⟩
  · exact cached_putInode hcached htype
  · rw [hself, toNat_block hb.lt]
  · exact (bmapstart_le hb.lt hb.low).2

theorem bmapAddr_wp (h : Consistent sb s) (hi : i < sb.ninodes) (hl : Locked s i) {k : ℕ}
    (hk : k ≤ NDIRECT) :
    wp (bmapAddr sb i k) (fun b t => Consistent sb t ∧ Locked t i ∧ Ref sb t (.addr i k) b)
      NoDoubleFree s := by
  obtain ⟨ip, hc⟩ := hl
  refine wp_bind_run rfl ?_
  rw [inode_cached hc]
  split
  · next hz =>
    apply wp_bind
    refine wp_mono h.balloc ?_
    intro b t hb
    have hct : t.icache i = some ip := by rw [hb.icache, hc]
    obtain ⟨hcons, href⟩ := hb.setAddr h hi hc hk hz
    refine wp_bind_run (setInode_run hct _) ?_
    exact wp_pure ⟨hcons, ⟨_, icache_putInode_self _ _ _⟩, href⟩
  · next hz =>
    have hslot := slot_addr h hi hc hk
    refine wp_pure ⟨h, ⟨ip, hc⟩, ?_⟩
    rw [← hslot]
    exact ref_of_slot (by rw [hslot]; exact hz)

/-- A change of a block that only a file's own slots refer to. -/
theorem Consistent.putBlock (h : Consistent sb s) {x : Slot} {b : ℕ} (hb : Ref sb s x b)
    (hx : ∀ j, x ≠ .addr j NDIRECT) (v : DiskBlock) :
    Consistent sb (putBlock s b v) ∧ slot sb (putBlock s b v) = slot sb s := by
  obtain ⟨hlow, hlt⟩ := h.owned.data x b hb
  have hslots : slot sb (BlockSlots.putBlock s b v) = slot sb s := by
    apply slot_putBlock v (bmapstart_le hlt hlow).1
    intro j hj
    exact hx j (h.owned.unique _ _ _ hb hj)
  refine ⟨⟨?_, h.cached, h.handed⟩, hslots⟩
  exact owned_iff_exact.mpr
    (h.exact.congr (ref_congr hslots) (fun _ => Iff.rfl) (used_putBlock v hlow))

/-- The fresh block goes into an empty entry of an indirect block. -/
theorem Fresh.setEntry (h : Consistent sb s) {j a b : ℕ} (hj : j < NINDIRECT) (ha : Ref sb s (.addr i NDIRECT) a)
    (hz : word (s.disk a) j = 0) (hb : Fresh sb s b t) :
    Consistent sb (putBlock t a (setWord (t.disk a) j (BitVec.ofNat 32 b))) ∧
      Ref sb (putBlock t a (setWord (t.disk a) j (BitVec.ofNat 32 b))) (.entry i j) b := by
  obtain ⟨hlow, hlt⟩ := h.owned.data _ a ha
  have hat : Ref sb t (.addr i NDIRECT) a := (ref_congr hb.slots _ _).mpr ha
  have hne : a ≠ b := fun hab => hb.exact.apart _ a hat (Or.inl hab)
  have hdisk : t.disk a = s.disk a := hb.data a hlow hne
  have haddr := slot_addr_putBlock (s := t) (setWord (t.disk a) j (BitVec.ofNat 32 b))
    (bmapstart_le hlt hlow).1
  have hau : Ref sb (putBlock t a (setWord (t.disk a) j (BitVec.ofNat 32 b)))
      (.addr i NDIRECT) a := by
    rw [Ref, haddr]
    exact hat
  have hword : 4 * j + 3 < BSIZE := by
    unfold NINDIRECT at hj
    unfold BSIZE
    omega
  have hself : slot sb (putBlock t a (setWord (t.disk a) j (BitVec.ofNat 32 b))) (.entry i j) =
      BitVec.ofNat 32 b := by
    rw [slot_entry_of_ref hau hj, disk_putBlock_self, word_setWord_self _ _ hword]
  have hother : ∀ y, y ≠ Slot.entry i j →
      slot sb (putBlock t a (setWord (t.disk a) j (BitVec.ofNat 32 b))) y = slot sb s y := by
    intro y hy
    rw [slot_setEntry_ne hb.exact.owner (bmapstart_le hlt hlow).1 hat _ hy, hb.slots]
  have hempty : slot sb s (.entry i j) = 0 := by rw [slot_entry_of_ref ha hj, hz]
  have hown := hb.assign hempty hself hother (used_putBlock _ hlow)
  refine ⟨⟨hown, ?_, hb.handed⟩, ?_, (bmapstart_le hb.lt hb.low).2⟩
  · change ∀ j jp, t.icache j = some jp → jp.type ≠ 0
    rw [hb.icache]
    exact h.cached
  · rw [hself, toNat_block hb.lt]

theorem bmap_wp (h : Consistent sb s) (hi : i < sb.ninodes) (hl : Locked s i) (bn : ℕ) :
    wp (bmap sb i bn)
      (fun b t => Consistent sb t ∧ Locked t i ∧
        ∃ x, (∀ j, x ≠ .addr j NDIRECT) ∧ Ref sb t x b) NoDoubleFree s := by
  unfold bmap
  split
  · next hbn =>
    refine wp_mono (bmapAddr_wp h hi hl (Nat.le_of_lt hbn)) ?_
    rintro b t ⟨ht, hlt, href⟩
    refine ⟨ht, hlt, _, ?_, href⟩
    rintro j hj
    cases hj
    exact Nat.lt_irrefl _ hbn
  · dsimp only
    split
    · next hbn =>
      apply wp_bind
      refine wp_mono (bmapAddr_wp h hi hl (Nat.le_refl _)) ?_
      rintro a t ⟨ht, hlt, href⟩
      obtain ⟨ip, hc⟩ := hlt
      refine wp_bind_run rfl ?_
      split
      · next hz =>
        apply wp_bind
        refine wp_mono ht.balloc ?_
        intro b u hb
        obtain ⟨hcons, hent⟩ := hb.setEntry ht hbn href hz
        refine wp_bind_run (change_run u a _) ?_
        refine wp_pure ⟨hcons, ⟨ip, ?_⟩, _, ?_, hent⟩
        · exact (congrFun hb.icache i).trans hc
        · intro j hj
          cases hj
      · next hz =>
        have hslot := slot_entry_of_ref href hbn
        refine wp_pure ⟨ht, ⟨ip, hc⟩, .entry i (bn - NDIRECT), ?_, ?_⟩
        · intro j hj
          cases hj
        · rw [← hslot]
          exact ref_of_slot (by rw [hslot]; exact hz)
    · exact wp_throw (by unfold NoDoubleFree; decide)

/-! itrunc(): between the calls of bfree() some slots hold blocks already given back. -/

/-- Ownership without the slots in `drop`. -/
def Kept (sb : Superblock) (drop : Slot → Prop) (s : Fs) : Prop :=
  Exact (fun y c => ¬ drop y ∧ Ref sb s y c) (· < sb.nmeta) (used sb s)

theorem Kept.congr {drop drop' : Slot → Prop} (h : Kept sb drop s)
    (hd : ∀ y c, Ref sb s y c → (drop' y ↔ drop y)) : Kept sb drop' s := by
  refine Exact.congr h ?_ (fun _ => Iff.rfl) fun _ => Iff.rfl
  intro y c
  constructor
  · rintro ⟨hn, hr⟩
    exact ⟨fun hy => hn ((hd y c hr).mpr hy), hr⟩
  · rintro ⟨hn, hr⟩
    exact ⟨fun hy => hn ((hd y c hr).mp hy), hr⟩

theorem Consistent.kept (h : Consistent sb s) {drop : Slot → Prop} (hd : ∀ y, ¬ drop y) :
    Kept sb drop s := by
  refine h.exact.congr ?_ (fun _ => Iff.rfl) fun _ => Iff.rfl
  intro y c
  exact and_iff_right (hd y)

/-- A referenced block is a data block, and no data block has changed. -/
structure SameFiles (sb : Superblock) (s t : Fs) : Prop where
  icache : t.icache = s.icache
  handed : t.handed = s.handed
  slots : slot sb t = slot sb s

theorem SameFiles.trans (h : SameFiles sb s t) (g : SameFiles sb t u) : SameFiles sb s u where
  icache := g.icache.trans h.icache
  handed := g.handed.trans h.handed
  slots := g.slots.trans h.slots

theorem bfree_wp {drop : Slot → Prop} (h : Kept sb drop s) (hidx : ∀ j, ¬ drop (.addr j NDIRECT))
    {x : Slot} {b : ℕ} (hx : ¬ drop x) (href : Ref sb s x b) :
    wp (bfree sb b) (fun _ t => SameFiles sb s t ∧ Kept sb (fun y => y = x ∨ drop y) t)
      E s := by
  have hused := h.used_of_refs ⟨hx, href⟩
  refine wp_bind_run rfl ?_
  rw [if_neg (by rw [hused.2]; exact Bool.noConfusion)]
  change (SameFiles sb s _ ∧ Kept sb _ _)
  have hslots : slot sb (putBlock s (b / BPB + sb.bmapstart)
      (clearBit (s.disk (b / BPB + sb.bmapstart)) (b % BPB))) = slot sb s := by
    apply slot_putBlock
    · exact Nat.le_add_left _ _
    · intro i hi
      have := bitmap_block_lt hused.1
      exact h.apart _ _ ⟨hidx i, hi⟩ this
  refine ⟨⟨rfl, rfl, hslots⟩, (h.free ⟨hx, href⟩).congr ?_ (fun _ => Iff.rfl) ?_⟩
  · intro y c
    rw [not_or, and_assoc]
    exact and_congr_right fun _ => and_congr_right fun _ => ref_congr hslots y c
  · exact used_clearBit b

/-- The slots that go with `addrs[k]`. -/
def Under (i k : ℕ) (y : Slot) : Prop := k = NDIRECT ∧ ∃ j, y = .entry i j

structure Cleared (sb : Superblock) (drop : Slot → Prop) (s t : Fs) : Prop where
  consistent : Consistent sb t
  gone : ∀ y, drop y → slot sb t y = 0
  kept : ∀ y, ¬ drop y → slot sb t y = slot sb s y

theorem freeAddr_wp {k : ℕ} (h : Kept sb (Under i k) s)
    (hcached : ∀ j jp, s.icache j = some jp → jp.type ≠ 0)
    (hhanded : ∀ r ∈ s.handed, Clean sb r) (hi : i < sb.ninodes) (hc : s.icache i = some ip)
    (hk : k ≤ NDIRECT) (hne : ip.addrs k ≠ 0) :
    wp (freeAddr sb i k)
      (fun _ t => Locked t i ∧ Cleared sb (fun y => y = .addr i k ∨ Under i k y) s t)
      E s := by
  have htype := hcached i ip hc
  have haddr : ∀ j n, ¬ Under i k (.addr j n) := by
    rintro j n ⟨-, m, hm⟩
    cases hm
  have hslot : slot sb s (.addr i k) = ip.addrs k := by
    rw [slot, inode_cached hc, if_pos ⟨hi, hk, htype⟩]
  have href : Ref sb s (.addr i k) (ip.addrs k).toNat := by
    rw [← hslot]
    exact ref_of_slot (by rw [hslot]; exact hne)
  refine wp_bind_run rfl ?_
  rw [inode_cached hc]
  apply wp_bind
  refine wp_mono (bfree_wp h (fun j => haddr j _) (haddr i k) href) ?_
  rintro - t ⟨hsame, hkept⟩
  have hct : t.icache i = some ip := by rw [hsame.icache, hc]
  have hcachedt : ∀ j jp, t.icache j = some jp → jp.type ≠ 0 := by
    rw [hsame.icache]
    exact hcached
  rw [wp, setInode_run hct]
  have hgone : ∀ y, y = .addr i k ∨ Under i k y →
      slot sb (putInode t i (ip.setAddr k 0)) y = 0 := by
    rintro y (rfl | ⟨rfl, j, rfl⟩)
    · exact slot_setAddr_self hi htype hk 0
    · exact slot_setAddr_index 0 (fun h0 => absurd rfl h0) j
  have hstay : ∀ y, ¬ (y = .addr i k ∨ Under i k y) →
      slot sb (putInode t i (ip.setAddr k 0)) y = slot sb s y := by
    intro y hy
    rw [← hsame.slots]
    cases y with
    | addr j n =>
      by_cases hji : j = i
      · subst hji
        exact slot_setAddr_addr hct k 0 n fun hn => hy (Or.inl (by rw [hn]))
      · exact (slot_putInode_ne _).1 j n hji
    | entry j n =>
      by_cases hji : j = i
      · subst hji
        exact slot_setAddr_entry hct (fun hkd => hy (Or.inr ⟨hkd, n, rfl⟩)) 0 n
      · exact (slot_putInode_ne _).2 j n hji
  refine ⟨⟨_, icache_putInode_self _ _ _⟩, ⟨?_, ?_, ?_⟩, hgone, hstay⟩
  · refine owned_iff_exact.mpr (Exact.congr hkept ?_ (fun _ => Iff.rfl) fun _ => Iff.rfl)
    intro y c
    by_cases hy : y = .addr i k ∨ Under i k y
    · constructor
      · intro hr
        exact absurd hr (not_ref_of_slot (hgone y hy) c)
      · rintro ⟨hn, -⟩
        exact absurd hy hn
    · rw [and_iff_right hy]
      unfold Ref
      rw [hstay y hy, hsame.slots]
  · exact cached_putInode hcachedt htype
  · change ∀ r ∈ t.handed, Clean sb r
    rw [hsame.handed]
    exact hhanded

theorem Cleared.trans {d e : Slot → Prop} (h : Cleared sb d s t) (g : Cleared sb e t u) :
    Cleared sb (fun y => d y ∨ e y) s u where
  consistent := g.consistent
  gone := by
    intro y hy
    by_cases he : e y
    · exact g.gone y he
    · rw [g.kept y he]
      exact h.gone y (hy.resolve_right he)
  kept := by
    intro y hy
    rw [g.kept y fun he => hy (Or.inr he), h.kept y fun hd => hy (Or.inl hd)]

theorem Cleared.congr {d e : Slot → Prop} (h : Cleared sb d s t)
    (he : ∀ y, slot sb s y ≠ 0 → (e y ↔ d y)) : Cleared sb e s t where
  consistent := h.consistent
  gone := by
    intro y hy
    by_cases hd : d y
    · exact h.gone y hd
    · rw [h.kept y hd]
      by_contra hz
      exact hd ((he y hz).mp hy)
  kept := by
    intro y hy
    by_cases hd : d y
    · rw [h.gone y hd]
      by_contra hz
      exact hy ((he y (Ne.symm hz)).mpr hd)
    · exact h.kept y hd

theorem Cleared.refl (h : Consistent sb s) : Cleared sb (fun _ => False) s s where
  consistent := h
  gone := fun _ hy => hy.elim
  kept := fun _ _ => rfl

/-- The direct slots the loop has still to visit. -/
def Direct (i k : ℕ) (y : Slot) : Prop := ∃ n, NDIRECT - k ≤ n ∧ n < NDIRECT ∧ y = .addr i n

theorem freeDirect_wp (h : Consistent sb s) (hi : i < sb.ninodes) (hl : Locked s i) (k : ℕ)
    (hk : k ≤ NDIRECT) :
    wp (freeDirect sb i k) (fun _ t => Locked t i ∧ Cleared sb (Direct i k) s t)
      E s := by
  induction k generalizing s with
  | zero =>
    refine wp_pure ⟨hl, (Cleared.refl h).congr ?_⟩
    intro y _
    constructor
    · rintro ⟨n, hn, hlt, -⟩
      omega
    · exact False.elim
  | succ k ih =>
    obtain ⟨ip, hc⟩ := hl
    have hn : NDIRECT - (k + 1) < NDIRECT := by omega
    have hdirect : ∀ y, Direct i (k + 1) y ↔ y = .addr i (NDIRECT - (k + 1)) ∨ Direct i k y := by
      intro y
      constructor
      · rintro ⟨n, hle, hlt, rfl⟩
        by_cases hnk : n = NDIRECT - (k + 1)
        · exact Or.inl (by rw [hnk])
        · exact Or.inr ⟨n, by omega, hlt, rfl⟩
      · rintro (rfl | ⟨n, hle, hlt, rfl⟩)
        · exact ⟨_, Nat.le_refl _, hn, rfl⟩
        · exact ⟨n, by omega, hlt, rfl⟩
    refine wp_bind_run rfl ?_
    rw [inode_cached hc]
    split
    · next hne =>
      have hunder : ∀ y, ¬ Under i (NDIRECT - (k + 1)) y := by
        rintro y ⟨hd, -⟩
        omega
      apply wp_bind
      refine wp_mono (freeAddr_wp (h.kept hunder) h.cached h.handed hi hc (Nat.le_of_lt hn)
        hne) ?_
      rintro - t ⟨hlt, hclear⟩
      refine wp_mono (ih hclear.consistent hlt (by omega)) ?_
      rintro - u ⟨hlu, hrest⟩
      refine ⟨hlu, (hclear.trans hrest).congr ?_⟩
      intro y _
      rw [hdirect, or_iff_left (hunder y)]
    · next hz =>
      have hslot : slot sb s (.addr i (NDIRECT - (k + 1))) = 0 := by
        rw [slot_addr h hi hc (Nat.le_of_lt hn)]
        simpa using hz
      refine wp_mono (ih h ⟨ip, hc⟩ (by omega)) ?_
      rintro - u ⟨hlu, hrest⟩
      refine ⟨hlu, hrest.congr ?_⟩
      intro y hy
      rw [hdirect, or_iff_right]
      rintro rfl
      exact hy hslot

/-- The entries the loop over the indirect block has visited. -/
def Visited (i n : ℕ) (y : Slot) : Prop := ∃ j < n, y = .entry i j

theorem freeEntries_wp {a : DiskBlock} {k : ℕ} (hk : k ≤ NINDIRECT)
    (h : Kept sb (Visited i (NINDIRECT - k)) s)
    (ha : ∀ j < NINDIRECT, slot sb s (.entry i j) = word a j) :
    wp (freeEntries sb a k)
      (fun _ t => SameFiles sb s t ∧ Kept sb (Visited i NINDIRECT) t) E s := by
  induction k generalizing s with
  | zero => exact wp_pure ⟨⟨rfl, rfl, rfl⟩, h⟩
  | succ k ih =>
    have hn : NINDIRECT - (k + 1) < NINDIRECT := by omega
    have hnext : ∀ y, Visited i (NINDIRECT - k) y ↔
        y = .entry i (NINDIRECT - (k + 1)) ∨ Visited i (NINDIRECT - (k + 1)) y := by
      intro y
      constructor
      · rintro ⟨j, hj, rfl⟩
        by_cases hjn : j = NINDIRECT - (k + 1)
        · exact Or.inl (by rw [hjn])
        · exact Or.inr ⟨j, by omega, rfl⟩
      · rintro (rfl | ⟨j, hj, rfl⟩)
        · exact ⟨_, by omega, rfl⟩
        · exact ⟨j, by omega, rfl⟩
    have hslot := ha _ hn
    unfold freeEntries
    dsimp only
    split
    · next hne =>
      have hx : ¬ Visited i (NINDIRECT - (k + 1)) (.entry i (NINDIRECT - (k + 1))) := by
        rintro ⟨j, hj, he⟩
        cases he
        exact Nat.lt_irrefl _ hj
      have hidx : ∀ j, ¬ Visited i (NINDIRECT - (k + 1)) (.addr j NDIRECT) := by
        rintro j ⟨m, -, hm⟩
        cases hm
      have href : Ref sb s (.entry i (NINDIRECT - (k + 1)))
          (word a (NINDIRECT - (k + 1))).toNat := by
        rw [← hslot]
        exact ref_of_slot (by rw [hslot]; exact hne)
      apply wp_bind
      refine wp_mono (bfree_wp h hidx hx href) ?_
      rintro - t ⟨hsame, hkept⟩
      have hat : ∀ j < NINDIRECT, slot sb t (.entry i j) = word a j := by
        rw [hsame.slots]
        exact ha
      refine wp_mono (ih (by omega) (hkept.congr fun y _ _ => hnext y) hat) ?_
      rintro - u ⟨hu, hrest⟩
      exact ⟨hsame.trans hu, hrest⟩
    · next hz =>
      refine ih (by omega) (h.congr ?_) ha
      intro y c hr
      rw [hnext, or_iff_right]
      rintro rfl
      refine not_ref_of_slot ?_ c hr
      rw [hslot]
      simpa using hz

theorem freeIndirect_wp (h : Consistent sb s) (hi : i < sb.ninodes) (hl : Locked s i) :
    wp (freeIndirect sb i)
      (fun _ t => Locked t i ∧
        Cleared sb (fun y => y = .addr i NDIRECT ∨ Under i NDIRECT y) s t)
      E s := by
  obtain ⟨ip, hc⟩ := hl
  have hslot := slot_addr h hi hc (Nat.le_refl NDIRECT)
  refine wp_bind_run rfl ?_
  rw [inode_cached hc]
  split
  · next hne =>
    have href : Ref sb s (.addr i NDIRECT) (ip.addrs NDIRECT).toNat := by
      rw [← hslot]
      exact ref_of_slot (by rw [hslot]; exact hne)
    have hnone : ∀ y, ¬ Visited i (NINDIRECT - NINDIRECT) y := by
      rintro y ⟨j, hj, -⟩
      omega
    refine wp_bind_run rfl ?_
    apply wp_bind
    refine wp_mono (freeEntries_wp (Nat.le_refl _) (h.kept hnone)
      fun j hj => slot_entry_of_ref href hj) ?_
    rintro - t ⟨hsame, hkept⟩
    have hcached : ∀ j jp, t.icache j = some jp → jp.type ≠ 0 := by
      rw [hsame.icache]
      exact h.cached
    have hhanded : ∀ r ∈ t.handed, Clean sb r := by
      rw [hsame.handed]
      exact h.handed
    have hunder : Kept sb (Under i NDIRECT) t := by
      refine hkept.congr ?_
      intro y c hr
      constructor
      · rintro ⟨-, j, rfl⟩
        by_cases hj : j < NINDIRECT
        · exact ⟨j, hj, rfl⟩
        · exact absurd hr (not_ref_of_slot (slot_entry_out t i hj) c)
      · rintro ⟨j, -, rfl⟩
        exact ⟨rfl, j, rfl⟩
    have hct : t.icache i = some ip := by rw [hsame.icache, hc]
    refine wp_mono (freeAddr_wp hunder hcached hhanded hi hct (Nat.le_refl _) hne) ?_
    rintro - u ⟨hlu, hclear⟩
    refine ⟨hlu, hclear.consistent, hclear.gone, ?_⟩
    rw [← hsame.slots]
    exact hclear.kept
  · next hz =>
    have haddr : ip.addrs NDIRECT = 0 := by simpa using hz
    refine wp_pure ⟨⟨ip, hc⟩, (Cleared.refl h).congr ?_⟩
    intro y hy
    constructor
    · rintro (rfl | ⟨-, j, rfl⟩)
      · exact hy (by rw [hslot, haddr])
      · exact hy (slot_entry_zero hc haddr j)
    · exact False.elim

theorem Consistent.flushed (h : Consistent sb s) (hi : i < sb.ninodes)
    (hc : s.icache i = some ip) :
    Consistent sb (flushed sb s i ip) ∧ slot sb (flushed sb s i ip) = slot sb s := by
  have hslots := slot_flushed hi hc fun j b hb => h.owned.data _ b hb
  refine ⟨⟨?_, h.cached, h.handed⟩, hslots⟩
  exact owned_iff_exact.mpr
    (h.exact.congr (ref_congr hslots) (fun _ => Iff.rfl) (used_flushed hi))

theorem iupdate_run (hc : s.icache i = some ip) :
    iupdate sb i s = .ok ((), BlockSlots.flushed sb s i ip) := by
  have hinode : inode sb s i = ip := inode_cached hc
  rw [← hinode]
  rfl

/-- The size alone does not matter. -/
theorem Consistent.setSize (h : Consistent sb s) (hc : s.icache i = some ip) (n : Word) :
    Consistent sb (putInode s i { ip with size := n }) ∧
      slot sb (putInode s i { ip with size := n }) = slot sb s := by
  have hslots : slot sb (putInode s i { ip with size := n }) = slot sb s := by
    apply slot_putInode_same
    · rw [inode_cached hc]
    · rw [inode_cached hc]
  refine ⟨⟨?_, cached_putInode h.cached (h.cached i ip hc), h.handed⟩, hslots⟩
  exact owned_iff_exact.mpr
    (h.exact.congr (ref_congr hslots) (fun _ => Iff.rfl) fun _ => Iff.rfl)

theorem setSize_wp (h : Consistent sb s) (hi : i < sb.ninodes) (hl : Locked s i) (n : Word) :
    wp (do setInode sb i fun ip => { ip with size := n }; iupdate sb i)
      (fun _ t => Consistent sb t ∧ Locked t i ∧ slot sb t = slot sb s) E s := by
  obtain ⟨ip, hc⟩ := hl
  obtain ⟨ht, hslots⟩ := h.setSize hc n
  have hct : (putInode s i { ip with size := n }).icache i = some { ip with size := n } :=
    icache_putInode_self _ _ _
  obtain ⟨hu, hflush⟩ := ht.flushed hi hct
  refine wp_bind_run (setInode_run hc _) ?_
  rw [wp, iupdate_run hct]
  exact ⟨hu, ⟨_, hct⟩, hflush.trans hslots⟩

theorem itrunc_wp (h : Consistent sb s) (hi : i < sb.ninodes) (hl : Locked s i) :
    wp (itrunc sb i) (fun _ t => Locked t i ∧ Cleared sb (fun y => y.inum = i) s t)
      E s := by
  apply wp_bind
  refine wp_mono (freeDirect_wp h hi hl NDIRECT (Nat.le_refl _)) ?_
  rintro - t ⟨hlt, hdirect⟩
  apply wp_bind
  refine wp_mono (freeIndirect_wp hdirect.consistent hi hlt) ?_
  rintro - u ⟨hlu, hindirect⟩
  refine wp_mono (setSize_wp hindirect.consistent hi hlu 0) ?_
  rintro - v ⟨hv, hlv, hslots⟩
  have hclear := (hdirect.trans hindirect).congr (e := fun y => y.inum = i) ?_
  · refine ⟨hlv, hv, ?_, ?_⟩
    · rw [hslots]
      exact hclear.gone
    · rw [hslots]
      exact hclear.kept
  · intro y hy
    constructor
    · intro hyi
      cases y with
      | addr j k =>
        obtain rfl : j = i := hyi
        have hk : k ≤ NDIRECT := by
          by_contra hk
          exact hy (slot_addr_out s j hk)
        rcases Nat.lt_or_eq_of_le hk with hlt | rfl
        · exact Or.inl ⟨k, by omega, hlt, rfl⟩
        · exact Or.inr (Or.inl rfl)
      | entry j k =>
        obtain rfl : j = i := hyi
        exact Or.inr (Or.inr ⟨rfl, k, rfl⟩)
    · rintro (⟨n, -, -, rfl⟩ | rfl | ⟨-, j, rfl⟩)
      · rfl
      · rfl
      · rfl

/-- What iput() leaves of an inode it frees. -/
structure Freed (sb : Superblock) (i : ℕ) (s t : Fs) : Prop where
  cleared : Cleared sb (fun y => y.inum = i) s t
  uncached : t.icache i = none
  type : (dinode sb t i).type = 0

theorem Cleared.freed (h : Cleared sb (fun y => y.inum = i) s t) (hi : i < sb.ninodes)
    (hz : ip.type = 0) :
    Freed sb i s (evict (flushed sb (putInode t i ip) i ip) i) := by
  have hc : (putInode t i ip).icache i = some ip := icache_putInode_self t i ip
  have htype : (inode sb (flushed sb (putInode t i ip) i ip) i).type = 0 := by
    rw [inode_flushed hc, inode_putInode_self, hz]
  have hput : slot sb (putInode t i ip) = slot sb t := by
    funext x
    by_cases hx : x.inum = i
    · rw [h.gone x hx, slot_of_type_zero _ hx]
      rw [inode_putInode_self, hz]
    · exact slot_of_inode (inode_putInode_ne ip hx) rfl rfl
  have hflush : slot sb (flushed sb (putInode t i ip) i ip) = slot sb t :=
    (slot_flushed hi hc fun j b hb =>
      h.consistent.owned.data _ b ((ref_congr hput _ _).mp hb)).trans hput
  have hdisk : (dinode sb (flushed sb (putInode t i ip) i ip) i).type = 0 :=
    type_flushed.trans hz
  have hall := (slot_evict htype hdisk).trans hflush
  refine ⟨⟨⟨?_, ?_, h.consistent.handed⟩, ?_, ?_⟩, icache_evict_self _ _, hdisk⟩
  · exact owned_iff_exact.mpr (h.consistent.exact.congr (ref_congr hall)
      (fun _ => Iff.rfl) (used_flushed hi))
  · intro j jp hj
    by_cases hji : j = i
    · subst hji
      rw [icache_evict_self] at hj
      cases hj
    · rw [icache_evict_ne hji] at hj
      exact h.consistent.cached j jp ((icache_putInode_ne ip hji).symm.trans hj)
  · rw [hall]
    exact h.gone
  · rw [hall]
    exact h.kept

theorem free_wp (h : Consistent sb s) (hi : i < sb.ninodes) (hl : Locked s i) :
    wp (free sb i) (fun _ t => Freed sb i s t) E s := by
  apply wp_bind
  refine wp_mono (itrunc_wp h hi hl) ?_
  rintro - t ⟨⟨ip, hc⟩, hclear⟩
  have hct := icache_putInode_self t i { ip with type := 0 }
  refine wp_bind_run (setInode_run hc _) (wp_bind_run (iupdate_run hct) ?_)
  exact hclear.freed hi rfl

/-! writei() -/

theorem writeFrom_wp (src : ℕ → Byte) (n k tot off : ℕ) (h : Consistent sb s)
    (hi : i < sb.ninodes) (hl : Locked s i) :
    wp (writeFrom sb i src n k tot off) (fun _ t => Consistent sb t ∧ Locked t i)
      NoDoubleFree s := by
  induction k generalizing s tot off with
  | zero => exact wp_pure ⟨h, hl⟩
  | succ k ih =>
    unfold writeFrom
    split
    · apply wp_bind
      refine wp_mono (bmap_wp h hi hl (off / BSIZE)) ?_
      rintro b t ⟨ht, hlt, x, hx, href⟩
      exact wp_bind_run (change_run t b _) (ih _ _ (ht.putBlock href hx _).1 hlt)
    · exact wp_pure ⟨h, hl⟩

theorem writei_wp (dev : Half → Option (Word → ℤ)) (src : ℕ → Byte) (off n : Word)
    (h : Consistent sb s) (hi : i < sb.ninodes) (hl : Locked s i) :
    wp (writei sb dev i src off n) (fun _ t => Consistent sb t) NoDoubleFree s := by
  refine wp_bind_run rfl ?_
  split
  · split
    · exact wp_pure h
    · exact wp_pure h
  · split
    · exact wp_pure h
    · split
      · exact wp_pure h
      · apply wp_bind
        refine wp_mono (writeFrom_wp src n.toNat n.toNat 0 off.toNat h hi hl) ?_
        rintro - t ⟨ht, hlt⟩
        have hextend : wp (extend sb i (off + n) n) (fun _ u => Consistent sb u)
            NoDoubleFree t := by
          refine wp_bind_run rfl ?_
          split
          · refine wp_mono (setSize_wp ht hi hlt (off + n)) ?_
            rintro - u ⟨hu, -⟩
            exact hu
          · exact wp_pure ht
        apply wp_bind
        refine wp_mono hextend ?_
        rintro - u hu
        exact wp_pure hu

/-! The operations under the inode's lock. -/

theorem ilock_wp (h : Consistent sb s) :
    wp (ilock sb i) (fun _ t => Consistent sb t ∧ Locked t i) NoDoubleFree s := by
  refine wp_bind_run rfl ?_
  split
  · next ip hc => exact wp_pure ⟨h, ip, hc⟩
  · next hc =>
    have hinode : inode sb s i = dinode sb s i := by rw [inode, hc, Option.getD_none]
    refine wp_bind_run rfl ?_
    split
    · exact wp_throw (by unfold NoDoubleFree; decide)
    · next htype =>
      have hslots : slot sb (putInode s i (inode sb s i)) = slot sb s :=
        slot_putInode_same _ rfl rfl
      refine wp_pure ⟨⟨?_, ?_, h.handed⟩, ⟨_, icache_putInode_self _ _ _⟩⟩
      · exact owned_iff_exact.mpr (h.exact.congr (ref_congr hslots) (fun _ => Iff.rfl)
          fun _ => Iff.rfl)
      · exact cached_putInode h.cached (by rw [hinode]; exact htype)

theorem iputSection_wp (h : Consistent sb s) (hi : i < sb.ninodes) (r : ℤ) :
    wp (iputSection sb i r) (fun _ t => Consistent sb t) E s := by
  refine wp_bind_run rfl ?_
  split
  · exact wp_pure h
  · next ip hc =>
    split
    · refine wp_mono (free_wp h hi ⟨ip, hc⟩) ?_
      rintro - t ht
      exact ht.cleared.consistent
    · exact wp_pure h

theorem run_wp (h : Consistent sb s) (op : Op) (hi : op.inum < sb.ninodes) :
    wp (op.run sb) (fun _ t => Consistent sb t) NoDoubleFree s := by
  cases op with
  | bmap i bn =>
    apply wp_bind
    refine wp_mono (ilock_wp h) ?_
    rintro - t ⟨ht, hl⟩
    apply wp_bind
    refine wp_mono (bmap_wp ht hi hl bn) ?_
    rintro b u ⟨hu, -⟩
    exact wp_pure hu
  | writei dev i src off n =>
    apply wp_bind
    refine wp_mono (ilock_wp h) ?_
    rintro - t ⟨ht, hl⟩
    apply wp_bind
    refine wp_mono (writei_wp dev src off n ht hi hl) ?_
    rintro c u hu
    exact wp_pure hu
  | itrunc i =>
    apply wp_bind
    refine wp_mono (ilock_wp h) ?_
    rintro - t ⟨ht, hl⟩
    refine wp_mono (itrunc_wp ht hi hl) ?_
    rintro - u ⟨-, hu⟩
    exact hu.consistent
  | iput i r => exact iputSection_wp h hi r

structure Invariant (sb : Superblock) (s : State) : Prop where
  consistent : Consistent sb s.fs
  halted : ∀ e, s.halted = some e → NoDoubleFree e

theorem step_keeps_invariant {s t : State} {op : Op} (h : Invariant sb s)
    (hs : (machine sb).Step s op t) : Invariant sb t := by
  obtain ⟨⟨-, hi⟩, rfl⟩ := hs
  have hrun := run_wp h.consistent op hi
  change Invariant sb (next sb s op)
  unfold next
  split
  · next u hu =>
    have hcons := wp_ok hrun hu
    refine ⟨hcons, ?_⟩
    intro e he
    cases he
  · next e he =>
    refine ⟨h.consistent, ?_⟩
    rintro e' he'
    cases he'
    exact wp_error hrun he

def smallDisk : Superblock where
  size := 1000
  nblocks := 941
  ninodes := 200
  inodestart := 32
  bmapstart := 58
  small := by decide
  inodes_fit := by
    intro i hi
    unfold IPB
    omega
  bitmap_fit := by
    intro b hb
    unfold BPB
    omega

/-- The bits of the first 60 blocks. -/
def smallBitmap : DiskBlock := fun k =>
  if k.val < 7 then 255 else if k.val = 7 then 15 else 0

/-- Inode 1 holds three bytes in block 59. -/
def orphan : Inode := ⟨2, 0, 0, 0, 3, fun k => if k = 0 then 59 else 0⟩

def smallFs : Fs where
  disk := fun b => if b = 58 then smallBitmap else
    if b = 32 then encodeDinode orphan 1 zeros else zeros
  icache := fun i => if i = 1 then some orphan else none
  handed := []

theorem smallBitmap_bit : ∀ b < 1000, bit smallBitmap b = decide (b < 60) := by
  decide +kernel

theorem smallFs_type (i : ℕ) (hi : i < smallDisk.ninodes) (hne : i ≠ 1) :
    (inode smallDisk smallFs i).type = 0 := by
  have hnone : smallFs.icache i = none := if_neg hne
  have hmap : i / IPB + smallDisk.inodestart ≠ 58 := inode_block_lt hi (Nat.le_refl 58)
  have hzero : (decodeDinode zeros i).type = 0 := by simp [decodeDinode, half]
  rw [inode, hnone, Option.getD_none, dinode]
  by_cases hblk : i / IPB + smallDisk.inodestart = 32
  · have hdisk : smallFs.disk 32 = encodeDinode orphan 1 zeros := rfl
    have hmod : i % IPB ≠ 1 % IPB := by
      change i / 8 + 32 = 32 at hblk
      change i % 8 ≠ 1
      omega
    rw [hblk, hdisk, decodeDinode_encodeDinode_ne orphan zeros hmod, hzero]
  · have hdisk : smallFs.disk (i / IPB + smallDisk.inodestart) = zeros :=
      (if_neg hmap).trans (if_neg hblk)
    rw [hdisk, hzero]

theorem smallFs_slot (x : Slot) (hx : x ≠ .addr 1 0) : slot smallDisk smallFs x = 0 := by
  by_cases hi : x.inum = 1
  · have hc : smallFs.icache 1 = some orphan := rfl
    cases x with
    | addr i k =>
      obtain rfl : i = 1 := hi
      have hk : k ≠ 0 := fun hk => hx (by rw [hk])
      have haddr : orphan.addrs k = 0 := if_neg hk
      rw [slot, inode_cached hc, haddr, ite_self]
    | entry i j =>
      obtain rfl : i = 1 := hi
      exact slot_entry_zero hc rfl j
  · by_cases hlt : x.inum < smallDisk.ninodes
    · exact slot_of_type_zero (smallFs_type x.inum hlt hi) rfl
    · cases x with
      | addr i k => rw [slot, if_neg fun h => hlt h.1]
      | entry i j => rw [slot, if_neg fun h => hlt h.1]

theorem smallFs_ref (x : Slot) (b : ℕ) :
    Ref smallDisk smallFs x b ↔ x = .addr 1 0 ∧ b = 59 := by
  have h59 : slot smallDisk smallFs (.addr 1 0) = 59 := rfl
  constructor
  · intro hr
    by_cases hx : x = .addr 1 0
    · subst hx
      refine ⟨rfl, ?_⟩
      rw [← hr.1, h59]
      rfl
    · exact absurd hr (not_ref_of_slot (smallFs_slot x hx) b)
  · rintro ⟨rfl, rfl⟩
    exact ⟨by rw [h59]; rfl, by decide⟩

theorem smallFs_owned : Owned smallDisk smallFs where
  unique := by
    intro x y b hx hy
    rw [((smallFs_ref x b).mp hx).1, ((smallFs_ref y b).mp hy).1]
  data := by
    intro x b hx
    obtain ⟨-, rfl⟩ := (smallFs_ref x b).mp hx
    decide
  bitmap := by
    intro b hb
    have hdiv : b / BPB + smallDisk.bmapstart = 58 := by
      change b < 1000 at hb
      change b / 4096 + 58 = 58
      omega
    have hmod : b % BPB = b := by
      change b < 1000 at hb
      exact Nat.mod_eq_of_lt (by unfold BPB; omega)
    have hdisk : smallFs.disk 58 = smallBitmap := rfl
    have hmeta : smallDisk.nmeta = 59 := rfl
    rw [hdiv, hmod, hdisk, smallBitmap_bit b hb, decide_eq_true_eq, hmeta]
    constructor
    · intro h
      by_cases hlt : b < 59
      · exact Or.inl hlt
      · exact Or.inr ⟨.addr 1 0, (smallFs_ref _ _).mpr ⟨rfl, by omega⟩⟩
    · rintro (h | ⟨x, hx⟩)
      · omega
      · have := ((smallFs_ref x b).mp hx).2
        omega

theorem smallFs_consistent : Consistent smallDisk smallFs where
  owned := smallFs_owned
  cached := by
    intro i ip h
    change (if i = 1 then some orphan else none) = some ip at h
    split at h
    · cases h
      decide
    · cases h
  handed := by
    intro h hh
    cases hh

/-- A write, a block behind the indirect block, and the last iput(). -/
def smallRun : List Op :=
  [.writei (fun _ => none) 1 (fun _ => 65) 0 3, .bmap 1 13, .iput 1 1]

end BlockOwnership
