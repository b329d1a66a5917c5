import OsEngineering.MkfsBooks
import Mathlib.Data.List.GetD

/-! The bytes that mkfs has put into each file of the image. -/
namespace MkfsFiles

open ByteBlock FaultState KernelParams ResourceLedger BlockAllocation BlockSlots BlockOwnership
  MkfsImage MkfsBooks

/-- File `i` has these bytes, and no block past them. -/
structure Holds (v : Fs) (i : ℕ) (bytes : List Byte) : Prop where
  small : bytes.length ≤ MAXFILE * BSIZE
  filled : ∀ o < bytes.length, mapped v i (o / BSIZE) ≠ 0
  byte : ∀ o < bytes.length,
    byte (v.disk (mapped v i (o / BSIZE)).toNat) (o % BSIZE) = bytes.getD o 0
  beyond : ∀ k, bytes.length ≤ k * BSIZE → mapped v i k = 0

variable {s t : Mkfs} {u v w : Fs} {i j k x : ℕ} {din : Inode} {p bytes : List Byte}
  {data : ℕ → List Byte}

theorem Holds.congr (h : Holds v i bytes) (hmapped : ∀ k, mapped w i k = mapped v i k)
    (hdisk : ∀ k, mapped v i k ≠ 0 →
      w.disk (mapped v i k).toNat = v.disk (mapped v i k).toNat) : Holds w i bytes where
  small := h.small
  filled := by
    intro o ho
    rw [hmapped]
    exact h.filled o ho
  byte := by
    intro o ho
    rw [hmapped, hdisk _ (h.filled o ho)]
    exact h.byte o ho
  beyond := by
    intro k hk
    rw [hmapped]
    exact h.beyond k hk

theorem ref_mapped (h : mapped v i k ≠ 0) : Ref sb v (fileSlot i k) (mapped v i k).toNat :=
  ref_of_slot h

theorem Holds.grown (h : Holds v j bytes) {fbn : ℕ} (g : Grown i fbn v w) (hji : j ≠ i) :
    Holds w j bytes := by
  refine h.congr (fun k => g.other j k fun hne => hji hne.1) ?_
  intro k hk
  exact g.disk j k _ (ref_mapped hk)

/-- A write to a block of file `i` leaves the other files alone. -/
theorem Holds.put (h : Holds v j bytes) (hslots : slot sb w = slot sb v)
    (hdisk : ∀ b, b ≠ x → w.disk b = v.disk b)
    (howner : ∀ y z b, Ref sb v y b → Ref sb v z b → y = z)
    (hx : Ref sb v (fileSlot i k) x) (hji : j ≠ i) : Holds w j bytes := by
  refine h.congr (fun n => by rw [mapped, mapped, hslots]) ?_
  intro n hn
  apply hdisk
  intro heq
  exact hji (fileSlot_inj (howner _ _ _ (heq ▸ ref_mapped hn) hx)).1

theorem byte_bcopy (p : List Byte) (b : DiskBlock) (pos n : ℕ) (hj : j < BSIZE) :
    byte (bcopy p b pos n) j = if pos ≤ j ∧ j < pos + n then p.getD (j - pos) 0 else byte b j := by
  simp only [byte, dif_pos hj, bcopy]

/-- The write of iappend() to the block that holds byte `bytes.length`. -/
theorem Holds.append (h : Holds v i bytes) (g : Grown i (bytes.length / BSIZE) v w)
    (hx : Ref sb w (fileSlot i (bytes.length / BSIZE)) x) {n : ℕ} (hpos : 0 < n)
    (hn : n ≤ p.length) (hfit : bytes.length % BSIZE + n ≤ BSIZE)
    (hmax : bytes.length / BSIZE < MAXFILE) (hslots : slot sb u = slot sb w)
    (hself : u.disk x = bcopy p (w.disk x) (bytes.length % BSIZE) n)
    (hother : ∀ b, b ≠ x → u.disk b = w.disk b)
    (howner : ∀ y z b, Ref sb w y b → Ref sb w z b → y = z) :
    Holds u i (bytes ++ p.take n) := by
  have hsize : BSIZE = 512 := rfl
  have hmu : ∀ k, mapped u i k = mapped w i k := fun k => by rw [mapped, mapped, hslots]
  have hlen : (bytes ++ p.take n).length = bytes.length + n := by
    rw [List.length_append, List.length_take, Nat.min_eq_left hn]
  have hxm : mapped w i (bytes.length / BSIZE) ≠ 0 ∧
      (mapped w i (bytes.length / BSIZE)).toNat = x := by
    refine ⟨fun h0 => not_ref_of_slot h0 x hx, hx.1⟩
  -- a byte written before keeps its block number
  have hold : ∀ o < bytes.length, mapped w i (o / BSIZE) = mapped v i (o / BSIZE) := by
    intro o ho
    by_cases hk : o / BSIZE = bytes.length / BSIZE
    · rw [hk]
      exact g.kept (hk ▸ h.filled o ho)
    · exact g.other i _ fun hne => hk hne.2
  refine ⟨?_, ?_, ?_, ?_⟩
  · rw [hlen, hsize]
    rw [hsize] at hfit hmax
    omega
  · intro o ho
    rw [hlen] at ho
    rw [hmu]
    by_cases hlt : o < bytes.length
    · rw [hold o hlt]
      exact h.filled o hlt
    · have hk : o / BSIZE = bytes.length / BSIZE := by
        rw [hsize] at hfit ⊢
        omega
      rw [hk]
      exact hxm.1
  · intro o ho
    rw [hlen] at ho
    have hmod : o % BSIZE < BSIZE := Nat.mod_lt _ (by decide)
    rw [hmu]
    by_cases hlt : o < bytes.length
    · have hget : (bytes ++ p.take n).getD o 0 = bytes.getD o 0 := by
        rw [List.getD_append _ _ _ _ hlt]
      rw [hget, ← h.byte o hlt]
      have hdisk := g.disk i _ _ (ref_mapped (h.filled o hlt))
      by_cases hk : o / BSIZE = bytes.length / BSIZE
      · have hbx : (mapped v i (o / BSIZE)).toNat = x := by
          rw [← hold o hlt, hk]
          exact hxm.2
        rw [hold o hlt]
        rw [hbx] at hdisk ⊢
        rw [hself, byte_bcopy _ _ _ _ hmod, if_neg, hdisk]
        rw [hsize] at hk ⊢
        omega
      · have hne : (mapped v i (o / BSIZE)).toNat ≠ x := by
          intro hbx
          have href : Ref sb w (fileSlot i (o / BSIZE)) x := by
            refine ⟨?_, hx.2⟩
            rw [← hbx]
            exact congrArg BitVec.toNat (hold o hlt)
          exact hk (fileSlot_inj (howner _ _ _ href hx)).2
        rw [hold o hlt, hother _ hne, hdisk]
    · have hk : o / BSIZE = bytes.length / BSIZE := by
        rw [hsize] at hfit ⊢
        omega
      rw [hk, hxm.2, hself, byte_bcopy _ _ _ _ hmod, if_pos (by
        rw [hsize] at hk ⊢
        omega)]
      rw [List.getD_append_right _ _ _ _ (by omega)]
      have hidx : o % BSIZE - bytes.length % BSIZE = o - bytes.length := by
        rw [hsize] at hk ⊢
        omega
      rw [hidx, List.getD_eq_getElem?_getD, List.getD_eq_getElem?_getD,
        List.getElem?_take_of_lt (by omega)]
  · intro k hk
    rw [hlen] at hk
    rw [hmu, g.other i k]
    · exact h.beyond k (by omega)
    · rintro ⟨-, rfl⟩
      have := Nat.div_add_mod bytes.length BSIZE
      rw [hsize] at this hk
      omega

/-! The loop of iappend(). -/

structure Stored (s : Mkfs) (v : Fs) (data : ℕ → List Byte) : Prop where
  books : Books s v
  high : s.freeblock ≤ FSSIZE
  made : s.freeinode ≤ NINODES
  holds : ∀ j, 0 < j → j < s.freeinode → Holds v j (data j)

theorem Stored.congr (h : Stored s v data) (hdisk : w.disk = v.disk)
    (hslots : slot sb w = slot sb v) : Stored s w data where
  books := h.books.congr hdisk hslots
  high := h.high
  made := h.made
  holds := by
    intro j hpos hj
    refine (h.holds j hpos hj).congr (fun k => by rw [mapped, mapped, hslots]) ?_
    intro k _
    rw [hdisk]

/-- How many blocks `n` bytes from `off` on lie in. -/
def touched (off n : ℕ) : ℕ := if n = 0 then 0 else (off % BSIZE + n + (BSIZE - 1)) / BSIZE

theorem touched_step {off n m : ℕ} (hn : 0 < n) (hm : m = min n (BSIZE - off % BSIZE)) :
    touched (off + m) (n - m) + 1 ≤ touched off n := by
  have hsize : BSIZE = 512 := rfl
  simp only [touched, hsize] at *
  rw [if_neg (show ¬ n = 0 by omega)]
  split <;> omega

/-- What iappend() does up to winode(). -/
structure Appended (s : Mkfs) (i : ℕ) (din : Inode) (data : ℕ → List Byte) (p : List Byte)
    (t : Mkfs) (din' : Inode) (off : ℕ) : Prop where
  stored : Stored t (pending t i din') (Function.update data i (data i ++ p))
  off : off = (data i).length + p.length
  same : Same din din'
  image : ∀ c < nmeta, t.image c = s.image c
  freeinode : t.freeinode = s.freeinode
  next : t.freeblock ≤ s.freeblock + 2 * touched (data i).length p.length

theorem Stored.nil (h : Stored s (pending s i din) data) :
    Appended s i din data [] s din (data i).length := by
  refine ⟨?_, rfl, Same.refl din, fun _ _ => rfl, rfl, Nat.le_add_right _ _⟩
  rw [List.append_nil, Function.update_eq_self]
  exact h

theorem rsect_run (hsectors : s.sectors = FSSIZE) (hx : x < FSSIZE) :
    rsect x s = .ok (s.image x, s) := by
  rw [rsect, if_pos (hsectors ▸ hx)]

/-- The file after wsect() of a sector it has. -/
def put (s : Mkfs) (x : ℕ) (buf : DiskBlock) : Mkfs :=
  { s with image := Function.update s.image x buf }

theorem wsect_run (hsectors : s.sectors = FSSIZE) (hx : x < FSSIZE) (buf : DiskBlock) :
    wsect x buf s = .ok ((), put s x buf) := by
  have hmax : max s.sectors (x + 1) = s.sectors := by
    rw [hsectors]
    omega
  change Except.ok ((), { s with
    sectors := max s.sectors (x + 1), image := Function.update s.image x buf }) = _
  rw [hmax]
  rfl

/-- One round: the block is found or given out, and written. -/
theorem Stored.round (h : Stored s (pending s i din) data) (hpos : 0 < i)
    {din' : Inode} (hi : i < s.freeinode)
    (hf : Found s i din ((data i).length / BSIZE) t din' x) (hx : x < FSSIZE) {n : ℕ}
    (hn : 0 < n) (hlen : n ≤ p.length) (hfit : (data i).length % BSIZE + n ≤ BSIZE)
    (hmax : (data i).length / BSIZE < MAXFILE) :
    Stored (put t x (bcopy p (t.image x) ((data i).length % BSIZE) n))
      (pending (put t x (bcopy p (t.image x) ((data i).length % BSIZE) n)) i din')
      (Function.update data i (data i ++ p.take n)) := by
  obtain ⟨hlow, hlt⟩ := hf.books.data hf.ref
  have howner := hf.books.exact.owner
  have hput : pending (put t x (bcopy p (t.image x) ((data i).length % BSIZE) n)) i din' =
      putBlock (pending t i din') x (bcopy p (t.image x) ((data i).length % BSIZE) n) := rfl
  have hslots : slot sb (putBlock (pending t i din') x
      (bcopy p (t.image x) ((data i).length % BSIZE) n)) = slot sb (pending t i din') := by
    apply slot_putBlock
    · rw [bmapstart_eq]
      exact Nat.le_trans (by decide) hlow
    · intro j hj
      exact fileSlot_ne_index _ _ _ (howner _ _ _ hf.ref hj)
  refine ⟨⟨rfl, hf.books.sectors, ?_, ?_⟩, ?_, ?_, ?_⟩
  · intro b hb
    refine (Function.update_of_ne ?_ _ _).trans (hf.books.blank b hb)
    exact fun hbx => absurd hlt (by rw [← hbx]; exact Nat.not_lt.mpr hb)
  · rw [hput]
    exact hf.books.exact.congr (ref_congr hslots) (fun _ => Iff.rfl) fun _ => Iff.rfl
  · rcases hf.high with hle | hle
    · exact hle
    · omega
  · exact hf.freeinode.trans_le h.made
  · intro j hj hjt
    rw [hput]
    have hold := h.holds j hj (hf.freeinode ▸ hjt)
    by_cases hji : j = i
    · subst hji
      rw [Function.update_self]
      exact hold.append hf.grown hf.ref hn hlen hfit hmax hslots (disk_putBlock_self _ _ _)
        (fun b hb => disk_putBlock_ne _ hb) howner
    · rw [Function.update_of_ne hji]
      exact (hold.grown hf.grown hji).put hslots (fun b hb => disk_putBlock_ne _ hb) howner
        hf.ref hji

theorem iappendFrom_wp (k : ℕ) (h : Stored s (pending s i din) data) (hpos : 0 < i)
    (hi : i < s.freeinode) (htype : din.type ≠ 0) (hk : p.length ≤ k) :
    wp (iappendFrom k din (data i).length p) (fun r t => Appended s i din data p t r.1 r.2)
      (fun _ => ¬ (s.freeblock + 2 * touched (data i).length p.length ≤ FSSIZE ∧
        (data i).length + p.length ≤ MAXFILE * BSIZE)) s := by
  have hsize : BSIZE = 512 := rfl
  induction k generalizing s din data p with
  | zero =>
    obtain rfl : p = [] := List.length_eq_zero_iff.mp (Nat.le_zero.mp hk)
    exact wp_pure h.nil
  | succ k ih =>
    rw [iappendFrom]
    split
    · next hp =>
      subst hp
      exact wp_pure h.nil
    · next hp =>
      have hplen : 0 < p.length := List.length_pos_iff.mpr hp
      have hpos' : 1 ≤ touched (data i).length p.length :=
        Nat.le_trans (Nat.le_add_left _ _) (touched_step hplen rfl)
      split
      · next hmax =>
        apply wp_bind
        refine wp_conseq (blockOf_wp h.books h.high (Nat.lt_of_lt_of_le hi h.made) htype hmax)
          ?_ ?_
        · rintro ⟨din₁, x⟩ t hf
          dsimp only at hf ⊢
          have hnext := hf.next
          by_cases hx : x < FSSIZE
          · rw [← Nat.mod_eq_sub_div_mul]
            have hn : min p.length (((data i).length / BSIZE + 1) * BSIZE - (data i).length) =
                min p.length (BSIZE - (data i).length % BSIZE) := by
              rw [hsize]
              omega
            rw [hn]
            have hmod : (data i).length % BSIZE < BSIZE := Nat.mod_lt _ (by decide)
            generalize hm : min p.length (BSIZE - (data i).length % BSIZE) = m
            refine wp_bind_run (rsect_run hf.books.sectors hx) ?_
            refine wp_bind_run (wsect_run hf.books.sectors hx _) ?_
            have hround := h.round hpos hi hf hx (p := p) (n := m) (by omega) (by omega)
              (by omega) hmax
            have hdata : (data i).length + m =
                (Function.update data i (data i ++ p.take m) i).length := by
              rw [Function.update_self, List.length_append, List.length_take]
              omega
            have hdrop : (p.drop m).length = p.length - m := List.length_drop
            have htouched := touched_step hplen hm.symm
            rw [hdata]
            refine wp_conseq (ih hround (hf.freeinode ▸ hi) (hf.same.type ▸ htype)
              (by omega)) ?_ ?_
            · rintro ⟨din₂, off⟩ u ha
              refine ⟨?_, ?_, hf.same.trans ha.same, ?_, ha.freeinode.trans hf.freeinode, ?_⟩
              · have hstored := ha.stored
                rw [Function.update_self, Function.update_idem, List.append_assoc,
                  List.take_append_drop] at hstored
                exact hstored
              · rw [ha.off, ← hdata]
                omega
              · intro c hc
                have := (hf.books.data hf.ref).1
                rw [ha.image c hc]
                exact (Function.update_of_ne (by omega) _ _).trans (hf.image c hc)
              · have hput : (put t x (bcopy p (t.image x) ((data i).length % BSIZE) m)).freeblock =
                    t.freeblock := rfl
                have hstep := ha.next
                rw [hput, ← hdata, hdrop] at hstep
                omega
            · intro _ he
              have hput : (put t x (bcopy p (t.image x) ((data i).length % BSIZE) m)).freeblock =
                  t.freeblock := rfl
              rw [hput, ← hdata, hdrop] at he
              omega
          · refine wp_bind ?_
            have hread : rsect x t = .error .exit := by
              rw [rsect, if_neg (hf.books.sectors ▸ hx)]
            have := (hf.books.data hf.ref).2
            rw [wp, hread]
            omega
        · intro _ he
          omega
      · next hmax =>
        refine wp_throw ?_
        rw [hsize] at hmax ⊢
        omega

/-! Inodes on disk. -/

def unused : Inode := ⟨0, 0, 0, 0, 0, fun _ => 0⟩

def Short (ip : Inode) : Prop := ∀ k, NDIRECT < k → ip.addrs k = 0

structure Laid (s : Mkfs) (data : ℕ → List Byte) : Prop where
  stored : Stored s (view s) data
  type : ∀ j, 0 < j → j < s.freeinode →
    (dinode sb (view s) j).type = if j = ROOTINO then T_DIR else T_FILE
  size : ∀ j, 0 < j → j < s.freeinode →
    (dinode sb (view s) j).size.toNat = (data j).length
  unmade : ∀ j < NINODES, j = 0 ∨ s.freeinode ≤ j → dinode sb (view s) j = unused
  super : s.image 1 = superblock

theorem type_ne (j : ℕ) : (if j = ROOTINO then T_DIR else T_FILE) ≠ 0 := by
  split <;> decide

theorem inode_block_lt_nmeta (hi : i < NINODES) : i / IPB + sb.inodestart < nmeta := by
  have := sb.inodes_fit i hi
  have : sb.bmapstart < nmeta := by decide
  omega

theorem dinode_congr (himage : ∀ c < nmeta, t.image c = s.image c) (hj : j < NINODES) :
    dinode sb (view t) j = dinode sb (view s) j := by
  change decodeDinode (t.image _) j = decodeDinode (s.image _) j
  rw [himage _ (inode_block_lt_nmeta hj)]

theorem nmeta_lt : nmeta < FSSIZE := by decide

theorem rinode_run (hsectors : s.sectors = FSSIZE) (hi : i < NINODES) :
    rinode i s = .ok (dinode sb (view s) i, s) := by
  have hblock := inode_block_lt_nmeta hi
  have := nmeta_lt
  rw [rinode, run_bind (rsect_run hsectors (by omega))]
  rfl

/-- The state after winode(). -/
def writeInode (s : Mkfs) (i : ℕ) (ip : Inode) : Mkfs :=
  put s (i / IPB + sb.inodestart) (encodeDinode ip i (s.image (i / IPB + sb.inodestart)))

theorem winode_run (hsectors : s.sectors = FSSIZE) (hi : i < NINODES) (ip : Inode) :
    winode i ip s = .ok ((), writeInode s i ip) := by
  have hblock := inode_block_lt_nmeta hi
  have := nmeta_lt
  rw [winode, run_bind (rsect_run hsectors (by omega)), wsect_run hsectors (by omega)]
  rfl

theorem dinode_writeInode {ip : Inode} (hshort : Short ip) (j : ℕ) :
    dinode sb (view (writeInode s i ip)) j = if j = i then ip else dinode sb (view s) j := by
  simp only [dinode, view, writeInode, put]
  split
  · next hji =>
    subst hji
    rw [Function.update_self]
    exact decodeDinode_encodeDinode ip _ j hshort
  · next hji =>
    by_cases hblk : j / IPB + sb.inodestart = i / IPB + sb.inodestart
    · have hmod : j % IPB ≠ i % IPB := by
        intro hm
        apply hji
        rw [← Nat.div_add_mod j IPB, ← Nat.div_add_mod i IPB, hm, Nat.add_right_cancel hblk]
      rw [hblk, Function.update_self, decodeDinode_encodeDinode_ne ip _ hmod]
    · rw [Function.update_of_ne hblk]

theorem super_writeInode (h : s.image 1 = superblock) (i : ℕ) (ip : Inode) :
    (writeInode s i ip).image 1 = superblock := by
  have hblock : (1 : ℕ) ≠ i / IPB + sb.inodestart := by
    have hstart : sb.inodestart = 32 := rfl
    rw [hstart]
    exact Nat.ne_of_lt (Nat.lt_add_left _ (by decide))
  simp only [writeInode, put, Function.update_of_ne hblock]
  exact h

section Written

variable (h : Stored s v data) (hi : i < NINODES) {ip : Inode} (hshort : Short ip)
  (hself : ∀ x : Slot, x.inum = i → slot sb (putInode v i ip) x = slot sb v x)
  (hother : ∀ j < NINODES, j ≠ i → inode sb v j = dinode sb (view s) j)

include h hi in
theorem disk_written {b : ℕ} (hb : nmeta ≤ b) :
    (view (writeInode s i ip)).disk b = v.disk b := by
  have hblock := inode_block_lt_nmeta hi
  rw [h.books.disk]
  exact Function.update_of_ne (by omega) _ _

include h hi hshort hself hother

/-- winode() of an inode whose slots have not changed since `v`. -/
theorem slot_written : slot sb (view (writeInode s i ip)) = slot sb v := by
  have hput : slot sb (putInode v i ip) = slot sb v := by
    funext x
    by_cases hx : x.inum = i
    · exact hself x hx
    · cases x with
      | addr j k => exact (slot_putInode_ne ip).1 j k hx
      | entry j k => exact (slot_putInode_ne ip).2 j k hx
  rw [← hput]
  apply slot_congr
  · intro j hj
    change dinode sb (view (writeInode s i ip)) j = _
    rw [dinode_writeInode hshort]
    split
    · next hji =>
      subst hji
      exact (inode_putInode_self _ _ _).symm
    · next hji => rw [inode_putInode_ne _ hji, hother j hj hji]
  · intro j b hb
    rw [Ref, hput] at hb
    exact disk_written h hi (h.books.data hb).1

theorem Stored.written : Stored (writeInode s i ip) (view (writeInode s i ip)) data := by
  have hblock := inode_block_lt_nmeta hi
  have hlow := h.books.low
  have hslots := slot_written h hi hshort hself hother
  refine ⟨⟨rfl, h.books.sectors, ?_, ?_⟩, h.high, h.made, ?_⟩
  · intro b hb
    have hb' : s.freeblock ≤ b := hb
    exact (Function.update_of_ne (by omega) _ _).trans (h.books.blank b hb)
  · exact h.books.exact.congr (ref_congr hslots) (fun _ => Iff.rfl) fun _ => Iff.rfl
  · intro j hpos hj
    refine (h.holds j hpos hj).congr (fun k => by rw [mapped, mapped, hslots]) ?_
    intro k hk
    exact disk_written h hi (h.books.data (ref_mapped hk)).1

end Written

theorem short_dinode (v : Fs) (i : ℕ) : Short (dinode sb v i) := by
  intro k hk
  exact if_neg (Nat.not_le.mpr hk)

/-- Blocks that are enough for an iappend(). -/
def cost (p : List Byte) : ℕ := 2 * (p.length / BSIZE + 2)

theorem touched_le (off : ℕ) (p : List Byte) : 2 * touched off p.length ≤ cost p := by
  have hsize : BSIZE = 512 := rfl
  simp only [touched, cost, hsize]
  split <;> omega

theorem iappend_wp (h : Laid s data) (hpos : 0 < i) (hi : i < s.freeinode) (p : List Byte) :
    wp (iappend i p) (fun _ t => Laid t (Function.update data i (data i ++ p)) ∧
        t.freeinode = s.freeinode ∧ t.freeblock ≤ s.freeblock + cost p)
      (fun _ => ¬ (s.freeblock + cost p ≤ FSSIZE ∧
        (data i).length + p.length ≤ MAXFILE * BSIZE)) s := by
  have hmade := h.stored.made
  have hlt : i < NINODES := by omega
  have htype := h.type i hpos hi
  have hpending : Stored s (pending s i (dinode sb (view s) i)) data :=
    h.stored.congr rfl (slot_putInode_same _ rfl rfl)
  simp only [iappend]
  refine wp_bind_run (rinode_run h.stored.books.sectors hlt) ?_
  rw [h.size i hpos hi]
  apply wp_bind
  have hcost := touched_le (data i).length p
  refine wp_conseq (iappendFrom_wp _ hpending hpos hi (htype ▸ type_ne i) (Nat.le_refl _)) ?_
    fun _ he hroom => he ⟨by omega, hroom.2⟩
  rintro ⟨din, off⟩ t ha
  dsimp only at ha ⊢
  refine wp_of_run (winode_run ha.stored.books.sectors hlt _) ?_
  have hold := ha.stored.holds i hpos (ha.freeinode ▸ hi)
  have hother : ∀ j < NINODES, dinode sb (view t) j = dinode sb (view s) j := fun j hj =>
    dinode_congr ha.image hj
  have hshort : Short { din with size := BitVec.ofNat 32 off } :=
    ha.same.2 (short_dinode (view s) i)
  have hsame : slot sb (putInode (pending t i din) i { din with size := BitVec.ofNat 32 off }) =
      slot sb (pending t i din) := by
    apply slot_putInode_same <;> rw [pending, inode_putInode_self]
  have hstored := ha.stored.written hlt hshort (fun x _ => congrFun hsame x) fun j _ hne =>
    inode_putInode_ne din hne
  have hsuper : t.image 1 = superblock := (ha.image 1 (by decide)).trans h.super
  refine ⟨⟨hstored, ?_, ?_, ?_, super_writeInode hsuper i _⟩, ha.freeinode,
    Nat.le_trans ha.next (by omega)⟩
  · intro j hj hjt
    have hjs : j < s.freeinode := ha.freeinode ▸ hjt
    rw [dinode_writeInode hshort]
    split
    · next hji =>
      subst hji
      exact ha.same.type.trans htype
    · next hji =>
      rw [hother j (by omega)]
      exact h.type j hj hjs
  · intro j hj hjt
    have hjs : j < s.freeinode := ha.freeinode ▸ hjt
    rw [dinode_writeInode hshort]
    split
    · next hji =>
      subst hji
      have hsmall := hold.small
      rw [Function.update_self] at hsmall ⊢
      rw [ha.off, List.length_append] at *
      simp only [MAXFILE, NDIRECT, NINDIRECT, BSIZE] at hsmall
      rw [BitVec.toNat_ofNat]
      omega
    · next hji =>
      rw [hother j (by omega), Function.update_of_ne hji]
      exact h.size j hj hjs
  · intro j hj hun
    have hfree : (writeInode t i { din with size := BitVec.ofNat 32 off }).freeinode =
        s.freeinode := ha.freeinode
    rw [hfree] at hun
    have hji : j ≠ i := by omega
    rw [dinode_writeInode hshort, if_neg hji, hother j hj]
    exact h.unmade j hj hun

theorem ialloc_wp (h : Laid s data) (hpos : 0 < s.freeinode) (hi : s.freeinode < NINODES)
    {type : Half} (htype : type = if s.freeinode = ROOTINO then T_DIR else T_FILE) :
    wp (ialloc type) (fun inum t => inum = s.freeinode ∧
        Laid t (Function.update data s.freeinode []) ∧ t.freeinode = s.freeinode + 1 ∧
        t.freeblock = s.freeblock) (fun _ => False) s := by
  have hun := h.unmade s.freeinode hi (Or.inr (Nat.le_refl _))
  have hshort : Short ⟨type, 0, 0, 1, 0, fun _ => 0⟩ := fun _ _ => rfl
  have hzero : ∀ x : Slot, x.inum = s.freeinode → slot sb (view s) x = 0 := by
    intro x hx
    apply slot_of_type_zero _ hx
    change (dinode sb (view s) _).type = 0
    rw [hun]
    rfl
  have hself : ∀ x : Slot, x.inum = s.freeinode →
      slot sb (putInode (view s) s.freeinode ⟨type, 0, 0, 1, 0, fun _ => 0⟩) x =
        slot sb (view s) x := by
    intro x hx
    rw [hzero x hx]
    cases x with
    | addr j k =>
      obtain rfl : j = s.freeinode := hx
      rw [slot, inode_putInode_self]
      exact ite_self 0
    | entry j k =>
      obtain rfl : j = s.freeinode := hx
      rw [slot, inode_putInode_self, if_neg fun hn => hn.2.2.2 rfl]
  have hstored := h.stored.written hi hshort hself fun _ _ _ => rfl
  have hslots := slot_written h.stored hi hshort hself fun _ _ _ => rfl
  simp only [ialloc]
  refine wp_bind_run (t := { s with freeinode := s.freeinode + 1 }) rfl ?_
  refine wp_bind_run (winode_run (s := { s with freeinode := s.freeinode + 1 })
    h.stored.books.sectors hi _) (wp_pure ?_)
  refine ⟨rfl, ⟨⟨⟨rfl, hstored.books.sectors, hstored.books.blank, hstored.books.exact⟩,
    hstored.high, hi, ?_⟩, ?_, ?_, ?_, super_writeInode h.super _ _⟩, rfl, rfl⟩
  · intro j hj hjt
    have hjs : j < s.freeinode + 1 := hjt
    by_cases hji : j = s.freeinode
    · subst hji
      rw [Function.update_self]
      have hmapped : ∀ k, mapped (view (writeInode s s.freeinode
          ⟨type, 0, 0, 1, 0, fun _ => 0⟩)) s.freeinode k = 0 := by
        intro k
        have hk : (fileSlot s.freeinode k).inum = s.freeinode := by
          rw [fileSlot]
          split <;> rfl
        change slot sb (view (writeInode s s.freeinode _)) _ = 0
        rw [hslots, hzero _ hk]
      exact ⟨Nat.zero_le _, fun k hk => absurd hk (Nat.not_lt_zero k),
        fun k hk => absurd hk (Nat.not_lt_zero k), fun k _ => hmapped k⟩
    · rw [Function.update_of_ne hji]
      exact hstored.holds j hj (show j < s.freeinode by omega)
  · intro j hj hjt
    have hjs : j < s.freeinode + 1 := hjt
    change (dinode sb (view (writeInode s s.freeinode _)) j).type = _
    rw [dinode_writeInode hshort]
    split
    · next hji => rw [hji, htype]
    · next hji => exact h.type j hj (by omega)
  · intro j hj hjt
    have hjs : j < s.freeinode + 1 := hjt
    change (dinode sb (view (writeInode s s.freeinode _)) j).size.toNat = _
    rw [dinode_writeInode hshort]
    split
    · next hji =>
      subst hji
      rw [Function.update_self]
      rfl
    · next hji =>
      rw [Function.update_of_ne hji]
      exact h.size j hj (by omega)
  · intro j hj hunj
    have hunj' : j = 0 ∨ s.freeinode + 1 ≤ j := hunj
    change dinode sb (view (writeInode s s.freeinode _)) j = _
    rw [dinode_writeInode hshort, if_neg (by omega)]
    exact h.unmade j hj (by omega)

/-! The input files, one after the other. -/

theorem appendAll_wp (chunks : List (List Byte)) (h : Laid s data) (hpos : 0 < i)
    (hi : i < s.freeinode) :
    wp (appendAll i chunks) (fun _ t =>
        Laid t (Function.update data i (data i ++ chunks.flatten)) ∧
          t.freeinode = s.freeinode ∧ t.freeblock ≤ s.freeblock + (chunks.map cost).sum)
      (fun _ => ¬ (s.freeblock + (chunks.map cost).sum ≤ FSSIZE ∧
        (data i).length + chunks.flatten.length ≤ MAXFILE * BSIZE)) s := by
  induction chunks generalizing s data with
  | nil =>
    refine wp_pure ⟨?_, rfl, Nat.le_refl _⟩
    rw [List.flatten_nil, List.append_nil, Function.update_eq_self]
    exact h
  | cons c chunks ih =>
    have hlen : (c :: chunks).flatten.length = c.length + chunks.flatten.length := by
      rw [List.flatten_cons, List.length_append]
    rw [List.map_cons, List.sum_cons, appendAll]
    apply wp_bind
    refine wp_conseq (iappend_wp h hpos hi c) ?_ ?_
    · rintro _ t ⟨ht, hfree, hnext⟩
      refine wp_conseq (ih ht (hfree ▸ hi)) ?_ ?_
      · rintro _ u ⟨hu, hfreeu, hnextu⟩
        rw [Function.update_self, Function.update_idem, List.append_assoc] at hu
        exact ⟨hu, hfreeu.trans hfree, by omega⟩
      · intro _ he
        rw [Function.update_self, List.length_append] at he
        omega
    · intro _ he
      omega

theorem length_strncpy (name : List Byte) : (strncpy name).length = DIRSIZ := by
  rw [strncpy, List.length_append, List.length_take, List.length_replicate]
  omega

theorem length_dirent (n : ℕ) (name : List Byte) : (dirent n name).length = 16 := by
  simp only [dirent, List.length_cons, length_strncpy]
  rfl

/-- Blocks that are enough for an input file and its entry. -/
def need (f : HostFile) : ℕ := 4 + (f.chunks.map cost).sum

theorem cost_dirent (n : ℕ) (name : List Byte) : cost (dirent n name) = 4 := by
  rw [cost, length_dirent]
  rfl

/-- The files after addFile(). -/
def added (data : ℕ → List Byte) (n : ℕ) (f : HostFile) : ℕ → List Byte :=
  Function.update (Function.update data ROOTINO (data ROOTINO ++ dirent n f.short)) n f.bytes

/-- A file that main() can open and that is not too long. -/
def Good (f : HostFile) : Prop :=
  47 ∉ f.name ∧ f.opens = true ∧ f.bytes.length ≤ MAXFILE * BSIZE

theorem addFile_wp (f : HostFile) (h : Laid s data) (hroot : ROOTINO < s.freeinode)
    (hi : s.freeinode < NINODES) :
    wp (addFile f) (fun inum t => inum = s.freeinode ∧ Laid t (added data s.freeinode f) ∧
        t.freeinode = s.freeinode + 1 ∧ t.freeblock ≤ s.freeblock + need f)
      (fun _ => ¬ (Good f ∧ s.freeblock + need f ≤ FSSIZE ∧
        (data ROOTINO).length + 16 ≤ MAXFILE * BSIZE)) s := by
  have hne : s.freeinode ≠ ROOTINO := Nat.ne_of_gt hroot
  simp only [addFile]
  split
  · next hslash => exact wp_throw fun hg => hg.1.1 hslash
  · split
    · next hopens =>
      refine wp_throw fun hg => ?_
      rw [hg.1.2.1] at hopens
      cases hopens
    · apply wp_bind
      refine wp_conseq (ialloc_wp h (by omega) hi (if_neg hne).symm) ?_ fun _ he => he.elim
      rintro inum t ⟨rfl, ht, hfreet, hnextt⟩
      have hrootdata : Function.update data s.freeinode [] ROOTINO = data ROOTINO :=
        Function.update_of_ne hne.symm _ _
      apply wp_bind
      refine wp_conseq (iappend_wp ht (by decide) (i := ROOTINO) (by omega) _) ?_ ?_
      · rintro _ u ⟨hu, hfreeu, hnextu⟩
        rw [cost_dirent] at hnextu
        apply wp_bind
        refine wp_conseq (appendAll_wp f.chunks hu (by omega) (by omega)) ?_ ?_
        · rintro _ r ⟨hr, hfreer, hnextr⟩
          refine wp_pure ⟨rfl, ?_, by omega, ?_⟩
          · rw [Function.update_of_ne hne, Function.update_self, hrootdata, List.nil_append,
              Function.update_comm hne, Function.update_idem] at hr
            exact hr
          · rw [need]
            omega
        · intro _ he
          rw [Function.update_of_ne hne, Function.update_self, List.length_nil,
            Nat.zero_add] at he
          rintro ⟨⟨-, -, hsmall⟩, hroom, -⟩
          rw [HostFile.bytes] at hsmall
          rw [need] at hroom
          exact he ⟨by omega, hsmall⟩
      · intro _ he
        rw [hrootdata, length_dirent, cost_dirent] at he
        rw [need]
        omega

/-- The files after addFiles(), with numbers from `n` on. -/
def layout (data : ℕ → List Byte) (n : ℕ) : List HostFile → ℕ → List Byte
  | [] => data
  | f :: files => layout (added data n f) (n + 1) files

/-- Blocks that are enough for the files. -/
def room (files : List HostFile) : ℕ := (files.map need).sum

theorem addFiles_wp (files : List HostFile) (h : Laid s data) (hroot : ROOTINO < s.freeinode)
    (hi : s.freeinode + files.length ≤ NINODES) :
    wp (addFiles files) (fun inums t => inums = List.range' s.freeinode files.length ∧
        Laid t (layout data s.freeinode files) ∧
        t.freeinode = s.freeinode + files.length ∧ t.freeblock ≤ s.freeblock + room files)
      (fun _ => ¬ ((∀ f ∈ files, Good f) ∧ s.freeblock + room files ≤ FSSIZE ∧
        (data ROOTINO).length + 16 * files.length ≤ MAXFILE * BSIZE)) s := by
  induction files generalizing s data with
  | nil => exact wp_pure ⟨rfl, h, rfl, Nat.le_add_right _ _⟩
  | cons f files ih =>
    have hroom : room (f :: files) = need f + room files := by
      simp only [room, List.map_cons, List.sum_cons]
    rw [List.length_cons] at hi
    rw [addFiles]
    apply wp_bind
    refine wp_conseq (addFile_wp f h hroot (by omega)) ?_ ?_
    · rintro inum t ⟨rfl, ht, hfreet, hnextt⟩
      have hrootdata : added data s.freeinode f ROOTINO =
          data ROOTINO ++ dirent s.freeinode f.short := by
        rw [added, Function.update_of_ne (Nat.ne_of_lt hroot), Function.update_self]
      apply wp_bind
      refine wp_conseq (ih ht (by omega) (by omega)) ?_ ?_
      · rintro inums u ⟨rfl, hu, hfreeu, hnextu⟩
        refine wp_pure ⟨?_, ?_, ?_, ?_⟩
        · rw [hfreet, List.length_cons, List.range'_succ]
        · rw [hfreet] at hu
          exact hu
        · rw [hfreeu, hfreet, List.length_cons]
          omega
        · omega
      · rintro _ he ⟨hgood, hblocks, hmax⟩
        apply he
        rw [hrootdata, List.length_append, length_dirent]
        rw [List.length_cons] at hmax
        exact ⟨fun g hg => hgood g (List.mem_cons_of_mem f hg), by omega, by omega⟩
    · rintro _ he ⟨hgood, hblocks, hmax⟩
      rw [List.length_cons] at hmax
      exact he ⟨hgood f List.mem_cons_self, by omega, by omega⟩

end MkfsFiles
