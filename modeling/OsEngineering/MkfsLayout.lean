import OsEngineering.MkfsFiles

/-! The image that mkfs leaves when it exits 0: who owns its blocks, and where its files have
holes. -/
namespace MkfsLayout

open ByteBlock FaultState KernelParams ResourceLedger BlockAllocation BlockSlots BlockOwnership
  MkfsImage MkfsBooks MkfsFiles

variable {s t : Mkfs} {files : List HostFile} {data : ℕ → List Byte} {i j k b : ℕ}

/-- What is in the files: the root directory and the input files from number 2 on. -/
def contents (files : List HostFile) : ℕ → List Byte :=
  layout (Function.update (fun _ => []) ROOTINO
    (dirent ROOTINO [46] ++ dirent ROOTINO [46, 46])) 2 files

structure Finished (files : List HostFile) (t : Mkfs) : Prop where
  stored : Stored t (view t) (contents files)
  freeinode : t.freeinode = 2 + files.length
  type : ∀ j, 0 < j → j < t.freeinode →
    (dinode sb (view t) j).type = if j = ROOTINO then T_DIR else T_FILE
  size : ∀ j, 1 < j → j < t.freeinode →
    (dinode sb (view t) j).size.toNat = (contents files j).length
  root : (dinode sb (view t) ROOTINO).size.toNat =
    ((contents files ROOTINO).length / BSIZE + 1) * BSIZE
  unmade : ∀ j < NINODES, j = 0 ∨ t.freeinode ≤ j → dinode sb (view t) j = unused
  super : t.image 1 = superblock
  bitmap : t.image sb.bmapstart = firstBits t.freeblock

/-! The state before the first ialloc(). -/

theorem zeroFrom_run (k : ℕ) (hk : k ≤ FSSIZE) (himage : s.image = fun _ => zeros)
    (hsectors : s.sectors = FSSIZE - k) :
    zeroFrom k s = .ok ((), { s with sectors := FSSIZE }) := by
  induction k generalizing s with
  | zero =>
    rw [Nat.sub_zero] at hsectors
    rw [← hsectors]
    rfl
  | succ k ih =>
    have hwrite : wsect (FSSIZE - (k + 1)) zeros s =
        .ok ((), { s with sectors := FSSIZE - k }) := by
      have hsame : Function.update s.image (FSSIZE - (k + 1)) zeros = s.image := by
        rw [himage, Function.update_eq_self_iff]
      change Except.ok ((), { s with
        sectors := max s.sectors (FSSIZE - (k + 1) + 1),
        image := Function.update s.image (FSSIZE - (k + 1)) zeros }) = _
      rw [hsame, hsectors]
      congr 3
      omega
    rw [zeroFrom, run_bind hwrite]
    exact ih (s := { s with sectors := FSSIZE - k }) (by omega) himage rfl

/-- Before the root directory is made. -/
def blank : Mkfs :=
  ⟨FSSIZE, Function.update (fun _ => zeros) 1 superblock, 1, nmeta⟩

theorem main_run (files : List HostFile) : main files start = populate files blank := by
  simp only [main]
  rw [run_bind (modify_run _ _), run_bind (zeroFrom_run FSSIZE (Nat.le_refl _) rfl rfl)]
  exact run_bind (wsect_run rfl (by decide) superblock)

theorem decode_zeros (i : ℕ) : decodeDinode zeros i = unused := by
  have hhalf : ∀ m, half (zeros : DiskBlock) m = 0 := by
    intro m
    rw [half, byte_zeros, byte_zeros]
    rfl
  simp only [decodeDinode, unused, hhalf, word_zeros, ite_self]

theorem blank_dinode (j : ℕ) : dinode sb (view blank) j = unused := by
  have hblock : j / IPB + sb.inodestart ≠ 1 := by
    have hstart : sb.inodestart = 32 := rfl
    rw [hstart]
    exact Nat.ne_of_gt (Nat.lt_add_left _ (by decide))
  simp only [dinode, view, blank, Function.update_of_ne hblock]
  exact decode_zeros j

theorem blank_laid : Laid blank fun _ => [] := by
  have hslot : ∀ x, slot sb (view blank) x = 0 := by
    intro x
    by_cases hx : x.inum < NINODES
    · refine slot_of_type_zero ?_ rfl
      change (dinode sb (view blank) _).type = 0
      rw [blank_dinode]
      rfl
    · cases x with
      | addr j k => exact if_neg fun hn => hx hn.1
      | entry j k => exact if_neg fun hn => hx hn.1
  have hnone : ∀ x b, ¬ Ref sb (view blank) x b := fun x b => not_ref_of_slot (hslot x) b
  refine ⟨⟨⟨rfl, rfl, ?_, ⟨?_, ?_, ?_, ?_⟩⟩, by decide, by decide, ?_⟩, ?_, ?_, ?_, ?_⟩
  · intro b hb
    have hne : b ≠ 1 := by
      rintro rfl
      exact absurd hb (by decide)
    simp only [blank, Function.update_of_ne hne]
  · exact fun x y b hx => absurd hx (hnone x b)
  · exact fun x b c hx => absurd hx (hnone x b)
  · exact fun x b hx => absurd hx (hnone x b)
  · intro b
    exact ⟨Or.inr, fun h => h.elim (fun ⟨x, hx⟩ => absurd hx (hnone x b)) id⟩
  · intro j hpos hj
    exact absurd hj (Nat.not_lt.mpr hpos)
  · intro j hpos hj
    exact absurd hj (Nat.not_lt.mpr hpos)
  · intro j hpos hj
    exact absurd hj (Nat.not_lt.mpr hpos)
  · intro j hj _
    exact blank_dinode j
  · simp only [blank, Function.update_self]

/-! The end of main(). -/

theorem Stored.putMap (h : Stored s (view s) data) (buf : DiskBlock) :
    Stored (put s sb.bmapstart buf) (view (put s sb.bmapstart buf)) data := by
  have hlow := h.books.low
  have hmap : sb.bmapstart < nmeta := by decide
  have hslots : slot sb (view (put s sb.bmapstart buf)) = slot sb (view s) := by
    refine slot_putBlock (s := view s) buf (Nat.le_refl _) ?_
    intro i hi
    have := (h.books.data hi).1
    omega
  have hdisk : ∀ b, nmeta ≤ b → (put s sb.bmapstart buf).image b = s.image b := by
    intro b hb
    have hne : b ≠ sb.bmapstart := by omega
    simp only [put, Function.update_of_ne hne]
  refine ⟨⟨rfl, h.books.sectors, ?_, ?_⟩, h.high, h.made, ?_⟩
  · intro b hb
    have hb' : s.freeblock ≤ b := hb
    rw [hdisk b (by omega)]
    exact h.books.blank b hb
  · exact h.books.exact.congr (ref_congr hslots) (fun _ => Iff.rfl) fun _ => Iff.rfl
  · intro j hpos hj
    refine (h.holds j hpos hj).congr (fun k => by rw [mapped, mapped, hslots]) ?_
    intro k hk
    exact hdisk _ (h.books.data (ref_mapped hk)).1

theorem dinode_putMap (buf : DiskBlock) (hj : j < NINODES) :
    dinode sb (view (put s sb.bmapstart buf)) j = dinode sb (view s) j := by
  have hne : j / IPB + sb.inodestart ≠ sb.bmapstart := inode_block_lt hj (Nat.le_refl _)
  simp only [dinode, view, put, Function.update_of_ne hne]

/-- Input files that are few and small enough for the image, whatever the blocks in use. -/
def Fits (files : List HostFile) : Prop :=
  (∀ f ∈ files, Good f) ∧ nmeta + 8 + room files ≤ FSSIZE

theorem contents_root_length (files : List HostFile) (n : ℕ) (data : ℕ → List Byte)
    (hn : ROOTINO < n) :
    (layout data n files ROOTINO).length = (data ROOTINO).length + 16 * files.length := by
  induction files generalizing n data with
  | nil => rfl
  | cons f files ih =>
    rw [layout, ih _ _ (by omega), added, Function.update_of_ne (Nat.ne_of_lt hn),
      Function.update_self, List.length_append, length_dirent, List.length_cons]
    omega

theorem finish_run (h : Laid s (contents files)) (hfree : s.freeinode = 2 + files.length) :
    ∃ t, finish ROOTINO s = .ok ((), t) ∧ Finished files t := by
  have hroot : ROOTINO < NINODES := by decide
  have hrootfree : ROOTINO < s.freeinode := by
    rw [hfree]
    exact Nat.lt_add_right _ (by decide)
  have hlen := h.size ROOTINO (by decide) hrootfree
  have hsmall := (h.stored.holds ROOTINO (by decide) hrootfree).small
  generalize hip : ({ dinode sb (view s) ROOTINO with
    size := BitVec.ofNat 32 (((contents files ROOTINO).length / BSIZE + 1) * BSIZE) } : Inode) = ip
  have hshort : Short ip := by
    rw [← hip]
    exact short_dinode (view s) ROOTINO
  have hsame : slot sb (putInode (view s) ROOTINO ip) = slot sb (view s) := by
    rw [← hip]
    exact slot_putInode_same _ rfl rfl
  have hwritten := h.stored.written hroot hshort (fun x _ => congrFun hsame x) fun _ _ _ => rfl
  have hused : (writeInode s ROOTINO ip).freeblock < BSIZE * 8 :=
    Nat.lt_of_le_of_lt hwritten.high (by decide)
  refine ⟨put (writeInode s ROOTINO ip) sb.bmapstart
    (firstBits (writeInode s ROOTINO ip).freeblock), ?_, ?_⟩
  · rw [finish, run_bind (rinode_run h.stored.books.sectors hroot), hlen, hip,
      run_bind (winode_run h.stored.books.sectors hroot ip), run_bind (get_run _),
      MkfsImage.balloc, if_pos hused]
    exact wsect_run (s := writeInode s ROOTINO ip) h.stored.books.sectors (by decide) _
  have hdinode : ∀ j < NINODES, dinode sb (view (put (writeInode s ROOTINO ip) sb.bmapstart
      (firstBits (writeInode s ROOTINO ip).freeblock))) j =
        if j = ROOTINO then ip else dinode sb (view s) j := by
    intro j hj
    rw [dinode_putMap _ hj, dinode_writeInode hshort]
  have hmade := h.stored.made
  refine ⟨Stored.putMap hwritten _, hfree, ?_, ?_, ?_, ?_, ?_, ?_⟩
  · intro j hpos hj
    have hj' : j < s.freeinode := hj
    rw [hdinode j (by omega), ← h.type j hpos hj']
    split
    · next hji => rw [← hip, hji]
    · rfl
  · intro j hpos hj
    have hj' : j < s.freeinode := hj
    have hji : j ≠ ROOTINO := Nat.ne_of_gt hpos
    rw [hdinode j (by omega), if_neg hji]
    exact h.size j (by omega) hj'
  · rw [hdinode ROOTINO hroot, if_pos rfl, ← hip, BitVec.toNat_ofNat]
    simp only [MAXFILE, NDIRECT, NINDIRECT, BSIZE] at hsmall ⊢
    omega
  · intro j hj hun
    have hun' : j = 0 ∨ s.freeinode ≤ j := hun
    have hji : j ≠ ROOTINO := by
      rintro rfl
      rcases hun' with h0 | h1
      · exact absurd h0 (by decide)
      · omega
    rw [hdinode j hj, if_neg hji]
    exact h.unmade j hj hun'
  · have hne : (1 : ℕ) ≠ sb.bmapstart := by decide
    simp only [put, Function.update_of_ne hne]
    exact super_writeInode h.super _ _
  · simp only [put, Function.update_self]

theorem populate_wp (files : List HostFile) (hn : 2 + files.length ≤ NINODES) (hs : s = blank) :
    wp (populate files) (fun inums t =>
        inums = ROOTINO :: ROOTINO :: List.range' 2 files.length ∧ Finished files t)
      (fun _ => ¬ Fits files) s := by
  subst hs
  have hmax : MAXFILE * BSIZE = 71680 := rfl
  have hsize : FSSIZE = 1000 := rfl
  have hinodes : NINODES = 200 := rfl
  simp only [populate]
  apply wp_bind
  refine wp_conseq (ialloc_wp blank_laid (by decide) (by decide) rfl) ?_ fun _ he => he.elim
  rintro rootino s ⟨hino, hs, hfrees, hnexts⟩
  have hroot : rootino = ROOTINO := hino
  subst hroot
  rw [if_pos rfl]
  have hempty : Function.update (fun _ : ℕ => ([] : List Byte)) blank.freeinode [] =
      fun _ => [] := Function.update_eq_self (f := fun _ : ℕ => ([] : List Byte)) _
  rw [hempty] at hs
  have hfrees' : s.freeinode = 2 := hfrees
  have hnexts' : s.freeblock = nmeta := hnexts
  apply wp_bind
  refine wp_conseq (iappend_wp hs (by decide) (i := ROOTINO) (by rw [hfrees']; decide) _) ?_ ?_
  · rintro _ t ⟨ht, hfreet, hnextt⟩
    apply wp_bind
    refine wp_conseq (iappend_wp ht (by decide) (i := ROOTINO) (by rw [hfreet, hfrees']; decide)
      _) ?_ ?_
    · rintro _ u ⟨hu, hfreeu, hnextu⟩
      have hfree : u.freeinode = 2 := by rw [hfreeu, hfreet, hfrees']
      rw [cost_dirent] at hnextt hnextu
      rw [Function.update_self, List.nil_append, Function.update_idem] at hu
      apply wp_bind
      refine wp_conseq (addFiles_wp files hu (by rw [hfree]; decide) (by omega)) ?_ ?_
      · rintro inums r ⟨rfl, hr, hfreer, -⟩
        rw [hfree] at hr hfreer
        obtain ⟨q, hfinish, hq⟩ := finish_run hr hfreer
        refine wp_bind_run hfinish (wp_pure ⟨?_, hq⟩)
        rw [hfree]
      · rintro _ he ⟨hgood, hroom⟩
        refine he ⟨hgood, by omega, ?_⟩
        rw [Function.update_self, List.length_append, length_dirent, length_dirent, hmax]
        omega
    · rintro _ he ⟨-, hroom⟩
      rw [Function.update_self, List.length_append, length_dirent, length_dirent, cost_dirent,
        hmax] at he
      rw [cost_dirent] at hnextt
      apply he
      simp only [List.length_nil]
      omega
  · rintro _ he ⟨-, hroom⟩
    rw [length_dirent, cost_dirent, hmax] at he
    apply he
    simp only [List.length_nil]
    omega


theorem main_finished {inums : List ℕ} (hn : 2 + files.length ≤ NINODES)
    (h : main files start = .ok (inums, t)) :
    inums = ROOTINO :: ROOTINO :: List.range' 2 files.length ∧ Finished files t := by
  rw [main_run] at h
  generalize hs : blank = s at h
  have hpost := wp_ok (populate_wp files hn hs.symm) h
  exact hpost

theorem main_runs (hn : 2 + files.length ≤ NINODES) (hfits : Fits files) :
    ∃ t, main files start = .ok (ROOTINO :: ROOTINO :: List.range' 2 files.length, t) := by
  rw [main_run]
  generalize hs : blank = s
  have hwp := populate_wp files hn hs.symm
  cases hrun : populate files s with
  | error e =>
    have hnot := wp_error hwp hrun
    exact absurd hfits hnot
  | ok r =>
    obtain ⟨inums, t⟩ := r
    obtain ⟨rfl, -⟩ := wp_ok hwp hrun
    exact ⟨t, rfl⟩

/-! The blocks of the finished image. -/

def inodeAt (image : ℕ → DiskBlock) (i : ℕ) : Inode :=
  decodeDinode (image (i / IPB + sb.inodestart)) i

/-- The block number in `addrs[]` or in the indirect block of an inode, whatever its type. -/
def numberIn (image : ℕ → DiskBlock) : Slot → Word
  | .addr i k => if i < NINODES ∧ k ≤ NDIRECT then (inodeAt image i).addrs k else 0
  | .entry i j =>
    if i < NINODES ∧ j < NINDIRECT ∧ (inodeAt image i).addrs NDIRECT ≠ 0 then
      word (image ((inodeAt image i).addrs NDIRECT).toNat) j
    else 0

theorem Finished.numberIn_eq (h : Finished files t) : numberIn t.image = slot sb (view t) := by
  -- an inode that is not in use has no block numbers
  have haddrs : ∀ i < NINODES, (inodeAt t.image i).type = 0 → (inodeAt t.image i).addrs = fun _ => 0 := by
    intro i hi htype
    by_cases hun : i = 0 ∨ t.freeinode ≤ i
    · have hunused : inodeAt t.image i = unused := h.unmade i hi hun
      rw [hunused]
      rfl
    · have hmade : (inodeAt t.image i).type = if i = ROOTINO then T_DIR else T_FILE :=
        h.type i (by omega) (by omega)
      rw [hmade] at htype
      exact absurd htype (type_ne i)
  funext x
  cases x with
  | addr i k =>
    change (if i < NINODES ∧ k ≤ NDIRECT then (inodeAt t.image i).addrs k else 0) =
      if i < NINODES ∧ k ≤ NDIRECT ∧ (inodeAt t.image i).type ≠ 0 then
        (inodeAt t.image i).addrs k else 0
    by_cases hi : i < NINODES ∧ (inodeAt t.image i).type = 0
    · rw [haddrs i hi.1 hi.2]
      simp only [ite_self]
    · congr 1
      grind
  | entry i j =>
    change (if i < NINODES ∧ j < NINDIRECT ∧ (inodeAt t.image i).addrs NDIRECT ≠ 0 then
        word (t.image ((inodeAt t.image i).addrs NDIRECT).toNat) j else 0) =
      if i < NINODES ∧ j < NINDIRECT ∧ (inodeAt t.image i).type ≠ 0 ∧
          (inodeAt t.image i).addrs NDIRECT ≠ 0 then
        word (t.image ((inodeAt t.image i).addrs NDIRECT).toNat) j else 0
    by_cases hi : i < NINODES ∧ (inodeAt t.image i).type = 0
    · rw [haddrs i hi.1 hi.2]
      simp only [ne_eq, not_true_eq_false, and_false, if_false]
    · congr 1
      grind

theorem bit_firstBits {n : ℕ} (hn : n ≤ BSIZE * 8) (b : ℕ) :
    bit (firstBits n) b = decide (b < n) := by
  induction n with
  | zero => exact bit_zeros b
  | succ n ih =>
    have hbyte : n / 8 < BSIZE := by omega
    rw [firstBits, List.range_succ, List.foldl_append, List.foldl_cons, List.foldl_nil,
      bit_setBit _ hbyte]
    rw [firstBits] at ih
    rw [ih (by omega), ← Bool.decide_or, decide_eq_decide]
    omega

theorem Finished.bit_iff (h : Finished files t) (b : ℕ) :
    bit (t.image sb.bmapstart) b = true ↔ b < nmeta ∨ ∃ x, Ref sb (view t) x b := by
  have hused : t.freeblock ≤ BSIZE * 8 := Nat.le_trans h.stored.high (by decide)
  rw [h.bitmap, bit_firstBits hused, decide_eq_true_eq]
  exact (h.stored.books.exact.used_iff b).trans or_comm

theorem Finished.owned (h : Finished files t) : Owned sb (view t) where
  unique := h.stored.books.exact.owner
  data := by
    intro x b hx
    obtain ⟨hlow, hlt⟩ := h.stored.books.data hx
    exact ⟨hlow, Nat.lt_of_lt_of_le hlt h.stored.high⟩
  bitmap := by
    intro b hb
    have hb' : b < FSSIZE := hb
    simp only [FSSIZE] at hb'
    have hdiv : b / BPB = 0 := Nat.div_eq_of_lt (by unfold BPB; omega)
    have hmod : b % BPB = b := Nat.mod_eq_of_lt (by unfold BPB; omega)
    rw [hdiv, hmod, Nat.zero_add]
    exact h.bit_iff b

/-- In an image that mkfs has made no block has two owners, and the bitmap marks the metadata
and the blocks that have one; a kernel that starts on it finds what balloc() relies on. -/
theorem image_ownership {inums : List ℕ} (hn : files.length ≤ NINODES - 2)
    (h : main files start = .ok (inums, t)) :
    (∀ x y, numberIn t.image x ≠ 0 → numberIn t.image x = numberIn t.image y → x = y) ∧
      (∀ x, numberIn t.image x ≠ 0 →
        nmeta ≤ (numberIn t.image x).toNat ∧ (numberIn t.image x).toNat < FSSIZE) ∧
      (∀ b < BSIZE * 8, bit (t.image sb.bmapstart) b = true ↔
        b < nmeta ∨ ∃ x, numberIn t.image x ≠ 0 ∧ (numberIn t.image x).toNat = b) ∧
      Owned sb (view t) := by
  have hlen : 2 + files.length ≤ NINODES := by
    have hinodes : NINODES = 200 := rfl
    omega
  obtain ⟨-, hfin⟩ := main_finished hlen h
  have howned := hfin.owned
  rw [hfin.numberIn_eq]
  refine ⟨?_, ?_, ?_, howned⟩
  · intro x y hx hxy
    exact howned.unique x y _ (ref_of_slot hx) (hxy ▸ ref_of_slot (hxy ▸ hx))
  · intro x hx
    exact howned.data x _ (ref_of_slot hx)
  · intro b _
    rw [hfin.bit_iff]
    apply or_congr_right
    constructor
    · rintro ⟨x, hx⟩
      exact ⟨x, fun h0 => not_ref_of_slot h0 b hx, hx.1⟩
    · rintro ⟨x, hx, rfl⟩
      exact ⟨x, ref_of_slot hx⟩

/-- A file of three bytes. -/
def tiny : HostFile where
  name := [97]
  opens := true
  chunks := [[1, 2, 3]]
  terminated := by decide
  sized := by decide

theorem tiny_fits : Fits [tiny] := by
  refine ⟨?_, by decide⟩
  intro f hf
  obtain rfl := List.mem_singleton.mp hf
  exact ⟨by decide, rfl, by decide⟩

theorem image_ownership_tiny :
    ∃ t, main [tiny] start = .ok ([1, 1, 2], t) ∧ Owned sb (view t) := by
  obtain ⟨t, ht⟩ := main_runs (by decide) tiny_fits
  exact ⟨t, ht, (image_ownership (by decide) ht).2.2.2⟩

end MkfsLayout
