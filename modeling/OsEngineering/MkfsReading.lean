import OsEngineering.FileReads
import OsEngineering.MkfsLayout

/-! The kernel on an image that mkfs has made: it finds the input files in the root directory
and reads their bytes. -/
namespace MkfsReading

open ByteBlock FaultState KernelParams ResourceLedger BlockAllocation BlockSlots BlockOwnership
  MkfsBooks MkfsFiles MkfsLayout FileReads

open MkfsImage (HostFile Mkfs ROOTINO NINODES FSSIZE sb dirent main start)

/-- The disk is the image, and inodes in memory are as on disk. -/
structure Mounted (image : ℕ → DiskBlock) (s : Fs) : Prop where
  disk : s.disk = image
  cached : ∀ i ip, s.icache i = some ip → ip = dinode sb s i

variable {s : Fs} {t : Mkfs} {image : ℕ → DiskBlock} {files : List HostFile} {i k : ℕ}
  {bytes : List Byte} {dev : Half → Option (Word → ℤ × List Byte)}

theorem Mounted.inode (h : Mounted image s) (i : ℕ) : inode sb s i = inodeAt image i := by
  have hdinode : dinode sb s i = inodeAt image i := by
    simp only [dinode, inodeAt, h.disk]
  rw [BlockAllocation.inode]
  cases hc : s.icache i with
  | none => exact hdinode
  | some ip => exact (h.cached i ip hc).trans hdinode

theorem Mounted.ilock (h : Mounted image s) (htype : (inodeAt image i).type ≠ 0) :
    ∃ s', ilock sb i s = .ok ((), s') ∧ Mounted image s' := by
  have hdinode : dinode sb s i = inodeAt image i := by
    simp only [dinode, inodeAt, h.disk]
  rw [BlockAllocation.ilock, run_bind (get_run s)]
  cases hc : s.icache i with
  | some ip => exact ⟨s, rfl, h⟩
  | none =>
    refine ⟨putInode s i (inodeAt image i), ?_, h.disk, ?_⟩
    · have hset : setInode sb i id s = .ok ((), putInode s i (inodeAt image i)) := by
        rw [← h.inode i]
        rfl
      dsimp only
      rw [run_bind hset, if_neg (hdinode ▸ htype)]
      rfl
    · intro j ip hj
      have hsame : dinode sb (putInode s i (inodeAt image i)) j = dinode sb s j := rfl
      rw [hsame]
      by_cases hji : j = i
      · subst hji
        rw [icache_putInode_self] at hj
        rw [hdinode]
        exact (Option.some.inj hj).symm
      · rw [icache_putInode_ne _ hji] at hj
        exact h.cached j ip hj

/-! readi() of a file without holes. -/

theorem bmap_run (h : Mounted image s) (hi : numberIn image (fileSlot i k) ≠ 0) :
    bmap sb i k s = .ok ((numberIn image (fileSlot i k)).toNat, s) := by
  have hip : ∀ n, (inodeAt image i).addrs n ≠ 0 →
      bmapAddr sb i n s = .ok (((inodeAt image i).addrs n).toNat, s) := by
    intro n hn
    have hrun : ip sb i s = .ok (inodeAt image i, s) := by
      rw [ip, h.inode]
    rw [bmapAddr, run_bind hrun, if_neg hn]
    rfl
  rw [bmap]
  rw [fileSlot] at hi ⊢
  split
  · next hdirect =>
    rw [if_pos hdirect] at hi
    rw [numberIn] at hi ⊢
    split at hi
    · next hin =>
      rw [if_pos hin]
      exact hip k hi
    · exact absurd rfl hi
  · next hdirect =>
    rw [if_neg hdirect] at hi
    rw [numberIn] at hi ⊢
    split at hi
    · next hin =>
      rw [if_pos hin] at ⊢
      dsimp only
      rw [if_pos hin.2.1, run_bind (hip NDIRECT hin.2.2)]
      have hread : bread ((inodeAt image i).addrs NDIRECT).toNat s =
          .ok (image ((inodeAt image i).addrs NDIRECT).toNat, s) := by
        rw [bread, h.disk]
      rw [run_bind hread, if_neg hi]
      rfl
    · exact absurd rfl hi

/-- The bytes of file `i` in the image. -/
structure Backed (image : ℕ → DiskBlock) (i : ℕ) (bytes : List Byte) : Prop where
  filled : ∀ o < bytes.length, numberIn image (fileSlot i (o / BSIZE)) ≠ 0
  byte : ∀ o < bytes.length,
    byte (image (numberIn image (fileSlot i (o / BSIZE))).toNat) (o % BSIZE) = bytes.getD o 0

theorem copyOut_eq {o m : ℕ} (h : Backed image i bytes)
    (hm : o % BSIZE + m ≤ BSIZE) (hlen : o + m ≤ bytes.length) :
    copyOut (image (numberIn image (fileSlot i (o / BSIZE))).toNat) o m =
      (bytes.drop o).take m := by
  have hsize : BSIZE = 512 := rfl
  apply List.ext_getElem
  · rw [copyOut, List.length_map, List.length_range, List.length_take, List.length_drop]
    omega
  · intro j hj hj'
    rw [copyOut, List.length_map, List.length_range] at hj
    have hdiv : (o + j) / BSIZE = o / BSIZE := by
      rw [hsize] at hm ⊢
      omega
    have hmod : (o + j) % BSIZE = o % BSIZE + j := by
      rw [hsize] at hm ⊢
      omega
    have hbyte := h.byte (o + j) (by omega)
    rw [hdiv, hmod] at hbyte
    simp only [copyOut, List.getElem_map, List.getElem_range, List.getElem_take,
      List.getElem_drop]
    rw [hbyte, List.getD_eq_getElem?_getD, List.getElem?_eq_getElem (by omega),
      Option.getD_some]

theorem readFrom_run (h : Mounted image s) (hb : Backed image i bytes) {n k tot off : ℕ}
    (hk : n ≤ tot + k) (hlen : off + (n - tot) ≤ bytes.length) :
    readFrom sb i n k tot off s = .ok ((bytes.drop off).take (n - tot), s) := by
  induction k generalizing tot off with
  | zero =>
    have hdone : n - tot = 0 := by omega
    rw [hdone, List.take_zero]
    rfl
  | succ k ih =>
    rw [readFrom]
    split
    · next hlt =>
      have hmod : off % BSIZE < BSIZE := Nat.mod_lt _ (by decide)
      have hread : bread (numberIn image (fileSlot i (off / BSIZE))).toNat s =
          .ok (image (numberIn image (fileSlot i (off / BSIZE))).toNat, s) := by
        rw [bread, h.disk]
      rw [run_bind (bmap_run h (hb.filled off (by omega))), run_bind hread]
      generalize hm : min (n - tot) (BSIZE - off % BSIZE) = m
      rw [copyOut_eq hb (by omega) (by omega), run_bind (ih (by omega) (by omega))]
      have hrest : n - tot = m + (n - (tot + m)) := by omega
      rw [hrest, List.take_add, List.drop_drop]
      rfl
    · next hle =>
      have hdone : n - tot = 0 := by omega
      rw [hdone, List.take_zero]
      rfl

theorem readi_run (dev : Half → Option (Word → ℤ × List Byte)) (h : Mounted image s) (hb : Backed image i bytes)
    (htype : (inodeAt image i).type ≠ T_DEV) {off n : Word} {size m : ℕ}
    (hsize : (inodeAt image i).size.toNat = size) (hoff : off.toNat ≤ size)
    (hwrap : off.toNat + n.toNat < 2 ^ 32) (hm : min n.toNat (size - off.toNat) = m)
    (hlen : off.toNat + m ≤ bytes.length) (hmax : m < 2 ^ 31) :
    readi sb dev i off n s = .ok ((m, (bytes.drop off.toNat).take m), s) := by
  have hip : ip sb i s = .ok (inodeAt image i, s) := by
    rw [ip, h.inode]
  have hadd : (off + n).toNat = off.toNat + n.toNat := by
    rw [BitVec.toNat_add, Nat.mod_eq_of_lt hwrap]
  rw [readi, run_bind hip, if_neg htype, if_neg (by
    rw [BitVec.lt_def, BitVec.lt_def, hadd]
    omega)]
  -- the length that is left of `n`
  generalize hcut : (if (inodeAt image i).size < off + n then (inodeAt image i).size - off
    else n) = c
  have hc : c.toNat = m := by
    rw [← hcut]
    split
    · next hlt =>
      rw [BitVec.lt_def, hadd] at hlt
      rw [BitVec.toNat_sub]
      omega
    · next hge =>
      rw [BitVec.lt_def, hadd] at hge
      omega
  have hint : c.toInt = (m : ℤ) := by
    rw [BitVec.toInt_eq_toNat_of_lt (by omega), hc]
  rw [hc, hint, run_bind (readFrom_run h hb (by omega) (by omega)), Nat.sub_zero]
  rfl

theorem readi_outside (h : Mounted image s) (htype : (inodeAt image i).type ≠ T_DEV)
    {off n : Word} (hout : (inodeAt image i).size < off ∨ off + n < off) :
    readi sb dev i off n s = .ok ((-1, []), s) := by
  have hip : ip sb i s = .ok (inodeAt image i, s) := by
    rw [ip, h.inode]
  rw [readi, run_bind hip, if_neg htype, if_pos hout]
  rfl

/-! dirlookup() in a directory of entries. -/

/-- A number and a name as they stand in an entry. -/
structure Entry where
  inum : ℕ
  name : List Byte

structure Entry.Valid (e : Entry) : Prop where
  pos : 0 < e.inum
  small : e.inum < 2 ^ 16
  short : e.name.length ≤ MkfsImage.DIRSIZ
  terminated : ∀ c ∈ e.name, c ≠ 0

def encode (entries : List Entry) : List Byte :=
  (entries.map fun e => dirent e.inum e.name).flatten

theorem length_encode (entries : List Entry) :
    (encode entries).length = 16 * entries.length := by
  induction entries with
  | nil => rfl
  | cons e entries ih =>
    rw [encode, List.map_cons, List.flatten_cons, List.length_append, length_dirent,
      List.length_cons, ← encode, ih]
    omega

theorem encode_append (a b : List Entry) : encode (a ++ b) = encode a ++ encode b := by
  rw [encode, List.map_append, List.flatten_append]
  rfl

theorem encode_slice (a : List Entry) (e : Entry) (b : List Entry) :
    ((encode (a ++ e :: b)).drop (16 * a.length)).take 16 = dirent e.inum e.name := by
  have hcons : encode (e :: b) = dirent e.inum e.name ++ encode b := rfl
  rw [encode_append, ← length_encode a, List.drop_left, hcons, ← length_dirent e.inum e.name,
    List.take_left]

theorem direntInum_dirent {n : ℕ} (hn : n < 2 ^ 16) (name : List Byte) :
    direntInum (dirent n name) = n := by
  change (BitVec.ofNat 8 n).toNat + 256 * (BitVec.ofNat 8 (n / 256)).toNat = n
  rw [BitVec.toNat_ofNat, BitVec.toNat_ofNat]
  omega

theorem namecmp_dirent {e : Entry} (he : e.Valid) {name : List Byte}
    (hname : ∀ c ∈ name, c ≠ 0) (hlen : name.length ≤ MkfsImage.DIRSIZ) :
    namecmp name ((dirent e.inum e.name).drop 2) = 0 ↔ name = e.name := by
  have hdrop : (dirent e.inum e.name).drop 2 =
      e.name ++ List.replicate (MkfsImage.DIRSIZ - e.name.length) 0 := by
    change MkfsImage.strncpy e.name = _
    rw [MkfsImage.strncpy, List.take_of_length_le he.short]
  rw [hdrop]
  exact strncmp_eq_zero_iff hname he.terminated hlen he.short

/-- What dirlookup() relies on in a directory. -/
structure Directory (image : ℕ → DiskBlock) (i : ℕ) (entries : List Entry) : Prop where
  backed : Backed image i (encode entries)
  type : (inodeAt image i).type = T_DIR
  size : (encode entries).length ≤ (inodeAt image i).size.toNat
  small : (encode entries).length < 2 ^ 31
  valid : ∀ e ∈ entries, e.Valid

theorem readi_entry (h : Mounted image s) {a b : List Entry} {e : Entry}
    (hd : Directory image i (a ++ e :: b)) :
    readi sb dev i (BitVec.ofNat 32 (16 * a.length)) 16 s =
      .ok ((16, dirent e.inum e.name), s) := by
  have hlen := length_encode (a ++ e :: b)
  have hsmall := hd.small
  have hsize := hd.size
  rw [List.length_append, List.length_cons] at hlen
  have hoff : (BitVec.ofNat 32 (16 * a.length)).toNat = 16 * a.length := by
    rw [BitVec.toNat_ofNat]
    omega
  have htype : (inodeAt image i).type ≠ T_DEV := by
    rw [hd.type]
    decide
  have h16 : (16 : Word).toNat = 16 := rfl
  have hrun := readi_run dev h hd.backed htype (n := 16) (m := 16) rfl
    (by rw [hoff]; omega) (by rw [hoff, h16]; omega) (by rw [hoff, h16]; omega)
    (by rw [hoff]; omega) (by decide)
  rw [hrun, hoff, encode_slice]
  rfl

/-- One round of dirlookup(), on the entry `e`. -/
theorem dirlookupFrom_round (h : Mounted image s) {name : List Byte}
    (hname : ∀ c ∈ name, c ≠ 0) (hshort : name.length ≤ MkfsImage.DIRSIZ)
    {pre post : List Entry} {e : Entry} (hd : Directory image i (pre ++ e :: post)) (k : ℕ) :
    dirlookupFrom sb dev i name (k + 1) (BitVec.ofNat 32 (16 * pre.length)) s =
      if name = e.name then .ok (some (e.inum, BitVec.ofNat 32 (16 * pre.length)), s)
      else dirlookupFrom sb dev i name k (BitVec.ofNat 32 (16 * (pre.length + 1))) s := by
  have hip : ip sb i s = .ok (inodeAt image i, s) := by
    rw [ip, h.inode]
  have hvalid : e.Valid := hd.valid e (List.mem_append_right _ List.mem_cons_self)
  have hlen := length_encode (pre ++ e :: post)
  rw [List.length_append, List.length_cons] at hlen
  have hsize := hd.size
  have hsmall := hd.small
  have hlt : BitVec.ofNat 32 (16 * pre.length) < (inodeAt image i).size := by
    rw [BitVec.lt_def, BitVec.toNat_ofNat]
    omega
  have hnext : BitVec.ofNat 32 (16 * pre.length) + 16 =
      BitVec.ofNat 32 (16 * (pre.length + 1)) := by
    rw [Nat.mul_add, BitVec.ofNat_add]
    rfl
  rw [dirlookupFrom, run_bind hip, if_pos hlt, run_bind (readi_entry h hd)]
  dsimp only
  rw [if_neg (fun hne => hne rfl), direntInum_dirent hvalid.small,
    if_neg (Nat.ne_of_gt hvalid.pos), hnext]
  by_cases heq : name = e.name
  · rw [if_pos ((namecmp_dirent hvalid hname hshort).mpr heq), if_pos heq]
    rfl
  · rw [if_neg fun hc => heq ((namecmp_dirent hvalid hname hshort).mp hc), if_neg heq]

theorem dirlookupFrom_run (h : Mounted image s) {name : List Byte} (hname : ∀ c ∈ name, c ≠ 0)
    (hshort : name.length ≤ MkfsImage.DIRSIZ) (pre rest : List Entry) {post : List Entry}
    {n k : ℕ} (hd : Directory image i (pre ++ (rest ++ ⟨n, name⟩ :: post)))
    (hfirst : ∀ e ∈ rest, e.name ≠ name) (hk : rest.length < k) :
    ∃ off, dirlookupFrom sb dev i name k (BitVec.ofNat 32 (16 * pre.length)) s =
      .ok (some (n, off), s) := by
  induction rest generalizing pre k with
  | nil =>
    obtain ⟨k, rfl⟩ : ∃ m, k = m + 1 := ⟨k - 1, by omega⟩
    exact ⟨_, (dirlookupFrom_round h hname hshort hd k).trans (if_pos rfl)⟩
  | cons e rest ih =>
    rw [List.length_cons] at hk
    obtain ⟨k, rfl⟩ : ∃ m, k = m + 1 := ⟨k - 1, by omega⟩
    have hne : name ≠ e.name := (hfirst e List.mem_cons_self).symm
    rw [dirlookupFrom_round h hname hshort hd k, if_neg hne]
    have hlen : (pre ++ [e]).length = pre.length + 1 := by
      rw [List.length_append, List.length_singleton]
    rw [← hlen]
    refine ih (pre ++ [e]) ?_ (fun e' he' => hfirst e' (List.mem_cons_of_mem e he')) (by omega)
    rw [List.append_assoc]
    exact hd

theorem dirlookup_run (h : Mounted image s) {name : List Byte} (hname : ∀ c ∈ name, c ≠ 0)
    (hshort : name.length ≤ MkfsImage.DIRSIZ) {rest post : List Entry} {n : ℕ}
    (hd : Directory image i (rest ++ ⟨n, name⟩ :: post)) (hfirst : ∀ e ∈ rest, e.name ≠ name) :
    ∃ off, dirlookup sb dev i name s = .ok (some (n, off), s) := by
  have hip : ip sb i s = .ok (inodeAt image i, s) := by
    rw [ip, h.inode]
  have hlen := length_encode (rest ++ ⟨n, name⟩ :: post)
  rw [List.length_append, List.length_cons] at hlen
  have hsize := hd.size
  rw [dirlookup, run_bind hip, if_neg fun hne => hne hd.type]
  exact dirlookupFrom_run h hname hshort [] rest hd hfirst (by omega)

/-! The files of a finished image. -/

def entriesFrom (n : ℕ) : List HostFile → List Entry
  | [] => []
  | f :: files => ⟨n, f.short⟩ :: entriesFrom (n + 1) files

/-- The entries of the root directory. -/
def rootEntries (files : List HostFile) : List Entry :=
  ⟨ROOTINO, [46]⟩ :: ⟨ROOTINO, [46, 46]⟩ :: entriesFrom 2 files

theorem entriesFrom_append (n : ℕ) (a b : List HostFile) :
    entriesFrom n (a ++ b) = entriesFrom n a ++ entriesFrom (n + a.length) b := by
  induction a generalizing n with
  | nil => rfl
  | cons f a ih =>
    rw [List.cons_append, entriesFrom, ih, entriesFrom, List.length_cons, List.cons_append,
      Nat.add_assoc n 1, Nat.add_comm 1]

theorem mem_entriesFrom {n : ℕ} {e : Entry} (h : e ∈ entriesFrom n files) :
    n ≤ e.inum ∧ e.inum < n + files.length ∧ ∃ f ∈ files, e.name = f.short := by
  induction files generalizing n with
  | nil => cases h
  | cons f files ih =>
    rw [List.length_cons]
    rcases List.mem_cons.mp h with rfl | h
    · exact ⟨Nat.le_refl n, Nat.lt_add_of_pos_right (Nat.succ_pos _), f, List.mem_cons_self, rfl⟩
    · obtain ⟨hlow, hlt, g, hg, hname⟩ := ih h
      exact ⟨by omega, by omega, g, List.mem_cons_of_mem f hg, hname⟩

theorem short_terminated (f : HostFile) : ∀ c ∈ f.short, c ≠ 0 := by
  intro c hc
  apply f.terminated c
  rw [HostFile.short] at hc
  split at hc
  · exact List.mem_of_mem_tail hc
  · exact hc

theorem layout_root (data : ℕ → List Byte) {n : ℕ} (hn : ROOTINO < n) (files : List HostFile) :
    layout data n files ROOTINO = data ROOTINO ++ encode (entriesFrom n files) := by
  induction files generalizing n data with
  | nil => exact (List.append_nil _).symm
  | cons f files ih =>
    rw [layout, ih _ (by omega), added, Function.update_of_ne (Nat.ne_of_lt hn),
      Function.update_self, List.append_assoc]
    rfl

theorem layout_below (data : ℕ → List Byte) {n j : ℕ} (hj : j < n) (hroot : j ≠ ROOTINO)
    (files : List HostFile) : layout data n files j = data j := by
  induction files generalizing n data with
  | nil => rfl
  | cons f files ih =>
    rw [layout, ih _ (by omega), added, Function.update_of_ne (Nat.ne_of_lt hj),
      Function.update_of_ne hroot]

theorem layout_file (data : ℕ → List Byte) {n m : ℕ} (hn : ROOTINO < n) {f : HostFile}
    (hf : files[m]? = some f) : layout data n files (n + m) = f.bytes := by
  induction files generalizing n m data with
  | nil => cases hf
  | cons g files ih =>
    cases m with
    | zero =>
      obtain rfl := Option.some.inj hf
      refine (layout_below (added data n g) (Nat.lt_add_one n) (Nat.ne_of_gt hn) files).trans ?_
      rw [added, Function.update_self]
    | succ m =>
      have hnext : n + (m + 1) = n + 1 + m := by omega
      rw [layout, hnext]
      exact ih _ (by omega) hf

theorem contents_root (files : List HostFile) :
    contents files ROOTINO = encode (rootEntries files) := by
  rw [contents, layout_root _ (by decide), Function.update_self, List.append_assoc]
  rfl

theorem Finished.backed (h : Finished files t) (hi : 0 < i) (hlt : i < t.freeinode) :
    Backed t.image i (contents files i) where
  filled := by
    intro o ho
    rw [h.numberIn_eq]
    exact (h.stored.holds i hi hlt).filled o ho
  byte := by
    intro o ho
    rw [h.numberIn_eq]
    exact (h.stored.holds i hi hlt).byte o ho

theorem Finished.directory (h : Finished files t)
    (hshort : ∀ f ∈ files, f.short.length ≤ MkfsImage.DIRSIZ) :
    Directory t.image ROOTINO (rootEntries files) := by
  have hmade := h.stored.made
  have hfree := h.freeinode
  have hinodes : NINODES = 200 := rfl
  have hlt : ROOTINO < t.freeinode := by
    rw [hfree]
    exact Nat.lt_add_right _ (by decide)
  have hlen : (encode (rootEntries files)).length ≤ MAXFILE * BSIZE := by
    rw [← contents_root]
    exact (h.stored.holds ROOTINO (by decide) hlt).small
  have hmax : MAXFILE * BSIZE = 71680 := rfl
  refine ⟨contents_root files ▸ Finished.backed h (by decide) hlt, ?_, ?_, by omega, ?_⟩
  · have htype := h.type ROOTINO (by decide) hlt
    rw [if_pos rfl] at htype
    exact htype
  · have hsize : (inodeAt t.image ROOTINO).size.toNat =
        ((contents files ROOTINO).length / BSIZE + 1) * BSIZE := h.root
    have hblock : BSIZE = 512 := rfl
    rw [hsize, contents_root, hblock]
    omega
  · intro e he
    rcases List.mem_cons.mp he with rfl | he
    · exact ⟨by decide, by decide, by decide, by decide⟩
    · rcases List.mem_cons.mp he with rfl | he
      · exact ⟨by decide, by decide, by decide, by decide⟩
      · obtain ⟨hlow, hup, f, hf, hname⟩ := mem_entriesFrom he
        refine ⟨by omega, by omega, ?_, ?_⟩
        · rw [hname]
          exact hshort f hf
        · rw [hname]
          exact short_terminated f

theorem Finished.lookup (dev : Half → Option (Word → ℤ × List Byte)) (h : Finished files t) (hs : Mounted t.image s)
    (hnodup : (files.map HostFile.short).Nodup)
    (hdots : ∀ f ∈ files, f.short ≠ [46] ∧ f.short ≠ [46, 46])
    (hshort : ∀ f ∈ files, f.short.length ≤ MkfsImage.DIRSIZ) {m : ℕ} {f : HostFile}
    (hf : files[m]? = some f) :
    ∃ off, dirlookup sb dev ROOTINO f.short s = .ok (some (2 + m, off), s) := by
  obtain ⟨hm, hget⟩ := List.getElem?_eq_some_iff.mp hf
  have hmem : f ∈ files := List.mem_of_getElem? hf
  have hsplit : files = files.take m ++ f :: files.drop (m + 1) := by
    rw [← hget, ← List.drop_eq_getElem_cons hm, List.take_append_drop]
  have hlen : (files.take m).length = m := by
    rw [List.length_take]
    omega
  have hentries : rootEntries files =
      (⟨ROOTINO, [46]⟩ :: ⟨ROOTINO, [46, 46]⟩ :: entriesFrom 2 (files.take m)) ++
        ⟨2 + m, f.short⟩ :: entriesFrom (2 + m + 1) (files.drop (m + 1)) := by
    rw [rootEntries, hsplit, entriesFrom_append, ← hsplit, hlen]
    rfl
  have hd := Finished.directory h hshort
  rw [hentries] at hd
  apply dirlookup_run hs (short_terminated f) (hshort f hmem) hd
  intro e he heq
  obtain ⟨hdot, hdotdot⟩ := hdots f hmem
  rcases List.mem_cons.mp he with rfl | he
  · exact hdot heq.symm
  · rcases List.mem_cons.mp he with rfl | he
    · exact hdotdot heq.symm
    · obtain ⟨-, -, g, hg, hname⟩ := mem_entriesFrom he
      -- the same name before and at position `m`
      rw [hsplit, List.map_append, List.map_cons] at hnodup
      exact (List.nodup_append.mp hnodup).2.2 _ (List.mem_map_of_mem hg) _ List.mem_cons_self
        (hname.symm.trans heq)

/-- The numbers that readsb() copies out of block 1. -/
def readsb (image : ℕ → DiskBlock) : List ℕ :=
  (List.range 7).map fun k => (word (image 1) k).toNat

theorem readsb_superblock (h : image 1 = MkfsImage.superblock) :
    readsb image =
      [sb.size, sb.nblocks, sb.ninodes, nlog, 2, sb.inodestart, sb.bmapstart] := by
  have hword : ∀ k < 7, word (image 1) k = BitVec.ofNat 32
      ([sb.size, sb.nblocks, sb.ninodes, nlog, 2, sb.inodestart, sb.bmapstart].getD k 0) := by
    intro k hk
    have hself := word_setWords_self zeros (fun k => BitVec.ofNat 32
      ([sb.size, sb.nblocks, sb.ninodes, nlog, 2, sb.inodestart, sb.bmapstart].getD k 0)) hk
      (show 4 * (0 + 7) ≤ BSIZE by decide)
    rw [Nat.zero_add] at hself
    rw [h]
    exact hself
  simp only [readsb, List.range, List.range.loop, List.map_cons, List.map_nil, hword 0 (by decide),
    hword 1 (by decide), hword 2 (by decide), hword 3 (by decide), hword 4 (by decide),
    hword 5 (by decide), hword 6 (by decide)]
  rfl

/-- readi() at an offset and a length that the file and the arithmetic of uint allow. -/
def InRange (bytes : List Byte) (off n : Word) : Prop :=
  off.toNat ≤ bytes.length ∧ off.toNat + n.toNat < 2 ^ 32

/-- A kernel that mounts the image finds every input file under its name in the root directory
and reads exactly its bytes, whatever inodes it has in memory. -/
theorem image_readable {inums : List ℕ} (hn : files.length ≤ NINODES - 2)
    (hnodup : (files.map HostFile.short).Nodup)
    (hdots : ∀ f ∈ files, f.short ≠ [46] ∧ f.short ≠ [46, 46])
    (hshort : ∀ f ∈ files, f.short.length ≤ MkfsImage.DIRSIZ)
    (h : main files start = .ok (inums, t)) {m : ℕ} {f : HostFile} (hf : files[m]? = some f)
    (dev : Half → Option (Word → ℤ × List Byte)) :
    readsb t.image = [sb.size, sb.nblocks, sb.ninodes, nlog, 2, sb.inodestart, sb.bmapstart] ∧
      ∀ s, Mounted t.image s →
        (∃ s' off, ilock sb ROOTINO s = .ok ((), s') ∧ Mounted t.image s' ∧
          dirlookup sb dev ROOTINO f.short s' = .ok (some (2 + m, off), s')) ∧
        ∃ s', ilock sb (2 + m) s = .ok ((), s') ∧ Mounted t.image s' ∧
          (BlockAllocation.inode sb s' (2 + m)).size.toNat = f.bytes.length ∧
          ∀ off n : Word,
            (InRange f.bytes off n → readi sb dev (2 + m) off n s' =
              .ok ((((f.bytes.drop off.toNat).take n.toNat).length,
                (f.bytes.drop off.toNat).take n.toNat), s')) ∧
            (¬ InRange f.bytes off n → readi sb dev (2 + m) off n s' = .ok ((-1, []), s')) := by
  have hinodes : NINODES = 200 := rfl
  have hm : m < files.length := (List.getElem?_eq_some_iff.mp hf).1
  obtain ⟨-, hfin⟩ := main_finished (by omega) h
  have hfree := hfin.freeinode
  have hroot : ROOTINO = 1 := rfl
  refine ⟨readsb_superblock hfin.super, ?_⟩
  intro s hs
  constructor
  · have htype : (inodeAt t.image ROOTINO).type = T_DIR :=
      (hfin.type ROOTINO (by decide) (by omega)).trans (if_pos rfl)
    obtain ⟨s', hlock, hs'⟩ := hs.ilock (i := ROOTINO) (by rw [htype]; decide)
    obtain ⟨off, hlookup⟩ := Finished.lookup dev hfin hs' hnodup hdots hshort hf
    exact ⟨s', off, hlock, hs', hlookup⟩
  · have htype : (inodeAt t.image (2 + m)).type = MkfsImage.T_FILE :=
      (hfin.type (2 + m) (by omega) (by omega)).trans (if_neg (by omega))
    have hdev : (inodeAt t.image (2 + m)).type ≠ T_DEV := by
      rw [htype]
      decide
    have hcontents : contents files (2 + m) = f.bytes := layout_file _ (by decide) hf
    have hsize : (inodeAt t.image (2 + m)).size.toNat = f.bytes.length := by
      rw [← hcontents]
      exact hfin.size (2 + m) (by omega) (by omega)
    have hbacked : Backed t.image (2 + m) f.bytes := by
      rw [← hcontents]
      exact Finished.backed hfin (by omega) (by omega)
    have hsmall : f.bytes.length ≤ 71680 := by
      rw [← hcontents]
      exact (hfin.stored.holds (2 + m) (by omega) (by omega)).small
    obtain ⟨s', hlock, hs'⟩ := hs.ilock (i := 2 + m) (by rw [htype]; decide)
    refine ⟨s', hlock, hs', by rw [hs'.inode, hsize], ?_⟩
    intro off n
    constructor
    · rintro ⟨hoff, hwrap⟩
      have hlen : ((f.bytes.drop off.toNat).take n.toNat).length =
          min n.toNat (f.bytes.length - off.toNat) := by
        rw [List.length_take, List.length_drop]
      rw [hlen]
      have hcut : (f.bytes.drop off.toNat).take n.toNat =
          (f.bytes.drop off.toNat).take (min n.toNat (f.bytes.length - off.toNat)) := by
        rw [← List.length_drop, ← List.take_take, List.take_length]
      rw [hcut]
      exact readi_run dev hs' hbacked hdev hsize hoff hwrap rfl (by omega) (by omega)
    · intro hout
      apply readi_outside hs' hdev
      rw [InRange] at hout
      rw [BitVec.lt_def, BitVec.lt_def, hsize, BitVec.toNat_add]
      have := off.isLt
      have := n.isLt
      omega

theorem image_readable_tiny :
    ∃ t, main [tiny] start = .ok ([1, 1, 2], t) ∧
      ∃ s, ilock sb 2 (view t) = .ok ((), s) ∧
        readi sb (fun _ => none) 2 1 5 s = .ok ((2, [2, 3]), s) := by
  obtain ⟨t, ht⟩ := main_runs (by decide) tiny_fits
  have hview : Mounted t.image (view t) := ⟨rfl, nofun⟩
  obtain ⟨-, hread⟩ := image_readable (by decide) (by decide) (by decide) (by decide) ht
    (m := 0) (f := tiny) rfl fun _ => none
  obtain ⟨-, s, hlock, -, -, hall⟩ := hread (view t) hview
  exact ⟨t, ht, s, hlock, (hall 1 5).1 ⟨by decide, by decide⟩⟩

/-- readi() of all offsets and lengths, also of those whose sum does not fit in a uint. -/
def ReadsAll (dev : Half → Option (Word → ℤ × List Byte)) (image : ℕ → DiskBlock) (i : ℕ)
    (bytes : List Byte) : Prop :=
  ∀ s, Mounted image s → ∀ off n : Word, ∃ s', readi sb dev i off n s =
    .ok ((((bytes.drop off.toNat).take n.toNat).length, (bytes.drop off.toNat).take n.toNat), s')

/-- The two bytes from offset 1 on are not read with the largest length. -/
theorem readi_refuses_wrapping :
    ∃ t, main [tiny] start = .ok ([1, 1, 2], t) ∧
      ¬ ReadsAll (fun _ => none) t.image 2 tiny.bytes := by
  obtain ⟨t, ht⟩ := main_runs (by decide) tiny_fits
  obtain ⟨-, hfin⟩ := main_finished (by decide) ht
  have hview : Mounted t.image (view t) := ⟨rfl, nofun⟩
  have htype : (inodeAt t.image 2).type = MkfsImage.T_FILE :=
    (hfin.type 2 (by decide) (by rw [hfin.freeinode]; decide)).trans (if_neg (by decide))
  refine ⟨t, ht, fun hall => ?_⟩
  obtain ⟨s', hrun⟩ := hall (view t) hview 1 (BitVec.allOnes 32)
  rw [readi_outside hview (by rw [htype]; decide) (Or.inr (by decide))] at hrun
  injection hrun with hpair
  have hreturned : (-1 : ℤ) = (((tiny.bytes.drop (1 : Word).toNat).take
      (BitVec.allOnes 32).toNat).length : ℕ) := congrArg (fun r => r.1.1) hpair
  omega

end MkfsReading
