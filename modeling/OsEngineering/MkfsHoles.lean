import OsEngineering.MkfsLayout

/-! Holes in the files of a finished image: main() rounds the size of the root directory up,
and numbers the inodes without looking at their count. -/
namespace MkfsHoles

open ByteBlock FaultState KernelParams ResourceLedger BlockAllocation BlockSlots BlockOwnership
  MkfsImage MkfsBooks MkfsFiles MkfsLayout

variable {s t : Mkfs} {files : List HostFile} {inums : List ℕ}

/-! Only ialloc() takes inode numbers. -/

theorem keeps_rsect (sec : ℕ) : Keeps Mkfs.freeinode (rsect sec) := by
  intro s buf t h
  rw [rsect] at h
  split at h <;> cases h
  rfl

theorem keeps_wsect (sec : ℕ) (buf : DiskBlock) : Keeps Mkfs.freeinode (wsect sec buf) :=
  keeps_modify fun _ => rfl

theorem keeps_nextBlock : Keeps Mkfs.freeinode nextBlock := by
  intro s b t h
  cases h
  rfl

theorem keeps_winode (inum : ℕ) (ip : Inode) : Keeps Mkfs.freeinode (winode inum ip) :=
  keeps_bind (keeps_rsect _) fun _ => keeps_wsect _ _

theorem keeps_fillAddr (din : Inode) (k : ℕ) : Keeps Mkfs.freeinode (fillAddr din k) := by
  rw [fillAddr]
  split
  · exact keeps_bind keeps_nextBlock fun _ => keeps_pure _
  · exact keeps_pure _

theorem keeps_fillEntry (a : ℕ) (indirect : DiskBlock) (j : ℕ) :
    Keeps Mkfs.freeinode (fillEntry a indirect j) := by
  rw [fillEntry]
  split
  · exact keeps_bind keeps_nextBlock fun _ => keeps_bind (keeps_wsect _ _) fun _ => keeps_pure _
  · exact keeps_pure _

theorem keeps_blockOf (din : Inode) (fbn : ℕ) : Keeps Mkfs.freeinode (blockOf din fbn) := by
  rw [blockOf]
  split
  · exact keeps_bind (keeps_fillAddr _ _) fun _ => keeps_pure _
  · exact keeps_bind (keeps_fillAddr _ _) fun _ => keeps_bind (keeps_rsect _) fun _ =>
      keeps_bind (keeps_fillEntry _ _ _) fun _ => keeps_pure _

theorem keeps_iappendFrom (k : ℕ) (din : Inode) (off : ℕ) (p : List Byte) :
    Keeps Mkfs.freeinode (iappendFrom k din off p) := by
  induction k generalizing din off p with
  | zero => exact keeps_pure _
  | succ k ih =>
    rw [iappendFrom]
    split
    · exact keeps_pure _
    · split
      · exact keeps_bind (keeps_blockOf _ _) fun _ => keeps_bind (keeps_rsect _) fun _ =>
          keeps_bind (keeps_wsect _ _) fun _ => ih _ _ _
      · exact keeps_throw _

theorem keeps_iappend (inum : ℕ) (p : List Byte) : Keeps Mkfs.freeinode (iappend inum p) :=
  keeps_bind (keeps_bind (keeps_rsect _) fun _ => keeps_pure _) fun _ =>
    keeps_bind (keeps_iappendFrom _ _ _ _) fun _ => keeps_winode _ _

theorem keeps_appendAll (inum : ℕ) (chunks : List (List Byte)) :
    Keeps Mkfs.freeinode (appendAll inum chunks) := by
  induction chunks with
  | nil => exact keeps_pure _
  | cons c chunks ih => exact keeps_bind (keeps_iappend _ _) fun _ => ih

theorem ialloc_ok {type : Half} {inum : ℕ} (h : ialloc type s = .ok (inum, t)) :
    inum = s.freeinode ∧ t.freeinode = s.freeinode + 1 := by
  obtain ⟨n, s₁, hnext, h⟩ := bind_ok h
  cases hnext
  obtain ⟨_, s₂, hwrite, h⟩ := bind_ok h
  obtain ⟨rfl, rfl⟩ := pure_ok h
  exact ⟨rfl, keeps_winode _ _ _ _ _ hwrite⟩

theorem addFiles_ok (h : addFiles files s = .ok (inums, t)) :
    inums = List.range' s.freeinode files.length := by
  induction files generalizing s t inums with
  | nil => exact (pure_ok h).1
  | cons f files ih =>
    obtain ⟨inum, u, hfile, h⟩ := bind_ok h
    obtain ⟨rest, r, hrest, h⟩ := bind_ok h
    obtain ⟨rfl, -⟩ := pure_ok h
    simp only [addFile] at hfile
    split at hfile
    · exact (throw_ok hfile).elim
    · split at hfile
      · exact (throw_ok hfile).elim
      · obtain ⟨n, s₁, hialloc, hfile⟩ := bind_ok hfile
        obtain ⟨rfl, hfree⟩ := ialloc_ok hialloc
        obtain ⟨_, s₂, hdir, hfile⟩ := bind_ok hfile
        obtain ⟨_, s₃, hdata, hfile⟩ := bind_ok hfile
        obtain ⟨rfl, rfl⟩ := pure_ok hfile
        have hu : u.freeinode = s.freeinode + 1 := by
          rw [keeps_appendAll _ _ _ _ _ hdata, keeps_iappend _ _ _ _ _ hdir, hfree]
        rw [ih hrest, hu, List.length_cons, List.range'_succ]

theorem main_ok (h : main files start = .ok (inums, t)) :
    inums = ROOTINO :: ROOTINO :: List.range' 2 files.length := by
  rw [main_run] at h
  generalize hs : blank = s at h
  obtain ⟨rootino, s₁, hialloc, h⟩ := bind_ok h
  obtain ⟨rfl, hfree⟩ := ialloc_ok hialloc
  split at h
  · next hroot =>
    obtain ⟨_, s₂, hdot, h⟩ := bind_ok h
    obtain ⟨_, s₃, hdots, h⟩ := bind_ok h
    obtain ⟨rest, s₄, hfiles, h⟩ := bind_ok h
    obtain ⟨_, s₅, -, h⟩ := bind_ok h
    obtain ⟨rfl, -⟩ := pure_ok h
    have hthree : s₃.freeinode = 2 := by
      rw [keeps_iappend _ _ _ _ _ hdots, keeps_iappend _ _ _ _ _ hdot, hfree, hroot]
      rfl
    rw [addFiles_ok hfiles, hthree, hroot]
  · exact (throw_ok h).elim

/-! Which files have holes. -/

/-- Every block of a file below its size is there. -/
def NoHoles (image : ℕ → DiskBlock) : Prop :=
  ∀ i < NINODES, ∀ k < ((inodeAt image i).size.toNat + BSIZE - 1) / BSIZE,
    numberIn image (fileSlot i k) ≠ 0

theorem root_length (files : List HostFile) :
    (contents files ROOTINO).length = 16 * (files.length + 2) := by
  rw [contents, contents_root_length _ _ _ (by decide), Function.update_self, List.length_append,
    length_dirent, length_dirent]
  omega

theorem Finished.noHoles_iff (h : Finished files t) :
    NoHoles t.image ↔ (files.length + 2) % 32 ≠ 0 := by
  have hsize : BSIZE = 512 := rfl
  have hlen := root_length files
  have hfree := h.freeinode
  have hmade := h.stored.made
  have hroot : (inodeAt t.image ROOTINO).size.toNat =
      ((contents files ROOTINO).length / BSIZE + 1) * BSIZE := h.root
  have hholds : ∀ i, 0 < i → i < t.freeinode → Holds (view t) i (contents files i) :=
    h.stored.holds
  have hfilled : ∀ i, 0 < i → i < t.freeinode → ∀ k, k * BSIZE < (contents files i).length →
      numberIn t.image (fileSlot i k) ≠ 0 := by
    intro i hpos hi k hk
    have hne := (hholds i hpos hi).filled (k * BSIZE) hk
    rw [Nat.mul_div_cancel _ (by decide)] at hne
    rw [h.numberIn_eq]
    exact hne
  constructor
  · intro hno hmod
    -- the block that the rounding adds
    have hk := hno ROOTINO (by decide) ((contents files ROOTINO).length / BSIZE) (by
      rw [hroot, hsize]
      omega)
    apply hk
    rw [h.numberIn_eq]
    apply (hholds ROOTINO (by decide) (by rw [hfree]; exact Nat.lt_add_right _ (by decide))).beyond
    rw [hlen, hsize]
    omega
  · intro hmod i hi k hk
    by_cases hun : i = 0 ∨ t.freeinode ≤ i
    · have hunused : inodeAt t.image i = unused := h.unmade i hi hun
      rw [hunused] at hk
      exact absurd hk (Nat.not_lt_zero k)
    · by_cases hir : i = ROOTINO
      · subst hir
        apply hfilled ROOTINO (by decide) (by omega)
        rw [hroot] at hk
        rw [hlen, hsize] at *
        omega
      · have hone : i ≠ 1 := hir
        have hsz : (inodeAt t.image i).size.toNat = (contents files i).length :=
          h.size i (by omega) (by omega)
        apply hfilled i (by omega) (by omega)
        rw [hsz] at hk
        rw [hsize] at *
        omega

/-- The inode numbers in the root directory are in range and no file has holes, exactly where
there are at most 198 input files and their entries leave room in the last block. -/
theorem image_without_holes_iff (h : main files start = .ok (inums, t)) :
    ((∀ i ∈ inums, i < sb.ninodes) ∧ NoHoles t.image) ↔
      files.length ≤ NINODES - 2 ∧ (files.length + 2) % 32 ≠ 0 := by
  have hinodes : NINODES = 200 := rfl
  have hnumbers := main_ok h
  by_cases hn : files.length ≤ NINODES - 2
  · obtain ⟨-, hfin⟩ := main_finished (by omega) h
    have hbelow : ∀ i ∈ inums, i < sb.ninodes := by
      intro i hi
      change i < NINODES
      rw [hnumbers] at hi
      simp only [List.mem_cons, List.mem_range'_1, ROOTINO] at hi
      omega
    rw [and_iff_right hbelow, and_iff_right hn]
    exact Finished.noHoles_iff hfin
  · refine iff_of_false ?_ fun hc => hn hc.1
    rintro ⟨hbelow, -⟩
    have h200 : 200 ∈ inums := by
      rw [hnumbers]
      simp only [List.mem_cons, List.mem_range'_1]
      omega
    exact absurd (hbelow 200 h200) (by decide)

theorem image_without_holes_tiny :
    ∃ t, main [tiny] start = .ok ([1, 1, 2], t) ∧ NoHoles t.image := by
  obtain ⟨t, ht⟩ := main_runs (by decide) tiny_fits
  exact ⟨t, ht, ((image_without_holes_iff ht).mpr (by decide)).2⟩

/-- Thirty empty files: with "." and ".." their entries fill the block of the root directory. -/
theorem thirty_files_hole :
    ∃ inums t, main (List.replicate 30 { tiny with chunks := [], sized := nofun }) start =
      .ok (inums, t) ∧ ¬ ((∀ i ∈ inums, i < sb.ninodes) ∧ NoHoles t.image) := by
  have hfits : Fits (List.replicate 30 { tiny with chunks := [], sized := nofun }) := by
    refine ⟨?_, by decide⟩
    intro f hf
    rw [List.eq_of_mem_replicate hf]
    exact ⟨by decide, rfl, by decide⟩
  obtain ⟨t, ht⟩ := main_runs (by decide) hfits
  obtain ⟨-, hfin⟩ := main_finished (by decide) ht
  refine ⟨_, t, ht, fun hgood => ?_⟩
  exact absurd hgood.2 (fun hno => absurd ((Finished.noHoles_iff hfin).mp hno) (by decide))

end MkfsHoles
