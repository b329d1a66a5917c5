import OsEngineering.DirectorySlots

/-! Directories are finite maps: what dirlookup(), dirlink() and sys_unlink() do to the bindings. -/
namespace DirectoryMaps

open ByteBlock FaultState KernelParams BlockAllocation BlockSlots BlockOwnership FreeBlocks
open FileReads hiding dirlookup
open FileContents FileWrites FileArrays ListOverwrite NamedSlots Directories DirectorySlots

/-! writei() leaves the other in-memory inodes. -/

variable {sb : Superblock} {i j : ℕ}

abbrev KeepsInode (j : ℕ) {α : Type} (c : FsCode α) : Prop :=
  Keeps (fun s : Fs => s.icache j) c

theorem keeps_bread (b : ℕ) : KeepsInode j (bread b) := by
  intro s a t h
  cases h
  rfl

theorem keeps_change (b : ℕ) (f : DiskBlock → DiskBlock) : KeepsInode j (change b f) :=
  keeps_modify fun _ => rfl

theorem keeps_ip : KeepsInode j (ip sb i) := by
  intro s a t h
  cases h
  rfl

theorem keeps_setInode (hj : j ≠ i) (f : Inode → Inode) : KeepsInode j (setInode sb i f) :=
  keeps_modify fun _ => Function.update_of_ne hj _ _

theorem keeps_ballocFrom (k b : ℕ) : KeepsInode j (ballocFrom sb k b) := by
  induction k generalizing b with
  | zero => exact keeps_throw _
  | succ k ih =>
    unfold ballocFrom
    split
    · apply keeps_bind (keeps_bread _)
      intro v
      split
      · apply keeps_bind (keeps_change _ _)
        intro _
        apply keeps_bind (keeps_change _ _)
        intro _
        exact keeps_pure _
      · exact ih _
    · exact keeps_throw _

theorem keeps_balloc : KeepsInode j (balloc sb) := by
  apply keeps_bind keeps_get
  intro before
  apply keeps_bind (keeps_ballocFrom _ _)
  intro b
  refine keeps_bind ?_ fun _ => keeps_pure _
  exact keeps_modify fun _ => rfl

theorem keeps_bmapAddr (hj : j ≠ i) (k : ℕ) : KeepsInode j (bmapAddr sb i k) := by
  apply keeps_bind keeps_ip
  intro ip
  split
  · apply keeps_bind keeps_balloc
    intro addr
    apply keeps_bind (keeps_setInode hj _)
    intro _
    exact keeps_pure _
  · exact keeps_pure _

theorem keeps_bmap (hj : j ≠ i) (bn : ℕ) : KeepsInode j (bmap sb i bn) := by
  unfold bmap
  split
  · exact keeps_bmapAddr hj _
  · dsimp only
    split
    · apply keeps_bind (keeps_bmapAddr hj _)
      intro addr
      apply keeps_bind (keeps_bread _)
      intro a
      split
      · apply keeps_bind keeps_balloc
        intro b
        apply keeps_bind (keeps_change _ _)
        intro _
        exact keeps_pure _
      · exact keeps_pure _
    · exact keeps_throw _

theorem keeps_writeFrom (hj : j ≠ i) (src : ℕ → Byte) (n k tot off : ℕ) :
    KeepsInode j (writeFrom sb i src n k tot off) := by
  induction k generalizing tot off with
  | zero => exact keeps_pure _
  | succ k ih =>
    unfold writeFrom
    split
    · apply keeps_bind (keeps_bmap hj _)
      intro b
      apply keeps_bind (keeps_change _ _)
      intro _
      exact ih _ _
    · exact keeps_pure _

theorem keeps_extend (hj : j ≠ i) (off n : Word) : KeepsInode j (extend sb i off n) := by
  apply keeps_bind keeps_ip
  intro ip
  split
  · apply keeps_bind (keeps_setInode hj _)
    intro _
    apply keeps_bind keeps_ip
    intro _
    exact keeps_change _ _
  · exact keeps_pure _

theorem keeps_writei (hj : j ≠ i) (dev : Half → Option (Word → ℤ)) (src : ℕ → Byte)
    (off n : Word) : KeepsInode j (writei sb dev i src off n) := by
  apply keeps_bind keeps_ip
  intro ip
  split
  · split
    · exact keeps_pure _
    · exact keeps_pure _
  · split
    · exact keeps_pure _
    · split
      · exact keeps_pure _
      · apply keeps_bind (keeps_writeFrom hj _ _ _ _ _)
        intro _
        apply keeps_bind (keeps_extend hj _ _)
        intro _
        exact keeps_pure _

/-! Writing an entry -/

variable {s t : Fs} {dp n : ℕ} {de : List Byte}

theorem bytesOf_getD (h : de.length = 16) : bytesOf (fun k => de.getD k 0) 16 = de := by
  apply List.ext_getElem
  · rw [length_bytesOf, h]
  · intro k hk hk'
    simp only [bytesOf, List.getElem_map, List.getElem_range]
    exact List.getD_eq_getElem _ _ hk'

theorem slots_rewritten (h : Directory sb s dp) (hn : n ≤ places sb s dp) (hde : de.length = 16)
    (hw : Rewritten sb dp (16 * n) de s t) :
    slots sb t dp = Function.update (slots sb s dp) n (slotOf de) := by
  have hsize := h.size_eq
  have hlen : (contents sb s dp).length = fileSize sb s dp := length_contents s dp
  rw [slots, hw.contents_eq, slotAt_overwrite (hlen ▸ h.whole) (by omega) hde]
  rfl

theorem directory_rewritten (h : Directory sb s dp) (hn : n ≤ places sb s dp)
    (hde : de.length = 16) (hw : Rewritten sb dp (16 * n) de s t)
    (hdistinct : Distinct (slots sb t dp)) : Directory sb t dp where
  consistent := hw.consistent
  inum := h.inum
  locked := hw.locked
  noHole := hw.noHole
  type_eq := hw.type_eq.trans h.type_eq
  whole := by
    have hsize := h.size_eq
    have hoff : 16 * n ≤ (contents sb s dp).length := by
      rw [length_contents]
      omega
    rw [← length_contents, hw.contents_eq, length_overwrite hoff, hde, length_contents]
    omega
  distinct := hdistinct

/-- One round writes a slot that is there. -/
theorem writeFrom_place (h : Directory sb s dp) (hn : n < places sb s dp) (src : ℕ → Byte) :
    ∃ b, writeFrom sb dp src 16 16 0 (16 * n) s =
      .ok ((), putBlock s b (copyIn (s.disk b) (16 * n) src 0 16)) := by
  have hsize := h.size_eq
  have hb : BSIZE = 512 := rfl
  have hm : min (16 - 0) (BSIZE - 16 * n % BSIZE) = 16 := by
    rw [hb]
    omega
  refine ⟨(blockOf sb s dp (16 * n / BSIZE)).toNat, ?_⟩
  rw [writeFrom, if_pos (by decide), run_bind (bmap_mapped (h.noHole (16 * n) (by omega)))]
  rw [hm, run_bind (change_run _ _ _), writeFrom, if_neg (by decide)]
  rfl

/-- A slot that is there takes no new block. -/
theorem writei_place (h : Directory sb s dp) (hn : n < places sb s dp)
    (write : Half → Option (Word → ℤ)) (src : ℕ → Byte) :
    ∃ t, writei sb write dp src (BitVec.ofNat 32 (16 * n)) 16 s = .ok (16, t) := by
  have hsize := h.size_eq
  have hle := h.places_le
  have hbig : MAXFILE * BSIZE = 71680 := rfl
  have h16 : (16 : Word).toNat = 16 := rfl
  have hoff := toNat_place h (Nat.le_of_lt hn)
  have hadd : (BitVec.ofNat 32 (16 * n) + 16).toNat = 16 * n + 16 := by
    rw [BitVec.toNat_add, hoff, h16]
    omega
  have hip : ∀ t : Fs, ip sb dp t = .ok (inode sb t dp, t) := fun _ => rfl
  have hend : (inode sb s dp).size.toNat = 16 * places sb s dp := hsize
  obtain ⟨b, hrun⟩ := writeFrom_place h hn src
  generalize copyIn (s.disk b) (16 * n) src 0 16 = v at hrun
  obtain ⟨jp, hc⟩ := h.locked
  have hsame : inode sb (putBlock s b v) dp = inode sb s dp := by
    rw [inode_cached hc]
    exact inode_cached hc
  refine ⟨putBlock s b v, ?_⟩
  rw [writei, run_bind (hip s), if_neg h.type_ne, if_neg (by
    rw [BitVec.lt_def, BitVec.lt_def, hadd, hoff]
    omega), if_neg (by omega), h16, hoff, run_bind hrun, extend, bind_run, run_bind (hip _), hsame, if_neg (by
    rw [BitVec.lt_def, BitVec.lt_def, hadd]
    omega)]
  rfl

variable {Short : Prop}

theorem writei_entry (h : Directory sb s dp) (hn : n ≤ places sb s dp) (hmax : n < 4480)
    (hde : de.length = 16) (write : Half → Option (Word → ℤ)) (hroom : Room sb dp Short 1 s) :
    wp (writei sb write dp (fun k => de.getD k 0) (BitVec.ofNat 32 (16 * n)) 16)
      (fun r t => r = 16 ∧ Rewritten sb dp (16 * n) de s t) (Fails Short) s := by
  have hsize := h.size_eq
  have hb : BSIZE = 512 := rfl
  have hbig : MAXFILE * BSIZE = 71680 := rfl
  have h16 : (16 : Word).toNat = 16 := rfl
  have hoff := toNat_place h hn
  have hin : ¬ WriteRefused (fileSize sb s dp) (BitVec.ofNat 32 (16 * n)) 16 := by
    unfold WriteRefused Refused
    rw [hoff, h16]
    omega
  have htouched : MkfsFiles.touched (16 * n) 16 + 0 ≤ 1 := by
    unfold MkfsFiles.touched
    rw [hb, if_neg (by decide)]
    omega
  have hwp := writei_accepted write (fun k => de.getD k 0) h.consistent h.inum h.locked h.noHole
    h.type_ne hin (r := 0) (by
      rw [hoff, h16]
      exact hroom.mono htouched)
  refine wp_mono hwp ?_
  rintro r t ⟨⟨hr, hw⟩, -⟩
  rw [hoff, h16, bytesOf_getD hde] at hw
  exact ⟨hr, hw⟩

/-! References -/

variable {k : Kernel}

/-- The inode of the directory is locked, and what the process has locked is referenced. -/
structure Ready (sb : Superblock) (k : Kernel) (dp : ℕ) : Prop where
  dir : Directory sb k.fs dp
  holds : dp ∈ k.held
  counted : ∀ i, 0 ≤ k.ref i
  held : ∀ i ∈ k.held, 0 < k.ref i
  unused : ∀ i, k.ref i = 0 → k.fs.icache i = none

/-- With one more reference to `i`. -/
def got (k : Kernel) (i : ℕ) : Kernel :=
  { k with
    ref := Function.update k.ref i (k.ref i + 1)
    inuse := if 0 < k.ref i then k.inuse else k.inuse + 1 }

/-- iget() has no entry of icache left. -/
def NoInode (k : Kernel) (i : ℕ) (e : Directories.Fault) : Prop :=
  e = .panic "iget: no inodes" ∧ k.ref i = 0 ∧ NINODE ≤ k.inuse

theorem iget_run (h : Ready sb k dp) (hi : 0 < k.ref i ∨ k.inuse < NINODE) :
    iget i k = .ok ((), got k i) := by
  unfold iget got
  by_cases hpos : 0 < k.ref i
  · rw [if_pos hpos, if_pos hpos]
  · have hzero : k.ref i = 0 := Int.le_antisymm (Int.not_lt.mp hpos) (h.counted i)
    have hempty : Function.update k.fs.icache i none = k.fs.icache := by
      rw [← h.unused i hzero, Function.update_eq_self]
    rw [if_neg hpos, if_neg hpos, if_pos (hi.resolve_left hpos), hzero, hempty]
    rfl

theorem iget_wp (h : Ready sb k dp) (i : ℕ) :
    wp (iget i) (fun _ t => t = got k i) (NoInode k i) k := by
  by_cases hi : 0 < k.ref i ∨ k.inuse < NINODE
  · exact wp_of_run (iget_run h hi) rfl
  · obtain ⟨hpos, huse⟩ := not_or.mp hi
    have hzero : k.ref i = 0 := Int.le_antisymm (Int.not_lt.mp hpos) (h.counted i)
    unfold wp iget
    rw [if_neg hpos, if_neg huse]
    exact ⟨rfl, hzero, Nat.le_of_not_lt huse⟩

theorem onFs_run {α : Type} {c : FsCode α} {a : α} {fs : Fs} (h : c k.fs = .ok (a, fs)) :
    onFs c k = .ok (a, { k with fs := fs }) := by
  rw [onFs, h]

/-- An iput() that does not free the inode. -/
theorem iput_run (hi : i ∉ k.held)
    (hkeep : iputSection sb i (k.ref i) k.fs = .ok ((), k.fs)) :
    iput sb i k = .ok ((), if k.ref i = 1 then
        { k with
          fs := { k.fs with icache := Function.update k.fs.icache i none }
          ref := Function.update k.ref i 0
          inuse := k.inuse - 1 }
      else { k with ref := Function.update k.ref i (k.ref i - 1) }) := by
  have hlock : acquiresleep i k = .ok ((), { k with held := i :: k.held }) := if_neg hi
  have hsection : onFs (iputSection sb i (k.ref i)) { k with held := i :: k.held } =
      .ok ((), { k with held := i :: k.held }) := onFs_run hkeep
  have hrelease : releasesleep i { k with held := i :: k.held } = .ok ((), k) := by
    rw [releasesleep, List.erase_cons_head]
  rw [iput, run_bind hlock, run_bind (get_run _), run_bind hsection, run_bind hrelease, modify_run]

theorem ref_got (k : Kernel) (i : ℕ) : (got k i).ref i = k.ref i + 1 := by
  rw [got]
  exact Function.update_self _ _ _

/-- iput() after iget() comes to nothing, -/
theorem iput_got (h : Ready sb k dp) (hi : i ∉ k.held) : iput sb i (got k i) = .ok ((), k) := by
  have hpos := h.counted i
  have hkeep : iputSection sb i (k.ref i + 1) k.fs = .ok ((), k.fs) := by
    rw [iputSection, run_bind (get_run _)]
    cases hc : k.fs.icache i with
    | none => rfl
    | some jp =>
      have hused : k.ref i ≠ 0 := by
        intro hzero
        rw [h.unused i hzero] at hc
        cases hc
      dsimp only
      rw [if_neg (by omega)]
      rfl
  have hback : Function.update (got k i).ref i (k.ref i) = k.ref := by
    rw [got]
    dsimp only
    rw [Function.update_idem, Function.update_eq_self]
  rw [iput_run (k := got k i) hi (by rw [ref_got]; exact hkeep), ref_got]
  by_cases hzero : k.ref i = 0
  · have hempty : Function.update k.fs.icache i none = k.fs.icache := by
      rw [← h.unused i hzero, Function.update_eq_self]
    have hcount : (got k i).inuse = k.inuse + 1 := if_neg (by omega)
    have hfs : (got k i).fs = k.fs := rfl
    rw [hzero] at hback
    rw [if_pos (by omega), hback, hcount, hfs, hempty]
    rfl
  · have hcount : 0 < k.ref i := by omega
    rw [if_neg (by omega), Int.add_sub_cancel, hback]
    simp only [got, if_pos hcount]

/-- or waits for a lock that the process holds itself. -/
theorem iput_got_held (hi : i ∈ k.held) : iput sb i (got k i) = .error (.deadlock i) := by
  have hlock : acquiresleep i (got k i) = .error (.deadlock i) := if_pos hi
  rw [iput, bind_run, hlock]

/-! The operations -/

section Specs

variable (sb : Superblock) (read : Half → Option (Word → ℤ × List Byte))
variable (write : Half → Option (Word → ℤ)) (k : Kernel) (dp : ℕ) (name : List Byte) (inum : ℕ)

/-- Slot `n` of the directory binds `key` to the inode `v`; its offset is `16 * n`. -/
def Bound (key : List Byte) (v n : ℕ) : Prop := Binds (slots sb k.fs dp) key v n

/-- dirlookup() returns the inode and the offset of the entry, or 0. -/
structure Looks : Prop where
  found : ∀ v n, Bound sb k dp (significant name) v n →
    wp (dirlookup sb read dp name)
      (fun r t => r = some (v, BitVec.ofNat 32 (16 * n)) ∧ t = got k v) (NoInode k v) k
  missing : (∀ v n, ¬ Bound sb k dp (significant name) v n) →
    dirlookup sb read dp name k = .ok (none, k)

/-- Where dirlink() may stop: one block for the entry and an indirect block are not to be had, or
all slots of the largest directory are taken. -/
def Full (e : Directories.Fault) : Prop :=
  e = .panic "balloc: out of blocks" ∧ (freeBlocks sb k.fs).card < 2 ∨
    e = .panic "dirlink" ∧ ∀ n < 4480, ∃ key v, Bound sb k dp key v n

/-- dirlink() returns -1 and changes nothing, or adds one binding. -/
structure Links : Prop where
  present : ∀ v n, Bound sb k dp (significant name) v n →
    wp (dirlink sb read write dp name inum) (fun r t => r = -1 ∧ t = k) (NoInode k v) k
  added : (∀ v n, ¬ Bound sb k dp (significant name) v n) →
    wp (dirlink sb read write dp name inum) (fun r t => r = 0 ∧ Ready sb t dp ∧ ∃ n,
      ∀ key v m, Bound sb t dp key v m ↔
        (key = significant name ∧ v = inum ∧ m = n) ∨ Bound sb k dp key v m) (Full sb k dp) k

/-- What sys_unlink() writes at the offset removes one binding. -/
structure Unlinks : Prop where
  removed : ∀ v n, Bound sb k dp (significant name) v n →
    wp (unlinkEntry sb write dp (BitVec.ofNat 32 (16 * n))) (fun _ t => Ready sb t dp ∧
      ∀ key w m, Bound sb t dp key w m ↔ Bound sb k dp key w m ∧ m ≠ n) (fun _ => False) k

structure FiniteMap : Prop where
  looks : Looks sb read k dp name
  links : Links sb read write k dp name inum
  unlinks : Unlinks sb write k dp name

end Specs

variable {read : Half → Option (Word → ℤ × List Byte)} {write : Half → Option (Word → ℤ)}
variable {name : List Byte} {inum v : ℕ}

theorem dirlookup_wp (h : Ready sb k dp) (hb : Bound sb k dp (significant name) v n) :
    wp (dirlookup sb read dp name)
      (fun r t => r = some (v, BitVec.ofNat 32 (16 * n)) ∧ t = got k v) (NoInode k v) k := by
  refine wp_bind_run (onFs_run (dirlookup_bound h.dir read hb)) ?_
  apply wp_bind
  refine wp_mono (iget_wp h v) ?_
  rintro _ t rfl
  exact wp_pure ⟨rfl, rfl⟩

theorem dirlookup_missing (h : Ready sb k dp)
    (hno : ∀ v n, ¬ Bound sb k dp (significant name) v n) :
    dirlookup sb read dp name k = .ok (none, k) := by
  rw [dirlookup, run_bind (onFs_run (dirlookup_absent h.dir read hno))]
  rfl

theorem dirlink_present (h : Ready sb k dp) (hb : Bound sb k dp (significant name) v n)
    (hfree : v ∉ k.held) :
    wp (dirlink sb read write dp name inum) (fun r t => r = -1 ∧ t = k) (NoInode k v) k := by
  apply wp_bind
  refine wp_mono (dirlookup_wp h hb) ?_
  rintro r t ⟨rfl, rfl⟩
  exact wp_bind_run (iput_got h hfree) (wp_pure ⟨rfl, rfl⟩)

/-- The inode found is locked by the process: dirlink() never returns. -/
theorem dirlink_stuck (h : Ready sb k dp) (hb : Bound sb k dp (significant name) v n)
    (hheld : v ∈ k.held) :
    dirlink sb read write dp name inum k = .error (.deadlock v) := by
  have hlook : dirlookup sb read dp name k =
      .ok (some (v, BitVec.ofNat 32 (16 * n)), got k v) := by
    rw [dirlookup, run_bind (onFs_run (dirlookup_bound h.dir read hb))]
    dsimp only
    rw [run_bind (iget_run h (Or.inl (h.held v hheld)))]
    rfl
  rw [dirlink, run_bind hlook]
  dsimp only
  rw [bind_run, iput_got_held hheld]

/-- An entry that has been written. -/
theorem Ready.rewritten {t : Fs} (h : Ready sb k dp) (hn : n ≤ places sb k.fs dp)
    (hde : de.length = 16) (hw : Rewritten sb dp (16 * n) de k.fs t)
    (hdistinct : Distinct (Function.update (slots sb k.fs dp) n (slotOf de)))
    (hkeep : ∀ j, j ≠ dp → t.icache j = k.fs.icache j) :
    Ready sb { k with fs := t } dp where
  dir := directory_rewritten h.dir hn hde hw (by rw [slots_rewritten h.dir hn hde hw]; exact hdistinct)
  holds := h.holds
  counted := h.counted
  held := h.held
  unused := by
    intro j hj
    by_cases hd : j = dp
    · subst hd
      have hpos := h.held j h.holds
      dsimp only at hj
      omega
    · exact (hkeep j hd).trans (h.unused j hj)

theorem writeDirent_ok {off : Word} {msg : String} {t : Fs}
    (hrun : writei sb write dp (fun j => de.getD j 0) off 16 k.fs = .ok (16, t)) :
    writeDirent sb write dp de off msg k = .ok ((), { k with fs := t }) := by
  rw [writeDirent, run_bind (onFs_run hrun), if_neg (fun hne => hne rfl)]
  rfl

/-- The entry is there, so that its slot can be cleared. -/
theorem unlinkEntry_run (h : Ready sb k dp) (write : Half → Option (Word → ℤ))
    {key : List Byte} (hb : Bound sb k dp key v n) :
    ∃ t, writei sb write dp (fun j => (List.replicate 16 (0 : Byte)).getD j 0)
        (BitVec.ofNat 32 (16 * n)) 16 k.fs = .ok (16, t) ∧ Ready sb { k with fs := t } dp ∧
      slots sb t dp = Function.update (slots sb k.fs dp) n none := by
  have hn : n < places sb k.fs dp := by
    by_contra hout
    rw [Bound, Binds, slots_out h.dir hout] at hb
    cases hb
  have hle := h.dir.places_le
  have hde : (List.replicate 16 (0 : Byte)).length = 16 := List.length_replicate
  obtain ⟨t, ht⟩ := writei_place h.dir hn write fun j => (List.replicate 16 (0 : Byte)).getD j 0
  obtain ⟨-, hw⟩ := wp_ok (writei_entry h.dir (Nat.le_of_lt hn) (by omega) hde write
    fun (hno : ¬ True) => absurd trivial hno) ht
  have hkeep : ∀ j, j ≠ dp → t.icache j = k.fs.icache j := fun j hj =>
    keeps_writei hj write _ _ _ _ _ _ ht
  refine ⟨t, ht, h.rewritten (Nat.le_of_lt hn) hde hw ?_ hkeep,
    slots_rewritten h.dir (Nat.le_of_lt hn) hde hw⟩
  rw [slotOf_zeros]
  exact h.dir.distinct.clear hb

theorem unlinkEntry_wp (h : Ready sb k dp) {key : List Byte} (hb : Bound sb k dp key v n) :
    wp (unlinkEntry sb write dp (BitVec.ofNat 32 (16 * n))) (fun _ t => Ready sb t dp ∧
      ∀ key w m, Bound sb t dp key w m ↔ Bound sb k dp key w m ∧ m ≠ n) (fun _ => False) k := by
  obtain ⟨t, ht, hready, hslots⟩ := unlinkEntry_run h write hb
  refine wp_of_run (writeDirent_ok ht) ⟨hready, fun key' w m => ?_⟩
  rw [Bound, hslots]
  exact binds_clear hb

theorem writeDirent_error {off : Word} {msg msg' : String}
    (hrun : writei sb write dp (fun j => de.getD j 0) off 16 k.fs = .error (.panic msg')) :
    writeDirent sb write dp de off msg k = .error (.panic msg') := by
  have hfs : onFs (writei sb write dp (fun j => de.getD j 0) off 16) k = .error (.panic msg') := by
    rw [onFs, hrun]
  rw [writeDirent, bind_run, hfs]

/-- No file is larger than that. -/
theorem writeDirent_refused (h : Ready sb k dp) (msg : String) :
    writeDirent sb write dp de (BitVec.ofNat 32 (16 * 4480)) msg k = .error (.panic msg) := by
  have hout : WriteRefused (fileSize sb k.fs dp) (BitVec.ofNat 32 (16 * 4480)) 16 := by
    right
    decide
  rw [writeDirent, run_bind (onFs_run (writei_refused write _ h.dir.type_ne hout)),
    if_pos (by decide)]
  rfl

theorem dirlink_fills (h : Ready sb k dp) (read : Half → Option (Word → ℤ × List Byte))
    (write : Half → Option (Word → ℤ)) (name : List Byte) (hpos : 0 < inum) (hlt : inum < 65536)
    (hno : ∀ v n, ¬ Bound sb k dp (significant name) v n) :
    wp (dirlink sb read write dp name inum) (fun r t => r = 0 ∧ Ready sb t dp ∧ ∃ n,
      slots sb k.fs dp n = none ∧ slots sb t.fs dp =
        Function.update (slots sb k.fs dp) n (some (significant name, inum)))
      (Full sb k dp) k := by
  obtain ⟨n, hempty, hn, hfree, htaken⟩ := findEmpty_run h.dir read
  have hle := h.dir.places_le
  have hde := length_dirent inum name
  have hslot := slotOf_dirent hpos hlt name
  refine wp_bind_run (dirlookup_missing h hno) (wp_bind_run (onFs_run hempty) ?_)
  apply wp_bind
  by_cases hmax : n < 4480
  · have habsent := absent_le sb k.fs (.addr dp NDIRECT)
    have hroom : Room sb dp ((freeBlocks sb k.fs).card < 2) 1 k.fs := fun hmany => by omega
    have hwp := writei_entry h.dir hn hmax hde write hroom
    cases hrun : writei sb write dp (fun j => (dirent inum (strncpy DIRSIZ name)).getD j 0)
        (BitVec.ofNat 32 (16 * n)) 16 k.fs with
    | error e =>
      obtain ⟨rfl, hshort⟩ := wp_error hwp hrun
      unfold wp
      rw [writeDirent_error hrun]
      exact Or.inl ⟨rfl, hshort⟩
    | ok p =>
      obtain ⟨r, t⟩ := p
      obtain ⟨rfl, hw⟩ := wp_ok hwp hrun
      have hkeep : ∀ j, j ≠ dp → t.icache j = k.fs.icache j := fun j hj =>
        keeps_writei hj write _ _ _ _ _ _ hrun
      have hslots := slots_rewritten h.dir hn hde hw
      rw [hslot] at hslots
      refine wp_of_run (writeDirent_ok hrun) (wp_pure ⟨rfl, ?_, n, hfree, hslots⟩)
      refine h.rewritten hn hde hw ?_ hkeep
      rw [hslot]
      exact h.dir.distinct.fill hfree hno inum
  · have hlast : n = 4480 := by omega
    subst hlast
    unfold wp
    rw [writeDirent_refused h "dirlink"]
    refine Or.inr ⟨rfl, fun m hm => ?_⟩
    obtain ⟨p, hp⟩ := Option.ne_none_iff_exists'.mp (htaken m hm)
    exact ⟨p.1, p.2, hp⟩

theorem dirlink_added (h : Ready sb k dp) (read : Half → Option (Word → ℤ × List Byte))
    (write : Half → Option (Word → ℤ)) (name : List Byte) (hpos : 0 < inum) (hlt : inum < 65536)
    (hno : ∀ v n, ¬ Bound sb k dp (significant name) v n) :
    wp (dirlink sb read write dp name inum) (fun r t => r = 0 ∧ Ready sb t dp ∧ ∃ n,
      ∀ key v m, Bound sb t dp key v m ↔
        (key = significant name ∧ v = inum ∧ m = n) ∨ Bound sb k dp key v m) (Full sb k dp) k := by
  refine wp_mono (dirlink_fills h read write name hpos hlt hno) ?_
  rintro r t ⟨hr, hready, n, hfree, hslots⟩
  refine ⟨hr, hready, n, fun key w m => ?_⟩
  rw [Bound, hslots]
  exact binds_fill hfree

/-- A directory is a finite map to the three operations exactly where dirlink() does not find an
inode that the process itself has locked, such as that of the directory. -/
theorem directories_finite_maps_iff (h : Ready sb k dp)
    (read : Half → Option (Word → ℤ × List Byte)) (write : Half → Option (Word → ℤ))
    (name : List Byte) (hpos : 0 < inum) (hlt : inum < 65536) :
    FiniteMap sb read write k dp name inum ↔
      ∀ v n, Bound sb k dp (significant name) v n → v ∉ k.held := by
  constructor
  · intro hmap v n hb hheld
    have hfault := wp_error (hmap.links.present v n hb) (dirlink_stuck h hb hheld)
    exact nomatch hfault.1
  · intro hfree
    exact
      { looks := ⟨fun v n hb => dirlookup_wp h hb, dirlookup_missing h⟩
        links := ⟨fun v n hb => dirlink_present h hb (hfree v n hb), dirlink_added h read write name hpos hlt⟩
        unlinks := ⟨fun v n hb => unlinkEntry_wp h hb⟩ }

/-! A new directory, before and after "." is made in it. -/

def newDirectory : Kernel :=
  ⟨smallWith T_DIR, fun i => if i = 1 ∨ i = 2 then 1 else 0, 2, [2]⟩

theorem newDirectory_slots (n : ℕ) : slots smallDisk newDirectory.fs 2 n = none := by
  have hempty : (contents smallDisk newDirectory.fs 2).length = 0 := rfl
  rw [slots, slotAt, hempty, if_neg (by omega)]

theorem newDirectory_ready : Ready smallDisk newDirectory 2 where
  dir :=
    { consistent := smallWith_consistent (by decide)
      inum := by decide
      locked := ⟨emptyInode T_DIR, rfl⟩
      noHole := smallWith_noHole T_DIR
      type_eq := rfl
      whole := by decide
      distinct := by
        intro key v w m n hm
        rw [Binds, newDirectory_slots] at hm
        cases hm }
  holds := List.mem_singleton.mpr rfl
  counted := by
    intro i
    change 0 ≤ if i = 1 ∨ i = 2 then (1 : ℤ) else 0
    split <;> decide
  held := by
    intro i hi
    obtain rfl := List.mem_singleton.mp hi
    decide
  unused := by
    intro i hi
    by_cases hin : i = 1 ∨ i = 2
    · have hone : newDirectory.ref i = 1 := if_pos hin
      rw [hone] at hi
      cases hi
    · obtain ⟨h1, h2⟩ := not_or.mp hin
      exact (icache_putInode_ne _ h2).trans (if_neg h1)

theorem directories_finite_maps_iff_new :
    FiniteMap smallDisk (fun _ => none) (fun _ => none) newDirectory 2 [46] 2 ↔
      ∀ v n, Bound smallDisk newDirectory 2 (significant [46]) v n → v ∉ newDirectory.held :=
  directories_finite_maps_iff newDirectory_ready _ _ _ (by decide) (by decide)

/-- Once "." is there, linking it again waits forever for the lock of the directory. -/
theorem dirlink_dot_stuck : ∃ k,
    dirlink smallDisk (fun _ => none) (fun _ => none) 2 [46] 2 newDirectory = .ok (0, k) ∧
      Ready smallDisk k 2 ∧
      dirlink smallDisk (fun _ => none) (fun _ => none) 2 [46] 5 k = .error (.deadlock 2) ∧
      ¬ FiniteMap smallDisk (fun _ => none) (fun _ => none) k 2 [46] 5 := by
  have hwp := dirlink_added newDirectory_ready (fun _ => none) (fun _ => none) [46]
    (by decide : 0 < 2) (by decide) fun v n hb => by
      rw [Bound, Binds, newDirectory_slots] at hb
      cases hb
  cases hrun : dirlink smallDisk (fun _ => none) (fun _ => none) 2 [46] 2 newDirectory with
  | error e =>
    obtain ⟨-, hshort⟩ | ⟨-, hfull⟩ := wp_error hwp hrun
    · have hfree : 940 ≤ (freeBlocks smallDisk newDirectory.fs).card := smallWith_free T_DIR
      omega
    · obtain ⟨key, v, hb⟩ := hfull 0 (by decide)
      rw [Bound, Binds, newDirectory_slots] at hb
      cases hb
  | ok p =>
    obtain ⟨r, k⟩ := p
    obtain ⟨rfl, hready, n, hbound⟩ := wp_ok hwp hrun
    have hdot : Bound smallDisk k 2 (significant [46]) 2 n :=
      (hbound _ _ _).mpr (Or.inl ⟨rfl, rfl, rfl⟩)
    refine ⟨k, rfl, hready, dirlink_stuck hready hdot hready.holds, fun hmap => ?_⟩
    have hfault := wp_error (hmap.links.present 2 n hdot)
      (dirlink_stuck hready hdot hready.holds)
    cases hfault.1

/-! Histories of a directory -/

inductive Op where
  | link (name : List Byte) (inum : ℕ)
  | unlink (name : List Byte)

def Op.Valid : Op → Prop
  | .link _ inum => 0 < inum ∧ inum < 65536
  | .unlink _ => True

section History

variable (sb : Superblock) (read : Half → Option (Word → ℤ × List Byte))
variable (write : Half → Option (Word → ℤ)) (dp : ℕ)

def Op.run : Op → DirCode Unit
  | .link name inum => do
    let _ ← dirlink sb read write dp name inum
  | .unlink name => do
    match ← dirlookup sb read dp name with
    | none => pure ()
    | some (ip, off) => do
      unlinkEntry sb write dp off
      iput sb ip

def runAll : List Op → DirCode Unit
  | [] => pure ()
  | op :: ops => do
    op.run sb read write dp
    runAll ops

end History

/-- The map that the directory is for. -/
def Op.apply (f : List Byte → Option ℕ) : Op → List Byte → Option ℕ
  | .link name inum =>
    if f (significant name) = none then Function.update f (significant name) (some inum) else f
  | .unlink name => Function.update f (significant name) none

variable {f : List Byte → Option ℕ} {t : Kernel} {op : Op}

theorem link_denotes (h : Ready sb k dp) (hf : Denotes (slots sb k.fs dp) f)
    (hpos : 0 < inum) (hlt : inum < 65536) {r : ℤ}
    (hrun : dirlink sb read write dp name inum k = .ok (r, t)) :
    Ready sb t dp ∧ Denotes (slots sb t.fs dp) ((Op.link name inum).apply f) := by
  rw [Op.apply]
  cases hk : f (significant name) with
  | none =>
    obtain ⟨-, hready, n, hfree, hslots⟩ :=
      wp_ok (dirlink_fills h read write name hpos hlt (hf.absent_iff.mp hk)) hrun
    rw [if_pos rfl, hslots]
    exact ⟨hready, hf.insert hfree (hf.absent_iff.mp hk) inum⟩
  | some v =>
    obtain ⟨n, hb⟩ := (hf.value _ v).mp hk
    have hfree : v ∉ k.held := by
      intro hheld
      rw [dirlink_stuck h hb hheld] at hrun
      cases hrun
    obtain ⟨-, rfl⟩ := wp_ok (dirlink_present h hb hfree) hrun
    rw [if_neg nofun]
    exact ⟨h, hf⟩

theorem unlink_denotes (h : Ready sb k dp) (hf : Denotes (slots sb k.fs dp) f)
    (hrun : (Op.unlink name).run sb read write dp k = .ok ((), t)) :
    Ready sb t dp ∧ Denotes (slots sb t.fs dp) ((Op.unlink name).apply f) := by
  rw [Op.apply]
  rw [Op.run] at hrun
  cases hk : f (significant name) with
  | none =>
    rw [run_bind (dirlookup_missing h (hf.absent_iff.mp hk))] at hrun
    obtain ⟨-, rfl⟩ := pure_ok hrun
    rw [← hk, Function.update_eq_self]
    exact ⟨h, hf⟩
  | some v =>
    obtain ⟨n, hb⟩ := (hf.value _ v).mp hk
    obtain ⟨r, u, hlook, hrest⟩ := bind_ok hrun
    obtain ⟨rfl, rfl⟩ := wp_ok (dirlookup_wp h hb) hlook
    obtain ⟨fs, hwrite, hready, hslots⟩ := unlinkEntry_run h write hb
    have hclear : unlinkEntry sb write dp (BitVec.ofNat 32 (16 * n)) (got k v) =
        .ok ((), got { k with fs := fs } v) := writeDirent_ok hwrite
    dsimp only at hrest
    rw [run_bind hclear] at hrest
    by_cases hheld : v ∈ k.held
    · have hstuck : iput sb v (got { k with fs := fs } v) = .error (.deadlock v) :=
        iput_got_held hheld
      rw [hstuck] at hrest
      cases hrest
    · rw [iput_got hready hheld] at hrest
      cases hrest
      dsimp only
      rw [hslots]
      exact ⟨hready, hf.delete hb⟩

/-- After any history that ends, the directory is the map that the history describes. -/
theorem history_denotes (h : Ready sb k dp) (hf : Denotes (slots sb k.fs dp) f) {ops : List Op}
    (hops : ∀ op ∈ ops, op.Valid) (hrun : runAll sb read write dp ops k = .ok ((), t)) :
    Ready sb t dp ∧ Denotes (slots sb t.fs dp) (ops.foldl Op.apply f) := by
  induction ops generalizing k f with
  | nil =>
    obtain ⟨-, rfl⟩ := pure_ok hrun
    exact ⟨h, hf⟩
  | cons op ops ih =>
    obtain ⟨⟨⟩, u, hfirst, hrest⟩ := bind_ok hrun
    have hvalid := hops op List.mem_cons_self
    have hnext : Ready sb u dp ∧ Denotes (slots sb u.fs dp) (op.apply f) := by
      cases op with
      | link name inum =>
        obtain ⟨r, w, hlink, hpure⟩ := bind_ok hfirst
        obtain ⟨-, rfl⟩ := pure_ok hpure
        exact link_denotes h hf hvalid.1 hvalid.2 hlink
      | unlink name => exact unlink_denotes h hf hfirst
    exact ih hnext.1 hnext.2 (fun op' hop => hops op' (List.mem_cons_of_mem op hop)) hrest

end DirectoryMaps
