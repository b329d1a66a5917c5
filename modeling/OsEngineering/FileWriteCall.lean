import OsEngineering.FileArrays

/-! filewrite() of file.c on the inode of a regular file. A write of more than `maxChunk` bytes
takes more than one transaction. -/
namespace FileWriteCall

open ByteBlock FaultState KernelParams BlockAllocation BlockSlots BlockOwnership FreeBlocks
open FileContents FileWrites FileArrays ListOverwrite
open MkfsImage (T_FILE)
open MkfsFiles (touched)

/-- A struct file of type FD_INODE. -/
structure File where
  writable : Bool
  ip : ℕ
  off : Word

structure Kernel where
  fs : Fs
  file : File

abbrev FileCode := Code Fault Kernel

def onFs {α : Type} (c : FsCode α) : FileCode α := fun s =>
  match c s.fs with
  | .ok (a, fs) => .ok (a, { s with fs := fs })
  | .error e => .error e

/-- `max` in filewrite(). -/
def maxChunk : ℕ := ((MAXOPBLOCKS - 1 - 1 - 2) / 2) * 512

section Source

variable (sb : Superblock) (dev : Half → Option (Word → ℤ))

/-- From begin_op() to end_op(): `n1` bytes of `src` at the offset of the file. -/
def writeChunk (src : ℕ → Byte) (n1 : ℤ) : FileCode ℤ := do
  let s ← get
  onFs (ilock sb s.file.ip)
  let r ← onFs (writei sb dev s.file.ip src s.file.off (BitVec.ofInt 32 n1))
  if 0 < r then
    modify fun s => { s with file := { s.file with off := s.file.off + BitVec.ofInt 32 r } }
  else pure ()
  pure r

/-- The loop of filewrite(), which ends with `i`; each round takes at least one byte. -/
def filewriteFrom (src : ℕ → Byte) (n : ℤ) : ℕ → ℤ → FileCode ℤ
  | 0, i => pure i
  | k + 1, i =>
    if i < n then do
      let n1 := min (n - i) maxChunk
      let r ← writeChunk sb dev (fun p => src (i.toNat + p)) n1
      if r < 0 then pure i
      else if r ≠ n1 then throw (.panic "short filewrite")
      else filewriteFrom src n k (i + r)
    else pure i

def filewrite (src : ℕ → Byte) (n : ℤ) : FileCode ℤ := do
  let s ← get
  if s.file.writable = false then pure (-1)
  else do
    let i ← filewriteFrom sb dev src n n.toNat 0
    pure (if i = n then n else -1)

end Source

/-! One transaction -/

variable {sb : Superblock} {i : ℕ} {fs : Fs}

/-- File `i` is a regular file that keeps the invariants, locked or not. -/
structure Ready (sb : Superblock) (fs : Fs) (i : ℕ) : Prop where
  consistent : Consistent sb fs
  inum : i < sb.ninodes
  noHole : NoHole sb fs i
  type_eq : (inode sb fs i).type = T_FILE

theorem ilock_ready (h : Ready sb fs i) :
    ∃ t, ilock sb i fs = .ok ((), t) ∧ Open sb t i ∧ inode sb t i = inode sb fs i ∧
      (∀ j, contents sb t j = contents sb fs j) ∧ slot sb t = slot sb fs ∧
      t.disk = fs.disk := by
  have htype : (inode sb fs i).type ≠ T_DEV := by
    rw [h.type_eq]
    decide
  rw [ilock, run_bind (get_run fs)]
  cases hc : fs.icache i with
  | some ip => exact ⟨fs, rfl, ⟨h.consistent, h.inum, ⟨ip, hc⟩, h.noHole, htype⟩, rfl,
      fun _ => rfl, rfl, rfl⟩
  | none =>
    have hinode : inode sb fs i = dinode sb fs i := by rw [inode, hc, Option.getD_none]
    have hslots : slot sb (putInode fs i (inode sb fs i)) = slot sb fs :=
      slot_putInode_same _ rfl rfl
    have hlocked : ilock sb i fs = .ok ((), putInode fs i (inode sb fs i)) := by
      rw [ilock, run_bind (get_run fs), hc]
      have hset : setInode sb i id fs = .ok ((), putInode fs i (inode sb fs i)) := rfl
      dsimp only
      rw [run_bind hset, if_neg (by rw [← hinode, h.type_eq]; decide)]
      rfl
    have hall : ∀ j, inode sb (putInode fs i (inode sb fs i)) j = inode sb fs j := by
      intro j
      by_cases hj : j = i
      · subst hj
        exact inode_putInode_self _ _ _
      · exact inode_putInode_ne _ hj
    have hblock : ∀ j k, blockOf sb (putInode fs i (inode sb fs i)) j k = blockOf sb fs j k :=
      fun j k => congrFun hslots _
    have hsize : ∀ j, fileSize sb (putInode fs i (inode sb fs i)) j = fileSize sb fs j := by
      intro j
      rw [fileSize, fileSize, hall]
    obtain ⟨hcons, hl⟩ := wp_ok (ilock_wp h.consistent) hlocked
    rw [ilock, run_bind (get_run fs), hc] at hlocked
    refine ⟨_, hlocked, ⟨hcons, h.inum, hl, ?_, ?_⟩, hall i, ?_, hslots, rfl⟩
    · intro k hk
      rw [hsize] at hk
      rw [hblock]
      exact h.noHole k hk
    · rw [hall]
      exact htype
    · intro j
      refine contents_congr (hsize j) fun k _ => ?_
      rw [fileByte, fileByte, hblock]
      rfl

variable {dev : Half → Option (Word → ℤ)} {src : ℕ → Byte} {s t : Kernel} {Short : Prop}

theorem onFs_run {α : Type} {c : FsCode α} {a : α} (h : c s.fs = .ok (a, fs)) :
    onFs c s = .ok (a, { s with fs := fs }) := by
  rw [onFs, h]

theorem onFs_wp {α : Type} {c : FsCode α} {Q : α → Fs → Prop} {E : Fault → Prop}
    (h : wp c Q E s.fs) : wp (onFs c) (fun a t => Q a t.fs ∧ t.file = s.file) E s := by
  unfold wp onFs at *
  cases hc : c s.fs with
  | error e =>
    rw [hc] at h
    exact h
  | ok p =>
    rw [hc] at h
    exact ⟨h, rfl⟩

/-- The bytes of the file that `s.file` refers to. -/
def Kernel.bytes (sb : Superblock) (s : Kernel) : List Byte := contents sb s.fs s.file.ip

/-- `m` bytes of `src` have been stored at the offset, which has advanced. -/
structure Stored (sb : Superblock) (src : ℕ → Byte) (m : ℕ) (s t : Kernel) : Prop where
  ready : Ready sb t.fs t.file.ip
  writable : t.file.writable = s.file.writable
  ip : t.file.ip = s.file.ip
  off : t.file.off.toNat = s.file.off.toNat + m
  bytes : t.bytes sb = overwrite (s.bytes sb) s.file.off.toNat (bytesOf src m)

/-- writei() does not take the chunk that comes next. -/
def Refuses (sb : Superblock) (s : Kernel) (n1 : ℕ) : Prop :=
  (s.bytes sb).length < s.file.off.toNat ∨ MAXFILE * BSIZE < s.file.off.toNat + n1

theorem bytesOf_zero (src : ℕ → Byte) : bytesOf src 0 = [] := rfl

theorem Stored.none (h : Ready sb t.fs t.file.ip) (hfile : t.file = s.file)
    (hbytes : t.bytes sb = s.bytes sb) (src : ℕ → Byte) : Stored sb src 0 s t where
  ready := h
  writable := by rw [hfile]
  ip := by rw [hfile]
  off := by rw [hfile]; rfl
  bytes := by rw [bytesOf_zero, overwrite_nil, hbytes]

theorem bytesOf_add (src : ℕ → Byte) (m k : ℕ) :
    bytesOf src (m + k) = bytesOf src m ++ bytesOf (fun p => src (m + p)) k := by
  unfold bytesOf
  rw [List.range_add, List.map_append, List.map_map]
  rfl

theorem Stored.trans {u : Kernel} {m k : ℕ} (h : Stored sb src m s t)
    (hoff : s.file.off.toNat ≤ (s.bytes sb).length)
    (g : Stored sb (fun p => src (m + p)) k t u) : Stored sb src (m + k) s u where
  ready := g.ready
  writable := g.writable.trans h.writable
  ip := g.ip.trans h.ip
  off := by
    rw [g.off, h.off]
    omega
  bytes := by
    have hlen := length_bytesOf src m
    have happend := overwrite_append hoff (bytesOf src m) (bytesOf (fun p => src (m + p)) k)
    rw [hlen] at happend
    rw [g.bytes, h.bytes, h.off, happend, bytesOf_add]

theorem length_bytes (sb : Superblock) (s : Kernel) :
    (s.bytes sb).length = fileSize sb s.fs s.file.ip := length_contents _ _

theorem refuses_iff (h : Ready sb s.fs s.file.ip) {n1 : ℕ} (hn : n1 ≤ maxChunk) :
    WriteRefused (fileSize sb s.fs s.file.ip) s.file.off (BitVec.ofNat 32 n1) ↔
      Refuses sb s n1 := by
  have hmax : maxChunk = 1536 := rfl
  have hbig : MAXFILE * BSIZE = 71680 := rfl
  have hsize := h.noHole.size_le
  have hn1 : (BitVec.ofNat 32 n1).toNat = n1 := by
    rw [BitVec.toNat_ofNat]
    omega
  unfold WriteRefused Refused Refuses
  rw [hn1, length_bytes]
  omega

/-- A chunk is refused as a whole, or stored as a whole. -/
theorem writeChunk_spec (h : Ready sb s.fs s.file.ip) (dev : Half → Option (Word → ℤ))
    (src : ℕ → Byte) {n1 k : ℕ} (hpos : 0 < n1) (hn : n1 ≤ maxChunk)
    (hroom : Room sb s.file.ip Short (4 + k) s.fs) :
    wp (writeChunk sb dev src n1) (fun r t =>
      (Refuses sb s n1 ∧ r = -1 ∧ Stored sb src 0 s t ∨
        ¬ Refuses sb s n1 ∧ r = n1 ∧ Stored sb src n1 s t) ∧ Room sb t.file.ip Short k t.fs)
      (Fails Short) s := by
  have hmax : maxChunk = 1536 := rfl
  have hbig : MAXFILE * BSIZE = 71680 := rfl
  obtain ⟨fs, hlock, hopen, hinode, hcontents, hslots, hdisk⟩ := ilock_ready h
  have hword : BitVec.ofInt 32 (n1 : ℤ) = BitVec.ofNat 32 n1 := BitVec.ofInt_natCast 32 n1
  have hn1 : (BitVec.ofNat 32 n1).toNat = n1 := by
    rw [BitVec.toNat_ofNat]
    omega
  have hsize : fileSize sb fs s.file.ip = fileSize sb s.fs s.file.ip := by
    rw [fileSize, fileSize, hinode]
  have hrefuses := refuses_iff h hn
  rw [← hsize] at hrefuses
  have hregular : (inode sb fs s.file.ip).type = T_FILE := by rw [hinode, h.type_eq]
  refine wp_bind_run (get_run s) (wp_bind_run (onFs_run hlock) ?_)
  rw [hword]
  have hroom' : Room sb s.file.ip Short (4 + k) fs := by
    refine hroom.congr hslots fun c => ?_
    rw [used, used, hdisk]
  by_cases hout : Refuses sb s n1
  · have hrun := writei_refused dev src hopen.type_ne (hrefuses.mpr hout)
    refine wp_bind_run (onFs_run hrun) ?_
    rw [if_neg (by decide)]
    refine wp_of_run (pure_run _ _) ⟨Or.inl ⟨hout, rfl, ?_⟩, hroom'.mono (Nat.le_add_left _ _)⟩
    exact Stored.none (s := s) (t := ⟨fs, s.file⟩)
      ⟨hopen.consistent, hopen.inum, hopen.noHole, hregular⟩ rfl (hcontents s.file.ip) src
  · have htouched : touched s.file.off.toNat n1 ≤ 4 := by
      unfold touched BSIZE
      split <;> omega
    have hwp := writei_accepted dev src hopen.consistent hopen.inum hopen.locked hopen.noHole
      hopen.type_ne (fun hin => hout (hrefuses.mp hin)) (r := k)
      (hroom'.mono (by rw [hn1]; omega))
    rw [hn1] at hwp
    apply wp_bind
    refine wp_mono (onFs_wp hwp) ?_
    rintro r u ⟨⟨⟨hr, hw⟩, hleft⟩, hfile⟩
    obtain ⟨hoff, hend⟩ := not_or.mp hout
    have hadd : (u.file.off + BitVec.ofInt 32 r).toNat = s.file.off.toNat + n1 := by
      rw [hfile, hr, hword, BitVec.toNat_add, hn1]
      dsimp only
      omega
    have hip : u.file.ip = s.file.ip := by rw [hfile]
    rw [if_pos (by omega)]
    refine wp_bind_run (modify_run _ _) (wp_of_run (pure_run _ _) ⟨Or.inr ⟨hout, hr, ?_⟩,
      by dsimp only; rw [hip]; exact hleft⟩)
    exact
      { ready := by
          dsimp only
          rw [hip]
          exact ⟨hw.consistent, h.inum, hw.noHole, hw.type_eq.trans hregular⟩
        writable := by
          dsimp only
          rw [hfile]
        ip := hip
        off := hadd
        bytes := by
          have hsame : contents sb fs s.file.ip = s.bytes sb := hcontents s.file.ip
          rw [← hsame, ← hw.contents_eq, Kernel.bytes]
          dsimp only
          rw [hip] }

/-! The loop -/

/-- How many chunks `n` bytes take. -/
def chunks (n : ℕ) : ℕ := (n + (maxChunk - 1)) / maxChunk

theorem chunks_step {n m : ℕ} (hn : 0 < n) (hm : m = min n maxChunk) :
    chunks n = 1 + chunks (n - m) := by
  have hmax : maxChunk = 1536 := rfl
  unfold chunks
  rw [hmax] at hm ⊢
  omega

/-- How the loop ends: at the end of the data, or at a chunk that is refused. -/
structure Ended (sb : Superblock) (src : ℕ → Byte) (i n m : ℕ) (s t : Kernel) : Prop where
  bound : i + m ≤ n
  stored : Stored sb (fun p => src (i + p)) m s t
  first : m = 0 ↔ i = n ∨ Refuses sb s (min (n - i) maxChunk)
  last : i + m = n ∨ Refuses sb t (min (n - (i + m)) maxChunk)

theorem filewriteFrom_spec (dev : Half → Option (Word → ℤ)) (src : ℕ → Byte) {n k i : ℕ}
    (h : Ready sb s.fs s.file.ip) (hi : i ≤ n) (hk : n - i ≤ k)
    (hroom : Room sb s.file.ip Short (4 * chunks (n - i)) s.fs) :
    wp (filewriteFrom sb dev src n k i)
      (fun j t => ∃ m : ℕ, j = (i + m : ℕ) ∧ Ended sb src i n m s t) (Fails Short) s := by
  have hmax : maxChunk = 1536 := rfl
  induction k generalizing s i with
  | zero =>
    have hin : i = n := by omega
    exact wp_pure ⟨0, rfl, hi, Stored.none h rfl rfl _, iff_of_true rfl (Or.inl hin), Or.inl hin⟩
  | succ k ih =>
    unfold filewriteFrom
    split
    next hlt =>
      have hn1 : min ((n : ℤ) - i) maxChunk = ((min (n - i) maxChunk : ℕ) : ℤ) := by omega
      have hnat : ((i : ℤ)).toNat = i := Int.toNat_natCast i
      have hchunks := chunks_step (n := n - i) (by omega) rfl
      dsimp only
      rw [hn1, hnat]
      apply wp_bind
      refine wp_mono (writeChunk_spec (k := 4 * chunks (n - i - min (n - i) maxChunk)) h dev
        (fun p => src (i + p)) (by omega) (by omega) (hroom.mono (by omega))) ?_
      rintro r t ⟨⟨hout, rfl, hsame⟩ | ⟨hin, rfl, hstored⟩, hleft⟩
      · rw [if_pos (by decide)]
        have hback : Refuses sb t (min (n - (i + 0)) maxChunk) := by
          unfold Refuses at hout ⊢
          rw [hsame.bytes, hsame.off, bytesOf_zero, overwrite_nil]
          exact hout
        exact wp_pure ⟨0, rfl, hi, hsame, iff_of_true rfl (Or.inr hout), Or.inr hback⟩
      · rw [if_neg (by omega), if_neg (fun h => h rfl)]
        have hnext : (i : ℤ) + ((min (n - i) maxChunk : ℕ) : ℤ) =
            ((i + min (n - i) maxChunk : ℕ) : ℤ) := by omega
        rw [hnext]
        refine wp_mono (ih hstored.ready (by omega) (by omega) (by
          rw [← Nat.sub_sub]
          exact hleft)) ?_
        rintro j u ⟨m, rfl, hrest⟩
        have hle := hrest.bound
        have hoff : s.file.off.toNat ≤ (s.bytes sb).length := by
          by_contra hgt
          exact hin (Or.inl (by omega))
        have hassoc : (fun p => src (i + (min (n - i) maxChunk + p))) =
            fun p => src (i + min (n - i) maxChunk + p) := by
          funext p
          rw [Nat.add_assoc]
        refine ⟨min (n - i) maxChunk + m, by rw [Nat.add_assoc], by omega, ?_, ?_, ?_⟩
        · refine hstored.trans hoff ?_
          rw [hassoc]
          exact hrest.stored
        · refine iff_of_false (by omega) ?_
          rintro (heq | hrefuses)
          · omega
          · exact hin hrefuses
        · rw [← Nat.add_assoc]
          exact hrest.last
    next hge =>
      have hin : i = n := by omega
      exact wp_pure ⟨0, rfl, hi, Stored.none h rfl rfl _, iff_of_true rfl (Or.inl hin), Or.inl hin⟩

/-! filewrite() -/

section Call

variable (sb : Superblock) (dev : Half → Option (Word → ℤ)) (src : ℕ → Byte) (n : ℤ) (s : Kernel)

/-- A write that fails has stored nothing, and one that succeeds all of its bytes. -/
structure AllOrNothing : Prop where
  fails : ∀ t, filewrite sb dev src n s = .ok (-1, t) →
    t.bytes sb = s.bytes sb ∧ t.file.off = s.file.off
  succeeds : ∀ t, 0 ≤ n → filewrite sb dev src n s = .ok (n, t) →
    t.bytes sb = overwrite (s.bytes sb) s.file.off.toNat (bytesOf src n.toNat) ∧
      t.file.off.toNat = s.file.off.toNat + n.toNat

/-- No chunk after the first one is refused. -/
def FitsOrFailsAtOnce : Prop :=
  s.file.writable = false ∨ n ≤ 0 ∨ Refuses sb s (min n.toNat maxChunk) ∨
    ¬ Refuses sb s n.toNat

end Call

variable {n : ℤ}

/-- How filewrite() ends on a file that is open for writing. -/
theorem filewrite_ends (h : Ready sb s.fs s.file.ip) (hw : s.file.writable = true)
    (dev : Half → Option (Word → ℤ)) (src : ℕ → Byte) (n : ℤ)
    (hroom : Room sb s.file.ip Short (4 * chunks n.toNat) s.fs) :
    wp (filewrite sb dev src n) (fun r t => ∃ m : ℕ, r = (if (m : ℤ) = n then n else -1) ∧
      Ended sb src 0 n.toNat m s t) (Fails Short) s := by
  unfold filewrite
  refine wp_bind_run (get_run s) ?_
  rw [hw, if_neg (by decide)]
  apply wp_bind
  by_cases hn : 0 ≤ n
  · have hspec := filewriteFrom_spec (i := 0) dev src h (Nat.zero_le n.toNat) (Nat.le_refl _) hroom
    rw [Int.toNat_of_nonneg hn] at hspec
    refine wp_mono hspec ?_
    rintro j t ⟨m, rfl, hend⟩
    refine wp_pure ⟨m, ?_, hend⟩
    rw [Nat.zero_add]
  · have hzero : n.toNat = 0 := by omega
    rw [hzero]
    exact wp_pure ⟨0, rfl, Nat.le_refl 0, Stored.none h rfl rfl _, iff_of_true rfl (Or.inl rfl),
      Or.inl rfl⟩

/-- If the first chunk is taken but the data do not fit, the loop ends in between. -/
theorem Ended.between {m : ℕ} (h : Ended sb src 0 n.toNat m s t)
    (hfirst : ¬ Refuses sb s (min n.toNat maxChunk)) (hbig : Refuses sb s n.toNat) :
    m ≠ n.toNat := by
  rintro rfl
  obtain ⟨hoff, -⟩ := not_or.mp hfirst
  have hsize := h.stored.ready.noHole.size_le
  have hlen := length_overwrite (Nat.le_of_not_lt hoff) (bytesOf (fun p => src (0 + p)) n.toNat)
  rw [← h.stored.bytes, length_bytes, length_bytesOf] at hlen
  obtain hgt | hbig := hbig
  · exact hoff hgt
  · omega

/-- If the data fit, the loop does not stop before their end. -/
theorem Ended.complete {m : ℕ} (h : Ended sb src 0 n.toNat m s t)
    (hfits : ¬ Refuses sb s n.toNat) : m = n.toNat := by
  obtain hlast | hlast := h.last
  · rw [← hlast, Nat.zero_add]
  · obtain ⟨hoff, hmax⟩ := not_or.mp hfits
    have hbound := h.bound
    have hlen := length_overwrite (Nat.le_of_not_lt hoff) (bytesOf (fun p => src (0 + p)) m)
    rw [← h.stored.bytes, length_bytesOf] at hlen
    obtain hgt | hbig := hlast
    · rw [h.stored.off] at hgt
      omega
    · rw [h.stored.off] at hbig
      omega

/-- A write is all or nothing exactly when its first chunk is refused, or no chunk is. The disk
is not full: the write does not stop for want of a block. -/
theorem filewrite_all_or_nothing_iff (h : Ready sb s.fs s.file.ip)
    (dev : Half → Option (Word → ℤ)) (src : ℕ → Byte) (n : ℤ)
    (hdisk : filewrite sb dev src n s ≠ .error outOfBlocks) :
    AllOrNothing sb dev src n s ↔ FitsOrFailsAtOnce sb n s := by
  by_cases hw : s.file.writable = true
  · have hwp := filewrite_ends h hw dev src n fun (hn : ¬ True) => absurd trivial hn
    cases hrun : filewrite sb dev src n s with
    | error e =>
      rw [(wp_error hwp hrun).1] at hrun
      exact absurd hrun hdisk
    | ok p =>
      obtain ⟨r, t⟩ := p
      obtain ⟨m, hr, hend⟩ := wp_ok hwp hrun
      have hstored := hend.stored
      have hshift : (fun p => src (0 + p)) = src := by
        funext p
        rw [Nat.zero_add]
      rw [hshift] at hstored
      have hnone : m = 0 → t.bytes sb = s.bytes sb ∧ t.file.off = s.file.off := by
        rintro rfl
        refine ⟨?_, BitVec.eq_of_toNat_eq hstored.off⟩
        rw [hstored.bytes, bytesOf_zero, overwrite_nil]
      constructor
      · intro hall
        by_contra hnot
        obtain ⟨-, hnot⟩ := not_or.mp hnot
        obtain ⟨hpos, hnot⟩ := not_or.mp hnot
        obtain ⟨hfirst, hbig⟩ := not_or.mp hnot
        have hne := hend.between hfirst (not_not.mp hbig)
        have hm : m ≠ 0 := by
          intro hzero
          obtain hempty | hrefuses := hend.first.mp hzero
          · omega
          · exact hfirst hrefuses
        rw [if_neg (by omega)] at hr
        obtain ⟨-, hoff⟩ := hall.fails t (by rw [hrun, hr])
        have := hstored.off
        rw [hoff] at this
        omega
      · intro hcond
        have hret : ∀ c u, filewrite sb dev src n s = .ok (c, u) → c = r ∧ u = t := by
          intro c u hc
          rw [hrun] at hc
          cases hc
          exact ⟨rfl, rfl⟩
        refine ⟨fun u hu => ?_, fun u hn hu => ?_⟩
        · obtain ⟨hc, rfl⟩ := hret _ _ hu
          obtain hno | hneg | hfirst | hfits := hcond
          · rw [hw] at hno
            cases hno
          · have := hend.bound
            exact hnone (by omega)
          · exact hnone (hend.first.mpr (Or.inr hfirst))
          · rw [hend.complete hfits] at hr
            by_cases hn : 0 ≤ n
            · rw [if_pos (by omega)] at hr
              omega
            · have := hend.bound
              exact hnone (by omega)
        · obtain ⟨hc, rfl⟩ := hret _ _ hu
          have hmn : m = n.toNat := by
            by_contra hne
            rw [if_neg (by omega)] at hr
            omega
          rw [← hmn]
          exact ⟨hstored.bytes, hstored.off⟩
  · have hrun : filewrite sb dev src n s = .ok (-1, s) := by
      have hno : s.file.writable = false := by simpa using hw
      rw [filewrite, run_bind (get_run s), if_pos hno]
      rfl
    refine iff_of_true ⟨fun t ht => ?_, fun t hn ht => ?_⟩ (Or.inl (by simpa using hw))
    · rw [hrun] at ht
      cases ht
      exact ⟨rfl, rfl⟩
    · rw [hrun] at ht
      injection ht with hpair
      have := congrArg Prod.fst hpair
      dsimp only at this
      omega

/-! A file of three bytes, open for writing at its start. -/

def opened : Kernel := ⟨smallFs, ⟨true, 1, 0⟩⟩

theorem opened_ready : Ready smallDisk opened.fs opened.file.ip :=
  ⟨smallFs_consistent, by decide, smallFs_open.noHole, rfl⟩

theorem opened_room {n : ℤ} (hn : n = 71681) :
    Room smallDisk opened.file.ip False (4 * chunks n.toNat) opened.fs := by
  intro _
  have hle := absent_le smallDisk opened.fs (.addr opened.file.ip NDIRECT)
  have hcard : 940 ≤ (freeBlocks smallDisk opened.fs).card := smallFs_free
  have hmax : maxChunk = 1536 := rfl
  unfold chunks
  rw [hmax]
  omega

/-- A write of one byte more than a file can hold returns -1 after it has written. -/
theorem opened_moves {n : ℤ} (hn : n = 71681) :
    ∃ t, filewrite smallDisk (fun _ => none) (fun _ => 65) n opened = .ok (-1, t) ∧
      t.file.off ≠ opened.file.off := by
  have hwp := filewrite_ends opened_ready rfl (fun _ => none) (fun _ => 65) n (opened_room hn)
  cases hrun : filewrite smallDisk (fun _ => none) (fun _ => 65) n opened with
  | error e => exact absurd (wp_error hwp hrun).2 id
  | ok p =>
    obtain ⟨r, t⟩ := p
    obtain ⟨m, hr, hend⟩ := wp_ok hwp hrun
    have hmax : maxChunk = 1536 := rfl
    have hbig' : MAXFILE * BSIZE = 71680 := rfl
    have hlen : (opened.bytes smallDisk).length = 3 := length_bytes smallDisk opened
    have hoff : opened.file.off.toNat = 0 := rfl
    have hfirst : ¬ Refuses smallDisk opened (min n.toNat maxChunk) := by
      unfold Refuses
      rw [hlen, hoff]
      omega
    have hbig : Refuses smallDisk opened n.toNat := by
      unfold Refuses
      omega
    have hne := hend.between hfirst hbig
    have hm : m ≠ 0 := by
      intro hzero
      obtain hempty | hrefuses := hend.first.mp hzero
      · omega
      · exact hfirst hrefuses
    rw [if_neg (by omega)] at hr
    refine ⟨t, by rw [hr], fun heq => ?_⟩
    have hmoved := hend.stored.off
    rw [heq] at hmoved
    omega

theorem opened_not_full {n : ℤ} (hn : n = 71681) :
    filewrite smallDisk (fun _ => none) (fun _ => 65) n opened ≠ .error outOfBlocks := by
  obtain ⟨t, ht, -⟩ := opened_moves hn
  rw [ht]
  nofun

theorem filewrite_all_or_nothing_iff_opened :
    AllOrNothing smallDisk (fun _ => none) (fun _ => 65) 71681 opened ↔
      FitsOrFailsAtOnce smallDisk 71681 opened :=
  filewrite_all_or_nothing_iff opened_ready _ _ _ (opened_not_full rfl)

/-- A write that fails has moved the offset. -/
theorem filewrite_fails_halfway : ∃ n : ℤ, n = 71681 ∧
    Ready smallDisk opened.fs opened.file.ip ∧
    filewrite smallDisk (fun _ => none) (fun _ => 65) n opened ≠ .error outOfBlocks ∧
    ¬ AllOrNothing smallDisk (fun _ => none) (fun _ => 65) n opened := by
  refine ⟨71681, rfl, opened_ready, opened_not_full rfl, fun hall => ?_⟩
  obtain ⟨t, ht, hoff⟩ := opened_moves rfl
  exact hoff (hall.fails t ht).2

end FileWriteCall
