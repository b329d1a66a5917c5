import OsEngineering.BlockOwnership
import OsEngineering.MkfsImage

/-! The blocks that mkfs has given out, by the slot each stands in: all blocks from `nmeta` up
to `freeblock`, once each. -/
namespace MkfsBooks

open ByteBlock FaultState KernelParams ResourceLedger BlockAllocation BlockSlots BlockOwnership
  MkfsImage

/-- The image as the kernel finds it, with no inode in memory. -/
def view (s : Mkfs) : Fs := ⟨s.image, fun _ => none, []⟩

/-- The image with the copy of inode `inum` that iappend() has not yet written back. -/
def pending (s : Mkfs) (inum : ℕ) (din : Inode) : Fs := putInode (view s) inum din

/-- Where the number of block `k` of a file stands. -/
def fileSlot (i k : ℕ) : Slot := if k < NDIRECT then .addr i k else .entry i (k - NDIRECT)

/-- The block number of block `k` of file `i`, 0 if there is none. -/
def mapped (v : Fs) (i k : ℕ) : Word := slot sb v (fileSlot i k)

structure Books (s : Mkfs) (v : Fs) : Prop where
  disk : v.disk = s.image
  sectors : s.sectors = FSSIZE
  blank : ∀ b, s.freeblock ≤ b → s.image b = zeros
  exact : Exact (Ref sb v) (· < nmeta) (· < s.freeblock)

variable {s t : Mkfs} {v w : Fs} {i j k b : ℕ} {x : Slot} {din : Inode}

theorem fileSlot_ne_index (i k j : ℕ) : fileSlot i k ≠ .addr j NDIRECT := by
  simp only [fileSlot]
  split
  · rintro h
    cases h
    omega
  · nofun

theorem fileSlot_inj {i k j n : ℕ} (h : fileSlot i k = fileSlot j n) : i = j ∧ k = n := by
  simp only [fileSlot] at h
  split at h <;> split at h
  · injection h with hi hk
    exact ⟨hi, hk⟩
  · injection h
  · injection h
  · injection h with hi hk
    exact ⟨hi, by omega⟩

theorem bmapstart_eq : sb.bmapstart = 58 := rfl

theorem setAddr_self (din : Inode) (k : ℕ) (a : Word) : (din.setAddr k a).addrs k = a := by
  simp only [Inode.setAddr, Function.update_self]

theorem Books.low (h : Books s v) : nmeta ≤ s.freeblock := by
  by_contra hlow
  have hheld := (h.exact.used_iff (nmeta - 1)).mpr (Or.inr (by decide))
  omega

theorem Books.data (h : Books s v) (hx : Ref sb v x b) : nmeta ≤ b ∧ b < s.freeblock := by
  have := h.exact.apart x b hx
  exact ⟨by omega, h.exact.used_of_refs hx⟩

theorem Books.congr (h : Books s v) (hdisk : w.disk = v.disk) (hslots : slot sb w = slot sb v) :
    Books s w where
  disk := hdisk.trans h.disk
  sectors := h.sectors
  blank := h.blank
  exact := h.exact.congr (ref_congr hslots) (fun _ => Iff.rfl) fun _ => Iff.rfl

/-- The block numbers that mkfs writes fit in a word. -/
theorem toNat_ofNat (h : b ≤ FSSIZE) : (BitVec.ofNat 32 b).toNat = b := by
  simp only [FSSIZE] at h
  rw [BitVec.toNat_ofNat]
  omega

/-- What filling the slot `x` does. -/
structure Filled (s : Mkfs) (v : Fs) (t : Mkfs) (w : Fs) (x : Slot) (b : ℕ) : Prop where
  books : Books t w
  ref : Ref sb w x b
  other : ∀ y, y ≠ x → slot sb w y = slot sb v y
  kept : slot sb v x ≠ 0 → slot sb w x = slot sb v x
  freeinode : t.freeinode = s.freeinode
  next : t.freeblock ≤ s.freeblock + 1
  high : t.freeblock ≤ FSSIZE ∨ FSSIZE ≤ b

theorem Filled.refl (h : Books s v) (hhigh : s.freeblock ≤ FSSIZE) (hx : slot sb v x ≠ 0) :
    Filled s v s v x (slot sb v x).toNat where
  books := h
  ref := ref_of_slot hx
  other := fun _ _ => rfl
  kept := fun _ => rfl
  freeinode := rfl
  next := Nat.le_succ _
  high := Or.inl hhigh

/-- The next block goes into an empty slot. -/
theorem Books.assign (h : Books s v) (hhigh : s.freeblock ≤ FSSIZE) (hx : slot sb v x = 0)
    (hsectors : t.sectors = s.sectors) (hinode : t.freeinode = s.freeinode)
    (hnext : t.freeblock = s.freeblock + 1) (hdisk : w.disk = t.image)
    (himage : ∀ b, s.freeblock < b → t.image b = s.image b)
    (hself : slot sb w x = BitVec.ofNat 32 s.freeblock)
    (hother : ∀ y, y ≠ x → slot sb w y = slot sb v y) :
    Filled s v t w x s.freeblock := by
  have hlow : 0 < s.freeblock := Nat.lt_of_lt_of_le (by decide) h.low
  have hexact := (h.exact.take (lt_irrefl s.freeblock)).assign (Or.inl rfl) (not_ref_of_slot hx)
  have href : ∀ y c, Ref sb w y c ↔ (y = x ∧ c = s.freeblock) ∨ Ref sb v y c := by
    intro y c
    by_cases hy : y = x
    · subst hy
      rw [Ref, Ref, hself, toNat_ofNat hhigh, hx]
      constructor
      · rintro ⟨rfl, -⟩
        exact Or.inl ⟨rfl, rfl⟩
      · rintro (⟨-, rfl⟩ | ⟨h0, hne⟩)
        · exact ⟨rfl, by omega⟩
        · exact absurd h0.symm hne
    · rw [Ref, Ref, hother y hy]
      constructor
      · exact Or.inr
      · rintro (⟨hyx, -⟩ | hr)
        · exact absurd hyx hy
        · exact hr
  refine ⟨⟨hdisk, hsectors.trans h.sectors, ?_, ?_⟩, (href _ _).mpr (Or.inl ⟨rfl, rfl⟩), hother,
    fun hne => absurd hx hne, hinode, by omega, ?_⟩
  · intro b hb
    rw [himage b (by omega)]
    exact h.blank b (by omega)
  · refine hexact.congr href ?_ ?_
    · intro c
      have := h.low
      omega
    · intro c
      omega
  · omega

/-! One slot after the other. -/

theorem slot_pending_addr (hi : i < NINODES) (htype : din.type ≠ 0) (hk : k ≤ NDIRECT) :
    slot sb (pending s i din) (.addr i k) = din.addrs k := by
  rw [slot, pending, inode_putInode_self, if_pos ⟨hi, hk, htype⟩]

theorem pending_setAddr (a : Word) :
    pending s i (din.setAddr k a) = putInode (pending s i din) i (din.setAddr k a) := by
  simp only [pending, putInode, Function.update_idem]

/-- What the code does to the fields of the inode other than the addresses: nothing. -/
def Same (din din' : Inode) : Prop :=
  { din' with addrs := din.addrs } = din ∧
    ((∀ k, NDIRECT < k → din.addrs k = 0) → ∀ k, NDIRECT < k → din'.addrs k = 0)

theorem Same.refl (din : Inode) : Same din din := ⟨rfl, id⟩

theorem Same.type {din' : Inode} (h : Same din din') : din'.type = din.type := by
  rw [← h.1]

theorem Same.trans {din' din'' : Inode} (h : Same din din') (g : Same din' din'') :
    Same din din'' := by
  refine ⟨?_, g.2 ∘ h.2⟩
  rw [← h.1, ← g.1]

theorem Same.setAddr (din : Inode) (hk : k ≤ NDIRECT) (a : Word) :
    Same din (din.setAddr k a) := by
  refine ⟨rfl, ?_⟩
  intro h n hn
  simp only [Inode.setAddr]
  rw [Function.update_of_ne (by omega)]
  exact h n hn

theorem fillAddr_wp (h : Books s (pending s i din)) (hhigh : s.freeblock ≤ FSSIZE)
    (hi : i < NINODES) (htype : din.type ≠ 0) (hk : k ≤ NDIRECT) :
    wp (fillAddr din k) (fun din' t =>
      Filled s (pending s i din) t (pending t i din') (.addr i k) (din'.addrs k).toNat ∧
        Same din din' ∧ t.image = s.image) (fun _ => False) s := by
  have hslot := slot_pending_addr (s := s) hi htype hk
  simp only [fillAddr]
  split
  · next hz =>
    refine wp_bind_run (t := { s with freeblock := s.freeblock + 1 }) rfl (wp_pure ?_)
    have hself : slot sb (pending s i (din.setAddr k (BitVec.ofNat 32 s.freeblock)))
        (.addr i k) = BitVec.ofNat 32 s.freeblock :=
      slot_setAddr_self hi htype hk _
    have haddr : ((din.setAddr k (BitVec.ofNat 32 s.freeblock)).addrs k).toNat =
        s.freeblock := by
      rw [setAddr_self, toNat_ofNat hhigh]
    refine ⟨?_, Same.setAddr din hk _, rfl⟩
    rw [haddr]
    refine h.assign hhigh (hslot.trans hz) rfl rfl rfl rfl (fun _ _ => rfl) hself ?_
    intro y hy
    change slot sb (pending s i _) y = _
    rw [pending_setAddr]
    refine slot_setAddr_ne (icache_putInode_self _ _ _) hz ?_ hy
    intro _
    rw [toNat_ofNat hhigh]
    exact h.blank _ (Nat.le_refl _)
  · next hz =>
    refine wp_pure ⟨?_, Same.refl din, rfl⟩
    have hfill := Filled.refl (x := .addr i k) h hhigh (by rw [hslot]; exact hz)
    rwa [hslot] at hfill

theorem fillEntry_wp {a : ℕ} (h : Books s (pending s i din)) (hhigh : s.freeblock ≤ FSSIZE)
    (ha : Ref sb (pending s i din) (.addr i NDIRECT) a) (hk : k < NINDIRECT) :
    wp (fillEntry a (s.image a) k) (fun indirect t =>
      Filled s (pending s i din) t (pending t i din) (.entry i k) (word indirect k).toNat ∧
        ∀ c, c ≠ a → t.image c = s.image c)
      (fun _ => False) s := by
  have hslot : slot sb (pending s i din) (.entry i k) = word (s.image a) k := by
    rw [slot_entry_of_ref ha hk, h.disk]
  obtain ⟨hlow, hlt⟩ := h.data ha
  have hsize : nmeta = 59 := rfl
  have hsector : a < FSSIZE := by omega
  have hmap : sb.bmapstart ≤ a := by
    rw [bmapstart_eq]
    omega
  simp only [fillEntry]
  split
  · next hz =>
    refine wp_bind_run (t := { s with freeblock := s.freeblock + 1 }) rfl ?_
    refine wp_bind_run rfl (wp_pure ⟨?_, ?_⟩)
    · have hword : 4 * k + 3 < BSIZE := by
        simp only [NINDIRECT, BSIZE] at *
        omega
      rw [word_setWord_self _ _ hword, toNat_ofNat hhigh]
      have hput : ∀ u : Mkfs, u.image = Function.update s.image a
            (setWord (s.image a) k (BitVec.ofNat 32 s.freeblock)) →
          pending u i din = putBlock (pending s i din) a
            (setWord ((pending s i din).disk a) k (BitVec.ofNat 32 s.freeblock)) := by
        intro u hu
        rw [h.disk]
        simp only [pending, putInode, putBlock, view, hu]
      refine h.assign hhigh (hslot.trans hz) ?_ rfl rfl rfl ?_ ?_ ?_
      · change max s.sectors (a + 1) = s.sectors
        rw [h.sectors]
        omega
      · intro b hb
        exact Function.update_of_ne (by omega) _ _
      · rw [hput _ rfl, slot_entry_of_ref (a := a) _ hk, disk_putBlock_self,
          word_setWord_self _ _ hword]
        rw [Ref, slot_addr_putBlock _ hmap]
        exact ha
      · intro y hy
        rw [hput _ rfl]
        exact slot_setEntry_ne h.exact.owner hmap ha _ hy
    · intro c hc
      exact Function.update_of_ne hc _ _
  · next hz =>
    refine wp_pure ⟨?_, fun _ _ => rfl⟩
    have hfill := Filled.refl (x := .entry i k) h hhigh (by rw [hslot]; exact hz)
    rwa [hslot] at hfill

/-- What finding or giving out block `fbn` of file `i` does to the blocks of files. -/
structure Grown (i fbn : ℕ) (v w : Fs) : Prop where
  other : ∀ j k, ¬ (j = i ∧ k = fbn) → mapped w j k = mapped v j k
  kept : mapped v i fbn ≠ 0 → mapped w i fbn = mapped v i fbn
  disk : ∀ j k b, Ref sb v (fileSlot j k) b → w.disk b = v.disk b

structure Found (s : Mkfs) (i : ℕ) (din : Inode) (fbn : ℕ) (t : Mkfs) (din' : Inode) (x : ℕ) :
    Prop where
  books : Books t (pending t i din')
  ref : Ref sb (pending t i din') (fileSlot i fbn) x
  grown : Grown i fbn (pending s i din) (pending t i din')
  same : Same din din'
  image : ∀ c < nmeta, t.image c = s.image c
  freeinode : t.freeinode = s.freeinode
  next : t.freeblock ≤ s.freeblock + 2
  high : t.freeblock ≤ FSSIZE ∨ FSSIZE ≤ x

theorem blockOf_wp {fbn : ℕ} (h : Books s (pending s i din)) (hhigh : s.freeblock ≤ FSSIZE)
    (hi : i < NINODES) (htype : din.type ≠ 0) (hfbn : fbn < MAXFILE) :
    wp (blockOf din fbn) (fun r t => Found s i din fbn t r.1 r.2)
      (fun _ => ¬ s.freeblock + 2 ≤ FSSIZE) s := by
  simp only [blockOf]
  split
  · next hdirect =>
    have hslot : fileSlot i fbn = .addr i fbn := if_pos hdirect
    apply wp_bind
    refine wp_conseq (fillAddr_wp h hhigh hi htype (Nat.le_of_lt hdirect)) ?_ fun _ he => he.elim
    rintro din' t ⟨hfill, hsame, himage⟩
    refine wp_pure ⟨hfill.books, hslot ▸ hfill.ref, ⟨?_, ?_, ?_⟩, hsame,
      fun c _ => by rw [himage], hfill.freeinode, by have := hfill.next; omega, hfill.high⟩
    · intro j k hne
      apply hfill.other
      rw [← hslot]
      exact fun heq => hne (fileSlot_inj heq)
    · simp only [mapped, hslot]
      exact hfill.kept
    · intro j k b _
      rw [hfill.books.disk, h.disk, himage]
  · next hindirect =>
    have hslot : fileSlot i fbn = .entry i (fbn - NDIRECT) := if_neg hindirect
    have hentry : fbn - NDIRECT < NINDIRECT := by
      simp only [MAXFILE] at hfbn
      omega
    apply wp_bind
    refine wp_conseq (fillAddr_wp h hhigh hi htype (Nat.le_refl _)) ?_ fun _ he => he.elim
    rintro din₁ u ⟨hfill, hsame, himage⟩
    have hbelow := (hfill.books.data hfill.ref).2
    have hnext := hfill.next
    apply wp_bind
    by_cases hsector : (din₁.addrs NDIRECT).toNat < FSSIZE
    · have hread : rsect (din₁.addrs NDIRECT).toNat u =
          .ok (u.image (din₁.addrs NDIRECT).toNat, u) := by
        rw [rsect, if_pos (hfill.books.sectors ▸ hsector)]
      have hhigh₁ : u.freeblock ≤ FSSIZE := by
        rcases hfill.high with hu | hu
        · exact hu
        · omega
      refine wp_of_run hread (wp_bind ?_)
      have htype₁ : din₁.type ≠ 0 := hsame.type ▸ htype
      refine wp_conseq (fillEntry_wp hfill.books hhigh₁ hfill.ref hentry) ?_ fun _ he => he.elim
      rintro indirect t ⟨hent, hother⟩
      have hlow := (hfill.books.data hfill.ref).1
      refine wp_pure ⟨hent.books, hslot ▸ hent.ref, ⟨?_, ?_, ?_⟩, hsame, ?_,
        hent.freeinode.trans hfill.freeinode, by have := hent.next; omega, hent.high⟩
      · intro j k hne
        have hne' : fileSlot j k ≠ .entry i (fbn - NDIRECT) := by
          rw [← hslot]
          exact fun heq => hne (fileSlot_inj heq)
        exact (hent.other _ hne').trans (hfill.other _ (fileSlot_ne_index j k i))
      · simp only [mapped, hslot]
        intro hne
        have hold : slot sb (pending u i din₁) (.entry i (fbn - NDIRECT)) =
            slot sb (pending s i din) (.entry i (fbn - NDIRECT)) := hfill.other _ nofun
        rw [hent.kept (hold ▸ hne), hold]
      · intro j k b hb
        have hbu : Ref sb (pending u i din₁) (fileSlot j k) b := by
          rw [Ref, hfill.other _ (fileSlot_ne_index j k i)]
          exact hb
        have hne : b ≠ (din₁.addrs NDIRECT).toNat := by
          rintro rfl
          exact fileSlot_ne_index j k i (hfill.books.exact.owner _ _ _ hbu hfill.ref)
        rw [hent.books.disk, h.disk, hother b hne, himage]
      · intro c hc
        rw [hother c (by omega), himage]
    · have hread : rsect (din₁.addrs NDIRECT).toNat u = .error .exit := by
        rw [rsect, if_neg (hfill.books.sectors ▸ hsector)]
      rw [wp, hread]
      omega

end MkfsBooks
