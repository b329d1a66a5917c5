import OsEngineering.BoundedLoops
import OsEngineering.CopyOut
import OsEngineering.PageGrowth

/-! exec() of any file: the loop over the program headers keeps the user pages those of [0, sz),
and stores what it reads in frames of the new page directory. -/
namespace ElfLoading

open ByteBlock FaultState FramedTriples PageTables PageTableMappings PageFrames PageClearing
open PageMapping KernelMap PageGrowth CopyOut UserProcesses

variable {img : KernelImage} {s₀ s t : Kmem} {d e : PageDir} {sz newsz : Word} {readi : Reader}

/-- readi() of a regular file or a directory with that content. -/
def fileReader (content : List Byte) : Reader := fun off n =>
  if content.length < off.toNat ∨ off + n < off then none
  else some ((content.drop off.toNat).take n.toNat)

theorem length_fileReader {content bs : List Byte} {off n : Word}
    (h : fileReader content off n = some bs) : bs.length ≤ n.toNat := by
  unfold fileReader at h
  split at h
  · cases h
  · cases h
    exact List.length_take_le _ _

/-! Frames that are not free -/

/-- The pages that kalloc() may give are usable and listed once. -/
structure Sane (img : KernelImage) (s : Kmem) : Prop where
  usable : ∀ f ∈ s.freelist, Usable img f
  nodup : s.freelist.Nodup

theorem owned_le (h : Owns d s₀ s) : (s.freelist : Multiset Frame) ≤ s₀.freelist := by
  rw [← h.books]
  exact Multiset.le_add_right _ _

theorem owned_subset (h : Owns d s₀ s) {f : Frame} (hf : f ∈ s.freelist) : f ∈ s₀.freelist :=
  Multiset.mem_of_le (owned_le h) hf

theorem owned_sane (hs : Sane img s₀) (h : Owns d s₀ s) : Sane img s where
  usable f hf := hs.usable f (owned_subset h hf)
  nodup := Multiset.coe_nodup.mp (Multiset.nodup_of_le (owned_le h) (Multiset.coe_nodup.mpr hs.nodup))

/-- The frames of the new directory are not free. -/
theorem owned_apart (hs : Sane img s₀) (h : Owns d s₀ s) {f : Frame} (hf : Holds d f) :
    f ∉ s.freelist := by
  intro hfree
  have hnodup : ((s.freelist : Multiset Frame) + frames d).Nodup := by
    rw [h.books]
    exact Multiset.coe_nodup.mpr hs.nodup
  have hdisjoint := (Multiset.nodup_add.mp hnodup).2.2
  exact Multiset.disjoint_left.mp hdisjoint hfree (mem_of_holds hf)

theorem holds_page {b : Word} (hb : b < KERNBASE) (hp : d.present b) : Holds d (frameOf d b) :=
  Or.inr (Or.inr ⟨b, hb, hp, rfl⟩)

/-- Code that keeps the free list and writes to frames of the directory only. -/
theorem owned_write (h : Owns d s₀ s) (hfree : t.freelist = s.freelist)
    (hmem : ∀ f, ¬ Holds d f → t.mem f = s.mem f) : Owns d s₀ t where
  books := by
    rw [hfree]
    exact h.books
  mem := by
    intro f hf
    rw [hmem f fun hheld => hf (h.holds hheld), h.mem f hf]

/-! The directory between two program headers -/

/-- The user pages are those of [0, sz); what the directory has was free in `s₀`. -/
structure Loading (s₀ : Kmem) (d : PageDir) (sz : Word) (s : Kmem) : Prop where
  owns : Owns d s₀ s
  low : sz < KERNBASE
  pages : Exact d (up sz.toNat)
  user : ∀ b, accessible d b ↔ b.toNat < up sz.toNat

theorem up_kernbase {sz : Word} (h : sz < KERNBASE) : up sz.toNat ≤ KERNBASE.toNat := by
  have hbase : KERNBASE.toNat = 2147483648 := rfl
  rw [BitVec.lt_def] at h
  simp only [up]
  omega

theorem Loading.below {b : Word} (h : Loading s₀ d sz s) (hb : accessible d b) : b < KERNBASE := by
  have huser := (h.user b).mp hb
  have hup := up_kernbase h.low
  rw [BitVec.lt_def]
  omega

theorem Loading.holds {b : Word} (h : Loading s₀ d sz s) (hb : accessible d b) :
    Holds d (frameOf d b) := holds_page (h.below hb) hb.1

theorem Loading.start (h : Owns d s₀ s) (hd : ∀ b, d.pte b = kernelPte img b) :
    Loading s₀ d 0 s := by
  have hdoc := kernelPte_documented hd
  have hnone : ∀ b, ¬ accessible d b := fun b hb => hdoc.kernel b hb.1 hb.2
  refine ⟨h, by decide, ?_, ?_⟩
  · intro b hb
    refine iff_of_false (fun hp => ?_) (Nat.not_lt_zero _)
    have hmem : ¬ (KERNBASE ≤ b ∧ b < KERNBASE + PHYSTOP) := fun h =>
      BitVec.not_lt.mpr h.1 hb
    have hdev : ¬ DEVSPACE ≤ b := by
      have hbase : KERNBASE.toNat < DEVSPACE.toNat := by decide
      rw [BitVec.lt_def] at hb
      rw [BitVec.le_def]
      omega
    have htrans := hdoc.unmapped b hmem hdev
    rw [KernelMap.translate, if_pos hp] at htrans
    cases htrans
  · intro b
    exact iff_of_false (hnone b) (Nat.not_lt_zero _)

theorem pages_up (b sz : Word) : pages sz ≤ page b ↔ up sz.toNat ≤ b.toNat := by
  simp only [pages, page, up]
  omega

/-- allocuvm() in the loop: without a result the directory can be given back, and with one it
has grown, or stayed where the segment ends below sz. -/
theorem allocuvm_loading (hs : Sane img s₀) (h : Loading s₀ d sz s) (newsz : Word) :
    ∃ e r t, allocuvm img d sz newsz s = .ok ((e, r), t) ∧ Owns e s₀ t ∧
      (r ≠ 0 → newsz < KERNBASE ∧ newsz ≤ r ∧ Loading s₀ e r t) := by
  have hsane := owned_sane hs h.owns
  have hapart : ∀ f, Holds d f → f ∉ s.freelist := fun f hf => owned_apart hs h.owns hf
  obtain ⟨e, r, t, hrun, hhigh, hstay, hgrow⟩ :=
    allocuvm_exact img newsz h.low h.pages s hsane.usable hsane.nodup hapart
  have hspec : Spec (supply s₀) (frames d) (allocuvm img d sz newsz) fun r => frames r.1 :=
    allocuvm_spec d sz newsz
  refine ⟨e, r, t, hrun, ?_⟩
  by_cases hbase : KERNBASE ≤ newsz
  · obtain ⟨rfl, rfl, rfl⟩ := hhigh hbase
    exact ⟨h.owns, fun hr => absurd rfl hr⟩
  · have hnew := BitVec.not_le.mp hbase
    by_cases hlt : newsz < sz
    · obtain ⟨rfl, rfl, rfl⟩ := hstay hlt
      exact ⟨h.owns, fun _ => ⟨hnew, BitVec.le_of_lt hlt, h⟩⟩
    · have hge := BitVec.not_lt.mp hlt
      rcases hgrow hge hnew with ⟨rfl, hgrown⟩ | ⟨rfl, hback⟩
      · have howns : Owns e s₀ t := h.owns.step hspec hrun fun f hf =>
          hgrown.memory f fun hfree => hf (owned_subset h.owns hfree)
        refine ⟨howns, fun _ => ⟨hnew, BitVec.le_refl _, howns, hnew, hgrown.exact, ?_⟩⟩
        intro b
        have hrange : InRange sz r b ↔ _ := inRange_iff (BitVec.le_of_lt h.low) b
        have hmono := pages_mono hge
        have hlo := pages_up b sz
        have hhi := pages_up b r
        by_cases hin : InRange sz r b
        · have hb := hrange.mp hin
          have hlow : b < KERNBASE := by
            have hup := up_kernbase hnew
            rw [BitVec.lt_def]
            omega
          have hpres : e.present b := (hgrown.exact b hlow).mpr (by omega)
          exact iff_of_true ⟨hpres, (hgrown.access b hin).2⟩ (by omega)
        · have hpte := hgrown.old b hin
          have hacc : accessible e b ↔ accessible d b := by
            simp only [accessible, PageDir.present, user, hpte]
          rw [hrange] at hin
          rw [hacc, h.user b]
          omega
      · refine ⟨h.owns.step hspec hrun fun f hf => ?_, fun hr => absurd rfl hr⟩
        exact hback.memory f fun hfree => hf (owned_subset h.owns hfree)

/-! loaduvm() -/

/-- The frames in which [va, va + n) lies. -/
def Within (d : PageDir) (va : Word) (n : ℕ) (f : Frame) : Prop :=
  ∃ i < n, frameOf d (at32 va i) = f

theorem loadFrom_run {addr offset : Word} {k : ℕ} {i n : Word}
    (hn : addr.toNat + n.toNat ≤ KERNBASE.toNat) (hi : i.toNat % 4096 = 0)
    (hk : n.toNat ≤ i.toNat + k * 4096)
    (htables : ∀ j < n.toNat, d.present (at32 addr j)) (s : Kmem) :
    ∃ ok t, loadFrom d addr readi offset n k i s = .ok (ok, t) ∧ t.freelist = s.freelist ∧
      ∀ f, ¬ Within d addr n.toNat f → t.mem f = s.mem f := by
  induction k generalizing i s with
  | zero =>
    have hlt : ¬ i < n := by
      rw [BitVec.lt_def]
      omega
    rw [loadFrom, if_neg hlt]
    exact ⟨true, s, rfl, rfl, fun _ _ => rfl⟩
  | succ k ih =>
    rw [loadFrom]
    by_cases hlt : i < n
    · rw [if_pos hlt, walkpgdir_false]
      have hltn := BitVec.lt_def.mp hlt
      have hat : at32 addr i.toNat = addr + i := by
        rw [at32, BitVec.ofNat_toNat, BitVec.setWidth_eq]
      have htable : (d.pde (PDX (addr + i))).isSome :=
        table_of_present (hat ▸ htables i.toNat hltn)
      have hframe : Within d addr n.toNat (frameOf d (addr + i)) := ⟨i.toNat, hltn, by rw [hat]⟩
      rw [if_pos htable]
      simp only [pure_bind]
      generalize (if n - i < PGSIZE then n - i else PGSIZE) = m
      cases readi (offset + i) m with
      | none => exact ⟨false, s, rfl, rfl, fun _ _ => rfl⟩
      | some bytes =>
        have hstore : ∃ u, store (frameAt (PTE_ADDR (d.pte (addr + i)))) 0 bytes s = .ok ((), u) ∧
            u.freelist = s.freelist ∧ ∀ f, ¬ Within d addr n.toNat f → u.mem f = s.mem f := by
          refine ⟨_, rfl, rfl, fun f hf => Function.update_of_ne ?_ _ _⟩
          rintro rfl
          exact hf hframe
        obtain ⟨u, hrun, hfree, hmem⟩ := hstore
        by_cases hlen : bytes.length = m.toNat
        · have hnext := BoundedLoops.next_page hlt (by rw [BitVec.le_def]; omega)
          obtain ⟨ok, t, hrest, hfree', hmem'⟩ := ih (i := i + PGSIZE) (by omega) (by omega) u
          refine ⟨ok, t, ?_, hfree'.trans hfree, fun f hf => (hmem' f hf).trans (hmem f hf)⟩
          refine (run_bind hrun).trans ?_
          rw [if_pos hlen]
          exact hrest
        · refine ⟨false, u, ?_, hfree, hmem⟩
          refine (run_bind hrun).trans ?_
          rw [if_neg hlen]
          rfl
    · rw [if_neg hlt]
      exact ⟨true, s, rfl, rfl, fun _ _ => rfl⟩

/-- A segment below sz. -/
theorem loaduvm_run {addr n : Word} (readi : Reader) (offset : Word) (h : Loading s₀ d sz s) (ha : addr.toNat % 4096 = 0)
    (hn : addr.toNat + n.toNat ≤ sz.toNat) :
    ∃ ok t, loaduvm d addr readi offset n s = .ok (ok, t) ∧ Loading s₀ d sz t ∧
      t.freelist = s.freelist ∧ ∀ f, ¬ Within d addr n.toNat f → t.mem f = s.mem f := by
  have hlow := BitVec.lt_def.mp h.low
  have hup := up_kernbase h.low
  have hat : ∀ j < n.toNat, accessible d (at32 addr j) := by
    intro j hj
    have hsum : (at32 addr j).toNat = addr.toNat + j := by
      rw [at32, BitVec.toNat_add, BitVec.toNat_ofNat]
      have hbase : KERNBASE.toNat = 2147483648 := rfl
      omega
    rw [h.user, hsum]
    simp only [up]
    omega
  have hbound := BoundedLoops.enough_rounds 0 n
  have hfrom : ∃ ok t, loadFrom d addr readi offset n bound 0 s = .ok (ok, t) ∧ _ :=
    loadFrom_run (by omega) rfl hbound (fun j hj => (hat j hj).1) s
  obtain ⟨ok, t, hrun, hfree, hmem⟩ := hfrom
  refine ⟨ok, t, ?_, ⟨?_, h.low, h.pages, h.user⟩, hfree, hmem⟩
  · rw [loaduvm, if_neg (not_not.mpr ha)]
    exact hrun
  · refine owned_write h.owns hfree fun f hf => hmem f ?_
    rintro ⟨j, hj, rfl⟩
    exact hf (h.holds (hat j hj))

/-! The loop over the program headers -/

/-- The checks between a program header and its loaduvm(). -/
structure Accepted (ph : ProgHdr) (sz : Word) : Prop where
  file : ¬ ph.memsz < ph.filesz
  wrap : ¬ ph.vaddr + ph.memsz < ph.vaddr
  fits : ph.vaddr + ph.memsz ≤ sz

theorem Accepted.inside {ph : ProgHdr} (h : Accepted ph sz) :
    ph.vaddr.toNat + ph.filesz.toNat ≤ sz.toNat := by
  have hfile := h.file
  have hwrap := h.wrap
  have hfits := h.fits
  rw [BitVec.lt_def, BitVec.toNat_add] at hwrap
  rw [BitVec.lt_def] at hfile
  rw [BitVec.le_def, BitVec.toNat_add] at hfits
  omega

/-- The loop runs to its end: it gives the directory back for cleanup, or it has loaded. -/
theorem loadSegments_run (hs : Sane img s₀) {k : ℕ} {off : Word} (h : Loading s₀ d sz s) :
    ∃ e r t, loadSegments img readi k off d sz s = .ok ((e, r), t) ∧ Owns e s₀ t ∧
      ∀ n, r = some n → Loading s₀ e n t := by
  induction k generalizing off d sz s with
  | zero =>
    refine ⟨d, some sz, s, rfl, h.owns, ?_⟩
    rintro n hn
    cases hn
    exact h
  | succ k ih =>
    have hstop : ∀ {e t}, Owns e s₀ t → ∃ e' r t', (pure (e, none) : VM (PageDir × Option Word)) t =
        .ok ((e', r), t') ∧ Owns e' s₀ t' ∧ ∀ n, r = some n → Loading s₀ e' n t' :=
      fun howns => ⟨_, none, _, rfl, howns, nofun⟩
    rw [loadSegments]
    cases hread : readAll readi off 32 with
    | none => exact hstop h.owns
    | some bs =>
      dsimp only
      by_cases htype : (decodePh bs).type ≠ ELF_PROG_LOAD
      · rw [if_pos htype]
        exact ih h
      rw [if_neg htype]
      by_cases hfile : (decodePh bs).memsz < (decodePh bs).filesz
      · rw [if_pos hfile]
        exact hstop h.owns
      rw [if_neg hfile]
      by_cases hwrap : (decodePh bs).vaddr + (decodePh bs).memsz < (decodePh bs).vaddr
      · rw [if_pos hwrap]
        exact hstop h.owns
      rw [if_neg hwrap]
      obtain ⟨e, n, u, halloc, howns, hgrown⟩ :=
        allocuvm_loading hs h ((decodePh bs).vaddr + (decodePh bs).memsz)
      rw [run_bind halloc]
      dsimp only
      by_cases hzero : n = 0
      · rw [if_pos hzero]
        exact hstop howns
      rw [if_neg hzero]
      by_cases halign : (decodePh bs).vaddr.toNat % 4096 ≠ 0
      · rw [if_pos halign]
        exact hstop howns
      rw [if_neg halign]
      obtain ⟨-, hfits, hload⟩ := hgrown hzero
      have hinside := (Accepted.mk hfile hwrap hfits).inside
      obtain ⟨ok, v, hrun, hnext, -, -⟩ := loaduvm_run readi (decodePh bs).off hload
        (not_not.mp halign) hinside
      rw [run_bind hrun]
      cases ok with
      | true => exact ih hnext
      | false => exact hstop hnext.owns

theorem Loading.segments {k : ℕ} {off n : Word} (hs : Sane img s₀) (h : Loading s₀ d sz s)
    (hrun : loadSegments img readi k off d sz s = .ok ((e, some n), t)) : Loading s₀ e n t := by
  have hall : ∃ e r t, loadSegments img readi k off d sz s = .ok ((e, r), t) ∧ _ :=
    loadSegments_run hs h
  obtain ⟨e', r, t', hrun', -, hload⟩ := hall
  rw [hrun] at hrun'
  cases hrun'
  exact hload n rfl

/-- The state before the program header `i` of a run of the loop; a turn is a loop over one
header. -/
inductive AtHeader (img : KernelImage) (readi : Reader) (phoff : Word) (d₀ : PageDir) (s₁ : Kmem) :
    ℕ → Word → PageDir → Word → Kmem → Prop where
  | first : AtHeader img readi phoff d₀ s₁ 0 phoff d₀ 0 s₁
  | next {i : ℕ} {off sz n : Word} {d e : PageDir} {s t : Kmem}
      (h : AtHeader img readi phoff d₀ s₁ i off d sz s)
      (hrun : loadSegments img readi 1 off d sz s = .ok ((e, some n), t)) :
      AtHeader img readi phoff d₀ s₁ (i + 1) (off + 32) e n t

theorem loadSegments_turn (img : KernelImage) (readi : Reader) (k : ℕ) (off : Word) (d : PageDir)
    (sz : Word) : loadSegments img readi (k + 1) off d sz = (do
      let (d, r) ← loadSegments img readi 1 off d sz
      match r with
      | none => pure (d, none)
      | some sz => loadSegments img readi k (off + 32) d sz) := by
  rw [loadSegments, loadSegments]
  cases readAll readi off 32 with
  | none => rfl
  | some bs =>
    dsimp only
    split
    · rfl
    · split
      · rfl
      · split
        · rfl
        · rw [bind_assoc]
          congr 1
          funext r
          split
          · rfl
          · split
            · rfl
            · rw [bind_assoc]
              congr 1
              funext ok
              cases ok with
              | true => rfl
              | false => rfl

/-- A loop over `k` headers passes `k` of these states. -/
theorem AtHeader.passes {phoff off n : Word} {d₀ : PageDir} {s₁ : Kmem} {i k : ℕ}
    (h : AtHeader img readi phoff d₀ s₁ i off d sz s)
    (hrun : loadSegments img readi k off d sz s = .ok ((e, some n), t)) :
    ∃ last, AtHeader img readi phoff d₀ s₁ (i + k) last e n t := by
  induction k generalizing i off d sz s with
  | zero =>
    cases hrun
    exact ⟨off, h⟩
  | succ k ih =>
    rw [loadSegments_turn] at hrun
    obtain ⟨⟨e', r⟩, u, hturn, hrest⟩ := bind_ok hrun
    cases r with
    | none => cases hrest
    | some m =>
      obtain ⟨last, hlast⟩ := ih (h.next hturn) hrest
      have hcount : i + 1 + k = i + (k + 1) := by omega
      rw [hcount] at hlast
      exact ⟨last, hlast⟩

theorem AtHeader.loading {phoff off : Word} {d₀ : PageDir} {s₁ : Kmem} {i : ℕ}
    (hs : Sane img s₀) (hstart : Loading s₀ d₀ 0 s₁)
    (h : AtHeader img readi phoff d₀ s₁ i off d sz s) : Loading s₀ d sz s := by
  induction h with
  | first => exact hstart
  | next _ hrun ih => exact ih.segments hs hrun

/-- A loaduvm() at this header writes to frames of user pages of the new directory only: they were
free when exec() began, and are not free now. -/
def StoresInside (img : KernelImage) (readi : Reader) (s₀ : Kmem) (off : Word) (d : PageDir)
    (sz : Word) (s : Kmem) : Prop :=
  ∀ bs e n u ok v, readAll readi off 32 = some bs → ¬ (decodePh bs).memsz < (decodePh bs).filesz →
    ¬ (decodePh bs).vaddr + (decodePh bs).memsz < (decodePh bs).vaddr →
    allocuvm img d sz ((decodePh bs).vaddr + (decodePh bs).memsz) s = .ok ((e, n), u) → n ≠ 0 →
    loaduvm e (decodePh bs).vaddr readi (decodePh bs).off (decodePh bs).filesz u = .ok (ok, v) →
    ∀ f, v.mem f ≠ u.mem f → f ∈ s₀.freelist ∧ f ∉ v.freelist ∧ ∃ b, accessible e b ∧ frameOf e b = f

theorem Loading.storesInside {off : Word} (hs : Sane img s₀) (h : Loading s₀ d sz s) :
    StoresInside img readi s₀ off d sz s := by
  intro bs e n u ok v hread hfile hwrap halloc hzero hrun f hf
  obtain ⟨e', n', u', halloc', -, hgrown⟩ :=
    allocuvm_loading hs h ((decodePh bs).vaddr + (decodePh bs).memsz)
  rw [halloc] at halloc'
  cases halloc'
  obtain ⟨-, hfits, hload⟩ := hgrown hzero
  have hinside := (Accepted.mk hfile hwrap hfits).inside
  have halign : (decodePh bs).vaddr.toNat % 4096 = 0 := by
    by_contra hne
    rw [loaduvm, if_pos hne] at hrun
    cases hrun
  obtain ⟨ok', v', hrun', hnext, -, hmem⟩ :=
    loaduvm_run readi (decodePh bs).off hload halign hinside
  rw [hrun] at hrun'
  cases hrun'
  have hwithin : Within e (decodePh bs).vaddr (decodePh bs).filesz.toNat f := by
    by_contra hno
    exact hf (hmem f hno)
  obtain ⟨j, hj, rfl⟩ := hwithin
  have hacc : accessible e (at32 (decodePh bs).vaddr j) := by
    have hlow := BitVec.lt_def.mp hload.low
    have hbase : KERNBASE.toNat = 2147483648 := rfl
    have hsum : (at32 (decodePh bs).vaddr j).toNat = (decodePh bs).vaddr.toNat + j := by
      rw [at32, BitVec.toNat_add, BitVec.toNat_ofNat]
      omega
    rw [hload.user, hsum]
    simp only [up]
    omega
  have hheld := hload.holds hacc
  exact ⟨hload.owns.holds hheld, owned_apart hs hnext.owns hheld, _, hacc, rfl⟩

/-! copyout() writes to accessible pages, or reads an entry of a missing page table -/

/-- Only user pages of `d` have been written. -/
structure Stays (d : PageDir) (s t : Kmem) : Prop where
  free : t.freelist = s.freelist
  mem : ∀ f, (∀ b, accessible d b → frameOf d b ≠ f) → t.mem f = s.mem f

theorem Stays.refl (d : PageDir) (s : Kmem) : Stays d s s := ⟨rfl, fun _ _ => rfl⟩

theorem Stays.trans {u : Kmem} (h : Stays d s t) (g : Stays d t u) : Stays d s u :=
  ⟨g.free.trans h.free, fun f hf => (g.mem f hf).trans (h.mem f hf)⟩

/-- A run that ends keeps to the user pages; one that does not has met a missing page table. -/
abbrev Careful {α : Type} (d : PageDir) (c : VM α) : Prop :=
  ∀ s, wp c (fun _ t => Stays d s t) (fun e => e = .null) s

theorem careful_pure {α : Type} (d : PageDir) (a : α) : Careful d (pure a : VM α) :=
  fun s => wp_pure (Stays.refl d s)

theorem careful_bind {α β : Type} {c : VM α} {f : α → VM β} (hc : Careful d c)
    (hf : ∀ a, Careful d (f a)) : Careful d (c >>= f) := by
  intro s
  apply wp_bind
  refine wp_mono (hc s) ?_
  intro a t ht
  exact wp_mono (hf a t) fun _ _ hu => ht.trans hu

theorem careful_copyoutFrom (d : PageDir) {k : ℕ} (va : Word) {buf : List Byte}
    (hk : buf.length ≤ k) : Careful d (copyoutFrom d k va buf) := by
  induction k generalizing va buf with
  | zero =>
    rw [copyoutFrom, if_pos (List.eq_nil_of_length_eq_zero (Nat.le_zero.mp hk))]
    exact careful_pure d true
  | succ k ih =>
    intro s
    by_cases hbuf : buf = []
    · rw [copyoutFrom, if_pos hbuf]
      exact careful_pure d true s
    · by_cases hacc : accessible d va
      · have hacc' := (accessible_congr (down_page va)).mpr hacc
        rw [copyoutFrom, if_neg hbuf]
        dsimp only
        rw [uva2ka_some hacc', pure_bind]
        refine careful_bind (fun s => ?_) (fun _ => ih _ ?_) s
        · refine ⟨rfl, fun f hf => Function.update_of_ne ?_ _ _⟩
          exact (hf _ hacc').symm
        · have hlen := List.length_pos_iff.mpr hbuf
          rw [offset_toNat, List.length_drop]
          omega
      · obtain ⟨hstop, hnull⟩ := copyoutFrom_hole (k := k) hbuf hacc s
        by_cases htable : (d.pde (PDX va)).isSome
        · exact wp_of_run (hstop htable) (Stays.refl d s)
        · rw [wp, hnull (by simpa using htable)]

theorem careful_copyout (d : PageDir) (va : Word) (buf : List Byte) :
    Careful d (copyout d va buf) := careful_copyoutFrom d va (Nat.le_refl _)

theorem careful_pushArgs (d : PageDir) (argc : ℕ) (args : List (List Byte)) (sp : Word) :
    Careful d (pushArgs d argc args sp) := by
  induction args generalizing argc sp with
  | nil => exact careful_pure d _
  | cons arg args ih =>
    rw [pushArgs]
    split
    · exact careful_pure d _
    · apply careful_bind (careful_copyout d _ _)
      intro ok
      cases ok with
      | false => exact careful_pure d _
      | true =>
        apply careful_bind (ih _ _)
        intro r
        cases r with
        | none => exact careful_pure d _
        | some x => exact careful_pure d _

/-! The stack and the guard page -/

theorem allocStack_run {top : Word} (hs : Sane img s₀) (h : Loading s₀ d sz s)
    (htop : top = PGROUNDUP sz + 2 * PGSIZE) :
    ∃ e r t, allocuvm img d (PGROUNDUP sz) top s = .ok ((e, r), t) ∧
      Owns e s₀ t ∧ (r ≠ 0 → r.toNat = up sz.toNat + 8192 ∧ Loading s₀ e r t) := by
  have hbase : KERNBASE.toNat = 2147483648 := rfl
  have htwo : (2 * PGSIZE).toNat = 8192 := rfl
  have hround := PGROUNDUP_toNat (Nat.le_of_lt (BitVec.lt_def.mp h.low))
  have hup := up_kernbase h.low
  have hsum : top.toNat = up sz.toNat + 8192 := by
    rw [htop, BitVec.toNat_add, htwo, hround]
    omega
  have hupup : up (PGROUNDUP sz).toNat = up sz.toNat := by
    rw [hround]
    simp only [up]
    omega
  by_cases hlow : PGROUNDUP sz < KERNBASE
  · have hround' : Loading s₀ d (PGROUNDUP sz) s := by
      refine ⟨h.owns, hlow, ?_, ?_⟩
      · rw [hupup]
        exact h.pages
      · rw [hupup]
        exact h.user
    obtain ⟨e, r, t, hrun, howns, hgrown⟩ :=
      allocuvm_loading hs hround' top
    refine ⟨e, r, t, hrun, howns, fun hr => ?_⟩
    obtain ⟨-, -, hload⟩ := hgrown hr
    obtain ⟨-, hsize, -⟩ := allocuvm_ok hrun hr hlow hround'.pages
    refine ⟨?_, hload⟩
    rcases hsize with rfl | hlt
    · exact hsum
    · rw [BitVec.lt_def] at hlt
      omega
  · have hbig : KERNBASE ≤ top := by
      rw [BitVec.lt_def] at hlow
      rw [BitVec.le_def]
      omega
    refine ⟨d, 0, s, ?_, h.owns, fun hr => absurd rfl hr⟩
    rw [allocuvm, if_pos hbig]
    rfl

/-- clearpteu() of a user page. -/
structure Guarded (e d : PageDir) (guard : Word) : Prop where
  access : ∀ b, accessible d b ↔ accessible e b ∧ page b ≠ page guard
  frame : ∀ b, frameOf d b = frameOf e b
  tables : ∀ i, (d.pde i).isSome ↔ (e.pde i).isSome

theorem clearpteu_run {uva : Word} (h : d.present uva) (s : Kmem) :
    ∃ e, clearpteu d uva s = .ok (e, s) ∧ Guarded d e uva := by
  have htable := table_of_present h
  refine ⟨d.setPte uva (d.pte uva &&& ~~~PTE_U), ?_, ?_, ?_, ?_⟩
  · rw [clearpteu, walkpgdir_false, if_pos htable]
    rfl
  · intro b
    by_cases hb : page b = page uva
    · have hzero : d.pte uva &&& ~~~PTE_U &&& PTE_U = 0 := by
        rw [BitVec.and_assoc]
        have hmask : ~~~PTE_U &&& PTE_U = 0 := by decide
        rw [hmask]
        exact BitVec.and_zero
      refine iff_of_false (fun hacc => hacc.2 ?_) fun hacc => hacc.2 hb
      rw [pte_setPte_self htable hb]
      exact hzero
    · simp only [accessible, PageDir.present, user, pte_setPte_ne d hb]
      exact (and_iff_left hb).symm
  · intro b
    rw [frameOf, frameOf]
    by_cases hb : page b = page uva
    · have hmask : ~~~PTE_U &&& ~~~(0xFFF : Word) = ~~~0xFFF := by decide
      rw [pte_setPte_self htable hb, pte_congr d hb, PTE_ADDR, PTE_ADDR, BitVec.and_assoc, hmask]
    · rw [pte_setPte_ne d hb]
  · intro i
    have hframe := congrArg Option.isSome (setPte_tables d uva (d.pte uva &&& ~~~PTE_U) i)
    rw [Option.isSome_map, Option.isSome_map] at hframe
    rw [hframe]

/-! exec() -/

/-- The new directory is installed, or everything is given back. -/
def Settled (s₀ : Kmem) : Option Image → Kmem → Prop
  | none, t => Restored s₀ t
  | some im, t => Owns im.pgdir s₀ t

theorem bad_run (hs : Sane img s₀) (h : Owns d s₀ s) :
    wp (bad img d) (fun r t => r = none ∧ Restored s₀ t) (fun e => e = .null) s := by
  obtain ⟨t, hrun, hback⟩ := h.restored hs.usable
  exact wp_bind_run hrun (wp_pure ⟨rfl, hback⟩)

theorem guarded_owns {guard : Word} (h : Owns d s₀ s) (hrun : clearpteu d guard s = .ok (e, t))
    (hmem : t.mem = s.mem) : Owns e s₀ t := by
  have hspec : Spec (supply s₀) (frames d) (clearpteu d guard) frames := clearpteu_spec d guard
  exact h.step hspec hrun fun f _ => congrFun hmem f

theorem owns_stays {u : Kmem} (h : Loading s₀ d sz u) {guard : Word} (hg : Guarded d e guard)
    (howns : Owns e s₀ s) (hstay : Stays e s t) : Owns e s₀ t := by
  refine owned_write howns hstay.free fun f hf => hstay.mem f ?_
  rintro b hacc rfl
  have hlow := h.below ((hg.access b).mp hacc).1
  exact hf (holds_page hlow hacc.1)

/-! The parts of buildStack() -/

/-- The words below the argument strings. -/
def ustack (argc sp : Word) (ptrs : List Word) : List Word :=
  [0xffffffff, argc, sp - (argc + 1) * 4] ++ ptrs ++ [0]

/-- After the argument strings. -/
def pushFrame (img : KernelImage) (argc entry : Word) (d : PageDir) (sz sp : Word)
    (ptrs : List Word) : VM (Option Image) := do
  if ← copyout d (sp - (3 + argc + 1) * 4) ((ustack argc sp ptrs).flatMap wordBytes) then
    pure (some ⟨d, sz, entry, sp - (3 + argc + 1) * 4⟩)
  else bad img d

/-- After the guard page. -/
def pushAll (img : KernelImage) (argv : List (List Byte)) (entry : Word) (d : PageDir)
    (sz : Word) : VM (Option Image) := do
  match ← pushArgs d 0 argv sz with
  | none => bad img d
  | some (sp, ptrs) => pushFrame img (BitVec.ofNat 32 argv.length) entry d sz sp ptrs

theorem buildStack_eq (img : KernelImage) (argv : List (List Byte)) (entry : Word) (d : PageDir)
    (sz : Word) : buildStack img argv entry d sz = (do
      let r ← allocuvm img d (PGROUNDUP sz) (PGROUNDUP sz + 2 * PGSIZE)
      if r.2 = 0 then bad img r.1
      else do
        let d ← clearpteu r.1 (r.2 - 2 * PGSIZE)
        pushAll img argv entry d r.2) := rfl

theorem pushAll_run (hs : Sane img s₀) (argv : List (List Byte)) (entry r : Word)
    (hload : Loading s₀ d sz s) {guard : Word} (hg : Guarded d e guard) (h : Owns e s₀ s) :
    wp (pushAll img argv entry e r) (Settled s₀) (fun e => e = .null) s := by
  have hbad : ∀ {t}, Owns e s₀ t → wp (bad img e) (Settled s₀) (fun e => e = .null) t := by
    intro t howns
    refine wp_mono (bad_run hs howns) ?_
    rintro r u ⟨rfl, hback⟩
    exact hback
  apply wp_bind
  refine wp_mono (careful_pushArgs e 0 argv r s) ?_
  intro pushed u hu
  have hleft := owns_stays hload hg h hu
  cases pushed with
  | none => exact hbad hleft
  | some x =>
    apply wp_bind
    refine wp_mono (careful_copyout e _ _ u) ?_
    intro ok v hv
    have hlast := owns_stays hload hg hleft hv
    cases ok with
    | false => exact hbad hlast
    | true => exact hlast

/-- A run that ends in `Q`, or at a missing page table in copyout(). -/
inductive Outcome (Q : Option Image → Kmem → Prop) : Except Fault (Option Image × Kmem) → Prop where
  | ends {r : Option Image} {t : Kmem} (h : Q r t) : Outcome Q (.ok (r, t))
  | null : Outcome Q (.error .null)

theorem outcome_of_wp {Q : Option Image → Kmem → Prop} {c : VM (Option Image)}
    (h : wp c Q (fun e => e = .null) s) : Outcome Q (c s) := by
  unfold wp at h
  cases hc : c s with
  | error e =>
    rw [hc] at h
    obtain rfl := h
    exact .null
  | ok x =>
    rw [hc] at h
    exact .ends h

theorem bad_outcome (hs : Sane img s₀) (h : Owns d s₀ s) :
    Outcome (Settled s₀) (bad img d s) := by
  apply outcome_of_wp
  refine wp_mono (bad_run hs h) ?_
  rintro r u ⟨rfl, hback⟩
  exact hback

theorem buildStack_run (hs : Sane img s₀) (argv : List (List Byte)) (entry : Word)
    (h : Loading s₀ d sz s) : Outcome (Settled s₀) (buildStack img argv entry d sz s) := by
  rw [buildStack_eq]
  generalize htop : PGROUNDUP sz + 2 * PGSIZE = top
  obtain ⟨e, r, t, halloc, howns, hgrown⟩ := allocStack_run hs h htop.symm
  rw [run_bind halloc]
  dsimp only
  by_cases hzero : r = 0
  · rw [if_pos hzero]
    exact bad_outcome hs howns
  · rw [if_neg hzero]
    obtain ⟨hsize, hload⟩ := hgrown hzero
    have hguard : accessible e (r - 2 * PGSIZE) := by
      have htwo : (2 * PGSIZE).toNat = 8192 := rfl
      rw [hload.user, BitVec.toNat_sub_of_le (by rw [BitVec.le_def]; omega), htwo]
      simp only [up]
      omega
    obtain ⟨e', hclear, hg⟩ := clearpteu_run hguard.1 t
    rw [run_bind hclear]
    exact outcome_of_wp (pushAll_run hs argv entry r hload hg (guarded_owns howns hclear rfl))

/-- Whatever the file contains, exec() installs the new directory or gives everything back, or it
ends at a missing page table in copyout(). -/
theorem exec_run (hs : Sane img s₀) (file : Option Reader) (argv : List (List Byte)) :
    Outcome (Settled s₀) (exec img file argv s₀) := by
  have hsame : Outcome (Settled s₀) (.ok (none, s₀)) := .ends ⟨List.Perm.refl _, fun _ _ => rfl⟩
  cases file with
  | none => exact hsame
  | some readi =>
    rw [exec]
    cases readAll readi 0 52 with
    | none => exact hsame
    | some bs =>
      dsimp only
      split
      · exact hsame
      · obtain ⟨r, t, hrun, hr⟩ := setupkvm_run hs.usable
        rw [run_bind hrun]
        cases r with
        | none => exact .ends hr
        | some d =>
          have hstart := Loading.start hr.1 hr.2
          generalize (decodeElf bs).phnum.toNat = k
          generalize (decodeElf bs).phoff = off
          have hall : ∃ e r u, loadSegments img readi k off d 0 t = .ok ((e, r), u) ∧ _ :=
            loadSegments_run hs hstart
          obtain ⟨e, n, u, hload, howns, hnext⟩ := hall
          dsimp only
          rw [run_bind hload]
          cases n with
          | none => exact bad_outcome hs howns
          | some sz => exact buildStack_run hs argv (decodeElf bs).entry (hnext sz rfl)

/-- The user pages are those of [0, PGROUNDUP(sz)). -/
structure Loaded (d : PageDir) (sz : Word) : Prop where
  low : sz < KERNBASE
  pages : ∀ b, b < KERNBASE → (d.present b ↔ b < PGROUNDUP sz)
  user : ∀ b, accessible d b ↔ b < PGROUNDUP sz

theorem Loading.loaded (h : Loading s₀ d sz s) : Loaded d sz := by
  have hround := PGROUNDUP_toNat (Nat.le_of_lt (BitVec.lt_def.mp h.low))
  constructor
  · exact h.low
  · intro b hb
    rw [h.pages b hb, BitVec.lt_def, hround]
  · intro b
    rw [h.user, BitVec.lt_def, hround]

/-- exec() of any file, for every pattern of kalloc() failures: the loop over the program headers
ends without a fault, its loads stay in frames of the new directory, and after it exec() can only
fault at a missing page table in copyout(). -/
theorem hostile_file_loads (hs : Sane img s) (content : List Byte) (argv : List (List Byte)) :
    (∀ f, exec img (some (fileReader content)) argv s = .error f → f = .null) ∧
    (∀ off n bs, fileReader content off n = some bs → bs.length ≤ n.toNat) ∧
    ∀ d t, setupkvm img s = .ok (some d, t) → ∀ k phoff,
      (∃ e r u, loadSegments img (fileReader content) k phoff d 0 t = .ok ((e, r), u) ∧
        ∀ sz, r = some sz → Loaded e sz ∧
          ∃ last, AtHeader img (fileReader content) phoff d t k last e sz u) ∧
      ∀ i off e sz u, AtHeader img (fileReader content) phoff d t i off e sz u →
        StoresInside img (fileReader content) s off e sz u := by
  refine ⟨?_, fun off n bs => length_fileReader, ?_⟩
  · intro f hf
    have hrun := exec_run hs (some (fileReader content)) argv
    rw [hf] at hrun
    cases hrun
    rfl
  · intro d t hsetup k phoff
    obtain ⟨r, u, hrun, hr⟩ := setupkvm_run hs.usable
    rw [hsetup] at hrun
    cases hrun
    have hstart := Loading.start hr.1 hr.2
    constructor
    · have hall : ∃ e r u, loadSegments img (fileReader content) k phoff d 0 t =
        .ok ((e, r), u) ∧ _ := loadSegments_run hs hstart
      obtain ⟨e, r, u, hload, -, hnext⟩ := hall
      refine ⟨e, r, u, hload, fun sz hsz => ⟨(hnext sz hsz).loaded, ?_⟩⟩
      rw [hsz] at hload
      obtain ⟨last, hlast⟩ := AtHeader.first.passes hload
      rw [Nat.zero_add] at hlast
      exact ⟨last, hlast⟩
    · intro i off e sz u hat
      exact (hat.loading hs hstart).storesInside hs

/-- An ELF header that is all ones behind the magic number. -/
def hostile : List Byte := [0x7F, 0x45, 0x4C, 0x46] ++ List.replicate 48 0xFF

/-- Six free pages, and the third call of kalloc() finds none. -/
def fewPages : Kmem :=
  ⟨[0x400, 0x401, 0x402, 0x403, 0x404, 0x405], [false, false, true], fun _ => zeros⟩

theorem fewPages_sane : Sane smallKernel fewPages where
  usable := by
    intro f hf
    have hlist : f ∈ ([0x400, 0x401, 0x402, 0x403, 0x404, 0x405] : List Frame) := hf
    simp only [List.mem_cons, List.not_mem_nil, or_false] at hlist
    rcases hlist with rfl | rfl | rfl | rfl | rfl | rfl
    all_goals exact ⟨by decide, by decide, by decide⟩
  nodup := by decide

theorem hostile_file_loads_fewPages :
    (∀ f, exec smallKernel (some (fileReader hostile)) [] fewPages = .error f → f = .null) ∧
    (∀ off n bs, fileReader hostile off n = some bs → bs.length ≤ n.toNat) ∧
    ∀ d t, setupkvm smallKernel fewPages = .ok (some d, t) → ∀ k phoff,
      (∃ e r u, loadSegments smallKernel (fileReader hostile) k phoff d 0 t = .ok ((e, r), u) ∧
        ∀ sz, r = some sz → Loaded e sz ∧
          ∃ last, AtHeader smallKernel (fileReader hostile) phoff d t k last e sz u) ∧
      ∀ i off e sz u, AtHeader smallKernel (fileReader hostile) phoff d t i off e sz u →
        StoresInside smallKernel (fileReader hostile) fewPages off e sz u :=
  hostile_file_loads fewPages_sane hostile []

end ElfLoading
