import OsEngineering.PageMapping
import Mathlib.Data.BitVec

/-! setupkvm() builds the map of the comment above kmap, or gives every page back. -/
namespace KernelMap

open ByteBlock FaultState PageTables PageTableMappings PageFrames PageClearing PageMapping

variable {img : KernelImage} {d e : PageDir} {s₀ s t : Kmem} {b : Word}

/-! What a page directory says about an address. -/

def translate (d : PageDir) (va : Word) : Option Word :=
  if d.present va then some (PTE_ADDR (d.pte va) + (va - PGROUNDDOWN va)) else none

def writable (d : PageDir) (va : Word) : Prop := d.pte va &&& PTE_W ≠ 0

def user (d : PageDir) (va : Word) : Prop := d.pte va &&& PTE_U ≠ 0

/-- User code can access the page. -/
def accessible (d : PageDir) (va : Word) : Prop := d.present va ∧ user d va

instance (d : PageDir) (va : Word) : Decidable (accessible d va) :=
  inferInstanceAs (Decidable (_ ∧ _ ≠ _))

/-- The map that vm.c documents. -/
structure Documented (img : KernelImage) (d : PageDir) : Prop where
  memory : ∀ va, KERNBASE ≤ va → va < KERNBASE + PHYSTOP → translate d va = some (va - KERNBASE)
  devices : ∀ va, DEVSPACE ≤ va → translate d va = some va
  readonly : ∀ va, d.present va → (writable d va ↔ ¬ (KERNLINK ≤ va ∧ va < img.data))
  kernel : ∀ va, d.present va → ¬ user d va
  unmapped : ∀ va, ¬ (KERNBASE ≤ va ∧ va < KERNBASE + PHYSTOP) → ¬ DEVSPACE ≤ va →
    translate d va = none

/-! The entries after a list of mappages() calls. -/

def Kmap.size (k : Kmap) : Word := k.phys_end - k.phys_start

/-- The pages of a region. -/
def In (k : Kmap) (b : Word) : Prop := Among (page k.virt) ((Kmap.size k).toNat / 4096) b

instance (k : Kmap) (b : Word) : Decidable (In k b) := inferInstanceAs (Decidable (_ ∧ _))

def regionPte : List Kmap → Word → Word → Word
  | [], _, w => w
  | k :: ks, b, w =>
    regionPte ks b (if In k b then entryAt k.virt k.phys_start k.perm b else w)

/-- The entries that setupkvm() makes. -/
def kernelPte (img : KernelImage) (b : Word) : Word := regionPte (kmap img) b 0

/-- The frames of `d` come from the free list of `s₀`, and no others were written. -/
structure Owns (d : PageDir) (s₀ s : Kmem) : Prop where
  books : (s.freelist : Multiset Frame) + frames d = s₀.freelist
  mem : ∀ f ∉ s₀.freelist, s.mem f = s₀.mem f

theorem Owns.holds (h : Owns d s₀ s) {f : Frame} (hf : Holds d f) : f ∈ s₀.freelist := by
  rw [← Multiset.mem_coe, ← h.books, Multiset.mem_add, mem_frames]
  exact Or.inr hf

/-- The books of the free list of `s₀`. -/
abbrev supply (s₀ : Kmem) : Supply := ⟨s₀.freelist, False⟩

theorem Owns.step {α : Type} {c : VM α} {r : α} {g : α → PageDir} (h : Owns d s₀ s)
    (hc : Spec (supply s₀) (frames d) c fun r => frames (g r)) (hrun : c s = .ok (r, t))
    (hmem : ∀ f ∉ s₀.freelist, t.mem f = s.mem f) : Owns (g r) s₀ t where
  books := by
    have hbooks : Books (supply s₀) (frames d + 0) s := ⟨by rw [add_zero]; exact h.books, nofun⟩
    have htotal := (hc 0 s r t hbooks hrun).total
    rw [add_zero] at htotal
    exact htotal
  mem f hf := (hmem f hf).trans (h.mem f hf)

/-- Everything is back. -/
structure Restored (s₀ t : Kmem) : Prop where
  free : t.freelist.Perm s₀.freelist
  mem : ∀ f ∉ s₀.freelist, t.mem f = s₀.mem f

theorem Owns.restored (hu : ∀ f ∈ s₀.freelist, Usable img f) (h : Owns d s₀ s) :
    ∃ t, freevm img d s = .ok ((), t) ∧ Restored s₀ t := by
  obtain ⟨t, hrun, hmem⟩ := freevm_run (fun f hf => hu f (h.holds hf)) s
  have hbooks : Books (supply s₀) (frames d + 0) s := ⟨by rw [add_zero]; exact h.books, nofun⟩
  have htotal := (freevm_spec d 0 s () t hbooks hrun).total
  rw [add_zero, add_zero] at htotal
  refine ⟨t, hrun, Multiset.coe_eq_coe.mp htotal, fun f hf => ?_⟩
  rw [hmem f fun hheld => hf (h.holds hheld), h.mem f hf]

theorem mapAll_run (hu : ∀ f ∈ s₀.freelist, Usable img f) {ks : List Kmap}
    (hregion : ∀ k ∈ ks, Region k.virt (Kmap.size k))
    (hupper : ∀ k ∈ ks, Upper k.virt (Kmap.size k))
    (hapart : ks.Pairwise fun k l => ∀ b, In k b → ¬ In l b)
    (habsent : ∀ k ∈ ks, ∀ b, In k b → ¬ d.present b) (hown : Owns d s₀ s) :
    ∃ r t, mapAll img ks d s = .ok (r, t) ∧ match r with
      | none => Restored s₀ t
      | some e => Owns e s₀ t ∧ ∀ b, e.pte b = regionPte ks b (d.pte b) := by
  induction ks generalizing d s with
  | nil => exact ⟨some d, s, rfl, hown, fun _ => rfl⟩
  | cons k ks ih =>
    obtain ⟨hfirst, hrest⟩ := List.pairwise_cons.mp hapart
    obtain ⟨e, ok, u, hrun, hgrows, hmaps⟩ := mappages_run k.phys_start k.perm
      (hregion k List.mem_cons_self) (habsent k List.mem_cons_self) s
    have hspec : Spec (supply s₀) (frames d) _ fun r : PageDir × Bool => frames r.1 :=
      mappages_upper k.phys_start k.perm (hupper k List.mem_cons_self)
    have hown' : Owns e s₀ u := hown.step hspec hrun fun f _ => by rw [hgrows.mem]
    rw [mapAll]
    cases ok with
    | false =>
      obtain ⟨t, hfree, hback⟩ := hown'.restored hu
      exact ⟨none, t, (run_bind hrun).trans (run_bind hfree), hback⟩
    | true =>
      have hpte : ∀ b, e.pte b =
          if In k b then entryAt k.virt k.phys_start k.perm b else d.pte b := by
        intro b
        by_cases hb : In k b
        · rw [if_pos hb, hmaps.within rfl b hb]
        · rw [if_neg hb, hmaps.other b hb]
      have habsent' : ∀ l ∈ ks, ∀ b, In l b → ¬ e.present b := by
        intro l hl b hb
        have hout : ¬ In k b := fun h => hfirst l hl b h hb
        rw [PageDir.present, hpte, if_neg hout]
        exact habsent l (List.mem_cons_of_mem k hl) b hb
      obtain ⟨r, t, htail, hr⟩ := ih (fun l hl => hregion l (List.mem_cons_of_mem k hl))
        (fun l hl => hupper l (List.mem_cons_of_mem k hl)) hrest habsent' hown'
      refine ⟨r, t, (run_bind hrun).trans htail, ?_⟩
      cases r with
      | none => exact hr
      | some e' =>
        refine ⟨hr.1, fun b => ?_⟩
        rw [hr.2, regionPte, hpte]

/-! The four regions. -/

theorem in_iff {k : Kmap} (h : Region k.virt (Kmap.size k)) (b : Word) :
    In k b ↔ k.virt.toNat ≤ b.toNat ∧ b.toNat < k.virt.toNat + (Kmap.size k).toNat := by
  have hstart := h.start
  have hwhole := h.whole
  simp only [In, Among, page]
  omega

def ioSpace : Kmap := ⟨KERNBASE, 0, EXTMEM, PTE_W⟩

def text (img : KernelImage) : Kmap :=
  ⟨KERNLINK, KERNLINK - KERNBASE, img.data - KERNBASE, 0⟩

def data (img : KernelImage) : Kmap := ⟨img.data, img.data - KERNBASE, PHYSTOP, PTE_W⟩

def moreDevices : Kmap := ⟨DEVSPACE, DEVSPACE, 0, PTE_W⟩

theorem kmap_regions (img : KernelImage) :
    kmap img = [ioSpace, text img, data img, moreDevices] := rfl

theorem data_range (img : KernelImage) :
    0x80100000 < img.data.toNat ∧ img.data.toNat < 0x8E000000 := by
  have habove := img.above
  have hbelow := img.below
  rw [BitVec.lt_def] at habove hbelow
  exact ⟨habove, hbelow⟩

theorem text_size (img : KernelImage) :
    (Kmap.size (text img)).toNat = img.data.toNat - 0x80100000 := by
  obtain ⟨hlo, hhi⟩ := data_range img
  simp only [Kmap.size, text, KERNLINK, KERNBASE, EXTMEM]
  bv_omega

theorem data_size (img : KernelImage) :
    (Kmap.size (data img)).toNat = 0x8E000000 - img.data.toNat := by
  obtain ⟨hlo, hhi⟩ := data_range img
  simp only [Kmap.size, data, KERNBASE, PHYSTOP]
  bv_omega

theorem kmap_region (img : KernelImage) : ∀ k ∈ kmap img, Region k.virt (Kmap.size k) := by
  obtain ⟨hlo, hhi⟩ := data_range img
  have halign := img.aligned
  have htext := text_size img
  have hdata := data_size img
  intro k hk
  rw [kmap_regions] at hk
  simp only [List.mem_cons, List.not_mem_nil, or_false] at hk
  rcases hk with rfl | rfl | rfl | rfl
  · exact ⟨rfl, rfl, by decide, by decide⟩
  · have hvirt : (text img).virt.toNat = 0x80100000 := rfl
    exact ⟨by omega, by omega, by omega, by omega⟩
  · have hvirt : (data img).virt.toNat = img.data.toNat := rfl
    exact ⟨halign, by omega, by omega, by omega⟩
  · exact ⟨rfl, rfl, by decide, by decide⟩

/-- Which addresses the regions hold. -/
structure Places (img : KernelImage) (b : Word) : Prop where
  io : In ioSpace b ↔ 0x80000000 ≤ b.toNat ∧ b.toNat < 0x80100000
  text : In (text img) b ↔ 0x80100000 ≤ b.toNat ∧ b.toNat < img.data.toNat
  data : In (data img) b ↔ img.data.toNat ≤ b.toNat ∧ b.toNat < 0x8E000000
  devices : In moreDevices b ↔ 0xFE000000 ≤ b.toNat

theorem places (img : KernelImage) (b : Word) : Places img b := by
  obtain ⟨hlo, hhi⟩ := data_range img
  have hlt := b.isLt
  have hregion := kmap_region img
  rw [kmap_regions] at hregion
  simp only [List.forall_mem_cons] at hregion
  obtain ⟨hio, htext, hdata, hdev, -⟩ := hregion
  constructor
  · exact in_iff hio b
  · rw [in_iff htext b, text_size]
    have hvirt : (KernelMap.text img).virt.toNat = 0x80100000 := rfl
    omega
  · rw [in_iff hdata b, data_size]
    have hvirt : (KernelMap.data img).virt.toNat = img.data.toNat := rfl
    omega
  · rw [in_iff hdev b]
    have hvirt : moreDevices.virt.toNat = 0xFE000000 := rfl
    have hsize : (Kmap.size moreDevices).toNat = 0x2000000 := rfl
    omega

theorem kmap_apart (img : KernelImage) :
    (kmap img).Pairwise fun k l => ∀ b, In k b → ¬ In l b := by
  obtain ⟨hlo, hhi⟩ := data_range img
  rw [kmap_regions]
  simp only [List.pairwise_cons, List.forall_mem_cons, List.not_mem_nil, List.Pairwise.nil,
    false_implies, implies_true, and_true]
  refine ⟨⟨?_, ?_, ?_⟩, ⟨?_, ?_⟩, ?_⟩
  all_goals
    intro b hfirst hlater
    have hplaces := places img b
    simp only [hplaces.io, hplaces.text, hplaces.data, hplaces.devices] at hfirst hlater
    omega

theorem setupkvm_run (hu : ∀ f ∈ s.freelist, Usable img f) :
    ∃ r t, setupkvm img s = .ok (r, t) ∧ match r with
      | none => Restored s t
      | some d => Owns d s t ∧ ∀ b, d.pte b = kernelPte img b := by
  obtain ⟨r, u, halloc, hmem, hfree⟩ := kalloc_run s
  rw [setupkvm]
  cases r with
  | none =>
    refine ⟨none, u, (run_bind halloc).trans rfl, ?_, fun f _ => by rw [hmem]⟩
    rw [hfree]
    exact List.Perm.refl _
  | some f =>
    have hempty : frames ⟨f, fun _ => none⟩ = {f} := by
      have hzero : ∑ i : Index, entryFrames i none = 0 := Finset.sum_eq_zero fun _ _ => rfl
      rw [frames, hzero, add_zero]
    have hown : Owns ⟨f, fun _ => none⟩ s u := by
      refine ⟨?_, fun g _ => by rw [hmem]⟩
      rw [hempty, hfree, add_comm]
      rfl
    have hzero : ∀ b, (⟨f, fun _ => none⟩ : PageDir).pte b = 0 := fun _ => rfl
    obtain ⟨r, t, hrun, hr⟩ := mapAll_run hu (kmap_region img) (kmap_upper img) (kmap_apart img)
      (fun _ _ b _ hpres => hpres (by rw [hzero]; rfl)) hown
    exact ⟨r, t, (run_bind halloc).trans hrun, hr⟩

/-! The entries, read back. -/

theorem regionPte_out {ks : List Kmap} {w : Word} (h : ∀ k ∈ ks, ¬ In k b) :
    regionPte ks b w = w := by
  induction ks generalizing w with
  | nil => rfl
  | cons k ks ih =>
    rw [regionPte, if_neg (h k List.mem_cons_self),
      ih fun l hl => h l (List.mem_cons_of_mem k hl)]

theorem regionPte_in {ks : List Kmap} {k : Kmap} {w : Word}
    (hapart : ks.Pairwise fun k l => ∀ b, In k b → ¬ In l b) (hk : k ∈ ks) (hb : In k b) :
    regionPte ks b w = entryAt k.virt k.phys_start k.perm b := by
  induction ks generalizing w with
  | nil => cases hk
  | cons l ks ih =>
    obtain ⟨hfirst, hrest⟩ := List.pairwise_cons.mp hapart
    rw [regionPte]
    rcases List.mem_cons.mp hk with rfl | hk
    · rw [if_pos hb, regionPte_out fun l hl => hfirst l hl b hb]
    · exact ih hrest hk

/-- What makes the entries of a region readable. -/
structure Plain (k : Kmap) : Prop where
  start : k.virt.toNat % 4096 = 0
  frame : k.phys_start.toNat % 4096 = 0
  flags : PTE_FLAGS k.perm = k.perm

theorem kmap_plain (img : KernelImage) : ∀ k ∈ kmap img, Plain k := by
  obtain ⟨hlo, hhi⟩ := data_range img
  have halign := img.aligned
  have hregion := kmap_region img
  rw [kmap_regions] at hregion ⊢
  simp only [List.forall_mem_cons] at hregion ⊢
  obtain ⟨hio, htext, hdata, hdev, hnone⟩ := hregion
  have hframe : (data img).phys_start.toNat % 4096 = 0 := by
    simp only [data, KERNBASE]
    bv_omega
  have hwrite : PTE_FLAGS PTE_W = PTE_W := by decide
  have hread : PTE_FLAGS 0 = 0 := by decide
  have hlink : (KERNLINK - KERNBASE).toNat % 4096 = 0 := by decide
  exact ⟨⟨hio.start, rfl, hwrite⟩, ⟨htext.start, hlink, hread⟩,
    ⟨hdata.start, hframe, hwrite⟩, ⟨hdev.start, rfl, hwrite⟩,
    fun _ hx => absurd hx List.not_mem_nil⟩

theorem entryAt_aligned {k : Kmap} (h : Plain k) (b : Word) :
    (k.phys_start + (PGROUNDDOWN b - k.virt)).toNat % 4096 = 0 := by
  have hstart := h.start
  have hframe := h.frame
  have hdown := PGROUNDDOWN_toNat b
  rw [BitVec.toNat_add, BitVec.toNat_sub]
  omega

theorem entryAt_translate {k : Kmap} (h : Plain k)
    (hpte : d.pte b = entryAt k.virt k.phys_start k.perm b) :
    translate d b = some (k.phys_start + (b - k.virt)) := by
  have hpresent : d.present b := by
    rw [PageDir.present, hpte]
    exact set_P _ _
  have hsum : k.phys_start + (PGROUNDDOWN b - k.virt) + (b - PGROUNDDOWN b) =
      k.phys_start + (b - k.virt) := by
    rw [add_assoc, sub_add_sub_cancel']
  rw [translate, if_pos hpresent, hpte, entryAt, entry_addr (entryAt_aligned h b) h.flags, hsum]

theorem entryAt_flag {k : Kmap} {m : Word} (h : Plain k) (hm : m &&& 0xFFF = m)
    (hpte : d.pte b = entryAt k.virt k.phys_start k.perm b) :
    d.pte b &&& m = (k.perm ||| PTE_P) &&& m := by
  rw [hpte, entryAt, entry_flag (entryAt_aligned h b) hm]

theorem kernelPte_in {k : Kmap} (hd : d.pte b = kernelPte img b) (hk : k ∈ kmap img)
    (hb : In k b) : d.pte b = entryAt k.virt k.phys_start k.perm b :=
  hd.trans (regionPte_in (kmap_apart img) hk hb)

theorem absent_out (hd : d.pte b = kernelPte img b) (hout : ∀ k ∈ kmap img, ¬ In k b) :
    ¬ d.present b := by
  rw [PageDir.present, hd, kernelPte, regionPte_out hout]
  exact fun h => h rfl

/-- A present page of the kernel half lies in a region. -/
theorem region_of_present (hd : d.pte b = kernelPte img b) (h : d.present b) :
    ∃ k ∈ kmap img, In k b := by
  by_contra hno
  refine absent_out hd ?_ h
  intro k hk hb
  exact hno ⟨k, hk, hb⟩

theorem kernelPte_documented (hd : ∀ b, d.pte b = kernelPte img b) : Documented img d := by
  obtain ⟨hlo, hhi⟩ := data_range img
  have hplain := kmap_plain img
  have hmem : ioSpace ∈ kmap img ∧ text img ∈ kmap img ∧ data img ∈ kmap img ∧
      moreDevices ∈ kmap img := by
    rw [kmap_regions]
    simp
  obtain ⟨hio, htext, hdata, hdev⟩ := hmem
  have hread : ∀ k ∈ kmap img, ∀ b, In k b → translate d b = some (k.phys_start + (b - k.virt)) :=
    fun k hk b hb => entryAt_translate (hplain k hk) (kernelPte_in (hd b) hk hb)
  constructor
  · intro va hbase hend
    have hplaces := places img va
    rw [BitVec.le_def] at hbase
    rw [BitVec.lt_def] at hend
    have hbase : 0x80000000 ≤ va.toNat := hbase
    have hend : va.toNat < 0x8E000000 := hend
    have hcase : In ioSpace va ∨ In (text img) va ∨ In (data img) va := by
      rw [hplaces.io, hplaces.text, hplaces.data]
      omega
    rcases hcase with h | h | h
    · rw [hread _ hio va h]
      simp only [ioSpace, Option.some.injEq]
      exact BitVec.zero_add _
    · rw [hread _ htext va h]
      simp only [text, Option.some.injEq, KERNLINK, KERNBASE, EXTMEM]
      bv_omega
    · rw [hread _ hdata va h]
      simp only [data, Option.some.injEq]
      generalize img.data = c
      bv_omega
  · intro va hva
    have h : In moreDevices va := (places img va).devices.mpr (BitVec.le_def.mp hva)
    rw [hread _ hdev va h]
    simp only [moreDevices, Option.some.injEq]
    bv_omega
  · intro va hpres
    have hplaces := places img va
    obtain ⟨k, hk, hb⟩ := region_of_present (hd va) hpres
    have hflag := entryAt_flag (m := PTE_W) (hplain k hk) (by decide) (kernelPte_in (hd va) hk hb)
    have hkern : (KERNLINK ≤ va ∧ va < img.data) ↔ In (text img) va := by
      rw [hplaces.text, BitVec.le_def, BitVec.lt_def]
      exact Iff.rfl
    rw [writable, hflag, hkern]
    rw [kmap_regions] at hk
    simp only [List.mem_cons, List.not_mem_nil, or_false] at hk
    rcases hk with rfl | rfl | rfl | rfl
    · rw [hplaces.io] at hb
      rw [hplaces.text]
      exact iff_of_true (by decide) (by omega)
    · exact iff_of_false (by simp only [text]; decide) (not_not.mpr hb)
    · rw [hplaces.data] at hb
      rw [hplaces.text]
      exact iff_of_true (by simp only [data]; decide) (by omega)
    · rw [hplaces.devices] at hb
      rw [hplaces.text]
      exact iff_of_true (by decide) (by omega)
  · intro va hpres
    obtain ⟨k, hk, hb⟩ := region_of_present (hd va) hpres
    have hflag := entryAt_flag (m := PTE_U) (hplain k hk) (by decide) (kernelPte_in (hd va) hk hb)
    have hwrite : (PTE_W ||| PTE_P) &&& PTE_U = 0 := by decide
    have hread : (0 ||| PTE_P) &&& PTE_U = 0 := by decide
    rw [user, hflag, not_not]
    rw [kmap_regions] at hk
    simp only [List.mem_cons, List.not_mem_nil, or_false] at hk
    rcases hk with rfl | rfl | rfl | rfl
    · exact hwrite
    · exact hread
    · exact hwrite
    · exact hwrite
  · intro va hout hdevices
    have hplaces := places img va
    have hno : ¬ d.present va := by
      intro hpres
      obtain ⟨k, hk, hb⟩ := region_of_present (hd va) hpres
      rw [kmap_regions] at hk
      simp only [List.mem_cons, List.not_mem_nil, or_false] at hk
      have hout : ¬ (0x80000000 ≤ va.toNat ∧ va.toNat < 0x8E000000) := hout
      have hdevices : ¬ 0xFE000000 ≤ va.toNat := hdevices
      rcases hk with rfl | rfl | rfl | rfl
      · rw [hplaces.io] at hb
        omega
      · rw [hplaces.text] at hb
        omega
      · rw [hplaces.data] at hb
        omega
      · rw [hplaces.devices] at hb
        omega
    rw [translate, if_neg hno]

/-- Whatever calls of kalloc() fail, setupkvm() gives every page back or builds the documented
map; and the loop of mappages() always meets its last page. -/
theorem setupkvm_exact (img : KernelImage) (s : Kmem) (hu : ∀ f ∈ s.freelist, Usable img f) :
    (∃ r t, setupkvm img s = .ok (r, t) ∧ match r with
      | none => t.freelist.Perm s.freelist
      | some d => Documented img d) ∧
    ∀ d va size pa perm, mappages d va size pa perm =
      mapLoop perm (PGROUNDDOWN (va + size - 1)) bound d (PGROUNDDOWN va) pa := by
  obtain ⟨r, t, hrun, hr⟩ := setupkvm_run hu
  refine ⟨⟨r, t, hrun, ?_⟩, mappages_loop⟩
  cases r with
  | none => exact hr.free
  | some d => exact kernelPte_documented hr.2

theorem setupkvm_exact_threeFrames :
    (∃ r t, setupkvm smallKernel ⟨[0x400, 0x401, 0x402], [], fun _ => zeros⟩ = .ok (r, t) ∧
      match r with
      | none => t.freelist.Perm [0x400, 0x401, 0x402]
      | some d => Documented smallKernel d) ∧
    ∀ d va size pa perm, mappages d va size pa perm =
      mapLoop perm (PGROUNDDOWN (va + size - 1)) bound d (PGROUNDDOWN va) pa :=
  setupkvm_exact smallKernel ⟨[0x400, 0x401, 0x402], [], fun _ => zeros⟩ (by
    intro f hf
    simp only [List.mem_cons, List.not_mem_nil, or_false] at hf
    rcases hf with rfl | rfl | rfl
    · exact ⟨by decide, by decide, by decide⟩
    · exact ⟨by decide, by decide, by decide⟩
    · exact ⟨by decide, by decide, by decide⟩)

end KernelMap
