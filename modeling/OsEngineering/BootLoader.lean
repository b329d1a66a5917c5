import OsEngineering.BootSectors
import Mathlib.Data.List.Basic

/-! bootmain() of xv6: what the segments of the kernel hold when all of them are loaded. -/
namespace BootLoader

open ByteBlock FlatMemory BootSectors

/-- The scratch space for the first page of the image. -/
def ELFHDR : Word := 0x10000

def ELF_MAGIC : Word := 0x464C457F

/-- The fields of a program header that the loader looks at. -/
structure Proghdr where
  off : Word
  paddr : Word
  filesz : Word
  memsz : Word
  deriving DecidableEq

def proghdr (m : Memory) (ph : Word) : Proghdr :=
  ⟨le32 m (ph + 4), le32 m (ph + 12), le32 m (ph + 16), le32 m (ph + 20)⟩

def stosb (m : Memory) (addr : Word) (data : Byte) (cnt : Word) : Memory := fun a =>
  if a - addr < cnt then data else m a

/-- What comes after readseg() in the loop, with the program header as it is now. -/
def clearRest (m : Memory) (pa ph : Word) : Memory :=
  let h := proghdr m ph
  if h.filesz < h.memsz then stosb m (pa + h.filesz) 0 (h.memsz - h.filesz) else m

/-- The loop over the program headers, in at most `rounds` rounds. -/
def loadSegments (disk : Disk) (fuel : ℕ) : ℕ → Memory → Word → Word → Option Memory
  | 0, m, ph, eph => if ph < eph then none else some m
  | rounds + 1, m, ph, eph =>
    if ph < eph then
      let h := proghdr m ph
      (readseg disk fuel m h.paddr h.filesz h.off).bind fun m =>
        loadSegments disk fuel rounds (clearRest m h.paddr ph) (ph + 32) eph
    else some m

/-- The memory and the entry point that is called, if it is an ELF image. -/
def bootmain (disk : Disk) (fuel : ℕ) (m : Memory) : Option (Memory × Option Word) :=
  (readseg disk fuel m ELFHDR 4096 0).bind fun m =>
    if le32 m ELFHDR ≠ ELF_MAGIC then some (m, none)
    else
      let ph := ELFHDR + le32 m (ELFHDR + 28)
      let eph := ph + 32 * (le16 m (ELFHDR + 44)).setWidth 32
      (loadSegments disk fuel fuel m ph eph).map fun m => (m, some (le32 m (ELFHDR + 24)))

/-! The segments of an image -/

section Image

variable (disk : Disk)

/-- The image as it would be at ELFHDR. -/
def scratch : Memory := fun a => image disk (a - ELFHDR).toNat

def phoff : ℕ := (le32 (scratch disk) (ELFHDR + 28)).toNat

def phnum : ℕ := (le16 (scratch disk) (ELFHDR + 44)).toNat

def segment (i : ℕ) : Proghdr :=
  proghdr (scratch disk) (ELFHDR + BitVec.ofNat 32 (phoff disk + 32 * i))

def segments : List Proghdr := (List.range (phnum disk)).map (segment disk)

/-- An image with its headers in the first page, and with segments in increasing order above the
scratch space. -/
structure Bootable : Prop where
  magic : le32 (scratch disk) ELFHDR = ELF_MAGIC
  headers : phoff disk + 32 * phnum disk ≤ 4096
  above : ∀ g ∈ segments disk, 0x11000 ≤ g.paddr.toNat
  sizes : ∀ g ∈ segments disk, g.filesz.toNat ≤ g.memsz.toNat
  no_wrap : ∀ g ∈ segments disk, g.paddr.toNat + g.memsz.toNat < 2 ^ 32
  increasing : (segments disk).Pairwise fun g h =>
    g.paddr.toNat + g.memsz.toNat ≤ h.paddr.toNat

variable (g : Proghdr)

def Proghdr.Has (a : Word) : Prop :=
  g.paddr.toNat ≤ a.toNat ∧ a.toNat < g.paddr.toNat + g.memsz.toNat

/-- The byte of the segment at `a`. -/
def wanted (a : Word) : Byte :=
  if a.toNat < g.paddr.toNat + g.filesz.toNat then
    image disk (g.off.toNat + (a.toNat - g.paddr.toNat))
  else 0

/-- bootmain() comes to its end, and every segment holds its bytes of the file and then zeros. -/
def Loads (m : Memory) : Prop :=
  ∃ m' entry, Returns (fun fuel => bootmain disk fuel m) (m', entry) ∧
    ∀ g ∈ segments disk, ∀ a, g.Has a → m' a = wanted disk g a

/-! What decides it -/

/-- The sector with the start of the segment comes to addresses below the segment as well. -/
def Proghdr.Covers (a : Word) : Prop :=
  base g.paddr g.off ≤ a.toNat ∧ a.toNat < g.paddr.toNat

instance (a : Word) : Decidable (g.Covers a) := inferInstanceAs (Decidable (_ ∧ _))

/-- The byte that comes to `a` with the sector. -/
def sectorByte (a : Word) : Byte :=
  image disk (g.off.toNat / 512 * 512 + (a.toNat - base g.paddr g.off))

/-- The last sector ends below the end of memory. -/
def Proghdr.Fits : Prop :=
  base g.paddr g.off + 512 * sectors (base g.paddr g.off) (g.paddr.toNat + g.filesz.toNat) < 2 ^ 32

/-- No sector is put over the program headers. -/
def HeadersKept : Prop :=
  ∀ g ∈ segments disk, ELFHDR.toNat + phoff disk + 32 * phnum disk ≤ base g.paddr g.off

/-- Where the sector of a later segment is put over a segment, the last one that is has the bytes
of the segment. -/
def Spared : Prop :=
  ∀ before g after, segments disk = before ++ g :: after → ∀ a, g.Has a →
    ∀ mid h rest, after = mid ++ h :: rest → h.Covers a → (∀ r ∈ rest, ¬ r.Covers a) →
      sectorByte disk h a = wanted disk g a

end Image

/-! One segment -/

section Load

variable {disk : Disk} {m : Memory} {g : Proghdr} {a : Word}

/-- The memory when the segment is loaded. -/
def load (disk : Disk) (m : Memory) (g : Proghdr) : Memory := fun a =>
  if g.paddr.toNat + g.filesz.toNat ≤ a.toNat ∧ a.toNat < g.paddr.toNat + g.memsz.toNat then 0
  else loaded disk m g.paddr g.filesz g.off a

theorem load_below (h : a.toNat < g.paddr.toNat) :
    load disk m g a = if g.Covers a then sectorByte disk g a else m a := by
  have hend := sectors_end (base g.paddr g.off) (g.paddr.toNat + g.filesz.toNat)
  unfold load loaded spread
  rw [if_neg (by omega)]
  by_cases hc : g.Covers a
  · have hlow := hc.1
    rw [if_pos ⟨hlow, by omega⟩, if_pos hc, sectorByte, image]
    congr 1
    omega
  · rw [if_neg hc, if_neg fun hin => hc ⟨hin.1, h⟩]

theorem load_inside (hpa : g.off.toNat % 512 ≤ g.paddr.toNat) (h : g.Has a) :
    load disk m g a = wanted disk g a := by
  unfold load wanted
  by_cases hfile : a.toNat < g.paddr.toNat + g.filesz.toNat
  · rw [if_neg (by omega), if_pos hfile, loaded_inside hpa h.1 hfile]
  · rw [if_pos ⟨by omega, h.2⟩, if_neg hfile]

/-- Below its first sector a segment changes nothing. -/
theorem load_before (h : a.toNat < base g.paddr g.off) : load disk m g a = m a := by
  have hle : base g.paddr g.off ≤ g.paddr.toNat := Nat.sub_le _ _
  rw [load_below (by omega), if_neg fun hc => absurd hc.1 (by omega)]

/-- What later segments leave at an address below them. -/
theorem foldl_load_iff {gs : List Proghdr} (hbelow : ∀ g ∈ gs, a.toNat < g.paddr.toNat) (v : Byte) :
    gs.foldl (load disk) m a = v ↔
      (∀ mid h rest, gs = mid ++ h :: rest → h.Covers a → (∀ r ∈ rest, ¬ r.Covers a) →
        sectorByte disk h a = v) ∧
      ((∀ g ∈ gs, ¬ g.Covers a) → m a = v) := by
  induction gs generalizing m with
  | nil =>
    constructor
    · intro h
      refine ⟨fun mid x rest heq => ?_, fun _ => h⟩
      exact absurd (List.append_eq_nil_iff.mp heq.symm).2 (List.cons_ne_nil x rest)
    · intro h
      exact h.2 nofun
  | cons g gs ih =>
    rw [List.foldl_cons, ih fun h hh => hbelow h (List.mem_cons_of_mem _ hh),
      load_below (hbelow g List.mem_cons_self)]
    constructor
    · rintro ⟨hlater, hnone⟩
      refine ⟨fun mid h rest heq hc hrest => ?_, fun hno => ?_⟩
      · cases mid with
        | nil =>
          cases heq
          have := hnone hrest
          rwa [if_pos hc] at this
        | cons x mid =>
          cases heq
          exact hlater mid h rest rfl hc hrest
      · have := hnone fun h hh => hno h (List.mem_cons_of_mem _ hh)
        rwa [if_neg (hno g List.mem_cons_self)] at this
    · rintro ⟨hlast, hnone⟩
      refine ⟨fun mid h rest heq => hlast (g :: mid) h rest (by rw [heq]; rfl), fun hno => ?_⟩
      by_cases hc : g.Covers a
      · rw [if_pos hc]
        exact hlast [] g gs rfl hc hno
      · rw [if_neg hc]
        refine hnone fun h hh => ?_
        rcases List.mem_cons.mp hh with rfl | hh
        · exact hc
        · exact hno h hh

end Load

/-! The loop -/

section Run

variable {disk : Disk} {m : Memory} {i : ℕ}

/-- The address of the program header `i`. -/
def phAddr (disk : Disk) (i : ℕ) : Word := ELFHDR + BitVec.ofNat 32 (phoff disk + 32 * i)

theorem phAddr_toNat (h : Bootable disk) (hi : i ≤ phnum disk) :
    (phAddr disk i).toNat = ELFHDR.toNat + phoff disk + 32 * i := by
  have hheaders := h.headers
  have helf : ELFHDR.toNat = 65536 := rfl
  have hoff : (BitVec.ofNat 32 (phoff disk + 32 * i)).toNat = phoff disk + 32 * i := by
    rw [BitVec.toNat_ofNat]
    exact Nat.mod_eq_of_lt (by omega)
  rw [phAddr, toNat_add_of_lt (by omega), hoff, Nat.add_assoc]

theorem phAddr_succ (disk : Disk) (i : ℕ) : phAddr disk i + 32 = phAddr disk (i + 1) := by
  have hstep : BitVec.ofNat 32 (phoff disk + 32 * (i + 1)) =
      BitVec.ofNat 32 (phoff disk + 32 * i) + 32 := by
    rw [Nat.mul_add, ← Nat.add_assoc, BitVec.ofNat_add]
    rfl
  rw [phAddr, phAddr, hstep, BitVec.add_assoc]

/-- The memory has the program headers of the image. -/
def TableAt (disk : Disk) (m : Memory) : Prop :=
  ∀ a : Word, ELFHDR.toNat + phoff disk ≤ a.toNat →
    a.toNat < ELFHDR.toNat + phoff disk + 32 * phnum disk → m a = scratch disk a

theorem proghdr_eq (h : Bootable disk) (ht : TableAt disk m) (hi : i < phnum disk) :
    proghdr m (phAddr disk i) = segment disk i := by
  have hheaders := h.headers
  have helf : ELFHDR.toNat = 65536 := rfl
  have hph := phAddr_toNat h (Nat.le_of_lt hi)
  have hword : ∀ c : Word, c.toNat + 4 ≤ 32 →
      le32 m (phAddr disk i + c) = le32 (scratch disk) (phAddr disk i + c) := by
    intro c hc
    have hadd := toNat_add_of_lt (a := phAddr disk i) (b := c) (by omega)
    exact le32_congr (by omega) fun b hlo hhi => ht b (by omega) (by omega)
  unfold segment proghdr
  rw [hword 4 (by decide), hword 12 (by decide), hword 16 (by decide), hword 20 (by decide)]
  rfl

theorem segment_mem (hi : i < phnum disk) : segment disk i ∈ segments disk :=
  List.mem_map_of_mem (List.mem_range.mpr hi)

theorem base_le (h : Bootable disk) {g : Proghdr} (hg : g ∈ segments disk) :
    g.off.toNat % 512 ≤ g.paddr.toNat := by
  have habove := h.above g hg
  omega

theorem load_table (hkept : HeadersKept disk) (ht : TableAt disk m) {g : Proghdr}
    (hg : g ∈ segments disk) : TableAt disk (load disk m g) := by
  intro a hlo hhi
  have := hkept g hg
  rw [load_before (by omega)]
  exact ht a hlo hhi

theorem loaded_table (hkept : HeadersKept disk) (ht : TableAt disk m) {g : Proghdr}
    (hg : g ∈ segments disk) : TableAt disk (loaded disk m g.paddr g.filesz g.off) := by
  intro a hlo hhi
  have := hkept g hg
  rw [loaded, spread, if_neg (by omega)]
  exact ht a hlo hhi

/-- What is cleared is the rest of the segment. -/
theorem clearRest_eq (h : Bootable disk) {g : Proghdr} (hg : g ∈ segments disk) {ph : Word}
    (hph : proghdr (loaded disk m g.paddr g.filesz g.off) ph = g) :
    clearRest (loaded disk m g.paddr g.filesz g.off) g.paddr ph = load disk m g := by
  have hsize := h.sizes g hg
  have hwrap := h.no_wrap g hg
  unfold clearRest
  rw [hph]
  dsimp only
  funext a
  unfold load
  by_cases hlt : g.filesz < g.memsz
  · rw [if_pos hlt]
    have hiff : a - (g.paddr + g.filesz) < g.memsz - g.filesz ↔
        g.paddr.toNat + g.filesz.toNat ≤ a.toNat ∧
          a.toNat < g.paddr.toNat + g.memsz.toNat := by
      bv_omega
    unfold stosb
    by_cases hin : a - (g.paddr + g.filesz) < g.memsz - g.filesz
    · rw [if_pos hin, if_pos (hiff.mp hin)]
    · rw [if_neg hin, if_neg fun hx => hin (hiff.mpr hx)]
  · rw [if_neg hlt]
    rw [BitVec.lt_def] at hlt
    rw [if_neg (by omega)]

section Step

variable (h : Bootable disk) (hkept : HeadersKept disk) (ht : TableAt disk m)
  (hi : i < phnum disk)

include h hkept ht hi

theorem step_fits (hfit : (segment disk i).Fits) : ∃ n, ∀ fuel, n ≤ fuel → ∀ rounds,
    loadSegments disk fuel (rounds + 1) m (phAddr disk i) (phAddr disk (phnum disk)) =
      loadSegments disk fuel rounds (load disk m (segment disk i)) (phAddr disk (i + 1))
        (phAddr disk (phnum disk)) := by
  have hg := segment_mem hi
  have hwrap := h.no_wrap _ hg
  have hsize := h.sizes _ hg
  obtain ⟨n, hn⟩ := readseg_returns disk m (base_le h hg) (by omega) hfit
  refine ⟨n, fun fuel hfuel rounds => ?_⟩
  have hread := hn fuel hfuel
  dsimp only at hread
  have hlt : phAddr disk i < phAddr disk (phnum disk) := by
    rw [BitVec.lt_def, phAddr_toNat h (Nat.le_of_lt hi), phAddr_toNat h (Nat.le_refl _)]
    omega
  rw [loadSegments, if_pos hlt, proghdr_eq h ht hi]
  dsimp only
  rw [hread, Option.bind_some, phAddr_succ,
    clearRest_eq h hg (proghdr_eq h (loaded_table hkept ht hg) hi)]

omit hkept in
theorem step_never (hfit : ¬ (segment disk i).Fits) (fuel rounds : ℕ) :
    loadSegments disk fuel rounds m (phAddr disk i) (phAddr disk (phnum disk)) = none := by
  have hg := segment_mem hi
  have hwrap := h.no_wrap _ hg
  have hsize := h.sizes _ hg
  have hlt : phAddr disk i < phAddr disk (phnum disk) := by
    rw [BitVec.lt_def, phAddr_toNat h (Nat.le_of_lt hi), phAddr_toNat h (Nat.le_refl _)]
    omega
  cases rounds with
  | zero => exact if_pos hlt
  | succ rounds =>
    rw [loadSegments, if_pos hlt, proghdr_eq h ht hi]
    dsimp only
    rw [readseg_never (base_le h hg) (by omega) (Nat.le_of_not_lt hfit)]
    rfl

end Step

theorem drop_segments (hi : i < phnum disk) :
    (segments disk).drop i = segment disk i :: (segments disk).drop (i + 1) := by
  have hlen : i < (segments disk).length := by
    rw [segments, List.length_map, List.length_range]
    exact hi
  rw [List.drop_eq_getElem_cons hlen]
  congr 1
  simp only [segments, List.getElem_map, List.getElem_range]

/-- The loop from the program header `i` on. -/
theorem loop_run (h : Bootable disk) (hkept : HeadersKept disk) {k : ℕ} (hk : i + k = phnum disk)
    (ht : TableAt disk m) : ∃ n, ∀ fuel, n ≤ fuel → ∀ rounds, n ≤ rounds →
      ((∀ g ∈ (segments disk).drop i, g.Fits) →
        loadSegments disk fuel rounds m (phAddr disk i) (phAddr disk (phnum disk)) =
          some (((segments disk).drop i).foldl (load disk) m)) ∧
      (¬ (∀ g ∈ (segments disk).drop i, g.Fits) →
        loadSegments disk fuel rounds m (phAddr disk i) (phAddr disk (phnum disk)) = none) := by
  induction k generalizing i m with
  | zero =>
    obtain rfl : i = phnum disk := by omega
    have hnil : (segments disk).drop (phnum disk) = [] := by
      rw [List.drop_eq_nil_iff, segments, List.length_map, List.length_range]
    rw [hnil]
    refine ⟨0, fun fuel _ rounds _ => ⟨fun _ => ?_, fun hno => absurd nofun hno⟩⟩
    have hstop : ¬ phAddr disk (phnum disk) < phAddr disk (phnum disk) := BitVec.lt_irrefl _
    cases rounds <;> exact if_neg hstop
  | succ k ih =>
    have hi : i < phnum disk := by omega
    rw [drop_segments hi]
    by_cases hfit : (segment disk i).Fits
    · obtain ⟨n, hn⟩ := step_fits h hkept ht hi hfit
      obtain ⟨n', hn'⟩ := ih (i := i + 1) (by omega) (load_table hkept ht (segment_mem hi))
      refine ⟨max n n' + 1, fun fuel hfuel rounds hrounds => ?_⟩
      obtain ⟨rounds, rfl⟩ : ∃ r, rounds = r + 1 := ⟨rounds - 1, by omega⟩
      obtain ⟨hall, hnone⟩ := hn' fuel (by omega) rounds (by omega)
      rw [hn fuel (by omega) rounds, List.foldl_cons, List.forall_mem_cons]
      exact ⟨fun hfits => hall hfits.2, fun hno => hnone fun hfits => hno ⟨hfit, hfits⟩⟩
    · refine ⟨0, fun fuel _ rounds _ => ⟨fun hfits => ?_, fun _ => step_never h ht hi hfit _ _⟩⟩
      exact absurd (hfits _ List.mem_cons_self) hfit

/-- The memory with the first page of the image. -/
def firstPage (disk : Disk) (m : Memory) : Memory := loaded disk m ELFHDR 4096 0

theorem firstPage_eq {a : Word} (hlo : ELFHDR.toNat ≤ a.toNat) (hhi : a.toNat < ELFHDR.toNat + 4096) :
    firstPage disk m a = scratch disk a := by
  have hzero : (0 : Word).toNat = 0 := rfl
  have hcount : (4096 : Word).toNat = 4096 := rfl
  have hsub : (a - ELFHDR).toNat = a.toNat - ELFHDR.toNat := BitVec.toNat_sub_of_le hlo
  rw [firstPage, loaded_inside (by rw [hzero]; exact Nat.zero_le _) hlo (by rw [hcount]; exact hhi),
    scratch, hsub, hzero, Nat.zero_add]

theorem firstPage_table (h : Bootable disk) : TableAt disk (firstPage disk m) := by
  intro a hlo hhi
  have := h.headers
  exact firstPage_eq (by omega) (by omega)

theorem firstPage_le32 {c : Word} (hc : c.toNat + 4 ≤ 4096) :
    le32 (firstPage disk m) (ELFHDR + c) = le32 (scratch disk) (ELFHDR + c) := by
  have helf : ELFHDR.toNat = 65536 := rfl
  have hadd := toNat_add_of_lt (a := ELFHDR) (b := c) (by omega)
  exact le32_congr (by omega) fun b hlo hhi => firstPage_eq (by omega) (by omega)

theorem eph_eq (h : Bootable disk) : phAddr disk 0 +
    32 * (le16 (scratch disk) (ELFHDR + 44)).setWidth 32 = phAddr disk (phnum disk) := by
  have hheaders := h.headers
  have helf : ELFHDR.toNat = 65536 := rfl
  have hstart := phAddr_toNat h (Nat.zero_le _)
  have hnum : (32 * (le16 (scratch disk) (ELFHDR + 44)).setWidth 32 : Word).toNat =
      32 * phnum disk := by
    rw [BitVec.toNat_mul, BitVec.toNat_setWidth]
    change 32 * (phnum disk % 2 ^ 32) % 2 ^ 32 = 32 * phnum disk
    omega
  apply BitVec.eq_of_toNat_eq
  rw [toNat_add_of_lt (by omega), phAddr_toNat h (Nat.le_refl _)]
  omega

/-- bootmain() reads the first page and then runs the loop over all program headers. -/
theorem bootmain_eq (h : Bootable disk) : ∃ n, ∀ fuel, n ≤ fuel → bootmain disk fuel m =
    (loadSegments disk fuel fuel (firstPage disk m) (phAddr disk 0)
      (phAddr disk (phnum disk))).map fun m => (m, some (le32 m (ELFHDR + 24))) := by
  have hreturns : Returns (fun fuel => readseg disk fuel m ELFHDR 4096 0) (firstPage disk m) :=
    readseg_returns disk m (by decide) (by decide) (by decide)
  obtain ⟨n, hn⟩ := hreturns
  refine ⟨n, fun fuel hfuel => ?_⟩
  have hread : readseg disk fuel m ELFHDR 4096 0 = some (firstPage disk m) := hn fuel hfuel
  have hmagic : le32 (firstPage disk m) ELFHDR = ELF_MAGIC := by
    rw [← h.magic]
    exact firstPage_le32 (c := 0) (by decide)
  have hph : ELFHDR + le32 (firstPage disk m) (ELFHDR + 28) = phAddr disk 0 := by
    rw [firstPage_le32 (by decide), phAddr, phoff, Nat.mul_zero, Nat.add_zero, BitVec.ofNat_toNat,
      BitVec.setWidth_eq]
  have hnum : le16 (firstPage disk m) (ELFHDR + 44) = le16 (scratch disk) (ELFHDR + 44) := by
    rw [le16, firstPage_eq (by decide) (by decide), firstPage_eq (by decide) (by decide), le16]
  rw [bootmain, hread, Option.bind_some, if_neg (not_not_intro hmagic)]
  dsimp only
  rw [hph, hnum, eph_eq h]

theorem segments_returns (h : Bootable disk) (hkept : HeadersKept disk)
    (hfits : ∀ g ∈ segments disk, g.Fits) : ∃ entry, Returns (fun fuel => bootmain disk fuel m)
      ((segments disk).foldl (load disk) (firstPage disk m), entry) := by
  obtain ⟨n, hn⟩ := bootmain_eq (m := m) h
  obtain ⟨n', hn'⟩ := loop_run h hkept (Nat.zero_add _) (firstPage_table (m := m) h)
  refine ⟨some (le32 ((segments disk).foldl (load disk) (firstPage disk m)) (ELFHDR + 24)),
    max n n', fun fuel hfuel => ?_⟩
  dsimp only
  rw [hn fuel (by omega), (hn' fuel (by omega) fuel (by omega)).1 hfits]
  rfl

theorem segments_never (h : Bootable disk) (hkept : HeadersKept disk)
    (hfits : ¬ ∀ g ∈ segments disk, g.Fits) : ∃ n, ∀ fuel, n ≤ fuel →
      bootmain disk fuel m = none := by
  obtain ⟨n, hn⟩ := bootmain_eq (m := m) h
  obtain ⟨n', hn'⟩ := loop_run h hkept (Nat.zero_add _) (firstPage_table (m := m) h)
  refine ⟨max n n', fun fuel hfuel => ?_⟩
  rw [hn fuel (by omega), (hn' fuel (by omega) fuel (by omega)).2 hfits]
  rfl

/-- The byte at an address of a segment is decided by the segments after it. -/
theorem final_iff (h : Bootable disk) {before after : List Proghdr} {g : Proghdr} {a : Word}
    (hsplit : segments disk = before ++ g :: after) (ha : g.Has a) :
    (segments disk).foldl (load disk) m a = wanted disk g a ↔
      ∀ mid r rest, after = mid ++ r :: rest → r.Covers a → (∀ s ∈ rest, ¬ s.Covers a) →
        sectorByte disk r a = wanted disk g a := by
  have hg : g ∈ segments disk := by
    rw [hsplit]
    exact List.mem_append_right _ List.mem_cons_self
  have hincreasing := h.increasing
  rw [hsplit, List.pairwise_append, List.pairwise_cons] at hincreasing
  have hbelow : ∀ r ∈ after, a.toNat < r.paddr.toNat := fun r hr =>
    Nat.lt_of_lt_of_le ha.2 (hincreasing.2.1.1 r hr)
  rw [hsplit, List.foldl_append, List.foldl_cons, foldl_load_iff hbelow, and_iff_left]
  intro _
  exact load_inside (base_le h hg) ha

theorem loads_iff (h : Bootable disk) (hkept : HeadersKept disk) :
    Loads disk m ↔ (∀ g ∈ segments disk, g.Fits) ∧ Spared disk := by
  constructor
  · rintro ⟨m', entry, hreturns, hholds⟩
    have hfits : ∀ g ∈ segments disk, g.Fits := by
      by_contra hno
      obtain ⟨n, hn⟩ := segments_never (m := m) h hkept hno
      obtain ⟨n', hn'⟩ := hreturns
      have := (hn _ (Nat.le_max_left n n')).symm.trans (hn' _ (Nat.le_max_right n n'))
      cases this
    refine ⟨hfits, fun before g after hsplit a ha => ?_⟩
    obtain ⟨entry', hfinal⟩ := segments_returns (m := m) h hkept hfits
    cases hreturns.unique hfinal
    refine (final_iff h hsplit ha).mp (hholds g ?_ a ha)
    rw [hsplit]
    exact List.mem_append_right _ List.mem_cons_self
  · rintro ⟨hfits, hspared⟩
    obtain ⟨entry, hfinal⟩ := segments_returns (m := m) h hkept hfits
    refine ⟨_, entry, hfinal, fun g hg a ha => ?_⟩
    obtain ⟨before, after, hsplit⟩ := List.append_of_mem hg
    exact (final_iff h hsplit ha).mpr (hspared before g after hsplit a ha)

end Run

/-- The segments are loaded right if no sector is put over the program headers, all sectors fit
into memory, and no sector of a later segment brings other bytes to an earlier one; and as long as
the program headers are kept, in no other case. -/
theorem bootmain_loads {disk : Disk} (m : Memory) (h : Bootable disk) :
    (HeadersKept disk ∧ (∀ g ∈ segments disk, g.Fits) ∧ Spared disk → Loads disk m) ∧
    (HeadersKept disk → Loads disk m → (∀ g ∈ segments disk, g.Fits) ∧ Spared disk) :=
  ⟨fun hall => (loads_iff h hall.1).mpr hall.2, fun hkept => (loads_iff h hkept).mp⟩

/-- The header, and two segments that come one directly after the other in the file and in memory,
but the first has a byte of zeros at its end. -/
def tightBytes : List Byte :=
  [0x7F, 0x45, 0x4C, 0x46] ++ List.replicate 24 0 ++ [52, 0, 0, 0] ++ List.replicate 12 0 ++
  [2, 0] ++ List.replicate 6 0 ++
  ([1, 0, 0, 0, 0, 0x10, 0, 0, 0, 0, 0x10, 0, 0, 0, 0x10, 0, 1, 0, 0, 0, 2, 0, 0, 0, 7, 0, 0, 0,
    4, 0, 0, 0] ++
  [1, 0, 0, 0, 2, 0x10, 0, 0, 2, 0, 0x10, 0, 2, 0, 0x10, 0, 1, 0, 0, 0, 1, 0, 0, 0, 7, 0, 0, 0,
    4, 0, 0, 0])

/-- All other bytes of the disk are 1. -/
def tight : Disk := fun i => if i < 512 then 1 else tightBytes.getD (i - 512) 1

theorem segments_tight : segments tight = [⟨0x1000, 0x100000, 1, 2⟩, ⟨0x1002, 0x100002, 1, 1⟩] := by
  decide +kernel

theorem bootable_tight : Bootable tight where
  magic := by decide +kernel
  headers := by decide +kernel
  above := by rw [segments_tight]; decide
  sizes := by rw [segments_tight]; decide
  no_wrap := by rw [segments_tight]; decide
  increasing := by rw [segments_tight]; decide

theorem headersKept_tight : HeadersKept tight := by
  have htable : ELFHDR.toNat + phoff tight + 32 * phnum tight = 0x10074 := by decide +kernel
  unfold HeadersKept
  rw [segments_tight, htable]
  decide

theorem bootmain_loads_tight :
    (HeadersKept tight ∧ (∀ g ∈ segments tight, g.Fits) ∧ Spared tight → Loads tight fun _ => 0) ∧
    (HeadersKept tight → Loads tight (fun _ => 0) →
      (∀ g ∈ segments tight, g.Fits) ∧ Spared tight) :=
  bootmain_loads (fun _ => 0) bootable_tight

/-- The sector of the second segment is put over the zeros of the first. -/
theorem bootmain_clobbers : Bootable tight ∧ ¬ Loads tight fun _ => 0 := by
  refine ⟨bootable_tight, fun hloads => ?_⟩
  have hspared := ((loads_iff bootable_tight headersKept_tight).mp hloads).2
  have hbyte := hspared [] _ _ segments_tight 0x100001 (by unfold Proghdr.Has; decide)
    [] _ [] rfl (by decide) nofun
  exact absurd hbyte (by decide +kernel)

end BootLoader
