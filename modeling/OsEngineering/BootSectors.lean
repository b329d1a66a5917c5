import OsEngineering.FlatMemory

/-! readseg() of the boot loaders of xv6 and of lab 1. Both read whole sectors; they differ in
what they round down. -/
namespace BootSectors

open ByteBlock FlatMemory

def SECTSIZE : Word := 512

/-- The bytes of the disk, sector after sector. -/
abbrev Disk := ℕ → Byte

/-- The kernel starts at sector 1. -/
def image (disk : Disk) (k : ℕ) : Byte := disk (512 + k)

/-- insl() puts the bytes of sector `offset` to dst. -/
def readsect (disk : Disk) (m : Memory) (dst offset : Word) : Memory := fun a =>
  if a - dst < SECTSIZE then disk (512 * offset.toNat + (a - dst).toNat) else m a

/-- The loop at the end of both readseg(), in at most `fuel` rounds. -/
def readsects (disk : Disk) : ℕ → Memory → Word → Word → Word → Option Memory
  | 0, m, pa, _, epa => if pa < epa then none else some m
  | fuel + 1, m, pa, offset, epa =>
    if pa < epa then
      readsects disk fuel (readsect disk m pa offset) (pa + SECTSIZE) (offset + 1) epa
    else some m

def readseg (disk : Disk) (fuel : ℕ) (m : Memory) (pa count offset : Word) : Option Memory :=
  let epa := pa + count
  let pa := pa - offset % SECTSIZE
  let offset := offset / SECTSIZE + 1
  readsects disk fuel m pa offset epa

/-- readseg() of lab 1. -/
def josReadseg (disk : Disk) (fuel : ℕ) (m : Memory) (pa count offset : Word) : Option Memory :=
  let end_pa := pa + count
  let pa := pa &&& ~~~(SECTSIZE - 1)
  let offset := offset / SECTSIZE + 1
  readsects disk fuel m pa offset end_pa

/-- With enough rounds the run ends with `x`. -/
def Returns {α : Type} (run : ℕ → Option α) (x : α) : Prop :=
  ∃ n, ∀ fuel, n ≤ fuel → run fuel = some x

/-- The bytes of the image from `offset` on are at [pa, pa + count). -/
def Holds (disk : Disk) (m : Memory) (pa count offset : Word) : Prop :=
  ∀ a : Word, pa.toNat ≤ a.toNat → a.toNat < pa.toNat + count.toNat →
    m a = image disk (offset.toNat + (a.toNat - pa.toNat))

/-- `len` bytes of the disk from `src` on, put to the address `start`. -/
def spread (disk : Disk) (m : Memory) (start src len : ℕ) : Memory := fun a =>
  if start ≤ a.toNat ∧ a.toNat < start + len then disk (src + (a.toNat - start)) else m a

/-- The number of sectors it takes to come from `start` to `stop`. -/
def sectors (start stop : ℕ) : ℕ := (stop - start + 511) / 512

section Loop

variable {disk : Disk} {m : Memory} {pa offset epa : Word} {k fuel : ℕ}

theorem spread_zero (disk : Disk) (m : Memory) (start src : ℕ) : spread disk m start src 0 = m := by
  funext a
  exact if_neg (by omega)

theorem spread_append (disk : Disk) (m : Memory) (start src len rest : ℕ) :
    spread disk (spread disk m start src len) (start + len) (src + len) rest =
      spread disk m start src (len + rest) := by
  funext a
  unfold spread
  by_cases hfirst : start ≤ a.toNat ∧ a.toNat < start + len
  · rw [if_neg (by omega), if_pos hfirst, if_pos (by omega)]
  · by_cases hrest : start + len ≤ a.toNat ∧ a.toNat < start + len + rest
    · rw [if_pos hrest, if_pos (by omega)]
      congr 1
      omega
    · rw [if_neg hrest, if_neg hfirst, if_neg (by omega)]

theorem readsect_eq (h : pa.toNat + 512 ≤ 2 ^ 32) :
    readsect disk m pa offset = spread disk m pa.toNat (512 * offset.toNat) 512 := by
  funext a
  have ha := a.isLt
  have hsize : SECTSIZE.toNat = 512 := rfl
  unfold readsect spread
  by_cases hle : pa ≤ a
  · have hsub : (a - pa).toNat = a.toNat - pa.toNat := BitVec.toNat_sub_of_le hle
    rw [BitVec.le_def] at hle
    by_cases hin : a - pa < SECTSIZE
    · rw [if_pos hin]
      rw [BitVec.lt_def, hsub, hsize] at hin
      rw [if_pos (by omega), hsub]
    · rw [if_neg hin]
      rw [BitVec.lt_def, hsub, hsize] at hin
      rw [if_neg (by omega)]
  · have hsub : ¬ a - pa < SECTSIZE := by
      unfold SECTSIZE
      bv_omega
    rw [BitVec.le_def] at hle
    rw [if_neg hsub, if_neg (by omega)]

/-- The loop reads the sectors up to epa, as long as the pointer does not wrap around. -/
theorem readsects_eq (hfit : pa.toNat + 512 * k < 2 ^ 32)
    (hbefore : ∀ j < k, pa.toNat + 512 * j < epa.toNat) (hend : epa.toNat ≤ pa.toNat + 512 * k)
    (hsect : offset.toNat + k < 2 ^ 32) (hfuel : k ≤ fuel) :
    readsects disk fuel m pa offset epa = some (spread disk m pa.toNat (512 * offset.toNat) (512 * k)) := by
  induction k generalizing fuel m pa offset with
  | zero =>
    have hstop : ¬ pa < epa := by rw [BitVec.lt_def]; omega
    rw [Nat.mul_zero, spread_zero]
    cases fuel <;> exact if_neg hstop
  | succ k ih =>
    obtain ⟨fuel, rfl⟩ : ∃ n, fuel = n + 1 := ⟨fuel - 1, by omega⟩
    have hgo : pa < epa := by
      have := hbefore 0 (Nat.succ_pos k)
      rw [BitVec.lt_def]
      omega
    have hsize : SECTSIZE.toNat = 512 := rfl
    have hone : (1 : Word).toNat = 1 := rfl
    have hpa := toNat_add_of_lt (a := pa) (b := SECTSIZE) (by omega)
    have hoff := toNat_add_of_lt (a := offset) (b := 1) (by omega)
    rw [hsize] at hpa
    rw [hone] at hoff
    have hlen : 512 * (k + 1) = 512 + 512 * k := by omega
    have hsrc : 512 * (offset + 1).toNat = 512 * offset.toNat + 512 := by omega
    rw [readsects, if_pos hgo, readsect_eq (by omega), hlen, ← spread_append, ← hpa, ← hsrc]
    refine ih ?_ (fun j hj => ?_) ?_ ?_ (Nat.le_of_succ_le_succ hfuel)
    · omega
    · have := hbefore (j + 1) (by omega)
      omega
    · omega
    · omega

theorem sectors_before {start stop j : ℕ} (h : j < sectors start stop) :
    start + 512 * j < stop := by
  unfold sectors at h
  omega

theorem sectors_end (start stop : ℕ) : stop ≤ start + 512 * sectors start stop := by
  unfold sectors
  omega

theorem sector_toNat (offset : Word) :
    (offset / SECTSIZE + 1).toNat = offset.toNat / 512 + 1 := by
  have := offset.isLt
  have hdiv : (offset / SECTSIZE).toNat = offset.toNat / 512 := BitVec.toNat_udiv
  have hone : (1 : Word).toNat = 1 := rfl
  rw [toNat_add_of_lt (by omega), hdiv, hone]

/-- From where and how far the sectors of a segment go. -/
theorem readsects_sectors (offset : Word) {stop : ℕ} (hepa : epa.toNat = stop)
    (hfit : pa.toNat + 512 * sectors pa.toNat stop < 2 ^ 32) (hfuel : sectors pa.toNat stop ≤ fuel) :
    readsects disk fuel m pa (offset / SECTSIZE + 1) epa =
      some (spread disk m pa.toNat (512 * (offset.toNat / 512 + 1)) (512 * sectors pa.toNat stop)) := by
  have hoff := offset.isLt
  rw [← sector_toNat offset]
  refine readsects_eq hfit (fun j hj => ?_) ?_ ?_ hfuel
  · rw [hepa]
    exact sectors_before hj
  · rw [hepa]
    exact sectors_end _ _
  · rw [sector_toNat]
    omega

end Loop

theorem Returns.unique {α : Type} {run : ℕ → Option α} {x₁ x₂ : α} (h₁ : Returns run x₁)
    (h₂ : Returns run x₂) : x₁ = x₂ := by
  obtain ⟨n₁, h₁⟩ := h₁
  obtain ⟨n₂, h₂⟩ := h₂
  have h := (h₁ _ (Nat.le_max_left n₁ n₂)).symm.trans (h₂ _ (Nat.le_max_right n₁ n₂))
  exact Option.some.inj h

/-- A pointer that cannot step past epa goes around for ever. -/
theorem readsects_never (h : 2 ^ 32 + pa.toNat % 512 < epa.toNat + 512) :
    readsects disk fuel m pa offset epa = none := by
  induction fuel generalizing m pa offset with
  | zero =>
    have hpa := pa.isLt
    exact if_pos (by rw [BitVec.lt_def]; omega)
  | succ fuel ih =>
    have hpa := pa.isLt
    have hsize : SECTSIZE.toNat = 512 := rfl
    have hgo : pa < epa := by rw [BitVec.lt_def]; omega
    rw [readsects, if_pos hgo]
    refine ih ?_
    rw [BitVec.toNat_add, hsize]
    omega

/-! The two functions -/

section Segments

variable {disk : Disk} {m : Memory} {pa count offset a : Word}

/-- Where xv6's readseg() starts to write. -/
def base (pa offset : Word) : ℕ := pa.toNat - offset.toNat % 512

/-- The memory after xv6's readseg(). -/
def loaded (disk : Disk) (m : Memory) (pa count offset : Word) : Memory :=
  spread disk m (base pa offset) (512 * (offset.toNat / 512 + 1))
    (512 * sectors (base pa offset) (pa.toNat + count.toNat))

/-- Where readseg() of lab 1 starts to write. -/
def josBase (pa : Word) : ℕ := pa.toNat / 512 * 512

/-- The memory after readseg() of lab 1. -/
def josLoaded (disk : Disk) (m : Memory) (pa count offset : Word) : Memory :=
  spread disk m (josBase pa) (512 * (offset.toNat / 512 + 1))
    (512 * sectors (josBase pa) (pa.toNat + count.toNat))

theorem base_toNat (h : offset.toNat % 512 ≤ pa.toNat) :
    (pa - offset % SECTSIZE).toNat = base pa offset := by
  have hmod : (offset % SECTSIZE).toNat = offset.toNat % 512 := BitVec.toNat_umod
  rw [BitVec.toNat_sub_of_le (by rw [BitVec.le_def, hmod]; exact h), hmod, base]

theorem josBase_toNat (pa : Word) : (pa &&& ~~~(SECTSIZE - 1)).toNat = josBase pa := by
  have hones : ~~~(SECTSIZE - 1) = BitVec.allOnes 32 <<< 9 := by decide
  rw [hones]
  exact mask_toNat pa 9

theorem readseg_returns (disk : Disk) (m : Memory) (hpa : offset.toNat % 512 ≤ pa.toNat)
    (hend : pa.toNat + count.toNat < 2 ^ 32)
    (hfit : base pa offset + 512 * sectors (base pa offset) (pa.toNat + count.toNat) < 2 ^ 32) :
    Returns (fun fuel => readseg disk fuel m pa count offset) (loaded disk m pa count offset) := by
  refine ⟨sectors (base pa offset) (pa.toNat + count.toNat), fun fuel hfuel => ?_⟩
  unfold readseg loaded
  dsimp only
  rw [← base_toNat hpa] at hfit hfuel ⊢
  exact readsects_sectors offset (toNat_add_of_lt hend) hfit hfuel

theorem josReadseg_returns (disk : Disk) (m : Memory) (offset : Word)
    (hend : pa.toNat + count.toNat < 2 ^ 32)
    (hfit : josBase pa + 512 * sectors (josBase pa) (pa.toNat + count.toNat) < 2 ^ 32) :
    Returns (fun fuel => josReadseg disk fuel m pa count offset)
      (josLoaded disk m pa count offset) := by
  refine ⟨sectors (josBase pa) (pa.toNat + count.toNat), fun fuel hfuel => ?_⟩
  unfold josReadseg josLoaded
  dsimp only
  rw [← josBase_toNat] at hfit hfuel ⊢
  exact readsects_sectors offset (toNat_add_of_lt hend) hfit hfuel

/-- If the sectors do not fit below the end of memory, readseg() does not return. -/
theorem readseg_never {fuel : ℕ} (hpa : offset.toNat % 512 ≤ pa.toNat)
    (hend : pa.toNat + count.toNat < 2 ^ 32)
    (hfit : 2 ^ 32 ≤ base pa offset + 512 * sectors (base pa offset) (pa.toNat + count.toNat)) :
    readseg disk fuel m pa count offset = none := by
  have hbase : base pa offset ≤ pa.toNat := Nat.sub_le _ _
  have hlt := pa.isLt
  refine readsects_never ?_
  rw [toNat_add_of_lt hend, base_toNat hpa]
  unfold sectors at hfit
  omega

theorem loaded_inside (hpa : offset.toNat % 512 ≤ pa.toNat) (hlow : pa.toNat ≤ a.toNat)
    (hhigh : a.toNat < pa.toNat + count.toNat) :
    loaded disk m pa count offset a = image disk (offset.toNat + (a.toNat - pa.toNat)) := by
  have hend := sectors_end (base pa offset) (pa.toNat + count.toNat)
  have hbase : base pa offset ≤ pa.toNat := Nat.sub_le _ _
  unfold loaded spread image
  rw [if_pos ⟨Nat.le_trans hbase hlow, Nat.lt_of_lt_of_le hhigh hend⟩]
  congr 1
  unfold base at *
  omega

theorem josLoaded_inside (hlow : pa.toNat ≤ a.toNat) (hhigh : a.toNat < pa.toNat + count.toNat) :
    josLoaded disk m pa count offset a =
      image disk (offset.toNat / 512 * 512 + pa.toNat % 512 + (a.toNat - pa.toNat)) := by
  have hend := sectors_end (josBase pa) (pa.toNat + count.toNat)
  have hbase : josBase pa ≤ pa.toNat := Nat.div_mul_le_self _ _
  unfold josLoaded spread image
  rw [if_pos ⟨Nat.le_trans hbase hlow, Nat.lt_of_lt_of_le hhigh hend⟩]
  congr 1
  unfold josBase at *
  omega

/-- readseg() of lab 1 ends, and what it reads is right and the same as with xv6's readseg(). -/
def Agrees (disk : Disk) (m : Memory) (pa count offset : Word) : Prop :=
  ∃ m₁ m₂, Returns (fun fuel => josReadseg disk fuel m pa count offset) m₁ ∧
    Returns (fun fuel => readseg disk fuel m pa count offset) m₂ ∧
    Holds disk m₁ pa count offset ∧
    ∀ a : Word, pa.toNat ≤ a.toNat → a.toNat < pa.toNat + count.toNat → m₁ a = m₂ a

/-- The image is the same at the distance by which the residues of pa and offset differ. -/
def SameBytes (disk : Disk) (pa count offset : Word) : Prop :=
  ∀ k < count.toNat, image disk (offset.toNat / 512 * 512 + pa.toNat % 512 + k) =
    image disk (offset.toNat + k)

theorem agrees_iff (hpa : 512 ≤ pa.toNat) (hwrap : pa.toNat + count.toNat + 512 ≤ 2 ^ 32) :
    Agrees disk m pa count offset ↔ SameBytes disk pa count offset := by
  have hmod := Nat.mod_lt offset.toNat (by decide : 512 > 0)
  have hlow : offset.toNat % 512 ≤ pa.toNat := by omega
  have hjos : Returns (fun fuel => josReadseg disk fuel m pa count offset)
      (josLoaded disk m pa count offset) :=
    josReadseg_returns disk m offset (by omega) (by unfold josBase sectors; omega)
  have hxv6 : Returns (fun fuel => readseg disk fuel m pa count offset)
      (loaded disk m pa count offset) :=
    readseg_returns disk m hlow (by omega) (by unfold base sectors; omega)
  constructor
  · rintro ⟨m₁, m₂, h₁, -, hholds, -⟩ k hk
    obtain rfl := hjos.unique h₁
    have ha : (pa + BitVec.ofNat 32 k).toNat = pa.toNat + k := by
      rw [BitVec.toNat_add, BitVec.toNat_ofNat]
      omega
    have h := hholds (pa + BitVec.ofNat 32 k) (by omega) (by omega)
    rw [josLoaded_inside (by omega) (by omega), ha, Nat.add_sub_cancel_left] at h
    exact h
  · intro h
    have heq : ∀ a : Word, pa.toNat ≤ a.toNat → a.toNat < pa.toNat + count.toNat →
        josLoaded disk m pa count offset a = image disk (offset.toNat + (a.toNat - pa.toNat)) := by
      intro a hlo hhi
      rw [josLoaded_inside hlo hhi]
      exact h _ (by omega)
    refine ⟨_, _, hjos, hxv6, heq, fun a hlo hhi => ?_⟩
    rw [heq a hlo hhi, loaded_inside hlow hlo hhi]

theorem sameBytes_iff : (∀ disk, SameBytes disk pa count offset) ↔
    count = 0 ∨ pa.toNat % 512 = offset.toNat % 512 := by
  constructor
  · intro h
    refine or_iff_not_imp_left.mpr fun hcount => ?_
    have hpos : 0 < count.toNat := Nat.pos_of_ne_zero fun h0 => hcount (BitVec.eq_of_toNat_eq h0)
    have hone := h (fun i => if i = 512 + offset.toNat then 1 else 0) 0 hpos
    unfold image at hone
    by_contra hne
    dsimp only at hone
    rw [Nat.add_zero, Nat.add_zero, if_pos rfl, if_neg (by omega)] at hone
    exact absurd hone (by decide)
  · rintro (rfl | hres) disk k hk
    · exact absurd hk (Nat.not_lt_zero k)
    · rw [hres, Nat.div_add_mod']

/-- The two readers agree exactly when the image has the same bytes at the two places, and for all
images this is so exactly when pa and offset have the same residue. -/
theorem josReadseg_agrees (disk : Disk) (m : Memory) (pa count offset : Word)
    (hpa : 512 ≤ pa.toNat) (hwrap : pa.toNat + count.toNat + 512 ≤ 2 ^ 32) :
    (Agrees disk m pa count offset ↔ SameBytes disk pa count offset) ∧
    ((∀ disk, SameBytes disk pa count offset) ↔
      count = 0 ∨ pa.toNat % 512 = offset.toNat % 512) :=
  ⟨agrees_iff hpa hwrap, sameBytes_iff⟩

/-- Only the first byte of the image is not zero. -/
def oneByte : Disk := fun i => if i = 512 then 1 else 0

theorem josReadseg_agrees_page :
    (Agrees oneByte (fun _ => 0) 4096 16 512 ↔ SameBytes oneByte 4096 16 512) ∧
    ((∀ disk, SameBytes disk 4096 16 512) ↔
      (16 : Word) = 0 ∨ (4096 : Word).toNat % 512 = (512 : Word).toNat % 512) :=
  josReadseg_agrees oneByte (fun _ => 0) 4096 16 512 (by decide) (by decide)

/-- The first byte is wanted at 513 and comes to 512. -/
theorem josReadseg_misplaces : ¬ Agrees oneByte (fun _ => 0) 513 1 0 := by
  rw [agrees_iff (by decide) (by decide)]
  intro h
  exact absurd (h 0 (by decide)) (by decide)

end Segments

end BootSectors
