import OsEngineering.FlatMemory
import OsEngineering.MemoryMoves

/-! memmove() in the kernel's string.c and in ulib.c. -/
namespace Memmove

open ByteBlock FlatMemory MemoryMoves

/-- while(n-- > 0) *d++ = *s++; -/
def copyForward : ℕ → Word → Word → Memory → Memory
  | 0, _, _, m => m
  | n + 1, d, s, m => copyForward n (d + 1) (s + 1) (Function.update m d (m s))

/-- while(n-- > 0) *--d = *--s; -/
def copyBackward : ℕ → Word → Word → Memory → Memory
  | 0, _, _, m => m
  | n + 1, d, s, m =>
    let d := d - 1
    let s := s - 1
    copyBackward n d s (Function.update m d (m s))

/-- memmove() of string.c, with what it returns. -/
def kernelMemmove (m : Memory) (dst src n : Word) : Memory × Word :=
  let s := src
  let d := dst
  if s < d ∧ s + n > d then (copyBackward n.toNat (d + n) (s + n) m, dst)
  else (copyForward n.toNat d s m, dst)

/-- memmove() of ulib.c, where n is an int. -/
def userMemmove (m : Memory) (vdst vsrc n : Word) : Memory × Word :=
  (copyForward n.toInt.toNat vdst vsrc m, vdst)

/-- The bytes from `p` on. -/
def cell (p : Word) (k : ℕ) : Word := p + BitVec.ofNat 32 k

/-- What memmove() is for. -/
def Moves (dst src : Word) (n : ℕ) (m m' : Memory) : Prop :=
  Moved (cell dst) (cell src) (· < n) m m'

theorem cell_toNat {p : Word} {k : ℕ} (h : p.toNat + k < 2 ^ 32) :
    (cell p k).toNat = p.toNat + k := by
  have hk : (BitVec.ofNat 32 k).toNat = k := by
    rw [BitVec.toNat_ofNat]
    exact Nat.mod_eq_of_lt (by omega)
  rw [cell, toNat_add_of_lt (by omega), hk]

theorem cell_zero (p : Word) : cell p 0 = p := BitVec.add_zero p

theorem cell_cell (p : Word) (j k : ℕ) : cell (cell p j) k = cell p (j + k) := by
  rw [cell, cell, cell, BitVec.ofNat_add, BitVec.add_assoc]

theorem cell_succ (p : Word) (k : ℕ) : cell p k + 1 = cell p (k + 1) := cell_cell p k 1

theorem cell_pred (p : Word) (k : ℕ) : cell p (k + 1) - 1 = cell p k := by
  rw [← cell_succ, BitVec.add_sub_cancel]

variable {dst src : Word} {n : ℕ} {m : Memory}

/-- Addresses that do not wrap. -/
structure Bounded (dst src : Word) (n : ℕ) : Prop where
  dst : dst.toNat + n < 2 ^ 32
  src : src.toNat + n < 2 ^ 32

theorem Bounded.dst_ne (h : Bounded dst src n) {j k : ℕ} (hj : j < n) (hk : k < n) (hne : j ≠ k) :
    cell dst j ≠ cell dst k := by
  have hd := h.dst
  rw [ne_eq, ← BitVec.toNat_inj, cell_toNat (by omega), cell_toNat (by omega)]
  omega

theorem Bounded.src_eq_iff (h : Bounded dst src n) {j k : ℕ} (hj : j < n) (hk : k < n) :
    cell src j = cell dst k ↔ src.toNat + j = dst.toNat + k := by
  have hd := h.dst
  have hs := h.src
  rw [← BitVec.toNat_inj, cell_toNat (by omega), cell_toNat (by omega)]

/-- Copying from the low end is right where no byte is read after it was written. -/
theorem copyForward_moved (h : Bounded dst src n)
    (hsafe : dst.toNat ≤ src.toNat ∨ src.toNat + n ≤ dst.toNat) {i c : ℕ} (hn : i + c ≤ n) :
    Moved (cell dst) (cell src) (fun k => i ≤ k ∧ k < i + c) m
      (copyForward c (cell dst i) (cell src i) m) := by
  induction c generalizing i m with
  | zero => exact .refl (by omega) m
  | succ c ih =>
    have hfirst : Moved (cell dst) (cell src) (fun j => j = i) m _ := written_update m i
    have hrest := ih (i := i + 1) (m := Function.update m (cell dst i) (m (cell src i)))
      (by omega)
    have hall := moved_union hfirst hrest ?_ ?_
    · rw [copyForward, cell_succ, cell_succ]
      exact hall.congr fun k => by omega
    · rintro l j rfl hj
      rw [ne_eq, h.src_eq_iff (by omega) (by omega)]
      omega
    · rintro l j rfl hj
      exact h.dst_ne (by omega) (by omega) (by omega)

/-- Copying from the high end. -/
theorem copyBackward_moved (h : Bounded dst src n) (hsafe : src.toNat ≤ dst.toNat) {c : ℕ}
    (hn : c ≤ n) : Moves dst src c m (copyBackward c (cell dst c) (cell src c) m) := by
  induction c generalizing m with
  | zero => exact .refl (by omega) m
  | succ c ih =>
    have hlast : Moved (cell dst) (cell src) (fun j => j = c) m _ := written_update m c
    have hrest := ih (m := Function.update m (cell dst c) (m (cell src c))) (by omega)
    have hall := moved_union hlast hrest ?_ ?_
    · rw [copyBackward, cell_pred, cell_pred]
      exact hall.congr fun k => by omega
    · rintro i j rfl hj
      rw [ne_eq, h.src_eq_iff (by omega) (by omega)]
      omega
    · rintro i j rfl hj
      exact h.dst_ne (by omega) (by omega) (by omega)

theorem ofNat_toNat (n : Word) (p : Word) : cell p n.toNat = p + n := by
  rw [cell, BitVec.ofNat_toNat, BitVec.setWidth_eq]

theorem forward_moves (h : Bounded dst src n)
    (hsafe : dst.toNat ≤ src.toNat ∨ src.toNat + n ≤ dst.toNat) :
    Moves dst src n m (copyForward n dst src m) := by
  have hmoved := copyForward_moved (i := 0) (c := n) (m := m) h hsafe (by omega)
  rw [cell_zero, cell_zero] at hmoved
  exact hmoved.congr fun k => by omega

theorem kernelMemmove_moves {n : Word} (h : Bounded dst src n.toNat) :
    Moves dst src n.toNat m (kernelMemmove m dst src n).1 := by
  have hsum : (src + n).toNat = src.toNat + n.toNat := toNat_add_of_lt h.src
  unfold kernelMemmove
  dsimp only
  split
  next hover =>
    obtain ⟨hlow, -⟩ := hover
    rw [← ofNat_toNat, ← ofNat_toNat]
    exact copyBackward_moved h (Nat.le_of_lt hlow) (le_refl _)
  next hover =>
    apply forward_moves h
    rw [BitVec.lt_def, gt_iff_lt, BitVec.lt_def, hsum] at hover
    omega

/-! Copying from the low end into bytes that are still to be read -/

theorem copyForward_succ (c : ℕ) (d s : Word) (m : Memory) : copyForward (c + 1) d s m =
    Function.update (copyForward c d s m) (cell d c) (copyForward c d s m (cell s c)) := by
  induction c generalizing d s m with
  | zero =>
    rw [cell_zero, cell_zero]
    rfl
  | succ c ih =>
    have hnext : ∀ p : Word, cell (p + 1) c = cell p (c + 1) := by
      intro p
      have hcell := cell_cell p 1 c
      rwa [Nat.add_comm] at hcell
    rw [copyForward, ih, hnext, hnext]
    rfl

theorem copyForward_outside {c : ℕ} {d s a : Word} (h : ∀ k < c, a ≠ cell d k) :
    copyForward c d s m a = m a := by
  induction c with
  | zero => rfl
  | succ c ih =>
    rw [copyForward_succ, Function.update_of_ne (h c (Nat.lt_succ_self c))]
    exact ih fun k hk => h k (Nat.lt_succ_of_lt hk)

/-- Each byte gets what is read when its turn comes. -/
theorem copyForward_inside (h : Bounded dst src n) {k c : ℕ} (hk : k < c) (hc : c ≤ n) :
    copyForward c dst src m (cell dst k) = copyForward k dst src m (cell src k) := by
  induction c with
  | zero => omega
  | succ c ih =>
    rw [copyForward_succ]
    by_cases hlast : k = c
    · subst hlast
      rw [Function.update_self]
    · rw [Function.update_of_ne (h.dst_ne (by omega) (by omega) hlast)]
      exact ih (by omega) (by omega)

/-- The `n` bytes at `src` repeat the first `d` of them. -/
def Repeats (m : Memory) (src : Word) (n d : ℕ) : Prop :=
  ∀ k, k + d < n → m (cell src (k + d)) = m (cell src k)

theorem forward_moves_iff (h : Bounded dst src n) {d : ℕ} (hd : dst.toNat = src.toNat + d)
    (hpos : 0 < d) : Moves dst src n m (copyForward n dst src m) ↔ Repeats m src n d := by
  have hread : ∀ k, k < n → k < d →
      copyForward n dst src m (cell dst k) = m (cell src k) := by
    intro k hk hlow
    rw [copyForward_inside h hk (le_refl n)]
    apply copyForward_outside
    intro j hj
    rw [ne_eq, h.src_eq_iff hk (by omega)]
    omega
  have hreread : ∀ k, k + d < n →
      copyForward n dst src m (cell dst (k + d)) = copyForward n dst src m (cell dst k) := by
    intro k hk
    have hsame : cell src (k + d) = cell dst k := (h.src_eq_iff hk (by omega)).mpr (by omega)
    rw [copyForward_inside h hk (le_refl n), hsame, copyForward_inside h (by omega) (by omega),
      copyForward_inside h (by omega) (le_refl n)]
  constructor
  · intro hmoves k hk
    rw [← hmoves.inside (k + d) hk, hreread k hk, hmoves.inside k (by omega)]
  · intro hrep
    refine ⟨fun k hk => ?_, fun a ha => copyForward_outside ha⟩
    induction k using Nat.strongRecOn with
    | ind k ih =>
      by_cases hlow : k < d
      · exact hread k hk hlow
      · obtain ⟨j, rfl⟩ := Nat.exists_eq_add_of_le' (Nat.le_of_not_lt hlow)
        rw [hreread j hk, ih j (by omega) (by omega), hrep j hk]

theorem userMemmove_eq {n : Word} (hn : n.toNat < 2 ^ 31) :
    (userMemmove m dst src n).1 = copyForward n.toNat dst src m := by
  have hint : n.toInt.toNat = n.toNat := by
    rw [BitVec.toInt_eq_toNat_of_lt (by omega), Int.toNat_natCast]
  unfold userMemmove
  rw [hint]

/-- Both memmove()s move any bytes, but where the destination begins inside of the source: there
that of the user library needs bytes that repeat at this distance. -/
theorem memmoves_agree_iff {n : Word} (h : Bounded dst src n.toNat) (hn : n.toNat < 2 ^ 31) :
    (Moves dst src n.toNat m (kernelMemmove m dst src n).1 ∧
        Moves dst src n.toNat m (userMemmove m dst src n).1) ↔
      (src.toNat < dst.toNat → dst.toNat < src.toNat + n.toNat →
        Repeats m src n.toNat (dst.toNat - src.toNat)) := by
  rw [and_iff_right (kernelMemmove_moves h), userMemmove_eq hn]
  by_cases hover : src.toNat < dst.toNat ∧ dst.toNat < src.toNat + n.toNat
  · rw [forward_moves_iff h (d := dst.toNat - src.toNat) (by omega) (by omega)]
    exact ⟨fun hrep _ _ => hrep, fun hrep => hrep hover.1 hover.2⟩
  · refine iff_of_true (forward_moves h (by omega)) fun hlow hhigh => ?_
    exact absurd ⟨hlow, hhigh⟩ hover

/-- A single non-zero byte at address 16. -/
def oneByte : Memory := Function.update (fun _ => 0) 16 1

theorem memmoves_agree_iff_apart :
    (Moves 32 16 (4 : Word).toNat oneByte (kernelMemmove oneByte 32 16 4).1 ∧
        Moves 32 16 (4 : Word).toNat oneByte (userMemmove oneByte 32 16 4).1) ↔
      ((16 : Word).toNat < (32 : Word).toNat → (32 : Word).toNat < (16 : Word).toNat +
        (4 : Word).toNat → Repeats oneByte 16 (4 : Word).toNat ((32 : Word).toNat -
        (16 : Word).toNat)) :=
  memmoves_agree_iff ⟨by decide, by decide⟩ (by decide)

/-- Two bytes moved up by one: the second is lost. -/
theorem userMemmove_smears :
    ¬ (Moves 17 16 (2 : Word).toNat oneByte (kernelMemmove oneByte 17 16 2).1 ∧
      Moves 17 16 (2 : Word).toNat oneByte (userMemmove oneByte 17 16 2).1) := by
  rintro ⟨-, h⟩
  have hlast := h.inside 1 (by decide)
  exact absurd hlast (by decide)

end Memmove
