import Mathlib.Algebra.GroupWithZero.Nat
import Mathlib.Data.Fin.Basic
import Mathlib.Tactic.SplitIfs

/-! Fixed-size arrays of bytes with little-endian access to halves, words and bits.
Reads outside the array give zero and writes outside it do nothing. -/
namespace ByteBlock

abbrev Byte := BitVec 8
abbrev Half := BitVec 16
abbrev Word := BitVec 32

instance : LawfulBEq Byte := inferInstance

abbrev Block (size : ℕ) := Fin size → Byte

variable {size : ℕ}

def zeros : Block size := fun _ => 0

def byte (b : Block size) (i : ℕ) : Byte := if h : i < size then b ⟨i, h⟩ else 0

def setByte (b : Block size) (i : ℕ) (v : Byte) : Block size :=
  fun k => if k.val = i then v else b k

@[simp] theorem byte_zeros (i : ℕ) : byte (zeros : Block size) i = 0 := by
  simp [byte, zeros]

theorem byte_setByte_self (b : Block size) {i : ℕ} (v : Byte) (h : i < size) :
    byte (setByte b i v) i = v := by
  simp [byte, setByte, h]

theorem byte_setByte_ne (b : Block size) {i j : ℕ} (v : Byte) (h : j ≠ i) :
    byte (setByte b i v) j = byte b j := by
  simp [byte, setByte, h]

/-! Words and halves. -/

def word (b : Block size) (i : ℕ) : Word :=
  byte b (4 * i + 3) ++ byte b (4 * i + 2) ++ byte b (4 * i + 1) ++ byte b (4 * i)

def setWord (b : Block size) (i : ℕ) (v : Word) : Block size :=
  setByte (setByte (setByte (setByte b (4 * i) (v.extractLsb' 0 8))
    (4 * i + 1) (v.extractLsb' 8 8)) (4 * i + 2) (v.extractLsb' 16 8))
    (4 * i + 3) (v.extractLsb' 24 8)

def half (b : Block size) (i : ℕ) : Half := byte b (2 * i + 1) ++ byte b (2 * i)

def setHalf (b : Block size) (i : ℕ) (v : Half) : Block size :=
  setByte (setByte b (2 * i) (v.extractLsb' 0 8)) (2 * i + 1) (v.extractLsb' 8 8)

/-- A mask without the low `k` bits rounds down. -/
theorem mask_toNat (a : Word) (k : ℕ) :
    (a &&& BitVec.allOnes 32 <<< k).toNat = a.toNat / 2 ^ k * 2 ^ k := by
  have h : a &&& BitVec.allOnes 32 <<< k = (a >>> k) <<< k := by
    ext i hi
    simp only [BitVec.getElem_and, BitVec.getElem_shiftLeft, BitVec.getElem_ushiftRight]
    by_cases hlow : i < k
    · simp only [hlow, decide_true, Bool.not_true, Bool.false_and, Bool.and_false]
    · have hi' : k + (i - k) = i := by omega
      simp only [hlow, hi', BitVec.getElem_allOnes, decide_false, Bool.not_false, Bool.true_and,
        Bool.and_true, BitVec.getLsbD_eq_getElem hi]
  rw [h, BitVec.toNat_shiftLeft, BitVec.toNat_ushiftRight, Nat.shiftRight_eq_div_pow,
    Nat.shiftLeft_eq]
  exact Nat.mod_eq_of_lt (Nat.lt_of_le_of_lt (Nat.div_mul_le_self _ _) a.isLt)

theorem bytes_of_word (v : Word) :
    ((v.extractLsb' 24 8 ++ v.extractLsb' 16 8 ++ v.extractLsb' 8 8 ++ v.extractLsb' 0 8 :
      BitVec 32)) = v := by
  apply BitVec.eq_of_getLsbD_eq
  intro i hi
  simp only [BitVec.getLsbD_append, BitVec.getLsbD_extractLsb']
  split_ifs <;> simp <;> grind

theorem bytes_of_half (v : Half) :
    ((v.extractLsb' 8 8 ++ v.extractLsb' 0 8 : BitVec 16)) = v := by
  apply BitVec.eq_of_getLsbD_eq
  intro i hi
  simp only [BitVec.getLsbD_append, BitVec.getLsbD_extractLsb']
  split_ifs <;> simp <;> grind

@[simp] theorem word_zeros (i : ℕ) : word (zeros : Block size) i = 0 := by
  simp [word]

theorem byte_setWord_ne (b : Block size) {i j : ℕ} (v : Word) (h : j / 4 ≠ i) :
    byte (setWord b i v) j = byte b j := by
  unfold setWord
  rw [byte_setByte_ne _ _ (by omega), byte_setByte_ne _ _ (by omega),
    byte_setByte_ne _ _ (by omega), byte_setByte_ne _ _ (by omega)]

theorem word_setWord_self (b : Block size) {i : ℕ} (v : Word) (h : 4 * i + 3 < size) :
    word (setWord b i v) i = v := by
  have h0 : byte (setWord b i v) (4 * i) = v.extractLsb' 0 8 := by
    unfold setWord
    rw [byte_setByte_ne _ _ (by omega), byte_setByte_ne _ _ (by omega),
      byte_setByte_ne _ _ (by omega), byte_setByte_self _ _ (by omega)]
  have h1 : byte (setWord b i v) (4 * i + 1) = v.extractLsb' 8 8 := by
    unfold setWord
    rw [byte_setByte_ne _ _ (by omega), byte_setByte_ne _ _ (by omega),
      byte_setByte_self _ _ (by omega)]
  have h2 : byte (setWord b i v) (4 * i + 2) = v.extractLsb' 16 8 := by
    unfold setWord
    rw [byte_setByte_ne _ _ (by omega), byte_setByte_self _ _ (by omega)]
  have h3 : byte (setWord b i v) (4 * i + 3) = v.extractLsb' 24 8 :=
    byte_setByte_self _ _ h
  rw [word, h0, h1, h2, h3]
  exact bytes_of_word v

theorem word_setWord_ne (b : Block size) {i j : ℕ} (v : Word) (h : j ≠ i) :
    word (setWord b i v) j = word b j := by
  unfold word
  rw [byte_setWord_ne _ _ (by omega), byte_setWord_ne _ _ (by omega),
    byte_setWord_ne _ _ (by omega), byte_setWord_ne _ _ (by omega)]

theorem byte_setHalf_ne (b : Block size) {i j : ℕ} (v : Half) (h : j / 2 ≠ i) :
    byte (setHalf b i v) j = byte b j := by
  unfold setHalf
  rw [byte_setByte_ne _ _ (by omega), byte_setByte_ne _ _ (by omega)]

theorem half_setHalf_self (b : Block size) {i : ℕ} (v : Half) (h : 2 * i + 1 < size) :
    half (setHalf b i v) i = v := by
  have h0 : byte (setHalf b i v) (2 * i) = v.extractLsb' 0 8 := by
    unfold setHalf
    rw [byte_setByte_ne _ _ (by omega), byte_setByte_self _ _ (by omega)]
  have h1 : byte (setHalf b i v) (2 * i + 1) = v.extractLsb' 8 8 :=
    byte_setByte_self _ _ h
  rw [half, h0, h1]
  exact bytes_of_half v

theorem half_setHalf_ne (b : Block size) {i j : ℕ} (v : Half) (h : j ≠ i) :
    half (setHalf b i v) j = half b j := by
  unfold half
  rw [byte_setHalf_ne _ _ (by omega), byte_setHalf_ne _ _ (by omega)]

theorem word_setHalf_ne (b : Block size) {i j : ℕ} (v : Half) (h : j ≠ i / 2) :
    word (setHalf b i v) j = word b j := by
  unfold word
  rw [byte_setHalf_ne _ _ (by omega), byte_setHalf_ne _ _ (by omega),
    byte_setHalf_ne _ _ (by omega), byte_setHalf_ne _ _ (by omega)]

theorem half_setWord_ne (b : Block size) {i j : ℕ} (v : Word) (h : j / 2 ≠ i) :
    half (setWord b i v) j = half b j := by
  unfold half
  rw [byte_setWord_ne _ _ (by omega), byte_setWord_ne _ _ (by omega)]

/-! Bits: bit `n` is bit `n % 8` of byte `n / 8`. -/

def bit (b : Block size) (n : ℕ) : Bool := (byte b (n / 8)).getLsbD (n % 8)

def mask (n : ℕ) : Byte := 1#8 <<< (n % 8)

def setBit (b : Block size) (n : ℕ) : Block size :=
  setByte b (n / 8) (byte b (n / 8) ||| mask n)

def clearBit (b : Block size) (n : ℕ) : Block size :=
  setByte b (n / 8) (byte b (n / 8) &&& ~~~ mask n)

theorem getLsbD_mask (n k : ℕ) (hk : k < 8) : (mask n).getLsbD k = decide (k = n % 8) := by
  have hn : n % 8 < 8 := Nat.mod_lt _ (by decide)
  simp only [mask, BitVec.getLsbD_shiftLeft, hk, decide_true, Bool.true_and,
    BitVec.getLsbD_one]
  grind

theorem bit_setBit (b : Block size) {n m : ℕ} (h : n / 8 < size) :
    bit (setBit b n) m = (bit b m || decide (m = n)) := by
  have hm : m % 8 < 8 := Nat.mod_lt _ (by decide)
  unfold bit setBit
  by_cases hb : m / 8 = n / 8
  · rw [hb, byte_setByte_self _ _ h, BitVec.getLsbD_or, getLsbD_mask n _ hm]
    congr 2
    grind
  · rw [byte_setByte_ne _ _ hb]
    have : m ≠ n := fun e => hb (by rw [e])
    simp [this]

theorem bit_clearBit (b : Block size) {n m : ℕ} (h : n / 8 < size) :
    bit (clearBit b n) m = (bit b m && decide (m ≠ n)) := by
  have hm : m % 8 < 8 := Nat.mod_lt _ (by decide)
  unfold bit clearBit
  by_cases hb : m / 8 = n / 8
  · rw [hb, byte_setByte_self _ _ h, BitVec.getLsbD_and, BitVec.getLsbD_not,
      getLsbD_mask n _ hm]
    simp only [hm, decide_true, Bool.true_and]
    congr 1
    grind
  · rw [byte_setByte_ne _ _ hb]
    have : m ≠ n := fun e => hb (by rw [e])
    simp [this]

@[simp] theorem bit_zeros (n : ℕ) : bit (zeros : Block size) n = false := by
  simp [bit]

end ByteBlock
