import Mathlib.Data.BitVec
import Mathlib.Logic.Function.Basic

/-! Ring buffers addressed by two free-running counters of `w` bits. The counters wrap; the
buffer stays a queue because its capacity divides `2 ^ w`. -/
namespace RingBuffer

variable {α : Type*} {w cap : ℕ}

def slot (cap : ℕ) [NeZero cap] (x : BitVec w) : Fin cap := Fin.ofNat cap x.toNat

/-- Elements between the counters. -/
def count (head tail : BitVec w) : ℕ := (tail - head).toNat

variable [NeZero cap]

def contents (data : Fin cap → α) (head tail : BitVec w) : List α :=
  (List.range (count head tail)).map fun k => data (slot cap (head + BitVec.ofNat w k))

@[simp] theorem count_self (x : BitVec w) : count x x = 0 := by
  simp [count]

@[simp] theorem contents_self (data : Fin cap → α) (x : BitVec w) : contents data x x = [] := by
  simp [contents]

theorem length_contents (data : Fin cap → α) (head tail : BitVec w) :
    (contents data head tail).length = count head tail := by
  simp [contents]

theorem count_eq_zero {head tail : BitVec w} : count head tail = 0 ↔ head = tail := by
  rw [count, BitVec.toNat_sub]
  constructor
  · intro h
    apply BitVec.eq_of_toNat_eq
    have hh := head.isLt
    have ht := tail.isLt
    by_cases hle : head.toNat ≤ tail.toNat
    · have hs : 2 ^ w - head.toNat + tail.toNat = (tail.toNat - head.toNat) + 2 ^ w := by omega
      rw [hs, Nat.add_mod_right, Nat.mod_eq_of_lt (by omega)] at h
      omega
    · rw [Nat.mod_eq_of_lt (by omega)] at h
      omega
  · rintro rfl
    have hh := head.isLt
    rw [Nat.sub_add_cancel hh.le, Nat.mod_self]

/-- The tail is the head moved on by the count. -/
theorem head_add_count (head tail : BitVec w) :
    head + BitVec.ofNat w (count head tail) = tail := by
  rw [count, BitVec.ofNat_toNat, BitVec.setWidth_eq, BitVec.add_comm, BitVec.sub_add_cancel]

theorem count_add {head : BitVec w} {k : ℕ} (hk : k < 2 ^ w) :
    count head (head + BitVec.ofNat w k) = k := by
  rw [count, BitVec.add_comm, BitVec.add_sub_cancel, BitVec.toNat_ofNat, Nat.mod_eq_of_lt hk]

theorem count_eq_cap {head tail : BitVec w} (hcap : cap < 2 ^ w) :
    count head tail = cap ↔ tail = head + BitVec.ofNat w cap := by
  constructor
  · rintro rfl
    exact (head_add_count head tail).symm
  · rintro rfl
    exact count_add hcap

theorem count_push {head tail : BitVec w} (h : count head tail + 1 < 2 ^ w) :
    count head (tail + 1) = count head tail + 1 := by
  have ht : tail + 1 = head + BitVec.ofNat w (count head tail + 1) := by
    rw [BitVec.ofNat_add, ← BitVec.add_assoc, head_add_count]
    rfl
  rw [ht]
  exact count_add h

/-- One element more than the counters can tell from none. -/
theorem count_push_last {head tail : BitVec w} (h : count head tail + 1 = 2 ^ w) :
    head = tail + 1 := by
  have ht : tail + 1 = head + BitVec.ofNat w (count head tail + 1) := by
    rw [BitVec.ofNat_add, ← BitVec.add_assoc, head_add_count]
    rfl
  have hzero : BitVec.ofNat w (2 ^ w) = 0 := by
    apply BitVec.eq_of_toNat_eq
    rw [BitVec.toNat_ofNat, Nat.mod_self]
    rfl
  rw [ht, h, hzero]
  exact (BitVec.add_zero head).symm

theorem count_pop {head tail : BitVec w} (h : head ≠ tail) :
    count (head + 1) tail + 1 = count head tail := by
  have hpos : 0 < count head tail := Nat.pos_of_ne_zero (mt count_eq_zero.mp h)
  have hlt : count head tail < 2 ^ w := (tail - head).isLt
  have ht : tail = head + 1 + BitVec.ofNat w (count head tail - 1) := by
    have hone : (1 : BitVec w) = BitVec.ofNat w 1 := rfl
    rw [BitVec.add_assoc, hone, ← BitVec.ofNat_add, Nat.add_sub_cancel' hpos, head_add_count]
  have hc : count (head + 1) tail = count head tail - 1 := by
    conv_lhs => rw [ht]
    exact count_add (by omega)
  omega

/-! The list of elements as the counters move. -/

theorem slot_add (hdvd : cap ∣ 2 ^ w) (head : BitVec w) (k : ℕ) :
    slot cap (head + BitVec.ofNat w k) = Fin.ofNat cap (head.toNat + k) := by
  apply Fin.ext
  simp only [slot, Fin.ofNat, BitVec.toNat_add, BitVec.toNat_ofNat, Nat.add_mod_mod]
  exact Nat.mod_mod_of_dvd _ hdvd

theorem slot_ne (hdvd : cap ∣ 2 ^ w) (head : BitVec w) {j k : ℕ} (hjk : j < k) (hk : k < j + cap) :
    slot cap (head + BitVec.ofNat w j) ≠ slot cap (head + BitVec.ofNat w k) := by
  rw [slot_add hdvd, slot_add hdvd]
  intro h
  have hmod : head.toNat + j ≡ head.toNat + k [MOD cap] := congrArg Fin.val h
  have hz := (Nat.modEq_iff_dvd' (by omega)).mp hmod
  have hle := Nat.le_of_dvd (by omega) hz
  omega

/-- The last element, when the tail is moved over it. -/
theorem contents_succ (data : Fin cap → α) {head tail : BitVec w}
    (h : count head tail + 1 < 2 ^ w) :
    contents data head (tail + 1) = contents data head tail ++ [data (slot cap tail)] := by
  rw [contents, count_push h, List.range_succ, List.map_append, List.map_singleton,
    head_add_count, contents]

theorem contents_push (hdvd : cap ∣ 2 ^ w) {data : Fin cap → α} {head tail : BitVec w} (b : α)
    (hroom : count head tail < cap) (hcount : count head tail + 1 < 2 ^ w) :
    contents (Function.update data (slot cap tail) b) head (tail + 1) =
      contents data head tail ++ [b] := by
  rw [contents_succ _ hcount, Function.update_self, contents, contents]
  congr 1
  apply List.map_congr_left
  intro k hk
  rw [List.mem_range] at hk
  rw [Function.update_of_ne]
  have hlast := slot_ne hdvd head hk (by omega : count head tail < k + cap)
  rw [head_add_count] at hlast
  exact hlast

theorem contents_append (data : Fin cap → α) (head : BitVec w) {j k : ℕ} (h : j + k < 2 ^ w) :
    contents data head (head + BitVec.ofNat w (j + k)) =
      contents data head (head + BitVec.ofNat w j) ++
        contents data (head + BitVec.ofNat w j) (head + BitVec.ofNat w (j + k)) := by
  have hmid : head + BitVec.ofNat w (j + k) = head + BitVec.ofNat w j + BitVec.ofNat w k := by
    rw [BitVec.ofNat_add, BitVec.add_assoc]
  rw [contents, count_add h, contents, count_add (by omega), contents, hmid, count_add (by omega),
    List.range_add, List.map_append, List.map_map]
  congr 1
  apply List.map_congr_left
  intro i _
  rw [Function.comp_apply, BitVec.add_assoc, ← BitVec.ofNat_add]

theorem contents_pop (data : Fin cap → α) {head tail : BitVec w} (h : head ≠ tail) :
    contents data head tail = data (slot cap head) :: contents data (head + 1) tail := by
  rw [contents, ← count_pop h, List.range_succ_eq_map, List.map_cons, List.map_map, contents]
  have hzero : head + BitVec.ofNat w 0 = head := BitVec.add_zero head
  rw [hzero]
  congr 1
  apply List.map_congr_left
  intro k _
  have hstep : head + BitVec.ofNat w (k + 1) = head + 1 + BitVec.ofNat w k := by
    rw [Nat.add_comm, BitVec.ofNat_add, ← BitVec.add_assoc]
    rfl
  simp only [Function.comp_apply, Nat.succ_eq_add_one, hstep]

end RingBuffer
