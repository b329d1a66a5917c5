import OsEngineering.ByteBlock

/-! Memory as one array of bytes, with little-endian access. -/
namespace FlatMemory

open ByteBlock

abbrev Memory := Word → Byte

def le16 (m : Memory) (a : Word) : Half := m (a + 1) ++ m a

def le32 (m : Memory) (a : Word) : Word := m (a + 3) ++ m (a + 2) ++ m (a + 1) ++ m a

theorem toNat_add_of_lt {a b : Word} (h : a.toNat + b.toNat < 2 ^ 32) :
    (a + b).toNat = a.toNat + b.toNat := by
  rw [BitVec.toNat_add]
  exact Nat.mod_eq_of_lt h

theorem le32_congr {m m' : Memory} {a : Word} (ha : a.toNat + 4 < 2 ^ 32)
    (h : ∀ b : Word, a.toNat ≤ b.toNat → b.toNat < a.toNat + 4 → m b = m' b) :
    le32 m a = le32 m' a := by
  have h0 := h a (by omega) (by omega)
  have h1 := h (a + 1) (by bv_omega) (by bv_omega)
  have h2 := h (a + 2) (by bv_omega) (by bv_omega)
  have h3 := h (a + 3) (by bv_omega) (by bv_omega)
  rw [le32, h0, h1, h2, h3, le32]

end FlatMemory
