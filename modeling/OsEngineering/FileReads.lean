import OsEngineering.BlockAllocation

/-! readi() and dirlookup() of fs.c, over the block layer. A directory is a file of entries of
16 bytes: a number of two bytes and a name of DIRSIZ. -/
namespace FileReads

open ByteBlock FaultState KernelParams BlockAllocation

def DIRSIZ : ℕ := 14
def T_DIR : Half := 1

/-- A string that is shorter than it is read has zeros after it. -/
def strncmp : ℕ → List Byte → List Byte → ℤ
  | 0, _, _ => 0
  | n + 1, p, q =>
    if p.headD 0 ≠ 0 ∧ p.headD 0 = q.headD 0 then strncmp n p.tail q.tail
    else (p.headD 0).toNat - (q.headD 0).toNat

def namecmp (s t : List Byte) : ℤ := strncmp DIRSIZ s t

/-- The number of the entry `de`. -/
def direntInum (de : List Byte) : ℕ := (de.getD 0 0).toNat + 256 * (de.getD 1 0).toNat

section Kernel

variable (sb : Superblock)

/-- memmove(dst, bp->data + off % BSIZE, m). -/
def copyOut (data : DiskBlock) (off m : ℕ) : List Byte :=
  (List.range m).map fun j => byte data (off % BSIZE + j)

/-- The loop of readi(); each round takes at least one byte. -/
def readFrom (i n : ℕ) : ℕ → ℕ → ℕ → FsCode (List Byte)
  | 0, _, _ => pure []
  | k + 1, tot, off =>
    if tot < n then do
      let b ← bmap sb i (off / BSIZE)
      let data ← bread b
      let m := min (n - tot) (BSIZE - off % BSIZE)
      let rest ← readFrom i n k (tot + m) (off + m)
      pure (copyOut data off m ++ rest)
    else pure []

/-- What readi() returns and the bytes it has put into `dst`. `dev` stands for the read
functions in devsw[]. -/
def readi (dev : Half → Option (Word → ℤ × List Byte)) (i : ℕ) (off n : Word) :
    FsCode (ℤ × List Byte) := do
  let ip ← ip sb i
  if ip.type = T_DEV then
    match dev ip.major with
    | none => pure (-1, [])
    | some read => pure (read n)
  else if ip.size < off ∨ off + n < off then pure (-1, [])
  else do
    let n := if ip.size < off + n then ip.size - off else n
    let bytes ← readFrom sb i n.toNat n.toNat 0 off.toNat
    pure (n.toInt, bytes)

/-- The loop of dirlookup(), which gives the number in the entry it finds and where it is. -/
def dirlookupFrom (dev : Half → Option (Word → ℤ × List Byte)) (i : ℕ) (name : List Byte) :
    ℕ → Word → FsCode (Option (ℕ × Word))
  | 0, _ => pure none
  | k + 1, off => do
    let dp ← ip sb i
    if off < dp.size then do
      let (r, de) ← readi sb dev i off 16
      if r ≠ 16 then BlockAllocation.panic "dirlookup read"
      else if direntInum de = 0 then dirlookupFrom dev i name k (off + 16)
      else if namecmp name (de.drop 2) = 0 then pure (some (direntInum de, off))
      else dirlookupFrom dev i name k (off + 16)
    else pure none

/-- dirlookup() of a directory that is locked; its size bounds the number of rounds. -/
def dirlookup (dev : Half → Option (Word → ℤ × List Byte)) (i : ℕ) (name : List Byte) :
    FsCode (Option (ℕ × Word)) := do
  let dp ← ip sb i
  if dp.type ≠ T_DIR then BlockAllocation.panic "dirlookup not DIR"
  else dirlookupFrom sb dev i name dp.size.toNat 0

end Kernel

/-! A name that strncpy() has put into an entry. -/

theorem strncmp_eq_zero_iff {n : ℕ} {p q : List Byte} (hp : ∀ c ∈ p, c ≠ 0)
    (hq : ∀ c ∈ q, c ≠ 0) (hpn : p.length ≤ n) (hqn : q.length ≤ n) :
    strncmp n p (q ++ List.replicate (n - q.length) 0) = 0 ↔ p = q := by
  induction n generalizing p q with
  | zero =>
    obtain rfl := List.length_eq_zero_iff.mp (Nat.le_zero.mp hpn)
    obtain rfl := List.length_eq_zero_iff.mp (Nat.le_zero.mp hqn)
    exact iff_of_true rfl rfl
  | succ n ih =>
    have htoNat : ∀ c : Byte, c ≠ 0 → c.toNat ≠ 0 := by
      intro c hc h0
      exact hc (BitVec.eq_of_toNat_eq h0)
    cases p with
    | nil =>
      cases q with
      | nil => exact iff_of_true rfl rfl
      | cons d q =>
        have hd := htoNat d (hq d List.mem_cons_self)
        refine iff_of_false ?_ nofun
        rw [strncmp, if_neg fun h => h.1 rfl]
        change ((0 : ℕ) : ℤ) - (d.toNat : ℤ) ≠ 0
        omega
    | cons c p =>
      have hc := hp c List.mem_cons_self
      cases q with
      | nil =>
        have hcn := htoNat c hc
        refine iff_of_false ?_ nofun
        have hhead : ([] ++ List.replicate (n + 1 - ([] : List Byte).length) (0 : Byte)).headD 0 =
            0 := rfl
        rw [strncmp, hhead, if_neg fun h => hc h.2]
        change (c.toNat : ℤ) - ((0 : ℕ) : ℤ) ≠ 0
        omega
      | cons d q =>
        have hlen : n + 1 - (d :: q).length = n - q.length := by
          rw [List.length_cons]
          omega
        rw [hlen]
        by_cases hcd : c = d
        · subst hcd
          change (if c ≠ 0 ∧ c = c then
            strncmp n p (q ++ List.replicate (n - q.length) 0) else _) = 0 ↔ _
          rw [if_pos ⟨hc, rfl⟩, ih (fun e he => hp e (List.mem_cons_of_mem c he))
            (fun e he => hq e (List.mem_cons_of_mem c he)) (Nat.le_of_succ_le_succ hpn)
            (Nat.le_of_succ_le_succ hqn), List.cons.injEq, and_iff_right rfl]
        · refine iff_of_false ?_ fun h => hcd (List.cons.inj h).1
          change (if c ≠ 0 ∧ c = d then
            strncmp n p (q ++ List.replicate (n - q.length) 0) else
              (c.toNat : ℤ) - (d.toNat : ℤ)) ≠ 0
          rw [if_neg fun h => hcd h.2]
          have hne : c.toNat ≠ d.toNat := fun h => hcd (BitVec.eq_of_toNat_eq h)
          omega

end FileReads
