import OsEngineering.BlockAllocation

/-! Which blocks an inode has, and how often readi(), writei() and itrunc() call log_write(). -/
namespace InodeHoles

open BlockAllocation KernelParams

/-- Of a block number only whether it is not 0 is kept; `entries` is the indirect block. -/
structure Inode where
  size : ℕ
  addrs : ℕ → Bool
  entries : ℕ → Bool

def empty : Inode := ⟨0, fun _ => false, fun _ => false⟩

/-- The inode after bmap(), and the calls of log_write(): two in each balloc(). -/
def bmap (x : Inode) (bn : ℕ) : Except String (Inode × ℕ) :=
  if bn < NDIRECT then
    if x.addrs bn = true then .ok (x, 0)
    else .ok ({ x with addrs := Function.update x.addrs bn true }, 2)
  else if bn - NDIRECT < NINDIRECT then
    let (y, logs) := if x.addrs NDIRECT = true then (x, 0)
      else ({ x with addrs := Function.update x.addrs NDIRECT true, entries := fun _ => false }, 2)
    if y.entries (bn - NDIRECT) = true then .ok (y, logs)
    else .ok ({ y with entries := Function.update y.entries (bn - NDIRECT) true }, logs + 3)
  else .error "bmap: out of range"

/-- The loops of readi() and writei() for `n` bytes; `each` is the log_write() of a block. -/
def rounds (each : ℕ) : ℕ → Inode → ℕ → ℕ → Except String (Inode × ℕ)
  | 0, x, _, _ => .ok (x, 0)
  | fuel + 1, x, off, n =>
    if n = 0 then .ok (x, 0)
    else do
      let (x, logs) ← bmap x (off / BSIZE)
      let m := min n (BSIZE - off % BSIZE)
      let (x, more) ← rounds each fuel x (off + m) (n - m)
      .ok (x, logs + each + more)

/-- An argument of type uint. -/
def uint (n : ℕ) : ℕ := n % 2 ^ 32

/-- The inode, the calls of log_write() and the result. -/
def readi (x : Inode) (off n : ℕ) : Except String (Inode × ℕ × ℤ) :=
  if x.size < off ∨ uint (off + n) < off then .ok (x, 0, -1)
  else do
    let n := if x.size < off + n then x.size - off else n
    let (y, logs) ← rounds 0 n x off n
    .ok (y, logs, n)

def writei (x : Inode) (off n : ℕ) : Except String (Inode × ℕ × ℤ) :=
  if x.size < off ∨ uint (off + n) < off then .ok (x, 0, -1)
  else if MAXFILE * BSIZE < off + n then .ok (x, 0, -1)
  else do
    let (y, logs) ← rounds 1 n x off n
    if 0 < n ∧ y.size < off + n then .ok ({ y with size := off + n }, logs + 1, n)
    else .ok (y, logs, n)

def count (f : ℕ → Bool) (n : ℕ) : ℕ := ((List.range n).filter f).length

/-- bfree() of each block, and iupdate(). -/
def itrunc (x : Inode) : Inode × ℕ :=
  (empty, count x.addrs NDIRECT +
    (if x.addrs NDIRECT = true then count x.entries NINDIRECT + 1 else 0) + 1)

inductive InodeOp where
  | readi (off n : ℕ)
  | writei (off n : ℕ)
  | itrunc
  | ialloc
  deriving DecidableEq

/-- ialloc() zeroes the inode on the disk. -/
def InodeOp.run (x : Inode) : InodeOp → Except String (Inode × ℕ × ℤ)
  | .readi off n => InodeHoles.readi x (uint off) (uint n)
  | .writei off n => InodeHoles.writei x (uint off) (uint n)
  | .itrunc => .ok ((InodeHoles.itrunc x).1, (InodeHoles.itrunc x).2, 0)
  | .ialloc => .ok (empty, 1, 0)

/-! Blocks below the size. -/

def Mapped (x : Inode) (bn : ℕ) : Prop :=
  if bn < NDIRECT then x.addrs bn = true
  else bn - NDIRECT < NINDIRECT ∧ x.addrs NDIRECT = true ∧ x.entries (bn - NDIRECT) = true

instance (x : Inode) (bn : ℕ) : Decidable (Mapped x bn) := by
  simp only [Mapped]
  infer_instance

/-- Every block below the size is allocated. -/
def HoleFree (x : Inode) : Prop := ∀ bn, bn * BSIZE < x.size → Mapped x bn

/-- What the loops keep. -/
def Grown (x y : Inode) : Prop := y.size = x.size ∧ ∀ bn, Mapped x bn → Mapped y bn

variable {x y : Inode} {bn off n logs each fuel : ℕ}

theorem empty_holeFree : HoleFree empty := fun _ h => absurd h (Nat.not_lt_zero _)

theorem bmap_mapped (h : Mapped x bn) : bmap x bn = .ok (x, 0) := by
  simp only [Mapped] at h
  simp only [bmap]
  split at h
  · rename_i hd
    rw [if_pos hd, if_pos h]
  · rename_i hd
    obtain ⟨hn, hi, he⟩ := h
    simp only [if_neg hd, if_pos hn, if_pos hi, if_pos he]

theorem bmap_ok (h : bmap x bn = .ok (y, logs)) : Grown x y ∧ Mapped y bn := by
  simp only [bmap] at h
  split at h
  · rename_i hd
    split at h
    · rename_i ha
      cases h
      exact ⟨⟨rfl, fun _ hc => hc⟩, by simp only [Mapped, if_pos hd, ha]⟩
    · cases h
      refine ⟨⟨rfl, ?_⟩, by simp only [Mapped, if_pos hd, Function.update_self]⟩
      intro c hc
      simp only [Mapped] at hc ⊢
      have hne : NDIRECT ≠ bn := by omega
      by_cases hcb : c = bn
      · simp only [hcb, if_pos hd, Function.update_self]
      · simp only [Function.update_of_ne hcb, Function.update_of_ne hne]
        exact hc
  · rename_i hd
    split at h
    · rename_i hn
      by_cases hi : x.addrs NDIRECT = true
      · simp only [if_pos hi] at h
        split at h
        · rename_i he
          cases h
          exact ⟨⟨rfl, fun _ hc => hc⟩, by simp only [Mapped, if_neg hd]; exact ⟨hn, hi, he⟩⟩
        · cases h
          refine ⟨⟨rfl, ?_⟩, by simp only [Mapped, if_neg hd, Function.update_self]; exact ⟨hn, hi, trivial⟩⟩
          intro c hc
          simp only [Mapped] at hc ⊢
          split at hc
          · rename_i hcd
            rw [if_pos hcd]
            exact hc
          · rename_i hcd
            rw [if_neg hcd]
            refine ⟨hc.1, hc.2.1, ?_⟩
            by_cases hcb : c - NDIRECT = bn - NDIRECT
            · rw [hcb, Function.update_self]
            · rw [Function.update_of_ne hcb]
              exact hc.2.2
      · simp only [if_neg hi, Bool.false_eq_true, if_false] at h
        cases h
        refine ⟨⟨rfl, ?_⟩, by simp only [Mapped, if_neg hd, Function.update_self]; exact ⟨hn, trivial, trivial⟩⟩
        intro c hc
        simp only [Mapped] at hc ⊢
        split at hc
        · rename_i hcd
          have hne : c ≠ NDIRECT := by omega
          rw [if_pos hcd, Function.update_of_ne hne]
          exact hc
        · exact absurd hc.2.1 hi
    · cases h

/-- The loops touch the block. -/
def Touches (off n bn : ℕ) : Prop :=
  0 < n ∧ off < (bn + 1) * BSIZE ∧ bn * BSIZE < off + n

theorem touches_first (hn : n ≠ 0) : Touches off n (off / BSIZE) := by
  simp only [Touches, BSIZE]
  omega

theorem touches_rest {m : ℕ} (hm : m ≤ n) (h : Touches (off + m) (n - m) bn) :
    Touches off n bn := by
  simp only [Touches, BSIZE] at h ⊢
  omega

/-- A block of the loop is that of the first round or one of the rest. -/
theorem touches_cases (h : Touches off n bn) :
    bn = off / BSIZE ∨ Touches (off + min n (BSIZE - off % BSIZE))
      (n - min n (BSIZE - off % BSIZE)) bn := by
  simp only [Touches, BSIZE] at h ⊢
  omega

/-- Where all blocks are allocated none is. -/
theorem rounds_mapped (h : ∀ bn, Touches off n bn → Mapped x bn) :
    rounds 0 fuel x off n = .ok (x, 0) := by
  induction fuel generalizing off n with
  | zero => rfl
  | succ fuel ih =>
    rw [rounds]
    split
    · rfl
    · rename_i hn
      have hrest : ∀ bn, Touches (off + min n (BSIZE - off % BSIZE))
          (n - min n (BSIZE - off % BSIZE)) bn → Mapped x bn :=
        fun bn hb => h bn (touches_rest (Nat.min_le_left _ _) hb)
      rw [bmap_mapped (h _ (touches_first hn))]
      simp only [bind, Except.bind, ih hrest]

theorem Grown.trans {z : Inode} (h : Grown x y) (g : Grown y z) : Grown x z :=
  ⟨g.1.trans h.1, fun bn hb => g.2 bn (h.2 bn hb)⟩

theorem rounds_ok (hf : n ≤ fuel) (h : rounds each fuel x off n = .ok (y, logs)) :
    Grown x y ∧ ∀ bn, Touches off n bn → Mapped y bn := by
  induction fuel generalizing x off n logs with
  | zero =>
    cases h
    refine ⟨⟨rfl, fun _ hb => hb⟩, fun bn hb => ?_⟩
    have hpos := hb.1
    omega
  | succ fuel ih =>
    rw [rounds] at h
    split at h
    · rename_i hn
      cases h
      refine ⟨⟨rfl, fun _ hb => hb⟩, fun bn hb => ?_⟩
      have hpos := hb.1
      omega
    · rename_i hn
      cases hb : bmap x (off / BSIZE) with
      | error msg =>
        rw [hb] at h
        cases h
      | ok r =>
        obtain ⟨x1, l1⟩ := r
        rw [hb] at h
        simp only [bind, Except.bind] at h
        split at h
        · cases h
        · rename_i r hr
          obtain ⟨y1, l2⟩ := r
          cases h
          have hm : n - min n (BSIZE - off % BSIZE) ≤ fuel := by
            simp only [BSIZE]
            omega
          obtain ⟨hgrown, hmapped⟩ := bmap_ok hb
          obtain ⟨hrest, htouched⟩ := ih hm hr
          refine ⟨hgrown.trans hrest, fun bn hbn => ?_⟩
          rcases touches_cases hbn with rfl | hbn
          · exact hrest.2 _ hmapped
          · exact htouched bn hbn

/-! The operations. -/

/-- readi() of an inode without holes changes nothing. -/
theorem readi_holeFree (h : HoleFree x) (off n : ℕ) : ∃ r, readi x off n = .ok (x, 0, r) := by
  simp only [readi]
  split
  · exact ⟨_, rfl⟩
  · rename_i hguard
    have hmapped : ∀ bn, Touches off (if x.size < off + n then x.size - off else n) bn →
        Mapped x bn := by
      intro bn hb
      refine h bn (lt_of_lt_of_le hb.2.2 ?_)
      split <;> omega
    rw [rounds_mapped hmapped]
    exact ⟨_, rfl⟩

theorem writei_holeFree (h : HoleFree x) {r : ℤ} (hw : writei x off n = .ok (y, logs, r)) :
    HoleFree y := by
  simp only [writei] at hw
  split at hw
  · cases hw
    exact h
  rename_i hguard
  split at hw
  · cases hw
    exact h
  cases hr : rounds 1 n x off n with
  | error msg =>
    rw [hr] at hw
    cases hw
  | ok z =>
    obtain ⟨z, l⟩ := z
    rw [hr] at hw
    obtain ⟨hgrown, htouched⟩ := rounds_ok (le_refl n) hr
    -- a block below the end of the write is old or was touched
    have hbelow : ∀ bn, bn * BSIZE < off + n → Mapped z bn := by
      intro bn hb
      by_cases hold : bn * BSIZE < x.size
      · exact hgrown.2 bn (h bn hold)
      · simp only [BSIZE] at hold hb
        refine htouched bn ?_
        simp only [Touches, BSIZE]
        omega
    simp only [bind, Except.bind] at hw
    split at hw
    · cases hw
      exact hbelow
    · cases hw
      intro bn hb
      rw [hgrown.1] at hb
      exact hgrown.2 bn (h bn hb)

theorem InodeOp.run_holeFree (h : HoleFree x) {o : InodeOp} {r : ℤ}
    (hr : o.run x = .ok (y, logs, r)) : HoleFree y := by
  cases o with
  | readi off n =>
    obtain ⟨r', hread⟩ := readi_holeFree h (uint off) (uint n)
    cases hread.symm.trans hr
    exact h
  | writei off n => exact writei_holeFree h hr
  | itrunc =>
    cases hr
    exact empty_holeFree
  | ialloc =>
    cases hr
    exact empty_holeFree

/-! The only panic. -/

def outOfRange : String := "bmap: out of range"

theorem bmap_error {msg : String} (h : bmap x bn = .error msg) : msg = outOfRange := by
  simp only [bmap] at h
  split at h
  · split at h
    · cases h
    · cases h
  · split at h
    · by_cases hi : x.addrs NDIRECT = true
      · simp only [if_pos hi] at h
        split at h
        · cases h
        · cases h
      · simp only [if_neg hi, Bool.false_eq_true, if_false] at h
        cases h
    · cases h
      rfl

theorem rounds_error {msg : String} (h : rounds each fuel x off n = .error msg) :
    msg = outOfRange := by
  induction fuel generalizing x off n with
  | zero => cases h
  | succ fuel ih =>
    rw [rounds] at h
    split at h
    · cases h
    · cases hb : bmap x (off / BSIZE) with
      | error msg' =>
        rw [hb] at h
        cases h
        exact bmap_error hb
      | ok r =>
        rw [hb] at h
        simp only [bind, Except.bind] at h
        split at h
        · rename_i msg' hr
          cases h
          exact ih hr
        · cases h

theorem InodeOp.run_error {o : InodeOp} {msg : String} (h : o.run x = .error msg) :
    msg = outOfRange := by
  cases o with
  | readi off n =>
    simp only [InodeOp.run, InodeHoles.readi] at h
    split at h
    · cases h
    · simp only [bind, Except.bind] at h
      split at h
      · rename_i msg' hr
        cases h
        exact rounds_error hr
      · cases h
  | writei off n =>
    simp only [InodeOp.run, InodeHoles.writei] at h
    split at h
    · cases h
    split at h
    · cases h
    simp only [bind, Except.bind] at h
    split at h
    · rename_i msg' hr
      cases h
      exact rounds_error hr
    · split at h
      · cases h
      · cases h
  | itrunc => cases h
  | ialloc => cases h

end InodeHoles
