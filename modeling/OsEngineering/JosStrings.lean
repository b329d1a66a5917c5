import OsEngineering.Memmove

/-! memset() and memmove() of lab01's lib/string.c, with the string instructions of the x86 and
without them. -/
namespace JosStrings

open ByteBlock FlatMemory MemoryMoves Memmove

/-- What the string instructions read and write, apart from the registers that they are given. -/
structure Cpu where
  mem : Memory
  /-- The direction flag. -/
  df : Bool

def Cpu.cld (cpu : Cpu) : Cpu := { cpu with df := false }

def Cpu.std (cpu : Cpu) : Cpu := { cpu with df := true }

/-- The suffix of movs and stos. -/
inductive Suffix where
  | b
  | l

def Suffix.size : Suffix → ℕ
  | .b => 1
  | .l => 4

def store32 (m : Memory) (a v : Word) : Memory :=
  Function.update (Function.update (Function.update (Function.update m a (v.extractLsb' 0 8))
    (a + 1) (v.extractLsb' 8 8)) (a + 2) (v.extractLsb' 16 8)) (a + 3) (v.extractLsb' 24 8)

/-- What an element more does to EDI or ESI. -/
def Cpu.next (cpu : Cpu) (z : Suffix) (p : Word) : Word :=
  if cpu.df then p - BitVec.ofNat 32 z.size else p + BitVec.ofNat 32 z.size

def mov (z : Suffix) (m : Memory) (edi esi : Word) : Memory :=
  match z with
  | .b => Function.update m edi (m esi)
  | .l => store32 m edi (le32 m esi)

def sto (z : Suffix) (m : Memory) (edi eax : Word) : Memory :=
  match z with
  | .b => Function.update m edi (eax.extractLsb' 0 8)
  | .l => store32 m edi eax

/-- rep movs, where ECX counts the elements. -/
def repMovs (z : Suffix) : ℕ → Word → Word → Cpu → Cpu
  | 0, _, _, cpu => cpu
  | ecx + 1, edi, esi, cpu =>
    repMovs z ecx (cpu.next z edi) (cpu.next z esi) { cpu with mem := mov z cpu.mem edi esi }

def repStos (z : Suffix) (eax : Word) : ℕ → Word → Cpu → Cpu
  | 0, _, cpu => cpu
  | ecx + 1, edi, cpu =>
    repStos z eax ecx (cpu.next z edi) { cpu with mem := sto z cpu.mem edi eax }

/-! #if ASM -/

def memsetAsm (cpu : Cpu) (v c n : Word) : Cpu × Word :=
  if n = 0 then (cpu, v)
  else if v.srem 4 = 0 ∧ n % 4 = 0 then
    let c := c &&& 0xFF
    let c := (c <<< 24) ||| (c <<< 16) ||| (c <<< 8) ||| c
    (repStos .l c (n / 4).toNat v cpu.cld, v)
  else (repStos .b c n.toNat v cpu.cld, v)

def memmoveAsm (cpu : Cpu) (dst src n : Word) : Cpu × Word :=
  let s := src
  let d := dst
  if s < d ∧ s + n > d then
    let s := s + n
    let d := d + n
    let cpu :=
      if s.srem 4 = 0 ∧ d.srem 4 = 0 ∧ n % 4 = 0 then
        repMovs .l (n / 4).toNat (d - 4) (s - 4) cpu.std
      else repMovs .b n.toNat (d - 1) (s - 1) cpu.std
    (cpu.cld, dst)
  else if s.srem 4 = 0 ∧ d.srem 4 = 0 ∧ n % 4 = 0 then
    (repMovs .l (n / 4).toNat d s cpu.cld, dst)
  else (repMovs .b n.toNat d s cpu.cld, dst)

/-! #else -/

/-- while (--m >= 0) *p++ = c; -/
def fill (c : Byte) : ℕ → Word → Memory → Memory
  | 0, _, mem => mem
  | m + 1, p, mem => fill c m (p + 1) (Function.update mem p c)

/-- memset(), where `m` is an int. -/
def memset (mem : Memory) (v c n : Word) : Memory × Word :=
  (fill (c.setWidth 8) n.toInt.toNat v mem, v)

/-- memmove() has the text of that in xv6's string.c. -/
def memmove (mem : Memory) (dst src n : Word) : Memory × Word := kernelMemmove mem dst src n

/-! One element -/

variable {p dst src : Word} {i n : ℕ} {m : Memory}

theorem cell_ne (hp : p.toNat + n < 2 ^ 32) {j k : ℕ} (hj : j < n) (hk : k < n) (hne : j ≠ k) :
    cell p j ≠ cell p k := by
  have hbounded : Bounded p p n := ⟨hp, hp⟩
  exact hbounded.dst_ne hj hk hne

theorem store32_written (hp : p.toNat + n < 2 ^ 32) (hi : i + 4 ≤ n) {v : Word}
    {val : ℕ → Byte} (hval : ∀ j < 4, val (i + j) = v.extractLsb' (8 * j) 8) :
    Written (cell p) val (fun k => i ≤ k ∧ k < i + 4) m (store32 m (cell p i) v) := by
  have hone : ∀ (m : Memory) (j : ℕ), j < 4 → Written (cell p) val (fun k => k = i + j) m
      (Function.update m (cell p (i + j)) (v.extractLsb' (8 * j) 8)) := by
    intro m j hj
    rw [← hval j hj]
    exact written_update m (i + j)
  have h0 := hone m 0 (by omega)
  have h1 := h0.union (hone _ 1 (by omega)) (by
    rintro a b rfl rfl
    exact cell_ne hp (by omega) (by omega) (by omega))
  have h2 := h1.union (hone _ 2 (by omega)) (by
    intro a b ha hb
    exact cell_ne hp (by omega) (by omega) (by omega))
  have h3 := h2.union (hone _ 3 (by omega)) (by
    intro a b ha hb
    exact cell_ne hp (by omega) (by omega) (by omega))
  have hcell : ∀ j, cell p (i + j) = cell p i + BitVec.ofNat 32 j := fun j => (cell_cell p i j).symm
  rw [hcell 1, hcell 2, hcell 3, Nat.add_zero] at h3
  exact h3.congr fun k => by omega

theorem le32_extract (m : Memory) (a : Word) {j : ℕ} (hj : j < 4) :
    (le32 m a).extractLsb' (8 * j) 8 = m (a + BitVec.ofNat 32 j) := by
  obtain rfl | rfl | rfl | rfl : j = 0 ∨ j = 1 ∨ j = 2 ∨ j = 3 := by omega
  all_goals
    apply BitVec.eq_of_getLsbD_eq
    intro b hb
    simp only [le32, BitVec.getLsbD_extractLsb', BitVec.getLsbD_append]
    simp [hb]
    try grind

/-- The byte that memset() puts into each part of EAX. -/
theorem spread_extract (c : Word) {j : ℕ} (hj : j < 4) :
    (((c &&& 0xFF) <<< 24) ||| ((c &&& 0xFF) <<< 16) ||| ((c &&& 0xFF) <<< 8) |||
      (c &&& 0xFF)).extractLsb' (8 * j) 8 = c.setWidth 8 := by
  have hmask : (0xFF : Word) = (BitVec.allOnes 8).setWidth 32 := by decide
  rw [hmask]
  obtain rfl | rfl | rfl | rfl : j = 0 ∨ j = 1 ∨ j = 2 ∨ j = 3 := by omega
  all_goals
    apply BitVec.eq_of_getLsbD_eq
    intro b hb
    simp only [BitVec.getLsbD_extractLsb', BitVec.getLsbD_or, BitVec.getLsbD_shiftLeft,
      BitVec.getLsbD_and, BitVec.getLsbD_setWidth, BitVec.getLsbD_allOnes]
    simp [hb]
    try grind

theorem mov_moved (h : Bounded dst src n) (z : Suffix) (hi : i + z.size ≤ n) :
    Moved (cell dst) (cell src) (fun k => i ≤ k ∧ k < i + z.size) m
      (mov z m (cell dst i) (cell src i)) := by
  cases z with
  | b =>
    have hone : Moved (cell dst) (cell src) (fun k => k = i) m _ := written_update m i
    exact hone.congr fun k => by
      rw [Suffix.size]
      omega
  | l =>
    apply store32_written h.dst hi
    intro j hj
    rw [le32_extract m _ hj]
    exact congrArg m (cell_cell src i j).symm

theorem sto_written (hp : p.toNat + n < 2 ^ 32) (z : Suffix) (hi : i + z.size ≤ n) {eax : Word}
    {c : Byte} (hc : ∀ j < z.size, eax.extractLsb' (8 * j) 8 = c) :
    Written (cell p) (fun _ => c) (fun k => i ≤ k ∧ k < i + z.size) m
      (sto z m (cell p i) eax) := by
  cases z with
  | b =>
    have hone : Written (cell p) (fun _ => c) (fun k => k = i) m _ := written_update m i
    rw [sto, hc 0 (Nat.zero_lt_one)]
    exact hone.congr fun k => by
      rw [Suffix.size]
      omega
  | l => exact store32_written hp hi fun j hj => (hc j hj).symm

/-! All elements -/

theorem repMovs_df (z : Suffix) (c : ℕ) (d s : Word) (cpu : Cpu) :
    (repMovs z c d s cpu).df = cpu.df := by
  induction c generalizing d s cpu with
  | zero => rfl
  | succ c ih => exact ih _ _ _

theorem repStos_df (z : Suffix) (eax : Word) (c : ℕ) (d : Word) (cpu : Cpu) :
    (repStos z eax c d cpu).df = cpu.df := by
  induction c generalizing d cpu with
  | zero => rfl
  | succ c ih => exact ih _ _

theorem next_up {cpu : Cpu} (hdf : cpu.df = false) (z : Suffix) (p : Word) (i : ℕ) :
    cpu.next z (cell p i) = cell p (i + z.size) := by
  rw [Cpu.next, hdf, if_neg Bool.false_ne_true]
  exact cell_cell p i z.size

theorem cell_sub (p : Word) (i k : ℕ) : cell p (i + k) - BitVec.ofNat 32 k = cell p i := by
  rw [← cell_cell, cell, BitVec.add_sub_cancel]

theorem next_down {cpu : Cpu} (hdf : cpu.df = true) (z : Suffix) (p : Word) (i : ℕ) :
    cpu.next z (cell p i) = cell p i - BitVec.ofNat 32 z.size := by
  rw [Cpu.next, hdf, if_pos rfl]

theorem repMovs_up (h : Bounded dst src n) (z : Suffix)
    (hsafe : dst.toNat ≤ src.toNat ∨ src.toNat + n ≤ dst.toNat) {c : ℕ}
    (cpu : Cpu) (hdf : cpu.df = false) (hn : i + c * z.size ≤ n) :
    Moved (cell dst) (cell src) (fun k => i ≤ k ∧ k < i + c * z.size) cpu.mem
      (repMovs z c (cell dst i) (cell src i) cpu).mem := by
  induction c generalizing i cpu with
  | zero => exact .refl (by omega) _
  | succ c ih =>
    rw [Nat.succ_mul] at hn ⊢
    have hfirst := mov_moved (m := cpu.mem) h z (i := i) (by omega)
    have hrest := ih (i := i + z.size)
      { cpu with mem := mov z cpu.mem (cell dst i) (cell src i) } hdf (by omega)
    have hall := moved_union hfirst hrest ?_ ?_
    · rw [repMovs, next_up hdf, next_up hdf]
      exact hall.congr fun k => by omega
    · intro a b ha hb
      rw [ne_eq, h.src_eq_iff (by omega) (by omega)]
      omega
    · intro a b ha hb
      exact h.dst_ne (by omega) (by omega) (by omega)

/-- An element is read before any byte of it is written, so that going down is right for each
size. -/
theorem repMovs_down (h : Bounded dst src n) (z : Suffix) (hsafe : src.toNat ≤ dst.toNat) {c : ℕ}
    (cpu : Cpu) (hdf : cpu.df = true) (hn : c * z.size ≤ n) :
    Moves dst src (c * z.size) cpu.mem
      (repMovs z c (cell dst (c * z.size) - BitVec.ofNat 32 z.size)
        (cell src (c * z.size) - BitVec.ofNat 32 z.size) cpu).mem := by
  induction c generalizing cpu with
  | zero => exact .refl (by omega) _
  | succ c ih =>
    rw [Nat.succ_mul] at hn ⊢
    have hlast := mov_moved (m := cpu.mem) h z (i := c * z.size) hn
    have hrest := ih
      { cpu with mem := mov z cpu.mem (cell dst (c * z.size)) (cell src (c * z.size)) } hdf
      (by omega)
    have hall := moved_union hlast hrest ?_ ?_
    · rw [repMovs, cell_sub, cell_sub, next_down hdf, next_down hdf]
      exact hall.congr fun k => by omega
    · intro a b ha hb
      rw [ne_eq, h.src_eq_iff (by omega) (by omega)]
      omega
    · intro a b ha hb
      exact h.dst_ne (by omega) (by omega) (by omega)

theorem repStos_up (hp : p.toNat + n < 2 ^ 32) (z : Suffix) {eax : Word} {b : Byte}
    (hb : ∀ j < z.size, eax.extractLsb' (8 * j) 8 = b) {c : ℕ} (cpu : Cpu)
    (hdf : cpu.df = false) (hn : i + c * z.size ≤ n) :
    Written (cell p) (fun _ => b) (fun k => i ≤ k ∧ k < i + c * z.size) cpu.mem
      (repStos z eax c (cell p i) cpu).mem := by
  induction c generalizing i cpu with
  | zero => exact .refl (by omega) _
  | succ c ih =>
    rw [Nat.succ_mul] at hn ⊢
    have hfirst := sto_written (m := cpu.mem) hp z (i := i) (by omega) hb
    have hrest := ih (i := i + z.size) { cpu with mem := sto z cpu.mem (cell p i) eax } hdf
      (by omega)
    have hall := hfirst.union hrest ?_
    · rw [repStos, next_up hdf]
      exact hall.congr fun k => by omega
    · intro a k ha hk
      exact cell_ne hp (by omega) (by omega) (by omega)

theorem fill_written (hp : p.toNat + n < 2 ^ 32) {c : ℕ} (b : Byte) (hn : i + c ≤ n) :
    Written (cell p) (fun _ => b) (fun k => i ≤ k ∧ k < i + c) m (fill b c (cell p i) m) := by
  induction c generalizing i m with
  | zero => exact .refl (by omega) m
  | succ c ih =>
    have hfirst : Written (cell p) (fun _ => b) (fun k => k = i) m _ := written_update m i
    have hrest := ih (i := i + 1) (m := Function.update m (cell p i) b) (by omega)
    have hall := hfirst.union hrest ?_
    · rw [fill, cell_succ]
      exact hall.congr fun k => by omega
    · rintro a k rfl hk
      exact cell_ne hp (by omega) (by omega) (by omega)

/-! The functions -/

theorem quarters {n : Word} (h : n % 4 = 0) : (n / 4).toNat * Suffix.l.size = n.toNat := by
  have hmod : n.toNat % 4 = 0 := by
    have := congrArg BitVec.toNat h
    rwa [BitVec.toNat_umod] at this
  rw [BitVec.toNat_udiv, Suffix.size]
  exact Nat.div_mul_cancel (Nat.dvd_of_mod_eq_zero hmod)

theorem ones (n : Word) : n.toNat * Suffix.b.size = n.toNat := Nat.mul_one _

theorem memsetAsm_written (cpu : Cpu) {v : Word} (c : Word) {n : Word}
    (hv : v.toNat + n.toNat < 2 ^ 32) : Written (cell v) (fun _ => c.setWidth 8) (· < n.toNat)
      cpu.mem (memsetAsm cpu v c n).1.mem := by
  have hup : ∀ (z : Suffix) (k : Word) (eax : Word), k.toNat * z.size = n.toNat →
      (∀ j < z.size, eax.extractLsb' (8 * j) 8 = c.setWidth 8) →
      Written (cell v) (fun _ => c.setWidth 8) (· < n.toNat) cpu.mem
        (repStos z eax k.toNat v cpu.cld).mem := by
    intro z k eax hk hb
    have hall := repStos_up (i := 0) (c := k.toNat) hv z hb cpu.cld rfl (by omega)
    rw [cell_zero] at hall
    exact hall.congr fun k => by omega
  unfold memsetAsm
  split
  next hzero =>
    rw [hzero]
    exact .refl (fun k => Nat.not_lt_zero k) _
  next =>
    split
    next hword => exact hup .l (n / 4) _ (quarters hword.2) fun j hj => spread_extract c hj
    next =>
      apply hup .b n _ (ones n)
      intro j hj
      obtain rfl : j = 0 := Nat.lt_one_iff.mp hj
      exact (BitVec.setWidth_eq_extractLsb' (by decide)).symm

theorem memset_written {v : Word} (c : Word) {n : Word} (hv : v.toNat + n.toNat < 2 ^ 32)
    (hn : n.toNat < 2 ^ 31) : Written (cell v) (fun _ => c.setWidth 8) (· < n.toNat) m
      (memset m v c n).1 := by
  have hint : n.toInt.toNat = n.toNat := by
    rw [BitVec.toInt_eq_toNat_of_lt (by omega), Int.toNat_natCast]
  have hall := fill_written (m := m) (i := 0) (c := n.toNat) hv (c.setWidth 8) (by omega)
  rw [cell_zero] at hall
  unfold memset
  rw [hint]
  exact hall.congr fun k => by omega

theorem memsetAsm_df (cpu : Cpu) (v c : Word) {n : Word} (h : n = 0 → cpu.df = false) :
    (memsetAsm cpu v c n).1.df = false := by
  unfold memsetAsm
  split
  next hzero => exact h hzero
  next => split <;> exact repStos_df _ _ _ _ _

theorem memmoveAsm_moves (cpu : Cpu) {n : Word} (h : Bounded dst src n.toNat) :
    Moves dst src n.toNat cpu.mem (memmoveAsm cpu dst src n).1.mem := by
  have hsum : (src + n).toNat = src.toNat + n.toNat := toNat_add_of_lt h.src
  have hdown : ∀ (z : Suffix) (k : Word), k.toNat * z.size = n.toNat → src.toNat ≤ dst.toNat →
      Moves dst src n.toNat cpu.mem (repMovs z k.toNat (dst + n - BitVec.ofNat 32 z.size)
        (src + n - BitVec.ofNat 32 z.size) cpu.std).mem := by
    intro z k hk hlow
    have hall := repMovs_down (c := k.toNat) h z hlow cpu.std rfl (by omega)
    rwa [hk, ofNat_toNat, ofNat_toNat] at hall
  have hup : ∀ (z : Suffix) (k : Word), k.toNat * z.size = n.toNat →
      (dst.toNat ≤ src.toNat ∨ src.toNat + n.toNat ≤ dst.toNat) →
      Moves dst src n.toNat cpu.mem (repMovs z k.toNat dst src cpu.cld).mem := by
    intro z k hk hsafe
    have hall := repMovs_up (i := 0) (c := k.toNat) h z hsafe cpu.cld rfl (by omega)
    rw [cell_zero, cell_zero] at hall
    exact hall.congr fun k => by omega
  unfold memmoveAsm
  dsimp only
  split
  next hover =>
    have hlow : src.toNat ≤ dst.toNat := Nat.le_of_lt hover.1
    split
    next hword => exact hdown .l (n / 4) (quarters hword.2.2) hlow
    next => exact hdown .b n (ones n) hlow
  next hover =>
    have hsafe : dst.toNat ≤ src.toNat ∨ src.toNat + n.toNat ≤ dst.toNat := by
      rw [BitVec.lt_def, gt_iff_lt, BitVec.lt_def, hsum] at hover
      omega
    split
    next hword => exact hup .l (n / 4) (quarters hword.2.2) hsafe
    next => exact hup .b n (ones n) hsafe

theorem memmoveAsm_df (cpu : Cpu) (dst src n : Word) : (memmoveAsm cpu dst src n).1.df = false := by
  unfold memmoveAsm
  dsimp only
  split
  next => rfl
  next => split <;> exact repMovs_df _ _ _ _ _

/-- The string instructions do what the loops do, and leave the direction flag clear; memset() of
no bytes leaves it alone, as the calling convention has it clear at the call. -/
theorem string_instructions_agree (cpu : Cpu) {dst n : Word} (hn : n.toNat < 2 ^ 31)
    (hdst : dst.toNat + n.toNat < 2 ^ 32) (hdf : n = 0 → cpu.df = false) :
    (∀ c, (memsetAsm cpu dst c n).1.mem = (memset cpu.mem dst c n).1 ∧
      (memsetAsm cpu dst c n).2 = (memset cpu.mem dst c n).2 ∧
      (memsetAsm cpu dst c n).1.df = false) ∧
    ∀ src : Word, src.toNat + n.toNat < 2 ^ 32 →
      (memmoveAsm cpu dst src n).1.mem = (memmove cpu.mem dst src n).1 ∧
      (memmoveAsm cpu dst src n).2 = (memmove cpu.mem dst src n).2 ∧
      (memmoveAsm cpu dst src n).1.df = false := by
  constructor
  · intro c
    refine ⟨(memsetAsm_written cpu c hdst).unique (memset_written c hdst hn), ?_,
      memsetAsm_df cpu dst c hdf⟩
    unfold memsetAsm memset
    split
    next => rfl
    next => split <;> rfl
  · intro src hsrc
    refine ⟨(memmoveAsm_moves cpu ⟨hdst, hsrc⟩).unique (kernelMemmove_moves ⟨hdst, hsrc⟩), ?_,
      memmoveAsm_df cpu dst src n⟩
    unfold memmoveAsm memmove kernelMemmove
    dsimp only
    split
    next => rfl
    next => split <;> rfl

/-- Eight bytes moved up by four. -/
theorem string_instructions_agree_words :
    (∀ c, (memsetAsm ⟨oneByte, false⟩ 20 c 8).1.mem = (memset oneByte 20 c 8).1 ∧
      (memsetAsm ⟨oneByte, false⟩ 20 c 8).2 = (memset oneByte 20 c 8).2 ∧
      (memsetAsm ⟨oneByte, false⟩ 20 c 8).1.df = false) ∧
    ∀ src : Word, src.toNat + (8 : Word).toNat < 2 ^ 32 →
      (memmoveAsm ⟨oneByte, false⟩ 20 src 8).1.mem = (memmove oneByte 20 src 8).1 ∧
      (memmoveAsm ⟨oneByte, false⟩ 20 src 8).2 = (memmove oneByte 20 src 8).2 ∧
      (memmoveAsm ⟨oneByte, false⟩ 20 src 8).1.df = false :=
  string_instructions_agree ⟨oneByte, false⟩ (by decide) (by decide) fun _ => rfl

end JosStrings
