import OsEngineering.StabLanding

/-! debuginfo_eip() of kern/kdebug.c in lab 1: the file, the function and the line of an address.
A search that has no match for the address may still end with a region. -/
namespace DebugInfo

open IntervalHalving Relation StabSearch StabContract StabLanding

abbrev Word := BitVec 32
abbrev Byte := BitVec 8

def ULIM : Word := 0xef800000

def N_FUN : ℤ := 0x24
def N_SLINE : ℤ := 0x44
def N_SO : ℤ := 0x64
def N_SOL : ℤ := 0x84
def N_PSYM : ℤ := 0xa0

structure Entry extends Stab where
  n_strx : Word
  n_desc : BitVec 16

def Entry.Is (e : Entry) (type : ℤ) : Prop := (e.n_type.toNat : ℤ) = type

instance (e : Entry) (type : ℤ) : Decidable (e.Is type) := inferInstanceAs (Decidable (_ = _))

/-- The tables that the linker puts into the kernel. -/
structure Table where
  entries : Array Entry
  stabstr : List Byte

namespace Table

variable (t : Table)

def stabs : Stabs := (t.entries.toList.map Entry.toStab).toArray

/-- stabs[i], if that is in the table. -/
def entry (i : ℤ) : Option Entry := if 0 ≤ i then t.entries[i.toNat]? else none

def search (fuel : ℕ) (left right type : ℤ) (addr : Word) : Option (ℤ × ℤ) :=
  if 0 ≤ left then stabBinsearch t.stabs type fuel left right addr else none

end Table

/-- A pointer to a name: the text "<unknown>", or a place in the string table. -/
inductive Name where
  | unknown
  | str (n_strx : Word)
  deriving DecidableEq

structure Eipdebuginfo where
  eip_file : Name
  eip_line : ℕ
  eip_fn_name : Name
  eip_fn_namelen : ℕ
  eip_fn_addr : Word
  eip_fn_narg : ℕ

/-- What debuginfo_eip() leaves. The regions of the search for the function, the entry the line is
taken from and the last value of `addr` are history. -/
structure Outcome where
  ret : ℤ
  info : Eipdebuginfo
  addr : Word
  fn : Option (ℤ × ℤ)
  line : Option ℤ

inductive Result where
  | panic
  | returned (o : Outcome)

/-- strfind(s, c) - s -/
def strfind (s : List Byte) (c : Byte) : ℕ := (s.takeWhile fun b => b ≠ 0 ∧ b ≠ c).length

section Source

variable (t : Table)

/-- The string table is not empty and ends with a zero byte. -/
def ValidStrings : Prop := t.stabstr.getLast? = some 0

instance : Decidable (ValidStrings t) := inferInstanceAs (Decidable (_ = _))

def initial (addr : Word) : Eipdebuginfo := ⟨.unknown, 0, .unknown, 9, addr, 0⟩

def nameOf (e : Entry) (old : Name) : Name :=
  if e.n_strx.toNat < t.stabstr.length then .str e.n_strx else old

def namelen : Name → ℕ
  | .unknown => 9
  | .str n_strx => strfind (t.stabstr.drop n_strx.toNat) 0x3a

/-- The part of the search that the function was found in, and the address relative to it. -/
structure Scope where
  info : Eipdebuginfo
  addr : Word
  lline : ℤ
  rline : ℤ

def scope (addr : Word) (file fn : ℤ × ℤ) : Option Scope :=
  if fn.1 ≤ fn.2 then do
    let e ← t.entry fn.1
    let name := nameOf t e .unknown
    some ⟨{ initial addr with
      eip_fn_name := name, eip_fn_addr := e.n_value, eip_fn_namelen := namelen t name },
      addr - e.n_value, fn.1, fn.2⟩
  else some ⟨initial addr, addr, file.1, file.2⟩

/-- The loop that goes back to the entry of the file name. -/
def fileStab (lfile : ℤ) : ℕ → ℤ → Option ℤ
  | 0, lline => some lline
  | k + 1, lline =>
    if lfile ≤ lline then do
      let e ← t.entry lline
      if ¬ e.Is N_SOL ∧ (¬ e.Is N_SO ∨ e.n_value = 0) then fileStab lfile k (lline - 1)
      else some lline
    else some lline

def fileName (lfile lline : ℤ) : Option Name :=
  if lfile ≤ lline then (t.entry lline).map fun e => nameOf t e .unknown else some .unknown

/-- The loop that counts the arguments. -/
def countArgs (rfun : ℤ) : ℕ → ℤ → ℕ → Option ℕ
  | 0, _, narg => some narg
  | k + 1, lline, narg =>
    if lline < rfun then do
      let e ← t.entry lline
      if e.Is N_PSYM then countArgs rfun k (lline + 1) (narg + 1) else some narg
    else some narg

/-- The part after the line was found in the entry `lline`. -/
def complete (s : Scope) (file fn : ℤ × ℤ) (lline : ℤ) : Option Outcome := do
  let e ← t.entry lline
  let i ← fileStab t file.1 (lline - file.1 + 1).toNat lline
  let name ← fileName t file.1 i
  let narg ← countArgs t fn.2 (fn.2 - (fn.1 + 1)).toNat (fn.1 + 1) 0
  some ⟨0, { s.info with eip_line := e.n_desc.toNat, eip_file := name, eip_fn_narg := narg },
    s.addr, some fn, some lline⟩

def lookupLine (fuel : ℕ) (s : Scope) (file fn : ℤ × ℤ) : Option Outcome := do
  let line ← t.search fuel s.lline s.rline N_SLINE s.addr
  if line.1 ≤ line.2 then complete t s file fn line.1
  else some ⟨-1, s.info, s.addr, some fn, none⟩

def lookupFn (fuel : ℕ) (addr : Word) (file : ℤ × ℤ) : Option Outcome := do
  let fn ← t.search fuel file.1 file.2 N_FUN addr
  let s ← scope t addr file fn
  lookupLine t fuel s file fn

def lookup (fuel : ℕ) (addr : Word) : Option Outcome := do
  let file ← t.search fuel 0 (t.entries.size - 1) N_SO addr
  if file.1 = 0 then some ⟨-1, initial addr, addr, none, none⟩
  else lookupFn t fuel addr file

/-- `none` where more rounds are needed, and where an entry before the table is read. -/
def debuginfoEip (fuel : ℕ) (addr : Word) : Option Result :=
  if addr < ULIM then some .panic
  else if ¬ ValidStrings t then some (.returned ⟨-1, initial addr, addr, none, none⟩)
  else (lookup t fuel addr).map .returned

end Source

/-! Results for enough fuel -/

section Yields

variable {α β : Type}

/-- With enough fuel `f` returns `x`, and it returns nothing else. -/
structure Yields (f : ℕ → Option α) (x : α) : Prop where
  enough : ∃ K, ∀ k, K ≤ k → f k = some x
  only : ∀ k y, f k = some y → y = x

variable {f : ℕ → Option α} {g : α → ℕ → Option β} {x : α} {y : β}

theorem Yields.of_some (h : ∀ k, f k = some x) : Yields f x where
  enough := ⟨0, fun k _ => h k⟩
  only k y hy := by
    rw [h k] at hy
    exact (Option.some.inj hy).symm

theorem Yields.bind (hf : Yields f x) (hg : Yields (g x) y) :
    Yields (fun k => f k >>= fun a => g a k) y where
  enough := by
    obtain ⟨K, hK⟩ := hf.enough
    obtain ⟨L, hL⟩ := hg.enough
    refine ⟨max K L, fun k hk => ?_⟩
    change (f k).bind _ = _
    rw [hK k (by omega), Option.bind_some]
    exact hL k (by omega)
  only k z hz := by
    obtain ⟨a, ha, hga⟩ := Option.bind_eq_some_iff.mp hz
    rw [hf.only k a ha] at hga
    exact hg.only k z hga

theorem Yields.iff (hf : Yields f x) {P : α → Prop} :
    (∃ k z, f k = some z ∧ P z) ↔ P x := by
  constructor
  · rintro ⟨k, z, hz, hp⟩
    rw [← hf.only k z hz]
    exact hp
  · intro hp
    obtain ⟨K, hK⟩ := hf.enough
    exact ⟨K, x, hK K (le_refl K), hp⟩

end Yields

/-! Reading the table -/

section Reading

variable {t : Table} {i l r type : ℤ} {addr : Word}

theorem entry_inside {e : Entry} (h : t.entry i = some e) :
    0 ≤ i ∧ i < t.entries.size ∧ StabSearch.entry t.stabs i = e.toStab := by
  unfold Table.entry at h
  split at h
  next hi =>
    obtain ⟨hlt, he⟩ := Array.getElem?_eq_some_iff.mp h
    refine ⟨hi, by omega, ?_⟩
    unfold StabSearch.entry Table.stabs
    rw [Array.getD_eq_getD_getElem?, List.getElem?_toArray, List.getElem?_map,
      Array.getElem?_toList, h]
    rfl
  next => cases h

theorem entry_some (hi : 0 ≤ i) (hlt : i < t.entries.size) : ∃ e, t.entry i = some e := by
  unfold Table.entry
  rw [if_pos hi]
  exact ⟨_, Array.getElem?_eq_getElem (by omega)⟩

/-- `e` is an entry of the type that is not above the address. -/
def Covers (e : Entry) (type : ℤ) (addr : Word) : Prop := e.Is type ∧ e.n_value ≤ addr

theorem covers_iff {e : Entry} (h : t.entry i = some e) :
    Covers e type addr ↔ Typed t.stabs type i ∧ value t.stabs i ≤ addr.toNat := by
  unfold Typed value
  rw [(entry_inside h).2.2]
  rfl

theorem search_yields (addr : Word) (hl : 0 ≤ l) (hsort : Sorted t.stabs type l r) :
    ∃ p, Lands t.stabs type l r addr p ∧ Yields (fun k => t.search k l r type addr) p := by
  obtain ⟨K, p, hp, hland⟩ := search_lands addr hl hsort
  have hsame : ∀ k, t.search k l r type addr = stabBinsearch t.stabs type k l r addr :=
    fun k => if_pos hl
  refine ⟨p, hland, ⟨K, fun k hk => ?_⟩, fun k p' hp' => ?_⟩
  · rw [hsame]
    obtain ⟨u, hu, rfl⟩ := Option.map_eq_some_iff.mp hp
    exact Option.map_eq_some_iff.mpr ⟨u, search_mono hu hk, rfl⟩
  · rw [hsame] at hp'
    exact returns_unique hp' hp

/-- The loop stays in the table. -/
theorem fileStab_some {lfile lline : ℤ} (k : ℕ) (hl : 0 ≤ lfile) (hlt : lline < t.entries.size) :
    ∃ x, fileStab t lfile k lline = some x ∧ x < t.entries.size := by
  induction k generalizing lline with
  | zero => exact ⟨lline, rfl, hlt⟩
  | succ k ih =>
    unfold fileStab
    split
    next hle =>
      obtain ⟨e, he⟩ := entry_some (t := t) (i := lline) (by omega) hlt
      simp only [he, Option.bind_eq_bind, Option.bind_some]
      split
      · exact ih (by omega)
      · exact ⟨lline, rfl, hlt⟩
    next => exact ⟨lline, rfl, hlt⟩

theorem countArgs_some {rfun lline : ℤ} (k narg : ℕ) (hl : 0 ≤ lline)
    (hr : rfun ≤ t.entries.size) : ∃ x, countArgs t rfun k lline narg = some x := by
  induction k generalizing lline narg with
  | zero => exact ⟨narg, rfl⟩
  | succ k ih =>
    unfold countArgs
    split
    next hlt =>
      obtain ⟨e, he⟩ := entry_some (t := t) (i := lline) hl (by omega)
      simp only [he, Option.bind_eq_bind, Option.bind_some]
      split
      · exact ih (narg + 1) (by omega)
      · exact ⟨narg, rfl⟩
    next => exact ⟨narg, rfl⟩

/-- The rest of the call does not change what the line is taken from. -/
theorem complete_some (s : Scope) {file fn : ℤ × ℤ} {lline : ℤ} (hl : 0 ≤ lline)
    (hlt : lline < t.entries.size) (hfile : 0 ≤ file.1) (hfn : 0 ≤ fn.1 + 1)
    (hend : fn.2 ≤ t.entries.size) :
    ∃ o e, complete t s file fn lline = some o ∧ t.entry lline = some e ∧ o.ret = 0 ∧
      o.addr = s.addr ∧ o.fn = some fn ∧ o.line = some lline ∧ o.info.eip_line = e.n_desc.toNat := by
  obtain ⟨e, he⟩ := entry_some hl hlt
  obtain ⟨x, hx, hxlt⟩ := fileStab_some (lline - file.1 + 1).toNat hfile hlt
  obtain ⟨n, hn⟩ := countArgs_some (fn.2 - (fn.1 + 1)).toNat 0 hfn hend
  have hname : ∃ name, fileName t file.1 x = some name := by
    unfold fileName
    split
    next hle =>
      obtain ⟨e', he'⟩ := entry_some (t := t) (i := x) (by omega) hxlt
      exact ⟨_, by rw [he']; rfl⟩
    next => exact ⟨_, rfl⟩
  obtain ⟨name, hname⟩ := hname
  have hdone : complete t s file fn lline = some ⟨0, { s.info with
      eip_line := e.n_desc.toNat, eip_file := name, eip_fn_narg := n },
      s.addr, some fn, some lline⟩ := by
    simp only [complete, he, hx, hname, hn, Option.bind_eq_bind, Option.bind_some]
  exact ⟨_, e, hdone, he, rfl, rfl, rfl, rfl, rfl⟩

end Reading

/-! What is attributed to an address -/

section Statement

variable (t : Table) (addr : Word)

def Attributes : Result → Prop
  | .panic => True
  | .returned o =>
    (∀ l r, o.fn = some (l, r) → l ≤ r → ∃ e, t.entry l = some e ∧ Covers e N_FUN addr) ∧
    (o.ret = 0 → ∃ i e, o.line = some i ∧ t.entry i = some e ∧ Covers e N_SLINE o.addr ∧
      o.info.eip_line = e.n_desc.toNat)

/-- debuginfo_eip() returns without a read outside the table, and what it says is right. -/
def Right : Prop := ∃ fuel r, debuginfoEip t fuel addr = some r ∧ Attributes t addr r

/-- No entry of the type is in (i, j]. -/
def Free (type i j : ℤ) : Prop := ∀ k, i < k → k ≤ j → ¬ Typed t.stabs type k

structure SortedStabs : Prop where
  files : Sorted t.stabs N_SO 0 (t.entries.size - 1)
  functions : ∀ i j : ℤ, 0 ≤ i → j < t.entries.size → Free t N_SO i j → Sorted t.stabs N_FUN i j
  lines : ∀ i j : ℤ, 0 ≤ i → j < t.entries.size → Typed t.stabs N_FUN i → Free t N_SO i j →
    Free t N_FUN i j → Sorted t.stabs N_SLINE i j

/-- The lines of the files without functions are sorted as well. -/
def SortedPlain : Prop := ∀ i j : ℤ, 0 ≤ i → j < t.entries.size → Free t N_SO i j →
  Free t N_FUN (i - 1) j → Sorted t.stabs N_SLINE i j

/-- The search for the line is sound in the function, or in a file without functions. -/
def LinesOk (file fn : ℤ × ℤ) : Prop :=
  if fn.1 ≤ fn.2 then
    SearchOk t.stabs N_SLINE fn.1 fn.2 (addr - (StabSearch.entry t.stabs fn.1).n_value)
  else Sorted t.stabs N_SLINE file.1 file.2 ∧ SearchOk t.stabs N_SLINE file.1 file.2 addr

/-- The searches for the function and for the line are sound. -/
def FileOk (file : ℤ × ℤ) : Prop :=
  0 < file.1 ∧ SearchOk t.stabs N_FUN file.1 file.2 addr ∧
    ∀ fn, Lands t.stabs N_FUN file.1 file.2 addr fn → LinesOk t addr file fn

/-- Wherever the search for the file lands. -/
def Attributable : Prop :=
  ULIM ≤ addr → ValidStrings t → ∀ file, Lands t.stabs N_SO 0 (t.entries.size - 1) addr file →
    file.1 ≠ 0 → FileOk t addr file

end Statement

section Lookup

variable {t : Table} {addr : Word} {file fn : ℤ × ℤ}

def LineRight (t : Table) (o : Outcome) : Prop :=
  o.ret = 0 → ∃ i e, o.line = some i ∧ t.entry i = some e ∧ Covers e N_SLINE o.addr ∧
    o.info.eip_line = e.n_desc.toNat

/-- The search for the line, in a range of sorted lines. -/
theorem lookupLine_yields {s : Scope} (file fn : ℤ × ℤ) (hl : 0 ≤ s.lline) (hr : s.rline < t.entries.size)
    (hsort : Sorted t.stabs N_SLINE s.lline s.rline)
    (hfirst : 0 < s.lline ∨ ¬ Typed t.stabs N_SLINE s.lline) (hfile : 0 ≤ file.1)
    (hfn : 0 ≤ fn.1 + 1) (hend : fn.2 ≤ t.entries.size) :
    ∃ o, Yields (fun k => lookupLine t k s file fn) o ∧ o.fn = some fn ∧
      (LineRight t o ↔ SearchOk t.stabs N_SLINE s.lline s.rline s.addr) := by
  obtain ⟨q, hland, hq⟩ := search_yields (t := t) s.addr hl hsort
  rw [← lands_sound_iff hsort hland]
  unfold Sound
  by_cases hle : q.1 ≤ q.2
  · have hty : ∃ i, s.lline ≤ i ∧ i ≤ s.rline ∧ Typed t.stabs N_SLINE i := by
      by_contra hno
      push Not at hno
      have := lands_unique hsort hland (Lands.missing hno)
      rw [this] at hle
      dsimp only at hle
      omega
    obtain ⟨hlow, -, hhigh⟩ := lands_bounds hland hty
    have hq0 : 0 ≤ q.1 := by
      obtain hpos | hno := hfirst
      · omega
      · exact Int.le_trans hl (lands_low hland hno)
    obtain ⟨o, e, ho, he, hret, haddr, hofn, hline, heip⟩ :=
      complete_some s hq0 (by omega) hfile hfn hend
    refine ⟨o, ?_, hofn, ?_⟩
    · refine hq.bind (g := fun line k => if line.1 ≤ line.2 then complete t s file fn line.1
        else some ⟨-1, s.info, s.addr, some fn, none⟩) (Yields.of_some fun k => ?_)
      rw [if_pos hle, ho]
    · constructor
      · intro h _
        obtain ⟨i, e', hi, he', hcovers, -⟩ := h hret
        rw [hline] at hi
        obtain rfl := Option.some.inj hi
        rw [haddr] at hcovers
        exact (covers_iff he').mp hcovers
      · intro h _
        refine ⟨q.1, e, hline, he, ?_, heip⟩
        rw [haddr]
        exact (covers_iff he).mpr (h hle)
  · refine ⟨⟨-1, s.info, s.addr, some fn, none⟩, ?_, rfl, ?_⟩
    · refine hq.bind (g := fun line k => if line.1 ≤ line.2 then complete t s file fn line.1
        else some ⟨-1, s.info, s.addr, some fn, none⟩) (Yields.of_some fun k => ?_)
      rw [if_neg hle]
    · exact iff_of_true (fun h : (-1 : ℤ) = 0 => absurd h (by decide)) fun h => absurd h hle

theorem lookupLine_fn {k : ℕ} {s : Scope} {o : Outcome} (h : lookupLine t k s file fn = some o) :
    o.fn = some fn := by
  unfold lookupLine at h
  obtain ⟨line, -, h⟩ := Option.bind_eq_some_iff.mp h
  split at h
  · unfold complete at h
    obtain ⟨e, -, h⟩ := Option.bind_eq_some_iff.mp h
    obtain ⟨i, -, h⟩ := Option.bind_eq_some_iff.mp h
    obtain ⟨name, -, h⟩ := Option.bind_eq_some_iff.mp h
    obtain ⟨narg, -, h⟩ := Option.bind_eq_some_iff.mp h
    rw [← Option.some.inj h]
  · rw [← Option.some.inj h]

/-- What lookupFn() returns is right in what it says of the function. -/
theorem lookupFn_sound {k : ℕ} {o : Outcome} (hland : Lands t.stabs N_FUN file.1 file.2 addr fn)
    (hfn : ∀ k p, t.search k file.1 file.2 N_FUN addr = some p → p = fn)
    (h : lookupFn t k addr file = some o) (hright : Attributes t addr (.returned o)) :
    Sound t.stabs N_FUN addr fn := by
  unfold lookupFn at h
  obtain ⟨p, hp, h⟩ := Option.bind_eq_some_iff.mp h
  obtain rfl := hfn k p hp
  obtain ⟨s, -, h⟩ := Option.bind_eq_some_iff.mp h
  intro hle
  obtain ⟨e, he, hcovers⟩ := hright.1 p.1 p.2 (lookupLine_fn h) hle
  exact (covers_iff he).mp hcovers

/-- Where the file has a function, which the search for it reports. -/
theorem lookupFn_function (h : SortedStabs t) (hpos : 0 < file.1)
    (hend : file.2 < t.entries.size) (hfree : Free t N_SO file.1 file.2)
    (hland : Lands t.stabs N_FUN file.1 file.2 addr fn)
    (hfn : Yields (fun k => t.search k file.1 file.2 N_FUN addr) fn)
    (hsound : Sound t.stabs N_FUN addr fn) (hle : fn.1 ≤ fn.2)
    (hty : ∃ i, file.1 ≤ i ∧ i ≤ file.2 ∧ Typed t.stabs N_FUN i) :
    ∃ o, Yields (fun k => lookupFn t k addr file) o ∧
      (Attributes t addr (.returned o) ↔ LinesOk t addr file fn) := by
  obtain ⟨hlow, -, hhigh⟩ := lands_bounds hland hty
  obtain ⟨e, he⟩ := entry_some (t := t) (i := fn.1) (by omega) (by omega)
  have hfun := hsound hle
  have hvalue : (StabSearch.entry t.stabs fn.1).n_value = e.n_value := by
    rw [(entry_inside he).2.2]
  have hgap : Free t N_SO fn.1 fn.2 := by
    intro k hk hkr
    by_cases hfirst : fn.1 < file.1
    · have := lands_early hland hfirst
      omega
    · exact hfree k (by omega) (by omega)
  have hlines : Sorted t.stabs N_SLINE fn.1 fn.2 :=
    h.lines fn.1 fn.2 (by omega) (by omega) hfun.1 hgap fun k hk hkr => lands_gap hland hk hkr
  have hnot : ¬ Typed t.stabs N_SLINE fn.1 := by
    intro hline
    have : N_FUN = N_SLINE := hfun.1.symm.trans hline
    exact absurd this (by decide)
  let name := nameOf t e .unknown
  let s : Scope := ⟨{ initial addr with
    eip_fn_name := name, eip_fn_addr := e.n_value, eip_fn_namelen := namelen t name },
    addr - e.n_value, fn.1, fn.2⟩
  have hscope : scope t addr file fn = some s := by
    unfold scope
    rw [if_pos hle, he]
    rfl
  obtain ⟨o, ho, hofn, hright⟩ := lookupLine_yields (t := t) (s := s) file fn
    (by dsimp only [s]; omega) (by dsimp only [s]; omega) hlines (Or.inr hnot) (by omega)
    (by omega) (by omega)
  refine ⟨o, ?_, ?_⟩
  · exact hfn.bind (g := fun fn k => (scope t addr file fn).bind fun s => lookupLine t k s file fn)
      ((Yields.of_some fun _ => hscope).bind (g := fun s k => lookupLine t k s file fn) ho)
  · unfold LinesOk
    rw [if_pos hle, hvalue, ← hright]
    refine and_iff_right fun l r hlr _ => ?_
    rw [hofn] at hlr
    obtain rfl := Option.some.inj hlr
    exact ⟨e, he, (covers_iff he).mpr hfun⟩

/-- Where the file has no function. -/
theorem lookupFn_plain (hpos : 0 < file.1) (hend : file.2 < t.entries.size)
    (hle : file.1 ≤ file.2)
    (hfn : Yields (fun k => t.search k file.1 file.2 N_FUN addr) (file.1, file.1 - 1))
    (hlines : Sorted t.stabs N_SLINE file.1 file.2) :
    ∃ o, Yields (fun k => lookupFn t k addr file) o ∧
      (Attributes t addr (.returned o) ↔ LinesOk t addr file (file.1, file.1 - 1)) := by
  have hempty : ¬ file.1 ≤ file.1 - 1 := by omega
  let s : Scope := ⟨initial addr, addr, file.1, file.2⟩
  have hscope : scope t addr file (file.1, file.1 - 1) = some s := if_neg hempty
  obtain ⟨o, ho, hofn, hright⟩ := lookupLine_yields (t := t) (s := s) file
    (file.1, file.1 - 1) (by dsimp only [s]; omega) (by dsimp only [s]; omega) hlines
    (Or.inl hpos) (by omega) (by dsimp only; omega) (by dsimp only; omega)
  refine ⟨o, ?_, ?_⟩
  · exact hfn.bind (g := fun fn k => (scope t addr file fn).bind fun s => lookupLine t k s file fn)
      ((Yields.of_some fun _ => hscope).bind (g := fun s k => lookupLine t k s file _) ho)
  · unfold LinesOk
    rw [if_neg hempty, and_iff_right hlines, ← hright]
    refine and_iff_right fun l r hlr hlr' => ?_
    rw [hofn] at hlr
    cases hlr
    omega

theorem lookupFn_iff (addr : Word) (h : SortedStabs t) (hpos : 0 < file.1) (hle : file.1 ≤ file.2)
    (hend : file.2 < t.entries.size) (hfree : Free t N_SO file.1 file.2)
    (hplain : Free t N_FUN (file.1 - 1) file.2 → Sorted t.stabs N_SLINE file.1 file.2) :
    (FileOk t addr file → ∃ o, Yields (fun k => lookupFn t k addr file) o ∧
        Attributes t addr (.returned o)) ∧
      ∀ k o, lookupFn t k addr file = some o → Attributes t addr (.returned o) →
        FileOk t addr file := by
  have hsort : Sorted t.stabs N_FUN file.1 file.2 :=
    h.functions file.1 file.2 (by omega) hend hfree
  obtain ⟨fn, hland, hfn⟩ := search_yields (t := t) addr (by omega) hsort
  have hsound := lands_sound_iff hsort hland
  have hfile : SearchOk t.stabs N_FUN file.1 file.2 addr →
      (FileOk t addr file ↔ LinesOk t addr file fn) := by
    intro hok
    refine ⟨fun hall => hall.2.2 fn hland, fun hlines => ⟨hpos, hok, fun fn' hland' => ?_⟩⟩
    rwa [← lands_unique hsort hland hland']
  have hyields : SearchOk t.stabs N_FUN file.1 file.2 addr →
      ∃ o, Yields (fun k => lookupFn t k addr file) o ∧
        (Attributes t addr (.returned o) ↔ LinesOk t addr file fn) := by
    intro hok
    by_cases hno : Free t N_FUN (file.1 - 1) file.2
    · obtain rfl := lands_unique hsort hland (Lands.missing fun i hi hir => hno i (by omega) hir)
      exact lookupFn_plain hpos hend hle hfn (hplain hno)
    · unfold Free at hno
      push Not at hno
      obtain ⟨i, hi, hir, hity⟩ := hno
      have hty : ∃ i, file.1 ≤ i ∧ i ≤ file.2 ∧ Typed t.stabs N_FUN i := ⟨i, by omega, hir, hity⟩
      exact lookupFn_function h hpos hend hfree hland hfn (hsound.mpr hok)
        (lands_bounds hland hty).2.1 hty
  constructor
  · intro hall
    obtain ⟨o, ho, hiff⟩ := hyields hall.2.1
    exact ⟨o, ho, hiff.mpr ((hfile hall.2.1).mp hall)⟩
  · intro k o ho hright
    have hok := hsound.mp (lookupFn_sound hland hfn.only ho hright)
    obtain ⟨o', ho', hiff⟩ := hyields hok
    obtain rfl := ho'.only k o ho
    exact (hfile hok).mpr (hiff.mp hright)

theorem lookup_file {k : ℕ} (hfile : ∀ k p, t.search k 0 (t.entries.size - 1) N_SO addr = some p →
    p = file) (hne : file.1 ≠ 0) {o : Outcome} (h : lookup t k addr = some o) :
    lookupFn t k addr file = some o := by
  unfold lookup at h
  obtain ⟨p, hp, h⟩ := Option.bind_eq_some_iff.mp h
  obtain rfl := hfile k p hp
  rwa [if_neg hne] at h

/-- The lookup returns a right answer exactly where the file is searched well. -/
theorem lookup_iff (h : SortedStabs t) (hland : Lands t.stabs N_SO 0 (t.entries.size - 1) addr file)
    (hfile : Yields (fun k => t.search k 0 (t.entries.size - 1) N_SO addr) file)
    (hplain : 0 < file.1 → file.2 < t.entries.size → Free t N_SO file.1 file.2 →
      Free t N_FUN (file.1 - 1) file.2 → Sorted t.stabs N_SLINE file.1 file.2) :
    (∃ k o, lookup t k addr = some o ∧ Attributes t addr (.returned o)) ↔
      (file.1 ≠ 0 → FileOk t addr file) := by
  let g (file : ℤ × ℤ) (k : ℕ) : Option Outcome :=
    if file.1 = 0 then some ⟨-1, initial addr, addr, none, none⟩ else lookupFn t k addr file
  by_cases hzero : file.1 = 0
  · refine iff_of_true ?_ fun hne => absurd hzero hne
    have hone : Yields (fun k => lookup t k addr) ⟨-1, initial addr, addr, none, none⟩ :=
      hfile.bind (g := g) (Yields.of_some fun k => if_pos hzero)
    refine hone.iff.mpr ⟨fun l r hlr => ?_, fun hret : (-1 : ℤ) = 0 => absurd hret (by decide)⟩
    cases hlr
  · have hback : ∀ {k o}, lookup t k addr = some o → lookupFn t k addr file = some o := by
      intro k o ho
      exact lookup_file hfile.only hzero ho
    rw [forall_prop_of_true hzero]
    by_cases hpos : 0 < file.1
    · have hty : ∃ i, 0 ≤ i ∧ i ≤ (t.entries.size : ℤ) - 1 ∧ Typed t.stabs N_SO i := by
        by_contra hno
        push Not at hno
        exact hzero (congrArg Prod.fst (lands_unique h.files hland (Lands.missing hno)))
      obtain ⟨-, hle, hend⟩ := lands_bounds hland hty
      have hfree : Free t N_SO file.1 file.2 := fun k hk hkr => lands_gap hland hk hkr
      obtain ⟨hyields, hright⟩ := lookupFn_iff addr h hpos hle (by omega) hfree
        (hplain hpos (by omega) hfree)
      constructor
      · rintro ⟨k, o, ho, hattr⟩
        exact hright k o (hback ho) hattr
      · intro hok
        obtain ⟨o, ho, hattr⟩ := hyields hok
        have hall : Yields (fun k => lookup t k addr) o := by
          refine hfile.bind (g := g) ⟨?_, fun k y hy => ?_⟩
          · obtain ⟨K, hK⟩ := ho.enough
            exact ⟨K, fun k hk => (if_neg hzero).trans (hK k hk)⟩
          · exact ho.only k y ((if_neg hzero).symm.trans hy)
        exact hall.iff.mpr hattr
    · -- stabs[-1] would be read
      refine iff_of_false ?_ fun hok => hpos hok.1
      rintro ⟨k, o, ho, -⟩
      have hfn := hback ho
      unfold lookupFn at hfn
      obtain ⟨p, hp, -⟩ := Option.bind_eq_some_iff.mp hfn
      unfold Table.search at hp
      rw [if_neg (by omega)] at hp
      cases hp

theorem right_iff (haddr : ULIM ≤ addr) (hvalid : ValidStrings t) : Right t addr ↔
    ∃ k o, lookup t k addr = some o ∧ Attributes t addr (.returned o) := by
  have hlook : ∀ k, debuginfoEip t k addr = (lookup t k addr).map .returned := by
    intro k
    unfold debuginfoEip
    rw [if_neg (BitVec.not_lt.mpr haddr), if_neg (not_not.mpr hvalid)]
  constructor
  · rintro ⟨k, r, hr, hattr⟩
    rw [hlook] at hr
    obtain ⟨o, ho, rfl⟩ := Option.map_eq_some_iff.mp hr
    exact ⟨k, o, ho, hattr⟩
  · rintro ⟨k, o, ho, hattr⟩
    exact ⟨k, .returned o, by rw [hlook, ho]; rfl, hattr⟩

theorem right_early (h : addr < ULIM ∨ ¬ ValidStrings t) : Right t addr := by
  by_cases haddr : addr < ULIM
  · exact ⟨0, .panic, if_pos haddr, trivial⟩
  · have hvalid : ¬ ValidStrings t := h.resolve_left haddr
    refine ⟨0, .returned ⟨-1, initial addr, addr, none, none⟩, ?_, fun l r hlr => ?_,
      fun hret : (-1 : ℤ) = 0 => absurd hret (by decide)⟩
    · unfold debuginfoEip
      rw [if_neg haddr, if_pos hvalid]
    · cases hlr

end Lookup

theorem attributable_right {t : Table} (h : SortedStabs t) {addr : Word}
    (hall : Attributable t addr) : Right t addr := by
  by_cases hearly : addr < ULIM ∨ ¬ ValidStrings t
  · exact right_early hearly
  · push Not at hearly
    obtain ⟨hlt, hvalid⟩ := hearly
    have hle : ULIM ≤ addr := BitVec.not_lt.mp hlt
    obtain ⟨file, hland, hfile⟩ := search_yields (t := t) addr (le_refl 0) h.files
    have hok := hall hle hvalid file hland
    rw [right_iff hle hvalid]
    refine (lookup_iff h hland hfile fun hpos _ _ hno => ?_).mpr hok
    have hlines := (hok (by omega)).2.2 _ (Lands.missing fun i hi hir => hno i (by omega) hir)
    unfold LinesOk at hlines
    rw [if_neg (by dsimp only; omega)] at hlines
    exact hlines.1

theorem right_attributable {t : Table} (h : SortedStabs t) (hplain : SortedPlain t) {addr : Word}
    (hright : Right t addr) : Attributable t addr := by
  intro hle hvalid file hland
  rw [right_iff hle hvalid] at hright
  obtain ⟨file', hland', hfile⟩ := search_yields (t := t) addr (le_refl 0) h.files
  obtain rfl := lands_unique h.files hland hland'
  exact (lookup_iff h hland hfile fun hpos hend hfree hno =>
    hplain file.1 file.2 (by omega) hend hfree hno).mp hright

/-- debuginfo_eip() is right where its searches stop at a match; for tables whose lines are sorted
in the files without functions too, only there. -/
theorem debuginfo_eip_right {t : Table} (h : SortedStabs t) (addr : Word) :
    (Attributable t addr → Right t addr) ∧
      (SortedPlain t → Right t addr → Attributable t addr) :=
  ⟨attributable_right h, fun hplain => right_attributable h hplain⟩

/-- A file that starts 16 bytes before its only function. -/
def sample : Table where
  entries := #[⟨⟨0, 0⟩, 0, 0⟩, ⟨⟨0x64, 0xf0100000⟩, 1, 0⟩, ⟨⟨0x24, 0xf0100010⟩, 3, 0⟩,
    ⟨⟨0x44, 0⟩, 0, 7⟩]
  stabstr := [0, 0x61, 0, 0x66, 0x3a, 0]

theorem sample_one {type k : ℤ} (h : ∀ i : Fin 4, Typed sample.stabs type i → (i : ℤ) = k) {i : ℤ}
    (hi : 0 ≤ i) (hlt : i < 4) (hty : Typed sample.stabs type i) : i = k := by
  obtain ⟨n, rfl⟩ := Int.eq_ofNat_of_zero_le hi
  exact h ⟨n, by omega⟩ hty

theorem sample_sort {type k l r : ℤ} (hl : 0 ≤ l) (hr : r < 4)
    (h : ∀ i : Fin 4, Typed sample.stabs type i → (i : ℤ) = k) : Sorted sample.stabs type l r := by
  intro i j hi hij hj hity hjty
  have hik := sample_one h (by omega) (by omega) hity
  have hjk := sample_one h (by omega) (by omega) hjty
  rw [hik, hjk]

theorem sample_sorted : SortedStabs sample where
  files := sample_sort (k := 1) (le_refl 0) (by decide) (by decide)
  functions := fun _ _ hi hj _ => sample_sort (k := 2) hi hj (by decide)
  lines := fun _ _ hi hj _ _ _ => sample_sort (k := 3) hi hj (by decide)

theorem sample_plain : SortedPlain sample :=
  fun _ _ hi hj _ _ => sample_sort (k := 3) hi hj (by decide)

/-- The address 4 bytes into the function. -/
theorem sample_right : Right sample 0xf0100014 := by
  refine ⟨8, .returned ⟨0, ⟨.str 1, 7, .str 3, 1, 0xf0100010, 0⟩, 4, some (2, 3), some 3⟩, rfl,
    fun l r hlr hle => ?_, fun _ => ?_⟩
  · obtain ⟨rfl, rfl⟩ := Prod.mk.inj (Option.some.inj hlr)
    exact ⟨_, rfl, by decide, by decide⟩
  · exact ⟨3, _, rfl, rfl, ⟨by decide, by decide⟩, rfl⟩

theorem debuginfo_eip_right_sample : Attributable sample 0xf0100014 :=
  (debuginfo_eip_right sample_sorted 0xf0100014).2 sample_plain sample_right

/-- The address 4 bytes into the file is taken to be in a function, which is the file. -/
theorem debuginfo_eip_blames_file : SortedStabs sample ∧
    (∃ o, debuginfoEip sample 8 0xf0100004 = some (.returned o) ∧ o.fn = some (1, 1)) ∧
    sample.stabs[1]? = some ⟨0x64, 0xf0100000⟩ ∧ ¬ Right sample 0xf0100004 := by
  refine ⟨sample_sorted, ⟨_, rfl, rfl⟩, rfl, fun hright => ?_⟩
  have hall := right_attributable sample_sorted sample_plain hright
  obtain ⟨fuel, p, hp, hland⟩ := search_lands 0xf0100004 (le_refl 0) sample_sorted.files
  have hfile : stabBinsearch sample.stabs N_SO 8 0 (sample.entries.size - 1) 0xf0100004 =
      some (1, 3) := by decide
  obtain rfl : p = (1, 3) := returns_unique hp hfile
  obtain ⟨-, hok, -⟩ := hall (by decide) (by decide) (1, 3) hland (by decide)
  obtain hno | ⟨⟨i, hi, hir, hity, hle⟩, -⟩ | ⟨-, hty, -⟩ := hok
  · exact hno 2 (by decide) (by decide) (by decide)
  · obtain rfl := sample_one (k := 2) (by decide) (by dsimp only at hi; omega)
      (by dsimp only at hir; omega) hity
    exact absurd hle (by decide)
  · exact absurd hty (by decide)

end DebugInfo
