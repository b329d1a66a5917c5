import OsEngineering.FlatMemory
import Mathlib.Data.List.Basic
import Mathlib.Logic.Function.Basic

/-! mpinit() of mp.c: the search for the MP configuration table, and the loop over its entries. -/
namespace MpTable

open ByteBlock FlatMemory

def NCPU : ℕ := 8

def KERNBASE : Word := 0x80000000

def P2V (a : Word) : Word := a + KERNBASE

/-- The byte `i` behind the pointer `p`. -/
def byteAt (mem : Memory) (p : Word) (i : ℕ) : Byte := mem (p + BitVec.ofNat 32 i)

def memcmp (mem : Memory) (p : Word) (s : List Byte) : Bool :=
  (List.range s.length).map (byteAt mem p) == s

def sum (mem : Memory) (addr : Word) (len : ℕ) : Byte :=
  (List.range len).foldl (fun sum i => sum + byteAt mem addr i) 0

/-- sizeof(struct mp) -/
def MPSIZE : ℕ := 16

/-- sizeof(struct mpconf) -/
def CONFSIZE : ℕ := 44

def mpsearch1 (mem : Memory) (a : Word) (len : ℕ) : Option Word :=
  ((List.range (len / MPSIZE)).map fun i => P2V a + BitVec.ofNat 32 (MPSIZE * i)).find? fun p =>
    memcmp mem p [0x5F, 0x4D, 0x50, 0x5F] && sum mem p MPSIZE == 0

def mpsearch (mem : Memory) : Option Word :=
  let bda := P2V 0x400
  let p := (le16 mem (bda + 0x0E)).setWidth 32 <<< 4
  let found :=
    if p ≠ 0 then mpsearch1 mem p 1024
    else mpsearch1 mem ((le16 mem (bda + 0x13)).setWidth 32 * 1024 - 1024) 1024
  found.or (mpsearch1 mem 0xF0000 0x10000)

/-- conf->length -/
def tableLength (mem : Memory) (conf : Word) : ℕ := (le16 mem (conf + 4)).toNat

/-- The pointers mp and conf, if there is a table that is accepted. -/
def mpconfig (mem : Memory) : Option (Word × Word) :=
  (mpsearch mem).bind fun mp =>
    let physaddr := le32 mem (mp + 4)
    let conf := P2V physaddr
    if physaddr = 0 then none
    else if ¬ memcmp mem conf [0x50, 0x43, 0x4D, 0x50] then none
    else if byteAt mem conf 6 ≠ 1 ∧ byteAt mem conf 6 ≠ 4 then none
    else if sum mem conf (tableLength mem conf) ≠ 0 then none
    else some (mp, conf)

/-- The global variables that mpinit() sets. -/
structure Machine where
  ncpu : ℕ
  apicid : ℕ → Byte
  ioapicid : Byte
  lapic : Word

def MPPROC : Byte := 0
def MPBUS : Byte := 1
def MPIOAPIC : Byte := 2
def MPIOINTR : Byte := 3
def MPLINTR : Byte := 4

/-- `p` is the distance from conf. -/
structure Scan where
  p : ℕ
  ismp : Bool
  machine : Machine

/-- ncpu stays when all of cpus[] is in use. -/
def addProc (s : Machine) (apicid : Byte) : Machine :=
  if s.ncpu < NCPU then
    { s with apicid := Function.update s.apicid s.ncpu apicid, ncpu := s.ncpu + 1 }
  else s

/-- The body of the loop. In the default case `break` leaves the switch, not the loop. -/
def entry (mem : Memory) (conf : Word) (s : Scan) : Scan :=
  let type := byteAt mem conf s.p
  if type = MPPROC then
    { s with machine := addProc s.machine (byteAt mem conf (s.p + 1)), p := s.p + 20 }
  else if type = MPIOAPIC then
    { s with machine := { s.machine with ioapicid := byteAt mem conf (s.p + 1) }, p := s.p + 8 }
  else if type = MPBUS ∨ type = MPIOINTR ∨ type = MPLINTR then { s with p := s.p + 8 }
  else { s with ismp := false }

/-- The loop, in at most `fuel` rounds. -/
def entries (mem : Memory) (conf : Word) (length : ℕ) : ℕ → Scan → Option Scan
  | 0, s => if s.p < length then none else some s
  | fuel + 1, s =>
    if s.p < length then entries mem conf length fuel (entry mem conf s) else some s

inductive Outcome where
  | panic (msg : String)
  /-- What is written to the ports 0x22 and 0x23. -/
  | done (s : Machine) (ports : List (Half × Byte))

/-- `imcr` is what port 0x23 reads. -/
def mpinit (mem : Memory) (imcr : Byte) (fuel : ℕ) (s : Machine) : Option Outcome :=
  match mpconfig mem with
  | none => some (.panic "Expect to run on an SMP")
  | some (mp, conf) =>
    let s := { s with lapic := le32 mem (conf + 36) }
    (entries mem conf (tableLength mem conf) fuel ⟨CONFSIZE, true, s⟩).map fun s =>
      if ¬ s.ismp then .panic "Didn't find a suitable machine"
      else if byteAt mem mp 12 ≠ 0 then .done s.machine [(0x22, 0x70), (0x23, imcr ||| 1)]
      else .done s.machine []

/-! The entries of a table -/

def Known (type : Byte) : Prop :=
  type = MPPROC ∨ type = MPBUS ∨ type = MPIOAPIC ∨ type = MPIOINTR ∨ type = MPLINTR

def entrySize (type : Byte) : ℕ := if type = MPPROC then 20 else 8

/-- Entries of known types lead from the entry at `p` to the one at `q`. -/
inductive Leads (mem : Memory) (conf : Word) (length : ℕ) : ℕ → ℕ → Prop where
  | here (p : ℕ) : Leads mem conf length p p
  | next {p q : ℕ} : p < length → Known (byteAt mem conf p) →
      Leads mem conf length (p + entrySize (byteAt mem conf p)) q → Leads mem conf length p q

/-- Every entry from `p` on has a type that mpinit() knows. -/
def AllKnown (mem : Memory) (conf : Word) (length p : ℕ) : Prop :=
  ∀ q, Leads mem conf length p q → q < length → Known (byteAt mem conf q)

/-- The state after at most `k` rounds. -/
def after (mem : Memory) (conf : Word) (length : ℕ) : ℕ → Scan → Scan
  | 0, s => s
  | k + 1, s => if s.p < length then after mem conf length k (entry mem conf s) else s

section Loop

variable {mem : Memory} {conf : Word} {length p q fuel : ℕ} {s : Scan}

theorem entrySize_pos (type : Byte) : 0 < entrySize type := by
  unfold entrySize
  split <;> decide

theorem entry_known (h : Known (byteAt mem conf s.p)) :
    (entry mem conf s).p = s.p + entrySize (byteAt mem conf s.p) := by
  unfold entry entrySize
  dsimp only
  by_cases hproc : byteAt mem conf s.p = MPPROC
  · rw [if_pos hproc, if_pos hproc]
  · rw [if_neg hproc, if_neg hproc]
    by_cases hio : byteAt mem conf s.p = MPIOAPIC
    · rw [if_pos hio]
    · rw [if_neg hio]
      rcases h with h | h | h | h | h
      · exact absurd h hproc
      · rw [if_pos (Or.inl h)]
      · exact absurd h hio
      · rw [if_pos (Or.inr (Or.inl h))]
      · rw [if_pos (Or.inr (Or.inr h))]

theorem entry_unknown (h : ¬ Known (byteAt mem conf s.p)) :
    entry mem conf s = { s with ismp := false } := by
  unfold Known at h
  rw [not_or, not_or, not_or, not_or] at h
  obtain ⟨hproc, hbus, hio, hintr, hlintr⟩ := h
  unfold entry
  dsimp only
  rw [if_neg hproc, if_neg hio, if_neg]
  rintro (h | h | h)
  · exact hbus h
  · exact hintr h
  · exact hlintr h

/-- At an entry of an unknown type the pointer stays where it is. -/
theorem entries_stuck (hp : s.p < length) (h : ¬ Known (byteAt mem conf s.p)) :
    entries mem conf length fuel s = none := by
  induction fuel generalizing s with
  | zero => exact if_pos hp
  | succ fuel ih =>
    rw [entries, if_pos hp, entry_unknown h]
    exact ih hp h

theorem entries_leads (h : Leads mem conf length p q) (hq : q < length)
    (hun : ¬ Known (byteAt mem conf q)) (hp : s.p = p) :
    entries mem conf length fuel s = none := by
  induction h generalizing s fuel with
  | here p =>
    subst hp
    exact entries_stuck hq hun
  | next hlt hknown _ ih =>
    subst hp
    cases fuel with
    | zero => exact if_pos hlt
    | succ fuel =>
      rw [entries, if_pos hlt]
      exact ih hq hun (entry_known hknown)

/-- Entries of known types lead past the end. -/
theorem entries_ends (h : AllKnown mem conf length s.p) :
    ∃ fuel t, entries mem conf length fuel s = some t := by
  induction hn : length - s.p using Nat.strongRecOn generalizing s with
  | ind n ih =>
    by_cases hp : s.p < length
    · have hknown := h s.p (.here _) hp
      have hnext := entry_known hknown
      have hpos := entrySize_pos (byteAt mem conf s.p)
      obtain ⟨fuel, t, ht⟩ := ih (length - (entry mem conf s).p) (by omega)
        (s := entry mem conf s) (fun q hq => h q (.next hp hknown (by rw [← hnext]; exact hq))) rfl
      refine ⟨fuel + 1, t, ?_⟩
      rw [entries, if_pos hp, ht]
    · exact ⟨0, s, if_neg hp⟩

theorem entries_iff (s : Scan) :
    (∃ fuel t, entries mem conf length fuel s = some t) ↔ AllKnown mem conf length s.p := by
  constructor
  · rintro ⟨fuel, t, ht⟩ q hq hlt
    by_contra hun
    rw [entries_leads hq hlt hun rfl] at ht
    cases ht
  · exact entries_ends

theorem addProc_le {m : Machine} {apicid : Byte} (h : m.ncpu ≤ NCPU) :
    (addProc m apicid).ncpu ≤ NCPU := by
  unfold addProc
  split
  next hlt => exact hlt
  next => exact h

theorem entry_le (h : s.machine.ncpu ≤ NCPU) : (entry mem conf s).machine.ncpu ≤ NCPU := by
  unfold entry
  dsimp only
  split
  · exact addProc_le h
  · split
    · exact h
    · split <;> exact h

theorem after_le (k : ℕ) (h : s.machine.ncpu ≤ NCPU) :
    (after mem conf length k s).machine.ncpu ≤ NCPU := by
  induction k generalizing s with
  | zero => exact h
  | succ k ih =>
    unfold after
    split
    · exact ih (entry_le h)
    · exact h

end Loop

/-- mpinit() stops, and ncpu is never above NCPU on the way. -/
def Stops (mem : Memory) (imcr : Byte) (conf : Word) (s : Machine) : Prop :=
  (∃ fuel r, mpinit mem imcr fuel s = some r) ∧
  ∀ k, (after mem conf (tableLength mem conf) k
    ⟨CONFSIZE, true, { s with lapic := le32 mem (conf + 36) }⟩).machine.ncpu ≤ NCPU

/-- mpinit() stops on an accepted table exactly when it has no entry of an unknown type. -/
theorem mpinit_stops {mem : Memory} {mp conf : Word} {s : Machine} (imcr : Byte)
    (hconf : mpconfig mem = some (mp, conf)) (hs : s.ncpu ≤ NCPU) :
    Stops mem imcr conf s ↔ AllKnown mem conf (tableLength mem conf) CONFSIZE := by
  unfold Stops
  rw [and_iff_left fun k => after_le k hs]
  rw [← entries_iff ⟨CONFSIZE, true, { s with lapic := le32 mem (conf + 36) }⟩]
  unfold mpinit
  rw [hconf]
  dsimp only
  refine exists_congr fun fuel => ?_
  constructor
  · rintro ⟨r, hr⟩
    obtain ⟨t, ht, -⟩ := Option.map_eq_some_iff.mp hr
    exact ⟨t, ht⟩
  · rintro ⟨t, ht⟩
    rw [ht]
    exact ⟨_, rfl⟩

/-- A table at 0x20000 with one entry, of type 5. -/
def oddBytes : List (Word × Byte) :=
  [(0x8000040F, 0x10),
   (0x80010000, 0x5F), (0x80010001, 0x4D), (0x80010002, 0x50), (0x80010003, 0x5F),
   (0x80010006, 0x02), (0x80010008, 0x01), (0x80010009, 0x04), (0x8001000A, 0x9E),
   (0x80020000, 0x50), (0x80020001, 0x43), (0x80020002, 0x4D), (0x80020003, 0x50),
   (0x80020004, 45), (0x80020006, 4), (0x80020007, 0xBC), (0x80020026, 0xE0), (0x80020027, 0xFE),
   (0x8002002C, 5)]

def odd : Memory := fun a => (oddBytes.lookup a).getD 0

theorem mpconfig_odd : mpconfig odd = some (0x80010000, 0x80020000) := by decide +kernel

theorem mpinit_stops_odd :
    Stops odd 0 0x80020000 ⟨0, fun _ => 0, 0, 0⟩ ↔
      AllKnown odd 0x80020000 (tableLength odd 0x80020000) CONFSIZE :=
  mpinit_stops 0 mpconfig_odd (by decide)

/-- The loop does not leave the entry. -/
theorem mpinit_loops : mpconfig odd = some (0x80010000, 0x80020000) ∧
    ¬ Stops odd 0 0x80020000 ⟨0, fun _ => 0, 0, 0⟩ := by
  refine ⟨mpconfig_odd, fun hstops => ?_⟩
  obtain ⟨fuel, r, hr⟩ := hstops.1
  have hstuck : entries odd 0x80020000 (tableLength odd 0x80020000) fuel
      ⟨CONFSIZE, true, ⟨0, fun _ => 0, 0, le32 odd (0x80020000 + 36)⟩⟩ = none := by
    refine entries_stuck (by decide +kernel) ?_
    unfold Known
    decide +kernel
  unfold mpinit at hr
  rw [mpconfig_odd] at hr
  dsimp only at hr
  rw [hstuck] at hr
  cases hr

end MpTable
