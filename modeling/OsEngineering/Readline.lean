import OsEngineering.ByteBlock
import Mathlib.Data.List.Basic
import Mathlib.Data.List.Induction

/-! readline() of lab01's lib/readline.c as an editor of one line: it takes a DEL for text where
nothing is held. -/
namespace Readline

open ByteBlock

def BUFLEN : ℕ := 1024

/-- `out` is what the console has got. -/
structure State where
  buf : List Byte
  size : buf.length = BUFLEN
  i : ℕ
  out : List Byte

inductive Outcome where
  | reading (s : State)
  /-- NULL, after the message about the error `c`. -/
  | failed (c : ℤ)
  /-- `buf`, up to its first zero. -/
  | string (line : List Byte)
  /-- An index outside of `buf`. -/
  | outside

def cstring (buf : List Byte) : List Byte := buf.takeWhile (· ≠ 0)

/-- buf[i] = c -/
def State.store (s : State) (c : Byte) : Option State :=
  if s.i < BUFLEN then
    some { s with buf := s.buf.set s.i c, size := by rw [List.length_set, s.size] }
  else none

def State.echo (s : State) (echoing : Bool) (c : Byte) : State :=
  { s with out := if echoing then s.out ++ [c] else s.out }

/-- One round of the loop, after getchar() has returned `c`. -/
def round (echoing : Bool) (s : State) (c : ℤ) : Outcome :=
  if c < 0 then .failed c
  else if (c = 8 ∨ c = 127) ∧ 0 < s.i then
    .reading { s.echo echoing 8 with i := s.i - 1 }
  else if 32 ≤ c ∧ s.i < BUFLEN - 1 then
    match (s.echo echoing (BitVec.ofInt 8 c)).store (BitVec.ofInt 8 c) with
    | none => .outside
    | some t => .reading { t with i := t.i + 1 }
  else if c = 10 ∨ c = 13 then
    match (s.echo echoing 10).store 0 with
    | none => .outside
    | some t => .string (cstring t.buf)
  else .reading s

/-- The loop, with the results of getchar(). -/
def rounds (echoing : Bool) (s : State) : List ℤ → Outcome
  | [] => .reading s
  | c :: cs =>
    match round echoing s c with
    | .reading t => rounds echoing t cs
    | r => r

def readline (buf : { buf : List Byte // buf.length = BUFLEN }) (prompt : Option (List Byte))
    (echoing : Bool) (cs : List ℤ) : Outcome :=
  rounds echoing ⟨buf.val, buf.property, 0, prompt.getD []⟩ cs

/-- getchar() returns an unsigned character. -/
def results (cs : List Byte) : List ℤ := cs.map fun c => (c.toNat : ℤ)

def Erases (c : Byte) : Prop := c = 8 ∨ c = 127

instance (c : Byte) : Decidable (Erases c) := inferInstanceAs (Decidable (_ ∨ _))

def Ends (c : Byte) : Prop := c = 10 ∨ c = 13

instance (c : Byte) : Decidable (Ends c) := inferInstanceAs (Decidable (_ ∨ _))

/-! What a line editor holds after each character -/

def hold (held : List Byte) (c : Byte) : List Byte :=
  if Erases c then held.dropLast
  else if 32 ≤ c.toNat ∧ held.length < BUFLEN - 1 then held ++ [c]
  else held

/-- What `buf` holds. -/
def keep (held : List Byte) (c : Byte) : List Byte :=
  if Erases c ∧ 0 < held.length then held.dropLast
  else if 32 ≤ c.toNat ∧ held.length < BUFLEN - 1 then held ++ [c]
  else held

/-- How many characters `buf` holds. -/
def count (n : ℕ) (c : Byte) : ℕ :=
  if Erases c ∧ 0 < n then n - 1
  else if 32 ≤ c.toNat ∧ n < BUFLEN - 1 then n + 1
  else n

theorem length_keep (held : List Byte) (c : Byte) : (keep held c).length = count held.length c := by
  unfold keep count
  split
  · exact List.length_dropLast
  · split
    · exact List.length_append
    · rfl

theorem length_kept (cs held : List Byte) :
    (cs.foldl keep held).length = cs.foldl count held.length := by
  induction cs generalizing held with
  | nil => rfl
  | cons c cs ih => rw [List.foldl_cons, List.foldl_cons, ih, length_keep]

theorem length_keep_le {held : List Byte} (c : Byte) (h : held.length ≤ BUFLEN - 1) :
    (keep held c).length ≤ BUFLEN - 1 := by
  rw [length_keep]
  unfold count
  split
  · omega
  · split <;> omega

/-! The buffer and what it holds -/

/-- The characters held stand at the front of `buf`. -/
structure Holds (s : State) (held : List Byte) : Prop where
  front : held <+: s.buf
  i_eq : s.i = held.length
  short : held.length ≤ BUFLEN - 1
  text : ∀ c ∈ held, c ≠ 0

theorem store_some {s : State} (h : s.i < BUFLEN) (c : Byte) :
    ∃ t, s.store c = some t ∧ t.buf = s.buf.set s.i c ∧ t.i = s.i :=
  ⟨_, if_pos h, rfl, rfl⟩

theorem Holds.set {s : State} {held : List Byte} (h : Holds s held) (c : Byte) :
    held ++ [c] <+: s.buf.set s.i c := by
  obtain ⟨rest, hrest⟩ := h.front
  have hlen : held.length + rest.length = BUFLEN := by
    rw [← List.length_append, hrest, s.size]
  have hshort := h.short
  have hbuf : BUFLEN = 1024 := rfl
  cases rest with
  | nil =>
    rw [List.length_nil] at hlen
    omega
  | cons b rest =>
    refine ⟨rest, ?_⟩
    rw [← hrest, h.i_eq, List.set_append_right _ _ (le_refl _), Nat.sub_self, List.set_cons_zero,
      List.append_assoc, List.singleton_append]

theorem toInt_lt (c : Byte) : ¬ (c.toNat : ℤ) < 0 := by omega

theorem ofInt_byte (c : Byte) : BitVec.ofInt 8 (c.toNat : ℤ) = c := by
  apply BitVec.eq_of_toNat_eq
  rw [BitVec.ofInt_natCast, BitVec.toNat_ofNat]
  exact Nat.mod_eq_of_lt c.isLt

theorem erases_iff (c : Byte) : ((c.toNat : ℤ) = 8 ∨ (c.toNat : ℤ) = 127) ↔ Erases c := by
  have h8 : (8 : Byte).toNat = 8 := rfl
  have h127 : (127 : Byte).toNat = 127 := rfl
  rw [Erases, ← BitVec.toNat_inj, ← BitVec.toNat_inj, h8, h127]
  omega

theorem round_keep {s : State} {held : List Byte} (h : Holds s held) {c : Byte} (hc : ¬ Ends c)
    (echoing : Bool) : ∃ t, round echoing s c.toNat = .reading t ∧ Holds t (keep held c) := by
  have hbuf : BUFLEN = 1024 := rfl
  have hshort := h.short
  unfold round keep
  have hcond : (((c.toNat : ℤ) = 8 ∨ (c.toNat : ℤ) = 127) ∧ 0 < s.i) ↔
      Erases c ∧ 0 < held.length := by
    rw [erases_iff, h.i_eq]
  rw [if_neg (toInt_lt c)]
  by_cases herase : Erases c ∧ 0 < held.length
  · rw [if_pos (hcond.mpr herase), if_pos herase]
    refine ⟨_, rfl, (List.dropLast_prefix held).trans h.front, ?_, ?_, ?_⟩
    · change s.i - 1 = _
      rw [h.i_eq, List.length_dropLast]
    · rw [List.length_dropLast]
      omega
    · exact fun b hb => h.text b (List.dropLast_subset held hb)
  · rw [if_neg (mt hcond.mp herase), if_neg herase]
    by_cases htext : 32 ≤ c.toNat ∧ held.length < BUFLEN - 1
    · have htext' : (32 : ℤ) ≤ c.toNat ∧ s.i < BUFLEN - 1 := by
        rw [h.i_eq]
        omega
      have hin : (s.echo echoing c).i < BUFLEN := by
        change s.i < BUFLEN
        rw [h.i_eq]
        omega
      obtain ⟨t, ht, hset, hi⟩ := store_some hin c
      rw [if_pos htext', if_pos htext, ofInt_byte, ht]
      refine ⟨_, rfl, ?_, ?_, ?_, ?_⟩
      · change held ++ [c] <+: t.buf
        rw [hset]
        exact h.set c
      · change t.i + 1 = _
        rw [hi, List.length_append, List.length_singleton]
        exact congrArg (· + 1) h.i_eq
      · rw [List.length_append, List.length_singleton]
        omega
      · intro b hb
        rcases List.mem_append.mp hb with hb | hb
        · exact h.text b hb
        · rw [List.mem_singleton.mp hb]
          rintro rfl
          exact absurd htext.1 (by decide)
    · have htext' : ¬ ((32 : ℤ) ≤ c.toNat ∧ s.i < BUFLEN - 1) := by
        rw [h.i_eq]
        omega
      have hend : ¬ ((c.toNat : ℤ) = 10 ∨ (c.toNat : ℤ) = 13) := by
        have h10 : (10 : Byte).toNat = 10 := rfl
        have h13 : (13 : Byte).toNat = 13 := rfl
        rw [Ends, ← BitVec.toNat_inj, ← BitVec.toNat_inj, h10, h13] at hc
        omega
      rw [if_neg htext', if_neg htext, if_neg hend]
      exact ⟨s, rfl, h⟩

theorem Holds.cstring {s : State} {held : List Byte} (h : Holds s held) :
    Readline.cstring (s.buf.set s.i 0) = held := by
  obtain ⟨rest, hrest⟩ := h.set 0
  have htext : ∀ c ∈ held, (decide (c ≠ 0)) = true := fun c hc => decide_eq_true (h.text c hc)
  rw [Readline.cstring, ← hrest, List.append_assoc, List.takeWhile_append_of_pos htext,
    List.singleton_append, List.takeWhile_cons_of_neg (by decide), List.append_nil]

theorem round_end {s : State} {held : List Byte} (h : Holds s held) {c : Byte} (hc : Ends c)
    (echoing : Bool) : round echoing s c.toNat = .string held := by
  have hbuf : BUFLEN = 1024 := rfl
  have hshort := h.short
  have hnot : ¬ Erases c := by
    rcases hc with rfl | rfl
    · decide
    · decide
  have hlow : c.toNat = 10 ∨ c.toNat = 13 := by
    rcases hc with rfl | rfl
    · exact Or.inl rfl
    · exact Or.inr rfl
  have herase : ¬ (((c.toNat : ℤ) = 8 ∨ (c.toNat : ℤ) = 127) ∧ 0 < s.i) :=
    fun h => hnot ((erases_iff c).mp h.1)
  have htext : ¬ ((32 : ℤ) ≤ c.toNat ∧ s.i < BUFLEN - 1) := by omega
  have hend : (c.toNat : ℤ) = 10 ∨ (c.toNat : ℤ) = 13 := by omega
  have hin : (s.echo echoing 10).i < BUFLEN := by
    change s.i < BUFLEN
    rw [h.i_eq]
    omega
  obtain ⟨t, ht, hset, -⟩ := store_some hin 0
  rw [round, if_neg (toInt_lt c), if_neg herase, if_neg htext, if_pos hend, ht]
  dsimp only
  rw [hset]
  exact congrArg Outcome.string h.cstring

theorem rounds_line {s : State} {held : List Byte} (h : Holds s held) {cs rest : List Byte}
    {c : Byte} (hcs : ∀ b ∈ cs, ¬ Ends b) (hc : Ends c) (echoing : Bool) :
    rounds echoing s (results (cs ++ c :: rest)) = .string (cs.foldl keep held) := by
  induction cs generalizing s held with
  | nil =>
    change rounds echoing s ((c.toNat : ℤ) :: results rest) = _
    rw [rounds, round_end h hc]
    rfl
  | cons b cs ih =>
    obtain ⟨hb, hcs⟩ := List.forall_mem_cons.mp hcs
    obtain ⟨t, hround, ht⟩ := round_keep h hb echoing
    change rounds echoing s ((b.toNat : ℤ) :: results (cs ++ c :: rest)) = _
    rw [rounds, hround]
    exact ih ht hcs

/-! A DEL that is held is the first character held. -/

/-- The line of the editor, or a DEL and as many characters up to one less. -/
def Behind (kept held : List Byte) : Prop :=
  kept = held ∨ ∃ t, kept = 127 :: t ∧ t.length ≤ held.length ∧ held.length ≤ t.length + 1

theorem behind_step {kept held : List Byte} (h : Behind kept held) (hk : kept.length ≤ BUFLEN - 1)
    (hh : held.length ≤ BUFLEN - 1) (c : Byte) : Behind (keep kept c) (hold held c) := by
  unfold keep hold
  rcases h with rfl | ⟨t, rfl, hle, hge⟩
  · by_cases herase : Erases c
    · rw [if_pos herase]
      by_cases hpos : 0 < kept.length
      · rw [if_pos ⟨herase, hpos⟩]
        exact Or.inl rfl
      · -- nothing to erase: a DEL is stored
        obtain rfl := List.eq_nil_of_length_eq_zero (Nat.eq_zero_of_not_pos hpos)
        rw [if_neg (fun h => hpos h.2)]
        split
        next htext =>
          rcases herase with rfl | rfl
          · exact absurd htext.1 (by decide)
          · exact Or.inr ⟨[], rfl, Nat.zero_le _, Nat.zero_le _⟩
        next => exact Or.inl rfl
    · rw [if_neg herase, if_neg (fun h => herase h.1)]
      exact Or.inl rfl
  · rw [List.length_cons] at hk
    by_cases herase : Erases c
    · rw [if_pos herase, if_pos ⟨herase, Nat.succ_pos _⟩]
      cases t with
      | nil =>
        left
        apply Eq.symm
        apply List.eq_nil_of_length_eq_zero
        rw [List.length_dropLast]
        simp only [List.length_nil] at hge
        omega
      | cons b t =>
        refine Or.inr ⟨(b :: t).dropLast, rfl, ?_, ?_⟩
        · rw [List.length_dropLast, List.length_dropLast]
          omega
        · rw [List.length_dropLast, List.length_dropLast]
          rw [List.length_cons] at hle hge ⊢
          omega
    · rw [if_neg herase, if_neg (fun h => herase h.1), List.length_cons]
      by_cases htext : 32 ≤ c.toNat
      · by_cases hroom : t.length + 1 < BUFLEN - 1
        · rw [if_pos ⟨htext, hroom⟩, if_pos ⟨htext, by omega⟩]
          refine Or.inr ⟨t ++ [c], rfl, ?_, ?_⟩
          · rw [List.length_append, List.length_append]
            omega
          · rw [List.length_append, List.length_append]
            omega
        · rw [if_neg (fun h => hroom h.2)]
          refine Or.inr ⟨t, rfl, ?_, ?_⟩
          · split
            · rw [List.length_append, List.length_singleton]
              omega
            · exact hle
          · split
            next h =>
              have hlt := h.2
              rw [List.length_append, List.length_singleton]
              omega
            next => exact hge
      · rw [if_neg (fun h => htext h.1), if_neg (fun h => htext h.1)]
        exact Or.inr ⟨t, rfl, hle, hge⟩

theorem length_hold_le {held : List Byte} (c : Byte) (h : held.length ≤ BUFLEN - 1) :
    (hold held c).length ≤ BUFLEN - 1 := by
  unfold hold
  split
  · rw [List.length_dropLast]
    omega
  · split
    · rw [List.length_append, List.length_singleton]
      omega
    · exact h

theorem length_held_le {held : List Byte} (cs : List Byte) (h : held.length ≤ BUFLEN - 1) :
    (cs.foldl hold held).length ≤ BUFLEN - 1 := by
  induction cs generalizing held with
  | nil => exact h
  | cons c cs ih => exact ih (length_hold_le c h)

theorem behind_run {kept held : List Byte} (h : Behind kept held) (hk : kept.length ≤ BUFLEN - 1)
    (hh : held.length ≤ BUFLEN - 1) (cs : List Byte) :
    Behind (cs.foldl keep kept) (cs.foldl hold held) := by
  induction cs generalizing kept held with
  | nil => exact h
  | cons c cs ih => exact ih (behind_step h hk hh c) (length_keep_le c hk) (length_hold_le c hh)

/-- No character held erases. -/
theorem held_plain {held : List Byte} (h : ∀ c ∈ held, ¬ Erases c) (cs : List Byte) :
    ∀ c ∈ cs.foldl hold held, ¬ Erases c := by
  induction cs generalizing held with
  | nil => exact h
  | cons b cs ih =>
    apply ih
    unfold hold
    split
    · exact fun c hc => h c (List.dropLast_subset held hc)
    next hb =>
      split
      · intro c hc
        rcases List.mem_append.mp hc with hc | hc
        · exact h c hc
        · rwa [List.mem_singleton.mp hc]
      · exact h

theorem kept_eq_iff (cs : List Byte) :
    cs.foldl keep [] = cs.foldl hold [] ↔ (cs.foldl keep []).head? ≠ some 127 := by
  constructor
  · intro h hhead
    rw [h] at hhead
    exact held_plain (List.forall_mem_nil _) cs 127 (List.mem_of_mem_head? hhead) (Or.inr rfl)
  · intro h
    have hrun : Behind (cs.foldl keep []) (cs.foldl hold []) :=
      behind_run (Or.inl rfl) (Nat.zero_le _) (Nat.zero_le _) cs
    rcases hrun with heq | ⟨t, ht, -, -⟩
    · exact heq
    · rw [ht] at h
      exact absurd rfl h

/-- A DEL comes in while no character is held, and no later character takes it back. -/
def DelStays (cs : List Byte) : Prop := ∃ pre post, cs = pre ++ 127 :: post ∧
  pre.foldl count 0 = 0 ∧ ∀ part, part <+: post → 0 < part.foldl count 1

theorem head_keep {held : List Byte} {c : Byte} (hheld : held ≠ []) (hkeep : keep held c ≠ []) :
    (keep held c).head? = held.head? := by
  unfold keep at hkeep ⊢
  split at hkeep
  next h =>
    rw [if_pos h]
    obtain ⟨rest, hrest⟩ := List.dropLast_prefix held
    rw [← List.head?_append_of_ne_nil _ hkeep, hrest]
  next h =>
    rw [if_neg h]
    split
    · exact List.head?_append_of_ne_nil _ hheld
    · rfl

theorem keep_nil_head {c : Byte} (h : (keep [] c).head? = some 127) : c = 127 := by
  unfold keep at h
  split at h
  · cases h
  · split at h
    · exact Option.some.inj h
    · cases h

theorem head_kept_iff (cs : List Byte) : (cs.foldl keep []).head? = some 127 ↔ DelStays cs := by
  have hlen : ∀ cs : List Byte, (cs.foldl keep []).length = cs.foldl count 0 :=
    fun cs => length_kept cs []
  have hfirst : ∀ pre part : List Byte, pre.foldl count 0 = 0 →
      (pre ++ 127 :: part).foldl count 0 = part.foldl count 1 := by
    intro pre part hpre
    rw [List.foldl_append, hpre]
    rfl
  have hnil : ∀ pre : List Byte, pre.foldl count 0 = 0 → pre.foldl keep [] = [] := by
    intro pre hpre
    apply List.eq_nil_of_length_eq_zero
    rw [hlen, hpre]
  constructor
  · induction cs using List.reverseRecOn with
    | nil => exact nofun
    | append_singleton cs c ih =>
      intro h
      have hpos : 0 < (cs ++ [c]).foldl count 0 := by
        rw [← hlen]
        exact List.length_pos_iff.mpr fun hempty => by rw [hempty] at h; cases h
      rw [List.foldl_append, List.foldl_cons, List.foldl_nil] at h
      by_cases hheld : cs.foldl keep [] = []
      · rw [hheld] at h
        obtain rfl := keep_nil_head h
        refine ⟨cs, [], rfl, ?_, fun part hpart => ?_⟩
        · rw [← hlen, hheld]
          rfl
        · rw [List.prefix_nil.mp hpart]
          exact Nat.one_pos
      · have hkeep : keep (cs.foldl keep []) c ≠ [] := fun hempty => by rw [hempty] at h; cases h
        rw [head_keep hheld hkeep] at h
        obtain ⟨pre, post, rfl, hpre, hpost⟩ := ih h
        refine ⟨pre, post ++ [c], by rw [List.append_assoc, List.cons_append], hpre, ?_⟩
        intro part hpart
        rcases List.prefix_concat_iff.mp hpart with rfl | hpart
        · rwa [List.append_assoc, List.cons_append, hfirst _ _ hpre] at hpos
        · exact hpost part hpart
  · rintro ⟨pre, post, rfl, hpre, hpost⟩
    induction post using List.reverseRecOn with
    | nil =>
      rw [List.foldl_append, hnil pre hpre]
      rfl
    | append_singleton post c ih =>
      have hbefore := ih fun part hpart => hpost part (hpart.trans (List.prefix_append _ _))
      have hheld : (pre ++ 127 :: post).foldl keep [] ≠ [] := fun hempty => by
        rw [hempty] at hbefore
        cases hbefore
      have hpos := hpost _ (List.prefix_refl _)
      rw [← hfirst pre _ hpre, ← List.cons_append, ← List.append_assoc, ← hlen,
        List.foldl_append, List.foldl_cons, List.foldl_nil] at hpos
      rw [← List.cons_append, ← List.append_assoc, List.foldl_append, List.foldl_cons,
        List.foldl_nil, head_keep hheld (List.length_pos_iff.mp hpos)]
      exact hbefore

/-- The line is what the editor holds; it has no erasing character and fits into the buffer. -/
structure Edited (cs : List Byte) (r : Outcome) : Prop where
  line : r = .string (cs.foldl hold [])
  plain : ∀ line, r = .string line → ∀ c ∈ line, ¬ Erases c
  short : ∀ line, r = .string line → line.length ≤ BUFLEN - 1
  inside : r ≠ .outside

theorem readline_edits_iff (buf : { buf : List Byte // buf.length = BUFLEN })
    (prompt : Option (List Byte)) (echoing : Bool) {cs : List Byte} {c : Byte} (rest : List Byte)
    (hcs : ∀ b ∈ cs, ¬ Ends b) (hc : Ends c) :
    Edited cs (readline buf prompt echoing (results (cs ++ c :: rest))) ↔ ¬ DelStays cs := by
  have hempty : Holds ⟨buf.val, buf.property, 0, prompt.getD []⟩ [] :=
    ⟨List.nil_prefix, rfl, Nat.zero_le _, nofun⟩
  have hrun : readline buf prompt echoing (results (cs ++ c :: rest)) =
      .string (cs.foldl keep []) := rounds_line hempty hcs hc echoing
  rw [hrun, ← head_kept_iff, ← ne_eq, ← kept_eq_iff]
  constructor
  · intro h
    exact Outcome.string.inj h.line
  · intro h
    rw [h]
    refine ⟨rfl, ?_, ?_, nofun⟩
    · rintro line ⟨⟩
      exact held_plain (List.forall_mem_nil _) cs
    · rintro line ⟨⟩
      exact length_held_le cs (Nat.zero_le _)

def blank : { buf : List Byte // buf.length = BUFLEN } :=
  ⟨List.replicate BUFLEN 0, List.length_replicate⟩

/-- "ab", a DEL, "c" -/
theorem readline_edits_iff_typed :
    Edited [97, 98, 127, 99] (readline blank none true (results ([97, 98, 127, 99] ++ 10 :: []))) ↔
      ¬ DelStays [97, 98, 127, 99] :=
  readline_edits_iff blank none true [] (by decide) (Or.inl rfl)

/-- A DEL on an empty line. -/
theorem readline_keeps_del :
    ¬ Edited [127] (readline blank none true (results ([127] ++ 10 :: []))) := by
  have hempty : Holds ⟨blank.val, blank.property, 0, []⟩ [] :=
    ⟨List.nil_prefix, rfl, Nat.zero_le _, nofun⟩
  have hrun : readline blank none true (results ([127] ++ 10 :: [])) = .string [127] :=
    rounds_line hempty (by decide) (Or.inl rfl) true
  intro h
  exact h.plain _ hrun 127 List.mem_cons_self (Or.inr rfl)

end Readline
