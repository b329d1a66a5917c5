import OsEngineering.ItemLanguages
import OsEngineering.ShellCommands

/-! match() of grep.c, and what it finds in a text. -/
namespace GrepMatch

open ByteBlock ItemLanguages
open ShellCommands (Str)

/-! The matcher. A C string is the list of its bytes before the NUL, and `here` is matchhere(re, ·)
for the rest of the pattern. -/

/-- The text moves on in the test of the loop, after the byte is compared with c. -/
def matchstar (c : Byte) (here : Str → Bool) : Str → Bool
  | [] => here []
  | t :: text => here (t :: text) || (t == c || c == 46) && matchstar c here text

/-- The last test of matchhere(). -/
def matchone (c : Byte) (here : Str → Bool) : Str → Bool
  | [] => false
  | t :: text => (c == 46 || c == t) && here text

def matchhere : Str → Str → Bool
  | [], _ => true
  | [c], text => if c = 36 then text.isEmpty else matchone c (fun _ => true) text
  | c :: d :: re, text =>
    if d = 42 then matchstar c (matchhere re) text else matchone c (matchhere (d :: re)) text

/-- The loop of match(), which looks at the empty string as well. -/
def matchany (re : Str) : Str → Bool
  | [] => matchhere re []
  | t :: text => matchhere re (t :: text) || matchany re text

/-- `match` in the source. -/
def matchText : Str → Str → Bool
  | [], text => matchany [] text
  | c :: re, text => if c = 94 then matchhere re text else matchany (c :: re) text

/-! The meaning of a pattern -/

/-- The bytes that `c` stands for. -/
def symbols (c : Byte) : Set Byte := {t | c = 46 ∨ t = c}

/-- The items of a pattern, and whether it ends with the anchor. -/
structure Pattern where
  items : List (Item Byte)
  ends : Bool

def Pattern.cons (i : Item Byte) (p : Pattern) : Pattern := ⟨i :: p.items, p.ends⟩

def pattern : Str → Pattern
  | [] => ⟨[], false⟩
  | [c] => if c = 36 then ⟨[], true⟩ else ⟨[⟨symbols c, false⟩], false⟩
  | c :: d :: re =>
    if d = 42 then (pattern re).cons ⟨symbols c, true⟩
    else (pattern (d :: re)).cons ⟨symbols c, false⟩

/-- A word of the items stands at the start of the text, and at its end if the pattern says so. -/
def Heads (p : Pattern) (text : Str) : Prop :=
  ∃ v w, text = v ++ w ∧ v ∈ lang p.items ∧ (p.ends → w = [])

def anchored (re : Str) : Bool := re.head? == some 94

def body (re : Str) : Str := if anchored re then re.tail else re

/-- A segment of the text is a word of the pattern. -/
def Finds (re text : Str) : Prop :=
  ∃ u rest, text = u ++ rest ∧ (anchored re → u = []) ∧ Heads (pattern (body re)) rest

section Matcher

variable {p : Pattern} {c : Byte} {here : Str → Bool} {re text : Str}

theorem heads_nil (text : Str) : Heads ⟨[], false⟩ text :=
  ⟨[], text, rfl, rfl, nofun⟩

theorem heads_end : Heads ⟨[], true⟩ text ↔ text = [] := by
  constructor
  · rintro ⟨v, w, rfl, rfl, hend⟩
    rw [hend rfl]
    rfl
  · rintro rfl
    exact ⟨[], [], rfl, rfl, fun _ => rfl⟩

theorem heads_one : Heads (p.cons ⟨symbols c, false⟩) text ↔
    ∃ t rest, text = t :: rest ∧ t ∈ symbols c ∧ Heads p rest := by
  constructor
  · rintro ⟨v, w, rfl, hv, hend⟩
    obtain ⟨t, ht, v, hv', rfl⟩ := mem_lang_one.mp hv
    exact ⟨t, v ++ w, rfl, ht, v, w, rfl, hv', hend⟩
  · rintro ⟨t, rest, rfl, ht, v, w, rfl, hv, hend⟩
    exact ⟨t :: v, w, rfl, mem_lang_one.mpr ⟨t, ht, v, hv, rfl⟩, hend⟩

theorem heads_star : Heads (p.cons ⟨symbols c, true⟩) text ↔
    ∃ u rest, text = u ++ rest ∧ (∀ t ∈ u, t ∈ symbols c) ∧ Heads p rest := by
  constructor
  · rintro ⟨v, w, rfl, hv, hend⟩
    obtain ⟨u, v, hu, hv', rfl⟩ := mem_lang_star.mp hv
    exact ⟨u, v ++ w, List.append_assoc u v w, hu, v, w, rfl, hv', hend⟩
  · rintro ⟨u, rest, rfl, hu, v, w, rfl, hv, hend⟩
    exact ⟨u ++ v, w, (List.append_assoc u v w).symm, mem_lang_star.mpr ⟨u, v, hu, hv, rfl⟩, hend⟩

theorem matchone_iff : matchone c here text ↔
    ∃ t rest, text = t :: rest ∧ t ∈ symbols c ∧ here rest := by
  cases text with
  | nil => exact iff_of_false nofun nofun
  | cons t text =>
    unfold matchone symbols
    rw [Bool.and_eq_true, Bool.or_eq_true, beq_iff_eq, beq_iff_eq]
    constructor
    · rintro ⟨hc, hhere⟩
      exact ⟨t, text, rfl, hc.imp_right Eq.symm, hhere⟩
    · rintro ⟨_, _, heq, hc, hhere⟩
      cases heq
      exact ⟨hc.imp_right Eq.symm, hhere⟩

/-- The loop of matchstar() tries every way to divide the text. -/
theorem matchstar_iff : matchstar c here text ↔
    ∃ u rest, text = u ++ rest ∧ (∀ t ∈ u, t ∈ symbols c) ∧ here rest := by
  induction text with
  | nil =>
    constructor
    · intro h
      exact ⟨[], [], rfl, nofun, h⟩
    · rintro ⟨u, rest, heq, -, h⟩
      obtain ⟨rfl, rfl⟩ := List.append_eq_nil_iff.mp heq.symm
      exact h
  | cons t text ih =>
    unfold matchstar
    rw [Bool.or_eq_true, Bool.and_eq_true, Bool.or_eq_true, beq_iff_eq, beq_iff_eq, ih]
    constructor
    · rintro (h | ⟨ht, u, rest, rfl, hu, h⟩)
      · exact ⟨[], t :: text, rfl, nofun, h⟩
      · refine ⟨t :: u, rest, rfl, fun a ha => ?_, h⟩
        rcases List.mem_cons.mp ha with rfl | ha
        · exact ht.symm
        · exact hu a ha
    · rintro ⟨u, rest, heq, hu, h⟩
      cases u with
      | nil =>
        rw [heq]
        exact Or.inl h
      | cons a u =>
        rw [List.cons_append] at heq
        injection heq with hhead htail
        subst hhead
        exact Or.inr ⟨(hu t List.mem_cons_self).symm, u, rest, htail,
          fun b hb => hu b (List.mem_cons_of_mem _ hb), h⟩

/-- matchhere() finds what the pattern means at the start of the text. -/
theorem matchhere_iff (re text : Str) : matchhere re text ↔ Heads (pattern re) text := by
  induction re using pattern.induct generalizing text with
  | case1 => exact iff_of_true rfl (heads_nil text)
  | case2 =>
    unfold matchhere pattern
    rw [if_pos rfl, if_pos rfl, heads_end]
    exact List.isEmpty_iff
  | case3 c hc =>
    unfold matchhere pattern
    rw [if_neg hc, if_neg hc, matchone_iff]
    change _ ↔ Heads (Pattern.cons ⟨symbols c, false⟩ ⟨[], false⟩) text
    rw [heads_one]
    exact exists₂_congr fun t rest => by simp only [heads_nil]
  | case4 c re ih =>
    unfold matchhere pattern
    rw [if_pos rfl, if_pos rfl, matchstar_iff, heads_star]
    exact exists₂_congr fun u rest => by rw [ih]
  | case5 c d re hd ih =>
    unfold matchhere pattern
    rw [if_neg hd, if_neg hd, matchone_iff, heads_one]
    exact exists₂_congr fun t rest => by rw [ih]

theorem matchany_iff :
    matchany re text ↔ ∃ u rest, text = u ++ rest ∧ Heads (pattern re) rest := by
  induction text with
  | nil =>
    unfold matchany
    rw [matchhere_iff]
    constructor
    · intro h
      exact ⟨[], [], rfl, h⟩
    · rintro ⟨u, rest, heq, h⟩
      obtain ⟨rfl, rfl⟩ := List.append_eq_nil_iff.mp heq.symm
      exact h
  | cons t text ih =>
    unfold matchany
    rw [Bool.or_eq_true, matchhere_iff, ih]
    constructor
    · rintro (h | ⟨u, rest, rfl, h⟩)
      · exact ⟨[], t :: text, rfl, h⟩
      · exact ⟨t :: u, rest, rfl, h⟩
    · rintro ⟨u, rest, heq, h⟩
      cases u with
      | nil =>
        rw [heq]
        exact Or.inl h
      | cons a u =>
        rw [List.cons_append] at heq
        injection heq with hhead htail
        exact Or.inr ⟨u, rest, htail, h⟩

end Matcher

/-- match() returns 1 exactly when a segment of the text is a word of the pattern. -/
theorem match_sound_complete (re text : Str) : matchText re text ↔ Finds re text := by
  unfold Finds
  by_cases hre : anchored re = true
  · obtain ⟨c, re, rfl⟩ : ∃ c r, re = c :: r := by
      cases re with
      | nil => cases hre
      | cons c r => exact ⟨c, r, rfl⟩
    obtain rfl : c = 94 := Option.some.inj (beq_iff_eq.mp hre)
    have hhere : matchText (94 :: re) text = matchhere re text := rfl
    rw [hhere, matchhere_iff]
    unfold body
    rw [if_pos hre, List.tail_cons]
    constructor
    · intro h
      exact ⟨[], text, rfl, fun _ => rfl, h⟩
    · rintro ⟨u, rest, rfl, hu, h⟩
      rw [hu hre]
      exact h
  · have hany : matchText re text = matchany re text := by
      cases re with
      | nil => rfl
      | cons c re => exact if_neg fun hc => hre (by rw [hc]; rfl)
    rw [hany, matchany_iff]
    unfold body
    rw [if_neg hre]
    exact exists₂_congr fun u rest => by simp only [hre, false_implies, true_and, Bool.false_eq_true]

/-- "$*" is a starred item, not the anchor. -/
example : matchText [97, 36, 42, 98] [120, 97, 36, 36, 98, 121] = true := by decide

end GrepMatch
