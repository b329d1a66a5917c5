import OsEngineering.Console
import OsEngineering.StreamLines

/-! getcmd() and main() of the hw02 shell, up to what they hand to parsecmd() and chdir(). fork1()
is taken to succeed, and commands to read nothing from the stream. -/
namespace ShellLines

open ByteBlock Console StreamLines

/-- sizeof(buf) -/
def NBUF : ℕ := 100

/-- What fgets() takes from a stream into `n` bytes, and what stays there. -/
def fgets : ℕ → List Byte → List Byte × List Byte
  | 0, s => ([], s)
  | _ + 1, [] => ([], [])
  | n + 1, c :: s =>
    if c = chr '\n' then ([c], s) else (c :: (fgets n s).1, (fgets n s).2)

/-- The buffer after getcmd(), whose last byte is kept for a NUL, and the rest of the stream;
`none` is -1. -/
def getcmd (nbuf : ℕ) (s : List Byte) : Option (List Byte × List Byte) :=
  if s = [] then none
  else
    let (text, rest) := fgets (nbuf - 1) s
    some (text ++ List.replicate (nbuf - text.length) 0, rest)

/-- The string at the start of an array. -/
def cstring (buf : List Byte) : List Byte := buf.takeWhile (· ≠ 0)

/-- buf[strlen(buf)-1] = 0 -/
def chop (buf : List Byte) : List Byte := buf.set ((cstring buf).length - 1) 0

inductive Command where
  | parsecmd (text : List Byte)
  | chdir (path : List Byte)
  deriving DecidableEq

/-- One turn of the loop in main(). -/
def turn (buf : List Byte) : Command :=
  if buf[0]? = some (chr 'c') ∧ buf[1]? = some (chr 'd') ∧ buf[2]? = some (chr ' ') then
    .chdir (cstring ((chop buf).drop 3))
  else .parsecmd (cstring buf)

theorem fgets_length (n : ℕ) (s : List Byte) :
    (fgets n s).1.length + (fgets n s).2.length = s.length ∧ (fgets n s).1.length ≤ n ∧
      (0 < n → s ≠ [] → 0 < (fgets n s).1.length) := by
  induction n generalizing s with
  | zero => exact ⟨Nat.zero_add _, le_refl _, fun h => absurd h (lt_irrefl 0)⟩
  | succ n ih =>
    cases s with
    | nil => exact ⟨rfl, Nat.zero_le _, fun _ h => absurd rfl h⟩
    | cons c s =>
      obtain ⟨hsum, hle, -⟩ := ih s
      rw [fgets]
      split
      next =>
        refine ⟨?_, Nat.succ_le_succ (Nat.zero_le n), fun _ _ => Nat.one_pos⟩
        rw [List.length_singleton, List.length_cons, Nat.add_comm]
      next =>
        refine ⟨?_, Nat.succ_le_succ hle, fun _ _ => Nat.succ_pos _⟩
        dsimp only
        rw [List.length_cons, List.length_cons]
        omega

theorem getcmd_rest {s buf rest : List Byte} (h : getcmd NBUF s = some (buf, rest)) :
    rest.length < s.length := by
  unfold getcmd at h
  split at h
  next => cases h
  next hs =>
    obtain ⟨hsum, -, hpos⟩ := fgets_length (NBUF - 1) s
    have hfirst := hpos (by decide) hs
    obtain ⟨-, rfl⟩ := Prod.mk.inj (Option.some.inj h)
    omega

/-- What main() hands on, in order. -/
def main (s : List Byte) : List Command :=
  match h : getcmd NBUF s with
  | none => []
  | some (buf, rest) =>
    have := getcmd_rest h
    turn buf :: main rest
termination_by s.length

/-! What the shell is to execute -/

def cd : List Byte := [chr 'c', chr 'd', chr ' ']

def commandOf (line newline : List Byte) : Command :=
  if cd <+: line then .chdir (line.drop 3) else .parsecmd (line ++ newline)

/-- The lines of the stream, of which the last can be without its end. -/
def wanted (s : List Byte) : List Command :=
  (lines (chr '\n') s).map (commandOf · [chr '\n']) ++
    if unended (chr '\n') s = [] then [] else [commandOf (unended (chr '\n') s) []]

/-- Lines that fit, and no path after the last newline. -/
structure Fits (s : List Byte) : Prop where
  lines : ∀ l ∈ lines (chr '\n') s, l.length ≤ 98
  last : (unended (chr '\n') s).length ≤ 99
  path : cd <+: unended (chr '\n') s → unended (chr '\n') s = cd

/-! One turn -/

variable {s l t : List Byte} {n : ℕ}

theorem fgets_line (hl : chr '\n' ∉ l) (hlen : l.length < n) (s : List Byte) :
    fgets n (l ++ chr '\n' :: s) = (l ++ [chr '\n'], s) := by
  induction l generalizing n with
  | nil =>
    obtain ⟨n, rfl⟩ : ∃ j, n = j + 1 := Nat.exists_eq_add_one.mpr hlen
    rw [List.nil_append, fgets, if_pos rfl, List.nil_append]
  | cons c l ih =>
    obtain ⟨n, rfl⟩ : ∃ j, n = j + 1 := Nat.exists_eq_add_one.mpr (by omega)
    rw [List.mem_cons, not_or] at hl
    rw [List.length_cons] at hlen
    rw [List.cons_append, fgets, if_neg (Ne.symm hl.1), ih hl.2 (by omega)]
    rfl

theorem fgets_full (hl : chr '\n' ∉ l) (hlen : n ≤ l.length) (s : List Byte) :
    fgets n (l ++ s) = (l.take n, l.drop n ++ s) := by
  induction n generalizing l with
  | zero => rfl
  | succ n ih =>
    cases l with
    | nil => exact absurd hlen (by simp)
    | cons c l =>
      rw [List.mem_cons, not_or] at hl
      rw [List.cons_append, fgets, if_neg (Ne.symm hl.1), ih hl.2 (Nat.le_of_succ_le_succ hlen)]
      rfl

theorem fgets_last (hl : chr '\n' ∉ l) (hlen : l.length ≤ n) : fgets n l = (l, []) := by
  induction l generalizing n with
  | nil => cases n <;> rfl
  | cons c l ih =>
    obtain ⟨n, rfl⟩ : ∃ j, n = j + 1 := Nat.exists_eq_add_one.mpr (Nat.lt_of_lt_of_le
      (Nat.succ_pos _) hlen)
    rw [List.mem_cons, not_or] at hl
    rw [fgets, if_neg (Ne.symm hl.1), ih hl.2 (Nat.le_of_succ_le_succ hlen)]

theorem cstring_zero (ht : 0 ∉ t) (s : List Byte) : cstring (t ++ 0 :: s) = t := by
  unfold cstring
  rw [List.takeWhile_append_of_pos, List.takeWhile_cons_of_neg (by decide), List.append_nil]
  intro c hc
  exact decide_eq_true fun heq => ht (heq ▸ hc)

/-- What fgets() has put into the buffer. -/
def filled (t : List Byte) : List Byte := t ++ List.replicate (NBUF - t.length) 0

theorem filled_eq (hlen : t.length < NBUF) :
    filled t = t ++ 0 :: List.replicate (NBUF - t.length - 1) 0 := by
  have hpos : NBUF - t.length = NBUF - t.length - 1 + 1 := by omega
  rw [filled, hpos, List.replicate_succ, Nat.add_sub_cancel]

theorem cstring_filled (ht : 0 ∉ t) (hlen : t.length < NBUF) : cstring (filled t) = t := by
  rw [filled_eq hlen]
  exact cstring_zero ht _

/-- The test for a line that begins with cd reads no more than the string in the buffer. -/
theorem cd_iff (hlen : t.length < NBUF) : ((filled t)[0]? = some (chr 'c') ∧
    (filled t)[1]? = some (chr 'd') ∧ (filled t)[2]? = some (chr ' ')) ↔ cd <+: t := by
  have hzero : ∀ x : Char, chr x ≠ 0 → some (0 : Byte) ≠ some (chr x) := by
    intro x hx heq
    exact hx (Option.some.inj heq).symm
  rw [filled_eq hlen]
  match t with
  | [] =>
    refine iff_of_false (fun h => hzero 'c' (by decide) h.1) ?_
    exact fun h => absurd h.length_le (by decide)
  | [a] =>
    refine iff_of_false (fun h => hzero 'd' (by decide) h.2.1) ?_
    exact fun h => absurd h.length_le (by simp [cd])
  | [a, b] =>
    refine iff_of_false (fun h => hzero ' ' (by decide) h.2.2) ?_
    exact fun h => absurd h.length_le (by simp [cd])
  | a :: b :: c :: t =>
    simp only [List.cons_append, List.getElem?_cons_zero, List.getElem?_cons_succ,
      Option.some.injEq, cd, List.cons_prefix_cons, List.nil_prefix, and_true]
    exact ⟨fun ⟨ha, hb, hc⟩ => ⟨ha.symm, hb.symm, hc.symm⟩,
      fun ⟨ha, hb, hc⟩ => ⟨ha.symm, hb.symm, hc.symm⟩⟩

theorem chop_filled (ht : 0 ∉ t) (hlen : t.length < NBUF) (hcd : cd <+: t) :
    cstring ((chop (filled t)).drop 3) = t.dropLast.drop 3 := by
  have hthree : 3 ≤ t.length := hcd.length_le
  have hne : t ≠ [] := by
    rintro rfl
    exact absurd hthree (by decide)
  have hset : chop (filled t) =
      t.dropLast ++ 0 :: 0 :: List.replicate (NBUF - t.length - 1) 0 := by
    rw [chop, cstring_filled ht hlen, filled_eq hlen, List.set_append_left _ _ (by omega)]
    obtain ⟨i, x, rfl⟩ := (List.eq_nil_or_concat' t).resolve_left hne
    rw [List.length_append, List.length_singleton, Nat.add_sub_cancel, List.dropLast_concat,
      List.set_append_right _ _ (le_refl _), Nat.sub_self, List.set_cons_zero, List.append_assoc,
      List.singleton_append]
  rw [hset]
  have hdrop : 0 ∉ t.dropLast.drop 3 := fun hmem =>
    ht (List.dropLast_subset t (List.drop_subset 3 _ hmem))
  by_cases hlong : 3 ≤ t.dropLast.length
  · rw [List.drop_append_of_le_length hlong]
    exact cstring_zero hdrop _
  · rw [List.drop_append, List.drop_eq_nil_of_le (by omega), List.nil_append]
    have hlast : 3 - t.dropLast.length = 1 := by
      rw [List.length_dropLast] at hlong ⊢
      omega
    rw [hlast]
    exact cstring_zero List.not_mem_nil _

/-- What one turn hands on, for a string in the buffer. -/
def handed (t : List Byte) : Command :=
  if cd <+: t then .chdir (t.dropLast.drop 3) else .parsecmd t

theorem turn_filled (ht : 0 ∉ t) (hlen : t.length < NBUF) : turn (filled t) = handed t := by
  unfold turn handed
  by_cases hcd : cd <+: t
  · rw [if_pos ((cd_iff hlen).mpr hcd), if_pos hcd, chop_filled ht hlen hcd]
  · rw [if_neg (mt (cd_iff hlen).mp hcd), if_neg hcd, cstring_filled ht hlen]

theorem main_nil : main [] = [] := by
  rw [main]
  rfl

theorem main_turn (hs : s ≠ []) (hnul : 0 ∉ s) {rest : List Byte}
    (hread : fgets (NBUF - 1) s = (t, rest)) (ht : t <+: s) : main s = handed t :: main rest := by
  have hlen := (fgets_length (NBUF - 1) s).2.1
  rw [hread] at hlen
  have hget : getcmd NBUF s = some (filled t, rest) := by
    unfold getcmd
    rw [if_neg hs, hread]
    rfl
  have hturn := turn_filled (fun hmem => hnul (ht.subset hmem)) (Nat.lt_of_le_of_lt hlen
    (by decide : NBUF - 1 < NBUF))
  rw [main, ← hturn]
  split
  next hnone =>
    rw [hget] at hnone
    cases hnone
  next hsome =>
    rw [hget] at hsome
    cases hsome
    rfl

/-! The whole stream -/

theorem newline_ne {l : List Byte} : cd <+: l ++ [chr '\n'] ↔ cd <+: l := by
  constructor
  · intro h
    rcases List.prefix_concat_iff.mp h with heq | hpre
    · have hlast := congrArg List.getLast? heq
      rw [List.getLast?_concat] at hlast
      exact absurd hlast (by decide)
    · exact hpre
  · exact fun h => h.trans (List.prefix_append l [chr '\n'])

theorem handed_line (l : List Byte) : handed (l ++ [chr '\n']) = commandOf l [chr '\n'] := by
  unfold handed commandOf
  by_cases hcd : cd <+: l
  · rw [if_pos (newline_ne.mpr hcd), if_pos hcd, List.dropLast_concat]
  · rw [if_neg (mt newline_ne.mp hcd), if_neg hcd]

/-- A fragment is not the line. -/
theorem handed_take_ne {newline : List Byte} (hlen : 99 ≤ l.length)
    (hlong : 99 < (l ++ newline).length) : handed (l.take 99) ≠ commandOf l newline := by
  have hiff : cd <+: l.take 99 ↔ cd <+: l := by
    rw [List.prefix_take_iff, and_iff_left (by decide)]
  have htake : (l.take 99).length = 99 := by
    rw [List.length_take]
    omega
  unfold handed commandOf
  by_cases hcd : cd <+: l
  · rw [if_pos (hiff.mpr hcd), if_pos hcd]
    intro heq
    have hlength := congrArg List.length (Command.chdir.inj heq)
    rw [List.length_drop, List.length_drop, List.length_dropLast, htake] at hlength
    omega
  · rw [if_neg (mt hiff.mp hcd), if_neg hcd]
    intro heq
    have hlength := congrArg List.length (Command.parsecmd.inj heq)
    omega

/-- The byte that is chopped is part of a last line that has no end. -/
theorem handed_last_iff (l : List Byte) :
    handed l = commandOf l [] ↔ (cd <+: l → l = cd) := by
  unfold handed commandOf
  by_cases hcd : cd <+: l
  · rw [if_pos hcd, if_pos hcd]
    have hthree : 3 ≤ l.length := hcd.length_le
    constructor
    · intro heq _
      have hlength := congrArg List.length (Command.chdir.inj heq)
      rw [List.length_drop, List.length_drop, List.length_dropLast] at hlength
      exact (hcd.eq_of_length (by
        change 3 = l.length
        omega)).symm
    · intro hexact
      rw [hexact hcd]
      rfl
  · rw [if_neg hcd, if_neg hcd, List.append_nil]
    exact iff_of_true rfl fun h => absurd h hcd

theorem wanted_line (hl : chr '\n' ∉ l) (s : List Byte) :
    wanted (l ++ chr '\n' :: s) = commandOf l [chr '\n'] :: wanted s := by
  rw [wanted, lines_line hl, unended_line hl, List.map_cons, List.cons_append, wanted]

theorem fits_line (hl : chr '\n' ∉ l) : Fits (l ++ chr '\n' :: s) ↔ l.length ≤ 98 ∧ Fits s := by
  constructor
  · intro h
    have hlines := h.lines
    have hlast := h.last
    have hpath := h.path
    rw [lines_line hl] at hlines
    rw [unended_line hl] at hlast hpath
    exact ⟨hlines l List.mem_cons_self,
      ⟨fun t ht => hlines t (List.mem_cons_of_mem l ht), hlast, hpath⟩⟩
  · rintro ⟨hlen, h⟩
    refine ⟨?_, ?_, ?_⟩
    · rw [lines_line hl]
      exact List.forall_mem_cons.mpr ⟨hlen, h.lines⟩
    · rw [unended_line hl]
      exact h.last
    · rw [unended_line hl]
      exact h.path

theorem main_wanted_iff (hnul : 0 ∉ s) : main s = wanted s ↔ Fits s := by
  induction s using line_induction (chr '\n') with
  | last s hs =>
    have hlines := lines_of_notMem hs
    have hunended := unended_of_notMem hs
    by_cases hempty : s = []
    · subst hempty
      have hfits : Fits [] := by
        refine ⟨?_, by rw [hunended]; decide, fun h => ?_⟩
        · rw [hlines]
          exact List.forall_mem_nil _
        · rw [hunended] at h
          exact absurd h.length_le (by decide)
      refine iff_of_true ?_ hfits
      rw [main_nil, wanted, hlines, hunended]
      rfl
    · have hwanted : wanted s = [commandOf s []] := by
        rw [wanted, hlines, hunended, if_neg hempty]
        rfl
      rw [hwanted]
      by_cases hlen : s.length ≤ 99
      · have hmain := main_turn hempty hnul (fgets_last hs hlen) (List.prefix_refl s)
        rw [hmain, main_nil, List.cons.injEq, and_iff_left rfl, handed_last_iff]
        constructor
        · intro hpath
          refine ⟨?_, ?_, ?_⟩
          · rw [hlines]
            exact List.forall_mem_nil _
          · rw [hunended]
            exact hlen
          · rw [hunended]
            exact hpath
        · intro h
          have hpath := h.path
          rwa [hunended] at hpath
      · have hfull := fgets_full (n := NBUF - 1) hs (by
          change 99 ≤ s.length
          omega) []
        rw [List.append_nil] at hfull
        have hmain := main_turn hempty hnul hfull (List.take_prefix _ s)
        refine iff_of_false (fun heq => ?_) fun h => ?_
        · rw [hmain] at heq
          refine handed_take_ne (by omega) ?_ (List.cons.inj heq).1
          rw [List.append_nil]
          omega
        · have hlast := h.last
          rw [hunended] at hlast
          exact hlen hlast
  | line l s hl ih =>
    have hne : l ++ chr '\n' :: s ≠ [] := by
      apply List.append_ne_nil_of_right_ne_nil
      exact List.cons_ne_nil _ s
    rw [wanted_line hl, fits_line hl]
    by_cases hlen : l.length ≤ 98
    · have hrest := ih fun hmem => hnul (List.mem_append_right l (List.mem_cons_of_mem _ hmem))
      have hmain := main_turn hne hnul (fgets_line (n := NBUF - 1) hl (by
        change l.length < 99
        omega) s) ⟨s, by rw [List.append_assoc, List.singleton_append]⟩
      rw [hmain, handed_line, List.cons.injEq, and_iff_right rfl, and_iff_right hlen, hrest]
    · have hmain := main_turn hne hnul (fgets_full (n := NBUF - 1) hl (by
        change 99 ≤ l.length
        omega) (chr '\n' :: s)) ((List.take_prefix _ l).trans (List.prefix_append l _))
      refine iff_of_false (fun heq => ?_) fun h => hlen h.1
      rw [hmain] at heq
      refine handed_take_ne (by omega) ?_ (List.cons.inj heq).1
      rw [List.length_append, List.length_singleton]
      omega

/-- The shell executes the lines of a stream where they fit into its buffer and the last one, if it
has no end, does not change the directory. -/
theorem lines_executed_iff {s : List Byte} (hnul : 0 ∉ s) : main s = wanted s ↔ Fits s :=
  main_wanted_iff hnul

theorem lines_executed_iff_pwd : main [chr 'l', chr 's', chr '\n'] = wanted [chr 'l', chr 's',
    chr '\n'] ↔ Fits [chr 'l', chr 's', chr '\n'] :=
  lines_executed_iff (by decide)

/-- A last line without its end goes to another directory. -/
theorem last_path_cut : main (cd ++ [chr '/', chr 't', chr 'm', chr 'p']) ≠
    wanted (cd ++ [chr '/', chr 't', chr 'm', chr 'p']) := by
  rw [ne_eq, main_wanted_iff (by decide)]
  intro h
  have hpath := h.path
  rw [unended_of_notMem (by decide)] at hpath
  exact absurd (hpath (List.prefix_append cd _)) (by decide)

end ShellLines
