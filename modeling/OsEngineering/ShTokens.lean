import OsEngineering.ShDerivations
import OsEngineering.ShellParsing

/-! The cursor of sh.c in front of the tokens that are to come. -/
namespace ShTokens

open ByteBlock FaultState ShParser ShGrammar ShDerivations
open ShellCommands (Str MAXARGS)
open ShellParser (Stop Parse deref skip whitespace)
open ShellParsing (word_run drop_succ deref_cons deref_end skip_run drop_takeWhile skip_le)

variable {line s : Str} {c : Byte} {ts us : List Token}

theorem tokens_nil : Tokens [] ts ↔ ts = [] := by
  constructor
  · intro h
    generalize hs : ([] : Str) = s at h
    cases h with
    | nil => rfl
    | space hc h => cases hs
    | symbol hc hno h => cases hs
    | append h => cases hs
    | word hne hw hs' h => exact absurd (List.append_eq_nil_iff.mp hs.symm).1 hne
  · rintro rfl
    exact .nil

theorem dropWhile_ends (s : Str) :
    ∀ c ∈ (s.dropWhile fun c => WordChar c).head?, ¬ WordChar c := by
  intro c hc
  have hhead := List.head?_dropWhile_not (fun c => decide (WordChar c)) s
  rw [Option.mem_def.mp hc] at hhead
  simpa using hhead

theorem takeWhile_word (s : Str) : ∀ c ∈ s.takeWhile fun c => WordChar c, WordChar c :=
  fun _ hc => of_decide_eq_true (List.mem_takeWhile_imp (p := fun c => decide (WordChar c)) hc)

/-- The four ways in which a line goes on. -/
theorem tokens_cons : Tokens (c :: s) ts ↔
    (c ∈ whitespace ∧ Tokens s ts) ∨
    (c ∈ symbols ∧ (c = 62 → s.head? ≠ some 62) ∧ ∃ us, ts = .symbol c :: us ∧ Tokens s us) ∨
    (c = 62 ∧ ∃ r us, s = 62 :: r ∧ ts = .symbol 43 :: us ∧ Tokens r us) ∨
    (WordChar c ∧ ∃ us, ts = .word ((c :: s).takeWhile fun c => WordChar c) :: us ∧
      Tokens ((c :: s).dropWhile fun c => WordChar c) us) := by
  constructor
  · intro h
    generalize hs : c :: s = l at h
    cases h with
    | nil => cases hs
    | space hc h =>
      cases hs
      exact Or.inl ⟨hc, h⟩
    | symbol hc hno h =>
      cases hs
      exact Or.inr (Or.inl ⟨hc, hno, _, rfl, h⟩)
    | append h =>
      cases hs
      exact Or.inr (Or.inr (Or.inl ⟨rfl, _, _, rfl, rfl, h⟩))
    | @word w r us hne hw hr h =>
      obtain ⟨htake, hdrop⟩ := word_run hw hr
      have hc : WordChar c := by
        cases w with
        | nil => exact absurd rfl hne
        | cons d w =>
          cases hs
          exact hw c List.mem_cons_self
      refine Or.inr (Or.inr (Or.inr ⟨hc, us, ?_, ?_⟩))
      · rw [htake]
      · rw [hdrop]
        exact h
  · rintro (⟨hc, h⟩ | ⟨hc, hno, us, rfl, h⟩ | ⟨rfl, r, us, rfl, rfl, h⟩ | ⟨hc, us, rfl, h⟩)
    · exact .space hc h
    · exact .symbol hc hno h
    · exact .append h
    · have hne : (c :: s).takeWhile (fun c => WordChar c) ≠ [] := by
        simp only [List.takeWhile_cons, decide_eq_true hc]
        exact List.cons_ne_nil _ _
      have hword := Tokens.word hne (takeWhile_word (c :: s)) (dropWhile_ends (c :: s)) h
      rwa [List.takeWhile_append_dropWhile] at hword

theorem space_not_symbol (h : c ∈ whitespace) : c ∉ symbols := by
  revert c
  decide

theorem tokens_space (hc : c ∈ whitespace) : Tokens (c :: s) ts ↔ Tokens s ts := by
  rw [tokens_cons]
  constructor
  · rintro (⟨-, h⟩ | ⟨hsym, -⟩ | ⟨rfl, -⟩ | ⟨hword, -⟩)
    · exact h
    · exact absurd hsym (space_not_symbol hc)
    · exact absurd hc (by decide)
    · exact absurd hc hword.1
  · exact fun h => Or.inl ⟨hc, h⟩

theorem tokens_length (h : Tokens s ts) : ts.length ≤ s.length := by
  induction h with
  | nil => exact le_refl _
  | space hc h ih => exact Nat.le_succ_of_le ih
  | symbol hc hs h ih => exact Nat.succ_le_succ ih
  | append h ih => exact (Nat.succ_le_succ ih).trans (Nat.le_succ _)
  | word hne hw hs h ih =>
    have hpos := List.length_pos_iff.mpr hne
    rw [List.length_append, List.length_cons]
    omega

theorem tokens_total (s : Str) : ∃ ts, Tokens s ts := by
  induction hn : s.length using Nat.strong_induction_on generalizing s with
  | _ n ih =>
    cases s with
    | nil => exact ⟨[], .nil⟩
    | cons c s =>
      rw [List.length_cons] at hn
      obtain ⟨ts, hts⟩ := ih s.length (by omega) s rfl
      by_cases hspace : c ∈ whitespace
      · exact ⟨ts, .space hspace hts⟩
      by_cases hsym : c ∈ symbols
      · by_cases hno : c = 62 → s.head? ≠ some 62
        · exact ⟨_, .symbol hsym hno hts⟩
        · obtain ⟨rfl, hhead⟩ := Classical.not_imp.mp hno
          obtain ⟨r, rfl⟩ := List.head?_eq_some_iff.mp (not_not.mp hhead)
          rw [List.length_cons] at hn
          obtain ⟨us, hus⟩ := ih r.length (by omega) r rfl
          exact ⟨_, .append hus⟩
      · have hword : WordChar c := ⟨hspace, hsym⟩
        have hdrop : (c :: s).dropWhile (fun c => WordChar c) =
            s.dropWhile fun c => WordChar c := by
          simp only [List.dropWhile_cons, decide_eq_true hword, if_true]
        have hle := (List.dropWhile_sublist (l := s) fun c => decide (WordChar c)).length_le
        obtain ⟨us, hus⟩ := ih _ (by omega) (s.dropWhile fun c => WordChar c) rfl
        exact ⟨_, tokens_cons.mpr (Or.inr (Or.inr (Or.inr ⟨hword, us, rfl, hdrop ▸ hus⟩)))⟩

theorem tokens_unique (h : Tokens s ts) (h' : Tokens s us) : us = ts := by
  induction h generalizing us with
  | nil => exact tokens_nil.mp h'
  | space hc h ih => exact ih ((tokens_space hc).mp h')
  | symbol hc hno h ih =>
    rcases tokens_cons.mp h' with ⟨hspace, -⟩ | ⟨-, -, us', rfl, hus⟩ | ⟨hgt, r, -, hr, -⟩ |
      ⟨hword, -⟩
    · exact absurd hc (space_not_symbol hspace)
    · rw [ih hus]
    · exact absurd (by rw [hr]; rfl) (hno hgt)
    · exact absurd hc hword.2
  | append h ih =>
    rcases tokens_cons.mp h' with ⟨hspace, -⟩ | ⟨-, hno, -⟩ | ⟨-, r, us', hr, rfl, hus⟩ |
      ⟨hword, -⟩
    · exact absurd hspace (by decide)
    · exact absurd rfl (hno rfl)
    · cases hr
      rw [ih hus]
    · exact absurd hword (by decide)
  | @word w s ts hne hw hs h ih =>
    obtain ⟨htake, hdrop⟩ := word_run hw hs
    cases w with
    | nil => exact absurd rfl hne
    | cons c w =>
      have hc := hw c List.mem_cons_self
      rcases tokens_cons.mp h' with ⟨hspace, -⟩ | ⟨hsym, -⟩ | ⟨rfl, -⟩ | ⟨-, us', rfl, hus⟩
      · exact absurd hspace hc.1
      · exact absurd hsym hc.2
      · exact absurd hc (by decide)
      · change Token.word (((c :: w) ++ s).takeWhile fun c => WordChar c) :: us' = _
        change Tokens (((c :: w) ++ s).dropWhile fun c => WordChar c) us' at hus
        rw [hdrop] at hus
        rw [htake, ih hus]

/-! The cursor. -/

/-- The tokens `ts` are to come. -/
structure At (line : Str) (s : ℕ) (ts : List Token) : Prop where
  le : s ≤ line.length
  tokens : Tokens (line.drop s) ts

theorem At.length_le {n : ℕ} (h : At line n ts) : ts.length ≤ line.length := by
  have hlen := tokens_length h.tokens
  rw [List.length_drop] at hlen
  omega

/-- A word of the line between two offsets, behind which it cannot go on. -/
structure SliceOf (line : Str) (a : Slice) (w : Str) : Prop where
  stop_eq : a.stop = a.start + w.length
  le : a.stop ≤ line.length
  text : line.drop a.start = w ++ line.drop a.stop
  word : ∀ c ∈ w, WordChar c
  ends : ∀ c ∈ (line.drop a.stop).head?, ¬ WordChar c

theorem tokens_skip : Tokens (s.dropWhile fun c => c ∈ whitespace) ts ↔ Tokens s ts := by
  induction s with
  | nil => exact Iff.rfl
  | cons c s ih =>
    by_cases hspace : c ∈ whitespace
    · simp only [List.dropWhile_cons, decide_eq_true hspace, if_true]
      rw [tokens_space hspace]
      exact ih
    · simp only [List.dropWhile_cons, decide_eq_false hspace, Bool.false_eq_true, if_false]

/-- The whitespace in front of the next token is passed over. -/
theorem skipSpace_run {n : ℕ} (h : At line n ts) (t : ℕ) :
    ∃ m, skipSpace line n t = .ok (m, t) ∧ At line m ts ∧
      ∀ c ∈ (line.drop m).head?, c ∉ whitespace := by
  refine ⟨_, skip_run h.le (by omega) t, ⟨skip_le _ h.le, ?_⟩, ?_⟩
  · rw [drop_takeWhile]
    exact tokens_skip.mpr h.tokens
  · intro c hc
    rw [drop_takeWhile] at hc
    have hhead := List.head?_dropWhile_not (fun c => decide (c ∈ whitespace)) (line.drop n)
    rw [Option.mem_def.mp hc] at hhead
    simpa using hhead

/-- The end of the line, a symbol, a `>>` or a word. -/
theorem At.next {n : ℕ} (h : At line n ts) (hs : ∀ c ∈ (line.drop n).head?, c ∉ whitespace) :
    (n = line.length ∧ ts = []) ∨
      (∃ c r us, line.drop n = c :: r ∧ c ∈ symbols ∧ (c = 62 → r.head? ≠ some 62) ∧
        ts = .symbol c :: us ∧ At line (n + 1) us) ∨
      (∃ r us, line.drop n = 62 :: 62 :: r ∧ ts = .symbol 43 :: us ∧ At line (n + 2) us) ∨
      ∃ c r w us, line.drop n = c :: r ∧ WordChar c ∧ ts = .word w :: us ∧
        w = (line.drop n).takeWhile (fun c => WordChar c) ∧
        SliceOf line ⟨n, n + w.length⟩ w ∧ At line (n + w.length) us := by
  obtain ⟨hle, htokens⟩ := h
  cases hdrop : line.drop n with
  | nil =>
    rw [hdrop] at htokens
    refine Or.inl ⟨?_, tokens_nil.mp htokens⟩
    have := List.drop_eq_nil_iff.mp hdrop
    omega
  | cons c r =>
    have hspace : c ∉ whitespace := hs c (by rw [hdrop]; rfl)
    obtain ⟨hlt, -, hrest⟩ := drop_succ hdrop
    rw [hdrop] at htokens
    right
    rcases tokens_cons.mp htokens with ⟨hc, -⟩ | ⟨hc, hno, us, hts, hus⟩ |
      ⟨rfl, r', us, rfl, hts, hus⟩ | ⟨hc, us, hts, hus⟩
    · exact absurd hc hspace
    · exact Or.inl ⟨c, r, us, rfl, hc, hno, hts, hlt, hrest.symm ▸ hus⟩
    · obtain ⟨hlt', -, hrest'⟩ := drop_succ hrest
      exact Or.inr (Or.inl ⟨r', us, rfl, hts, hlt', hrest'.symm ▸ hus⟩)
    · refine Or.inr (Or.inr ⟨c, r, _, us, rfl, hc, hts, rfl, ?_⟩)
      rw [← hdrop] at hus ⊢
      have hdropped : line.drop (n + ((line.drop n).takeWhile fun c => WordChar c).length) =
          (line.drop n).dropWhile fun c => WordChar c := drop_takeWhile _ n
      refine ⟨⟨rfl, skip_le _ hle, ?_, takeWhile_word _, ?_⟩, skip_le _ hle, ?_⟩
      · rw [hdropped, List.takeWhile_append_dropWhile]
      · rw [hdropped]
        exact dropWhile_ends _
      · rw [hdropped]
        exact hus

theorem symbol_ne_zero (h : c ∈ symbols) : c ≠ 0 := by
  revert c
  decide

theorem symbol_greater (h : c ∈ symbols)
    (hno : ¬ (c = 124 ∨ c = 40 ∨ c = 41 ∨ c = 59 ∨ c = 38 ∨ c = 60)) : c = 62 := by
  revert c
  decide

/-- peek() sees the first character of a `>>`. -/
theorem peek_run {n : ℕ} (h : At line n ts) (toks toks' : List Byte)
    (hsub : ∀ c ∈ toks, c ∈ symbols) (hsame : ∀ c ∈ symbols, c ∈ toks' ↔ c ∈ toks)
    (happend : 43 ∈ toks' ↔ 62 ∈ toks) :
    ∃ m, peek line toks n = .ok (starts toks' ts, m) ∧ At line m ts ∧
      (ts = [] → m = line.length) ∧ (ts ≠ [] → m ≠ line.length) := by
  obtain ⟨m, hskip, hm, hs⟩ := skipSpace_run h n
  have hlook : ∀ {c : Byte} {r : Str}, line.drop m = c :: r →
      peek line toks n = .ok (decide (c ≠ 0 ∧ c ∈ toks), m) ∧ m ≠ line.length := by
    intro c r hdrop
    obtain ⟨hlt, -, -⟩ := drop_succ hdrop
    refine ⟨?_, by omega⟩
    simp only [peek]
    rw [run_bind (get_run n), run_bind hskip]
    change (deref line m >>= fun c => pure (decide (c ≠ 0 ∧ c ∈ toks))) m = _
    rw [run_bind (deref_cons hdrop m)]
    rfl
  refine ⟨m, ?_, hm, ?_⟩
  · rcases hm.next hs with ⟨rfl, rfl⟩ | ⟨c, r, us, hdrop, hc, -, rfl, -⟩ |
      ⟨r, us, hdrop, rfl, -⟩ | ⟨c, r, w, us, hdrop, hc, rfl, -, -⟩
    · simp only [peek]
      rw [run_bind (get_run n), run_bind hskip]
      change (deref line line.length >>= fun c => pure (decide (c ≠ 0 ∧ c ∈ toks)))
        line.length = _
      rw [run_bind (deref_end _)]
      rfl
    · have hiff : c ≠ 0 ∧ c ∈ toks ↔ c ∈ toks' :=
        (and_iff_right (symbol_ne_zero hc)).trans (hsame c hc).symm
      rw [(hlook hdrop).1, decide_eq_decide.mpr hiff]
      rfl
    · have hiff : (62 : Byte) ≠ 0 ∧ (62 : Byte) ∈ toks ↔ (43 : Byte) ∈ toks' :=
        (and_iff_right (by decide)).trans happend.symm
      rw [(hlook hdrop).1, decide_eq_decide.mpr hiff]
      rfl
    · rw [(hlook hdrop).1, decide_eq_false fun h => hc.2 (hsub c h.2)]
      rfl
  · rcases hm.next hs with ⟨rfl, rfl⟩ | ⟨c, r, us, hdrop, -, -, rfl, -⟩ |
      ⟨r, us, hdrop, rfl, -⟩ | ⟨c, r, w, us, hdrop, -, rfl, -, -⟩
    · exact ⟨fun _ => rfl, fun hne => absurd rfl hne⟩
    · exact ⟨fun hts => absurd hts (List.cons_ne_nil _ _), fun _ => (hlook hdrop).2⟩
    · exact ⟨fun hts => absurd hts (List.cons_ne_nil _ _), fun _ => (hlook hdrop).2⟩
    · exact ⟨fun hts => absurd hts (List.cons_ne_nil _ _), fun _ => (hlook hdrop).2⟩

/-- gettoken() where its switch is known. -/
theorem gettoken_of {n q eq : ℕ} {ret : Byte} (hskip : skipSpace line n n = .ok (q, n))
    (hc : deref line q n = .ok (c, n)) (hscan : scan line c q n = .ok ((ret, eq), n))
    (h : At line eq ts) : ∃ m, gettoken line n = .ok ((ret, ⟨q, eq⟩), m) ∧ At line m ts := by
  obtain ⟨m, hlast, hm, -⟩ := skipSpace_run h n
  refine ⟨m, ?_, hm⟩
  simp only [gettoken]
  rw [run_bind (get_run n), run_bind hskip, run_bind hc, run_bind hscan]
  dsimp only
  rw [run_bind hlast]
  rfl

theorem gettoken_end {n : ℕ} (h : At line n []) :
    ∃ a m, gettoken line n = .ok ((0, a), m) ∧ At line m [] := by
  obtain ⟨q, hskip, hq, hs⟩ := skipSpace_run h n
  rcases hq.next hs with ⟨rfl, -⟩ | ⟨c, r, us, -, -, -, heq, -⟩ | ⟨r, us, -, heq, -⟩ |
    ⟨c, r, w, us, -, -, heq, -, -⟩
  · obtain ⟨m, hrun, hm⟩ := gettoken_of hskip (deref_end n) rfl hq
    exact ⟨_, m, hrun, hm⟩
  · cases heq
  · cases heq
  · cases heq

theorem scan_symbol {q n : ℕ} {r : Str} (hdrop : line.drop q = c :: r) (hc : c ∈ symbols)
    (hno : c = 62 → r.head? ≠ some 62) : scan line c q n = .ok ((c, q + 1), n) := by
  rw [scan, if_neg (symbol_ne_zero hc)]
  by_cases hplain : c = 124 ∨ c = 40 ∨ c = 41 ∨ c = 59 ∨ c = 38 ∨ c = 60
  · rw [if_pos hplain]
    rfl
  · have hgt := symbol_greater hc hplain
    obtain ⟨hlt, -, hrest⟩ := drop_succ hdrop
    rw [if_neg hplain, if_pos hgt]
    cases r with
    | nil =>
      have hend : q + 1 = line.length := by
        have hle := List.drop_eq_nil_iff.mp hrest
        omega
      rw [hend, run_bind (deref_end n), if_neg (by decide)]
      rfl
    | cons d r =>
      have hd : d ≠ 62 := by
        rintro rfl
        exact hno hgt rfl
      rw [run_bind (deref_cons hrest n), if_neg hd]
      rfl

theorem gettoken_symbol {n : ℕ} (h : At line n (.symbol c :: ts)) :
    ∃ a m, gettoken line n = .ok ((c, a), m) ∧ At line m ts ∧ c ≠ 0 ∧ c ≠ 97 := by
  obtain ⟨q, hskip, hq, hs⟩ := skipSpace_run h n
  rcases hq.next hs with ⟨-, heq⟩ | ⟨d, r, us, hdrop, hd, hno, heq, hus⟩ |
    ⟨r, us, hdrop, heq, hus⟩ | ⟨d, r, w, us, -, -, heq, -, -⟩
  · cases heq
  · cases heq
    obtain ⟨m, hrun, hm⟩ := gettoken_of hskip (deref_cons hdrop n)
      (scan_symbol hdrop hd hno) hus
    refine ⟨_, m, hrun, hm, symbol_ne_zero hd, ?_⟩
    rintro rfl
    exact absurd hd (by decide)
  · cases heq
    obtain ⟨-, -, hrest⟩ := drop_succ hdrop
    have hscan : scan line 62 q n = .ok ((43, q + 2), n) := by
      rw [scan, if_neg (by decide), if_neg (by decide), if_pos rfl,
        run_bind (deref_cons hrest n), if_pos rfl]
      rfl
    obtain ⟨m, hrun, hm⟩ := gettoken_of hskip (deref_cons hdrop n) hscan hus
    exact ⟨_, m, hrun, hm, by decide, by decide⟩
  · cases heq

theorem gettoken_word (hz : ∀ c ∈ line, c ≠ 0) {n : ℕ} {w : Str} (h : At line n (.word w :: ts)) :
    ∃ a m, gettoken line n = .ok ((97, a), m) ∧ SliceOf line a w ∧ At line m ts := by
  obtain ⟨q, hskip, hq, hs⟩ := skipSpace_run h n
  rcases hq.next hs with ⟨-, heq⟩ | ⟨d, r, us, -, -, -, heq, -⟩ | ⟨r, us, -, heq, -⟩ |
    ⟨d, r, w', us, hdrop, hd, heq, hw, hslice, hus⟩
  · cases heq
  · cases heq
  · cases heq
  · cases heq
    have hne : d ≠ 0 := hz d (List.mem_of_mem_drop (by rw [hdrop]; exact List.mem_cons_self))
    have hscan : scan line d q n = .ok ((97, q + w.length), n) := by
      have hplain : ¬ (d = 124 ∨ d = 40 ∨ d = 41 ∨ d = 59 ∨ d = 38 ∨ d = 60) := by
        rintro (rfl | rfl | rfl | rfl | rfl | rfl)
        all_goals exact hd.2 (by decide)
      have hgt : d ≠ 62 := by
        rintro rfl
        exact hd.2 (by decide)
      rw [scan, if_neg hne, if_neg hplain, if_neg hgt, skipWord,
        run_bind (skip_run hq.le (by omega) n)]
      change Except.ok ((97, q + ((line.drop q).takeWhile fun c => WordChar c).length), n) = _
      rw [← hw]
    obtain ⟨m, hrun, hm⟩ := gettoken_of hskip (deref_cons hdrop n) hscan hus
    exact ⟨_, m, hrun, hslice, hm⟩

end ShTokens
