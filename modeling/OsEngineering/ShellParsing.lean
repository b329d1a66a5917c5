import OsEngineering.ShellGrammar
import Mathlib.Data.List.TakeWhile

/-! The parser of the shell takes the lines that have a derivation and returns its tree. -/
namespace ShellParsing

open ByteBlock FaultState ShellCommands ShellParser ShellGrammar

variable {line s : Str} {c : Byte} {ts us : List Token}

/-! Tokens. -/

theorem not_wordChar_space (h : c ∈ whitespace) : ¬ WordChar c := fun hw => hw.1 h

theorem not_wordChar_symbol (h : c ∈ symbols) : ¬ WordChar c := fun hw => hw.2 h

theorem space_not_symbol (h : c ∈ whitespace) : c ∉ symbols := by
  revert c
  decide

theorem tokens_nil : Tokens [] ts ↔ ts = [] := by
  constructor
  · intro h
    generalize hs : ([] : Str) = s at h
    cases h with
    | nil => rfl
    | space hc h => cases hs
    | symbol hc h => cases hs
    | word hne hw hs' h => exact absurd (List.append_eq_nil_iff.mp hs.symm).1 hne
  · rintro rfl
    exact .nil

theorem tokens_space (hc : c ∈ whitespace) : Tokens (c :: s) ts ↔ Tokens s ts := by
  refine ⟨fun h => ?_, .space hc⟩
  generalize hs : c :: s = l at h
  cases h with
  | nil => cases hs
  | space hc' h =>
    cases hs
    exact h
  | symbol hc' h =>
    cases hs
    exact absurd hc' (space_not_symbol hc)
  | @word w s' ts hne hw hs' h =>
    cases w with
    | nil => exact absurd rfl hne
    | cons d w =>
      cases hs
      exact absurd (hw c List.mem_cons_self) (not_wordChar_space hc)

theorem tokens_symbol (hc : c ∈ symbols) :
    Tokens (c :: s) ts ↔ ∃ us, ts = .symbol c :: us ∧ Tokens s us := by
  constructor
  · intro h
    generalize hs : c :: s = l at h
    cases h with
    | nil => cases hs
    | space hc' h =>
      cases hs
      exact absurd hc (space_not_symbol hc')
    | symbol hc' h =>
      cases hs
      exact ⟨_, rfl, h⟩
    | @word w s' ts hne hw hs' h =>
      cases w with
      | nil => exact absurd rfl hne
      | cons d w =>
        cases hs
        exact absurd (hw c List.mem_cons_self) (not_wordChar_symbol hc)
  · rintro ⟨us, rfl, h⟩
    exact .symbol hc h

/-- A run of characters with `p` ends where they do. -/
theorem word_run {p : Byte → Prop} [DecidablePred p] {w r : Str} (hw : ∀ c ∈ w, p c)
    (hr : ∀ c ∈ r.head?, ¬ p c) :
    (w ++ r).takeWhile (fun c => p c) = w ∧ (w ++ r).dropWhile (fun c => p c) = r := by
  have hall : ∀ c ∈ w, decide (p c) = true := fun c hc => decide_eq_true (hw c hc)
  rw [List.takeWhile_append_of_pos hall, List.dropWhile_append_of_pos hall]
  cases r with
  | nil => exact ⟨List.append_nil w, rfl⟩
  | cons d r =>
    have hd : decide (p d) = false := decide_eq_false (hr d rfl)
    simp only [List.takeWhile_cons, List.dropWhile_cons, hd]
    exact ⟨List.append_nil w, rfl⟩

theorem tokens_word (hc : WordChar c) : Tokens (c :: s) ts ↔
    ∃ us, ts = .word ((c :: s).takeWhile fun c => WordChar c) :: us ∧
      Tokens ((c :: s).dropWhile fun c => WordChar c) us := by
  constructor
  · intro h
    generalize hs : c :: s = l at h
    cases h with
    | nil => cases hs
    | space hc' h =>
      cases hs
      exact absurd hc (not_wordChar_space hc')
    | symbol hc' h =>
      cases hs
      exact absurd hc (not_wordChar_symbol hc')
    | word hne hw hs' h =>
      obtain ⟨htake, hdrop⟩ := word_run hw hs'
      rw [htake, hdrop]
      exact ⟨_, rfl, h⟩
  · rintro ⟨us, rfl, h⟩
    have hsplit : (c :: s).takeWhile (fun c => WordChar c) ++
        (c :: s).dropWhile (fun c => WordChar c) = c :: s := List.takeWhile_append_dropWhile
    have hne : (c :: s).takeWhile (fun c => WordChar c) ≠ [] := by
      simp only [List.takeWhile_cons, decide_eq_true hc]
      exact List.cons_ne_nil _ _
    have hword := Tokens.word hne (fun d hd => of_decide_eq_true
        (List.mem_takeWhile_imp (p := fun c => decide (WordChar c)) hd))
      (fun d hd => ?_) h
    · rwa [hsplit] at hword
    · have hhead := List.head?_dropWhile_not (fun c => decide (WordChar c)) (c :: s)
      rw [Option.mem_def.mp hd] at hhead
      simpa using hhead

theorem tokens_length (h : Tokens s ts) : ts.length ≤ s.length := by
  induction h with
  | nil => exact le_refl _
  | space hc h ih => exact Nat.le_succ_of_le ih
  | symbol hc h ih => exact Nat.succ_le_succ ih
  | word hne hw hs h ih =>
    have hpos := List.length_pos_iff.mpr hne
    rw [List.length_append, List.length_cons]
    omega

/-! The cursor. -/

/-- The tokens `ts` are to come. -/
structure At (line : Str) (s : ℕ) (ts : List Token) : Prop where
  le : s ≤ line.length
  tokens : Tokens (line.drop s) ts

theorem drop_succ {n : ℕ} {r : Str} (h : line.drop n = c :: r) :
    n < line.length ∧ line.getD n 0 = c ∧ line.drop (n + 1) = r := by
  have hlt : n < line.length := by
    by_contra hle
    rw [List.drop_eq_nil_of_le (by omega)] at h
    cases h
  rw [List.drop_eq_getElem_cons hlt] at h
  obtain ⟨hc, hr⟩ := List.cons.inj h
  refine ⟨hlt, ?_, hr⟩
  rw [List.getD_eq_getElem?_getD, List.getElem?_eq_getElem hlt]
  exact hc

theorem deref_cons {n : ℕ} {r : Str} (h : line.drop n = c :: r) (t : ℕ) :
    deref line n t = .ok (c, t) := by
  obtain ⟨hlt, hget, -⟩ := drop_succ h
  rw [deref, if_pos hlt, hget]
  rfl

theorem deref_end (t : ℕ) : deref line line.length t = .ok (0, t) := by
  rw [deref, if_neg (lt_irrefl _), if_pos rfl]
  rfl

theorem skip_run {p : Byte → Prop} [DecidablePred p] {k n : ℕ} (hn : n ≤ line.length)
    (hk : line.length ≤ n + k) (t : ℕ) : skip line p k n t =
      .ok (n + ((line.drop n).takeWhile fun c => p c).length, t) := by
  induction k generalizing n with
  | zero =>
    obtain rfl : n = line.length := by omega
    rw [skip, if_neg (lt_irrefl _), List.drop_length]
    rfl
  | succ k ih =>
    rw [skip]
    split
    · next hlt =>
      obtain ⟨c, hdrop⟩ : ∃ c, line.drop n = c :: line.drop (n + 1) :=
        ⟨_, List.drop_eq_getElem_cons hlt⟩
      rw [run_bind (deref_cons hdrop t), hdrop]
      by_cases hp : p c
      · rw [if_pos hp, ih (by omega) (by omega)]
        simp only [List.takeWhile_cons, decide_eq_true hp, if_true, List.length_cons]
        rw [Nat.add_right_comm, Nat.add_assoc]
      · rw [if_neg hp]
        simp only [List.takeWhile_cons, decide_eq_false hp, Bool.false_eq_true, if_false]
        rfl
    · obtain rfl : n = line.length := by omega
      rw [List.drop_length]
      rfl

theorem drop_takeWhile (p : Byte → Bool) (n : ℕ) :
    line.drop (n + ((line.drop n).takeWhile p).length) = (line.drop n).dropWhile p := by
  have hsplit : (line.drop n).takeWhile p ++ (line.drop n).dropWhile p = line.drop n :=
    List.takeWhile_append_dropWhile
  have hrest : ((line.drop n).takeWhile p ++ (line.drop n).dropWhile p).drop
      ((line.drop n).takeWhile p).length = (line.drop n).dropWhile p := List.drop_left
  rw [← List.drop_drop]
  rwa [hsplit] at hrest

theorem skip_le (p : Byte → Bool) {n : ℕ} (hn : n ≤ line.length) :
    n + ((line.drop n).takeWhile p).length ≤ line.length := by
  have h := (List.takeWhile_sublist p (l := line.drop n)).length_le
  rw [List.length_drop] at h
  omega

/-! In a line without zeros strchr() finds what it is meant to find. -/

theorem strchr_iff (l : List Byte) (hc : c ≠ 0) : strchr l c ↔ c ∈ l := or_iff_right hc

theorem tokens_skip (hz : ∀ c ∈ s, c ≠ 0) :
    Tokens (s.dropWhile fun c => strchr whitespace c) ts ↔ Tokens s ts := by
  induction s with
  | nil => exact Iff.rfl
  | cons c s ih =>
    have hc := strchr_iff whitespace (hz c List.mem_cons_self)
    by_cases hspace : c ∈ whitespace
    · simp only [List.dropWhile_cons, decide_eq_true (hc.mpr hspace), if_true]
      rw [tokens_space hspace]
      exact ih fun d hd => hz d (List.mem_cons_of_mem c hd)
    · simp only [List.dropWhile_cons, decide_eq_false fun h => hspace (hc.mp h),
        Bool.false_eq_true, if_false]

theorem takeWhile_congr {p q : Byte → Bool} (h : ∀ c ∈ s, p c = q c) :
    s.takeWhile p = s.takeWhile q ∧ s.dropWhile p = s.dropWhile q := by
  induction s with
  | nil => exact ⟨rfl, rfl⟩
  | cons c s ih =>
    obtain ⟨htake, hdrop⟩ := ih fun d hd => h d (List.mem_cons_of_mem c hd)
    simp only [List.takeWhile_cons, List.dropWhile_cons, h c List.mem_cons_self, htake, hdrop,
      and_self]

theorem wordChar_iff (hc : c ≠ 0) :
    ¬ strchr whitespace c ∧ ¬ strchr symbols c ↔ WordChar c := by
  rw [strchr_iff whitespace hc, strchr_iff symbols hc]
  rfl

theorem symbol_ne_zero (h : c ∈ symbols) : c ≠ 0 := by
  revert c
  decide

theorem symbol_greater (h : c ∈ symbols) (hno : ¬ (c = 124 ∨ c = 60)) : c = 62 := by
  revert c
  decide

theorem strncpy_run {k n : ℕ} (h : n + k ≤ line.length) (t : ℕ) :
    strncpy line k n t = .ok ((line.drop n).take k, t) := by
  induction k generalizing n with
  | zero => rfl
  | succ k ih =>
    have hdrop := List.drop_eq_getElem_cons (l := line) (i := n) (by omega)
    rw [strncpy, run_bind (deref_cons hdrop t), run_bind (ih (by omega)), hdrop, List.take_succ_cons]
    rfl

theorem take_takeWhile (p : Byte → Bool) (l : Str) :
    l.take (l.takeWhile p).length = l.takeWhile p := by
  have htake : (l.takeWhile p ++ l.dropWhile p).take (l.takeWhile p).length = l.takeWhile p :=
    List.take_left
  rwa [List.takeWhile_append_dropWhile] at htake

/-- Whether the next token is one of the symbols in `toks`. -/
def starts (toks : List Byte) : List Token → Bool
  | .symbol c :: _ => c ∈ toks
  | _ => false

/-! Derivations of a part of the tokens, up to where `F` holds of the rest. -/

section Derivations

variable {D : Type} (tok : D → List Token) (F : D → List Token → Prop)

def Only (ts : List Token) (d : D) (us : List Token) : Prop :=
  (ts = tok d ++ us ∧ F d us) ∧ ∀ d' us', ts = tok d' ++ us' → F d' us' → d' = d ∧ us' = us

def Never (ts : List Token) : Prop := ∀ d us, ts = tok d ++ us → ¬ F d us

end Derivations

def Exits (e : Stop) : Prop := ∃ msg, e = .exit msg

def RedirsEnd (_ : List Redir) (us : List Token) : Prop := starts [60, 62] us = false

theorem starts_redir (h : starts [60, 62] ts = true) :
    ∃ type us, ts = .symbol (symbolOf type) :: us := by
  match ts, h with
  | .symbol c :: us, h =>
    have hc : c ∈ ([60, 62] : List Byte) := of_decide_eq_true h
    rcases List.mem_cons.mp hc with rfl | hc
    · exact ⟨.input, us, rfl⟩
    · obtain rfl := List.mem_singleton.mp hc
      exact ⟨.output, us, rfl⟩

theorem starts_symbolOf (type : Redirection) : starts [60, 62] (.symbol (symbolOf type) :: us) =
    true := by
  cases type <;> rfl

theorem symbolOf_injective {type type' : Redirection} (h : symbolOf type = symbolOf type') :
    type = type' := by
  cases type <;> cases type'
  · rfl
  · exact absurd h (by decide)
  · exact absurd h (by decide)
  · rfl

theorem only_no_redir (h : ¬ starts [60, 62] ts = true) : Only redirTokens RedirsEnd ts [] ts := by
  refine ⟨⟨rfl, eq_false_of_ne_true h⟩, fun rs us hts _ => ?_⟩
  cases rs with
  | nil => exact ⟨rfl, hts.symm⟩
  | cons r rs =>
    rw [hts] at h
    exact absurd (starts_symbolOf r.type) h

theorem only_redir {type : Redirection} {w : Str} {rs : List Redir} {us' : List Token}
    (h : Only redirTokens RedirsEnd us rs us') :
    Only redirTokens RedirsEnd (.symbol (symbolOf type) :: .word w :: us) (⟨type, w⟩ :: rs) us' := by
  obtain ⟨⟨hus, hend⟩, honly⟩ := h
  refine ⟨⟨?_, hend⟩, fun rs' us'' hts hend' => ?_⟩
  · rw [hus]
    rfl
  · cases rs' with
    | nil =>
      rw [← show _ = us'' from hts] at hend'
      exact absurd hend' (by rw [RedirsEnd, starts_symbolOf]; decide)
    | cons r rs' =>
      injection hts with hsym hts
      injection hts with hword hts
      injection hsym with hsym
      injection hword with hword
      obtain ⟨rfl, rfl⟩ := honly rs' us'' hts hend'
      obtain ⟨type', file⟩ := r
      dsimp only at hsym hword
      rw [symbolOf_injective hsym, hword]
      exact ⟨rfl, rfl⟩

theorem never_redir {type : Redirection} (h : ∀ w us', us ≠ .word w :: us') :
    Never redirTokens RedirsEnd (.symbol (symbolOf type) :: us) := by
  intro rs us' hts hend
  cases rs with
  | nil =>
    rw [← show _ = us' from hts, RedirsEnd, starts_symbolOf] at hend
    cases hend
  | cons r rs =>
    injection hts with hsym hts
    exact h r.file _ hts

theorem never_redir_rest {type : Redirection} {w : Str} (h : Never redirTokens RedirsEnd us) :
    Never redirTokens RedirsEnd (.symbol (symbolOf type) :: .word w :: us) := by
  intro rs us' hts hend
  cases rs with
  | nil =>
    rw [← show _ = us' from hts, RedirsEnd, starts_symbolOf] at hend
    cases hend
  | cons r rs =>
    injection hts with hsym hts
    injection hts with hword hts
    exact h rs us' hts hend

theorem wrap_append (c : Cmd) (rs rs' : List Redir) : wrap c (rs ++ rs') = wrap (wrap c rs) rs' :=
  List.foldl_append

theorem addArg_wrap (c : Cmd) (rs : List Redir) (w : Str) :
    addArg (wrap c rs) w = wrap (addArg c w) rs := by
  induction rs generalizing c with
  | nil => rfl
  | cons r rs ih => exact ih (.redircmd c r.file r.type)

/-- The end of the line or a `|`. -/
def PipeFollows (us : List Token) : Prop := us = [] ∨ starts [124] us = true

theorem starts_bar (h : starts [124] ts = true) : ∃ us, ts = .symbol 124 :: us := by
  match ts, h with
  | .symbol c :: us, h =>
    obtain rfl := List.mem_singleton.mp (of_decide_eq_true h)
    exact ⟨us, rfl⟩

def argsTokens (args : List Arg) : List Token := args.flatMap Arg.tokens

/-- With `argc` arguments before them. -/
def ArgsEnd (argc : ℕ) (args : List Arg) (us : List Token) : Prop :=
  PipeFollows us ∧ argc + args.length < MAXARGS

theorem args_no_redir (args : List Arg) (h : PipeFollows us) :
    starts [60, 62] (argsTokens args ++ us) = false := by
  cases args with
  | nil =>
    rcases h with rfl | h
    · rfl
    · obtain ⟨us, rfl⟩ := starts_bar h
      rfl
  | cons a args => rfl

theorem not_follows_word {w : Str} : ¬ PipeFollows (.word w :: us) := by
  rintro (h | h)
  · cases h
  · cases h

theorem only_no_args {argc : ℕ} (hargc : argc < MAXARGS) (h : PipeFollows ts) :
    Only argsTokens (ArgsEnd argc) ts [] ts := by
  refine ⟨⟨rfl, h, hargc⟩, fun args us hts _ => ?_⟩
  cases args with
  | nil => exact ⟨rfl, hts.symm⟩
  | cons a args =>
    rw [hts] at h
    exact absurd h not_follows_word

theorem never_args_symbol {argc : ℕ} (h : ¬ starts [124] (.symbol c :: us) = true) :
    Never argsTokens (ArgsEnd argc) (.symbol c :: us) := by
  rintro args us' hts ⟨hend, -⟩
  cases args with
  | nil =>
    rw [← show _ = us' from hts] at hend
    rcases hend with hend | hend
    · cases hend
    · exact h hend
  | cons a args => cases hts

theorem never_args_many {argc : ℕ} {w : Str} (h : MAXARGS ≤ argc + 1) :
    Never argsTokens (ArgsEnd argc) (.word w :: us) := by
  rintro args us' hts ⟨hend, hlen⟩
  cases args with
  | nil =>
    rw [← show _ = us' from hts] at hend
    exact not_follows_word hend
  | cons a args =>
    rw [List.length_cons] at hlen
    omega

/-- The first of some arguments: its word, its redirections and the rest. -/
theorem arg_inv {argc : ℕ} {w : Str} {args : List Arg} {us' : List Token}
    (hts : .word w :: us = argsTokens args ++ us') (hend : ArgsEnd argc args us') :
    ∃ rs args', args = ⟨w, rs⟩ :: args' ∧ us = redirTokens rs ++ (argsTokens args' ++ us') ∧
      ArgsEnd (argc + 1) args' us' ∧ RedirsEnd rs (argsTokens args' ++ us') := by
  obtain ⟨hfollows, hlen⟩ := hend
  cases args with
  | nil =>
    rw [← show _ = us' from hts] at hfollows
    exact absurd hfollows not_follows_word
  | cons a args =>
    injection hts with hword hts
    injection hword with hword
    obtain ⟨w', rs⟩ := a
    dsimp only at hword
    subst hword
    refine ⟨rs, args, rfl, ?_, ⟨hfollows, ?_⟩, args_no_redir args hfollows⟩
    · rw [hts, ← List.append_assoc]
      rfl
    · rw [List.length_cons] at hlen
      omega

theorem only_arg {argc : ℕ} {w : Str} {rs : List Redir} {args : List Arg} {us₁ us₂ : List Token}
    (hredirs : Only redirTokens RedirsEnd us rs us₁)
    (hargs : Only argsTokens (ArgsEnd (argc + 1)) us₁ args us₂) :
    Only argsTokens (ArgsEnd argc) (.word w :: us) (⟨w, rs⟩ :: args) us₂ := by
  obtain ⟨⟨hus₁, hfollows, hlen⟩, honly⟩ := hargs
  refine ⟨⟨?_, hfollows, ?_⟩, fun args' us' hts hend => ?_⟩
  · have hsplit : argsTokens (⟨w, rs⟩ :: args) = .word w :: (redirTokens rs ++ argsTokens args) := rfl
    rw [hsplit, hredirs.1.1, hus₁, List.cons_append, List.append_assoc]
  · rw [List.length_cons]
    omega
  · obtain ⟨rs', args'', rfl, hus, hend', hno⟩ := arg_inv hts hend
    obtain ⟨rfl, hrest⟩ := hredirs.2 rs' _ hus hno
    obtain ⟨rfl, rfl⟩ := honly args'' us' hrest.symm hend'
    exact ⟨rfl, rfl⟩

theorem never_arg_rest {argc : ℕ} {w : Str} {rs : List Redir} {us₁ : List Token}
    (hredirs : Only redirTokens RedirsEnd us rs us₁)
    (h : Never argsTokens (ArgsEnd (argc + 1)) us₁) :
    Never argsTokens (ArgsEnd argc) (.word w :: us) := by
  intro args us' hts hend
  obtain ⟨rs', args', rfl, hus, hend', hno⟩ := arg_inv hts hend
  obtain ⟨rfl, hrest⟩ := hredirs.2 rs' _ hus hno
  exact h args' us' hrest.symm hend'

theorem never_arg_redirs {argc : ℕ} {w : Str} (h : Never redirTokens RedirsEnd us) :
    Never argsTokens (ArgsEnd argc) (.word w :: us) := by
  intro args us' hts hend
  obtain ⟨rs, args', rfl, hus, -, hno⟩ := arg_inv hts hend
  exact h rs _ hus hno

def ExecEnd (e : Exec) (us : List Token) : Prop := PipeFollows us ∧ e.args.length < MAXARGS

theorem ExecEnd.args {e : Exec} (h : ExecEnd e us) : ArgsEnd 0 e.args us := by
  rw [ArgsEnd, Nat.zero_add]
  exact h

theorem only_exec {rs : List Redir} {args : List Arg} {us' : List Token}
    (hredirs : Only redirTokens RedirsEnd ts rs us)
    (hargs : Only argsTokens (ArgsEnd 0) us args us') :
    Only Exec.tokens ExecEnd ts ⟨rs, args⟩ us' := by
  obtain ⟨⟨hus, hfollows, hlen⟩, honly⟩ := hargs
  rw [Nat.zero_add] at hlen
  refine ⟨⟨?_, hfollows, hlen⟩, fun e us'' hts hend => ?_⟩
  · rw [hredirs.1.1, hus, ← List.append_assoc]
    rfl
  · obtain ⟨rs', args'⟩ := e
    rw [Exec.tokens, List.append_assoc] at hts
    obtain ⟨rfl, hrest⟩ := hredirs.2 rs' _ hts (args_no_redir args' hend.1)
    obtain ⟨rfl, rfl⟩ := honly args' us'' hrest.symm hend.args
    exact ⟨rfl, rfl⟩

theorem never_exec_args {rs : List Redir} (hredirs : Only redirTokens RedirsEnd ts rs us)
    (h : Never argsTokens (ArgsEnd 0) us) : Never Exec.tokens ExecEnd ts := by
  intro e us' hts hend
  rw [Exec.tokens, List.append_assoc] at hts
  obtain ⟨-, hrest⟩ := hredirs.2 e.redirs _ hts (args_no_redir e.args hend.1)
  exact h e.args us' hrest.symm hend.args

theorem never_exec_redirs (h : Never redirTokens RedirsEnd ts) : Never Exec.tokens ExecEnd ts := by
  intro e us' hts hend
  rw [Exec.tokens, List.append_assoc] at hts
  exact h e.redirs _ hts (args_no_redir e.args hend.1)

def PipeEnd (p : Pipe) (us : List Token) : Prop := us = [] ∧ p.Fits

theorem only_last {e : Exec} (h : Only Exec.tokens ExecEnd ts e []) :
    Only Pipe.tokens PipeEnd ts (.exec e) [] := by
  refine ⟨⟨h.1.1, rfl, h.1.2.2⟩, fun p us hts hend => ?_⟩
  obtain ⟨rfl, hfits⟩ := hend
  cases p with
  | exec e' =>
    obtain ⟨rfl, -⟩ := h.2 e' [] hts ⟨Or.inl rfl, hfits⟩
    exact ⟨rfl, rfl⟩
  | pipe e' rest =>
    rw [Pipe.tokens, List.append_nil] at hts
    obtain ⟨-, hus⟩ := h.2 e' _ hts ⟨Or.inr rfl, hfits.1⟩
    cases hus

theorem only_pipe {e : Exec} {p : Pipe} {us' : List Token}
    (hexec : Only Exec.tokens ExecEnd ts e (.symbol 124 :: us))
    (hpipe : Only Pipe.tokens PipeEnd us p us') :
    Only Pipe.tokens PipeEnd ts (.pipe e p) us' := by
  obtain ⟨⟨hus, rfl, hfits⟩, honly⟩ := hpipe
  refine ⟨⟨?_, rfl, hexec.1.2.2, hfits⟩, fun p' us'' hts hend => ?_⟩
  · rw [List.append_nil] at hus
    rw [hexec.1.1, hus, List.append_nil]
    rfl
  · obtain ⟨rfl, hfits'⟩ := hend
    cases p' with
    | exec e' =>
      obtain ⟨-, h⟩ := hexec.2 e' [] hts ⟨Or.inl rfl, hfits'⟩
      cases h
    | pipe e' rest =>
      rw [Pipe.tokens, List.append_nil] at hts
      obtain ⟨rfl, h⟩ := hexec.2 e' _ hts ⟨Or.inr rfl, hfits'.1⟩
      injection h with _ h
      obtain ⟨rfl, -⟩ := honly rest [] (by rw [List.append_nil]; exact h.symm) ⟨rfl, hfits'.2⟩
      exact ⟨rfl, rfl⟩

theorem never_pipe_rest {e : Exec}
    (hexec : Only Exec.tokens ExecEnd ts e (.symbol 124 :: us))
    (h : Never Pipe.tokens PipeEnd us) : Never Pipe.tokens PipeEnd ts := by
  rintro p us' hts ⟨rfl, hfits⟩
  rw [List.append_nil] at hts
  cases p with
  | exec e' =>
    obtain ⟨-, hus⟩ := hexec.2 e' [] (by rw [List.append_nil]; exact hts) ⟨Or.inl rfl, hfits⟩
    cases hus
  | pipe e' rest =>
    obtain ⟨-, hus⟩ := hexec.2 e' _ hts ⟨Or.inr rfl, hfits.1⟩
    injection hus with _ hus
    exact h rest [] (by rw [List.append_nil]; exact hus.symm) ⟨rfl, hfits.2⟩

theorem never_pipe_exec (h : Never Exec.tokens ExecEnd ts) : Never Pipe.tokens PipeEnd ts := by
  rintro p us' hts ⟨rfl, hfits⟩
  rw [List.append_nil] at hts
  cases p with
  | exec e => exact h e [] (by rw [List.append_nil]; exact hts) ⟨Or.inl rfl, hfits⟩
  | pipe e rest => exact h e _ hts ⟨Or.inr rfl, hfits.1⟩

section Line

variable (hz : ∀ c ∈ line, c ≠ 0)

include hz

theorem nonzero_drop (n : ℕ) : ∀ c ∈ line.drop n, c ≠ 0 := fun c hc =>
  hz c (List.mem_of_mem_drop hc)

/-- The whitespace in front of the next token is passed over. -/
theorem skipSpace_run {n : ℕ} (h : At line n ts) (t : ℕ) :
    ∃ m, skipSpace line n t = .ok (m, t) ∧ At line m ts ∧
      ∀ c ∈ (line.drop m).head?, c ∉ whitespace := by
  refine ⟨_, skip_run h.le (by omega) t, ⟨skip_le _ h.le, ?_⟩, ?_⟩
  · rw [drop_takeWhile]
    exact (tokens_skip (nonzero_drop hz n)).mpr h.tokens
  · intro c hc
    rw [drop_takeWhile] at hc
    have hhead := List.head?_dropWhile_not (fun c => decide (strchr whitespace c)) (line.drop n)
    rw [Option.mem_def.mp hc] at hhead
    intro hspace
    simp [strchr, hspace] at hhead

/-- The end of the line, a symbol or a word. -/
theorem At.next {n : ℕ} (h : At line n ts) (hs : ∀ c ∈ (line.drop n).head?, c ∉ whitespace) :
    (n = line.length ∧ ts = []) ∨
      (∃ c r us, line.drop n = c :: r ∧ c ∈ symbols ∧ ts = .symbol c :: us ∧
        At line (n + 1) us) ∨
      ∃ c r us, line.drop n = c :: r ∧ WordChar c ∧ c ≠ 0 ∧
        ts = .word ((line.drop n).takeWhile fun c => WordChar c) :: us ∧
        At line (n + ((line.drop n).takeWhile fun c => WordChar c).length) us := by
  obtain ⟨hle, htokens⟩ := h
  cases hdrop : line.drop n with
  | nil =>
    rw [hdrop] at htokens
    refine Or.inl ⟨?_, tokens_nil.mp htokens⟩
    have := List.drop_eq_nil_iff.mp hdrop
    omega
  | cons c r =>
    have hspace : c ∉ whitespace := hs c (by rw [hdrop]; rfl)
    obtain ⟨hlt, -, hrest⟩ := drop_succ hdrop
    rw [hdrop] at htokens
    right
    by_cases hsym : c ∈ symbols
    · obtain ⟨us, hts, hus⟩ := (tokens_symbol hsym).mp htokens
      exact Or.inl ⟨c, r, us, rfl, hsym, hts, hlt, hrest.symm ▸ hus⟩
    · obtain ⟨us, hts, hus⟩ := (tokens_word ⟨hspace, hsym⟩).mp htokens
      have hc : c ≠ 0 := nonzero_drop hz n c (by rw [hdrop]; exact List.mem_cons_self)
      refine Or.inr ⟨c, r, us, rfl, ⟨hspace, hsym⟩, hc, hts, ?_⟩
      rw [← hdrop]
      refine ⟨skip_le _ hle, ?_⟩
      rw [drop_takeWhile, hdrop]
      exact hus

/-! peek() and gettoken(). -/

theorem peek_run {n : ℕ} (h : At line n ts) (toks : List Byte)
    (htoks : ∀ c ∈ toks, c ∈ symbols) :
    ∃ m, peek line toks n = .ok (starts toks ts, m) ∧ At line m ts ∧
      (ts = [] → m = line.length) := by
  obtain ⟨m, hskip, hm, hs⟩ := skipSpace_run hz h n
  refine ⟨m, ?_, hm, ?_⟩
  · simp only [peek]
    rw [run_bind (get_run n), run_bind hskip]
    change (deref line m >>= fun c => pure (decide (c ≠ 0 ∧ strchr toks c))) m = _
    rcases At.next hz hm hs with ⟨rfl, rfl⟩ | ⟨c, r, us, hdrop, hc, rfl, -⟩ |
      ⟨c, r, us, hdrop, hc, hne, rfl, -⟩
    · rw [run_bind (deref_end _)]
      rfl
    · rw [run_bind (deref_cons hdrop m)]
      have hne := symbol_ne_zero hc
      have hiff : c ≠ 0 ∧ strchr toks c ↔ c ∈ toks := by
        rw [strchr_iff toks hne]
        exact and_iff_right hne
      rw [decide_eq_decide.mpr hiff]
      rfl
    · rw [run_bind (deref_cons hdrop m)]
      have hno : ¬ (c ≠ 0 ∧ strchr toks c) := by
        rw [strchr_iff toks hne]
        exact fun h => hc.2 (htoks c h.2)
      rw [decide_eq_false hno]
      rfl
  · intro hts
    rcases At.next hz hm hs with ⟨rfl, -⟩ | ⟨c, r, us, -, -, heq, -⟩ | ⟨c, r, us, -, -, -, heq, -⟩
    · rfl
    · rw [hts] at heq
      cases heq
    · rw [hts] at heq
      cases heq

/-- gettoken() where its switch is known. -/
theorem gettoken_of {n q eq : ℕ} {ret : Byte} (hskip : skipSpace line n n = .ok (q, n))
    (hc : deref line q n = .ok (c, n)) (hscan : scan line c q n = .ok ((ret, eq), n))
    (h : At line eq ts) : ∃ m, gettoken line n = .ok ((ret, q, eq), m) ∧ At line m ts := by
  obtain ⟨m, hlast, hm, -⟩ := skipSpace_run hz h n
  refine ⟨m, ?_, hm⟩
  simp only [gettoken]
  rw [run_bind (get_run n), run_bind hskip, run_bind hc, run_bind hscan]
  dsimp only
  rw [run_bind hlast]
  rfl

theorem gettoken_end {n : ℕ} (h : At line n []) :
    ∃ q eq m, gettoken line n = .ok ((0, q, eq), m) ∧ At line m [] := by
  obtain ⟨q, hskip, hq, hs⟩ := skipSpace_run hz h n
  rcases At.next hz hq hs with ⟨rfl, -⟩ | ⟨c, r, us, -, -, heq, -⟩ | ⟨c, r, us, -, -, -, heq, -⟩
  · obtain ⟨m, hrun, hm⟩ := gettoken_of hz hskip (deref_end n) rfl hq
    exact ⟨_, _, m, hrun, hm⟩
  · cases heq
  · cases heq

theorem gettoken_symbol {n : ℕ} (h : At line n (.symbol c :: ts)) :
    ∃ q eq m, gettoken line n = .ok ((c, q, eq), m) ∧ At line m ts ∧ c ∈ symbols := by
  obtain ⟨q, hskip, hq, hs⟩ := skipSpace_run hz h n
  rcases At.next hz hq hs with ⟨-, heq⟩ | ⟨d, r, us, hdrop, hd, heq, hus⟩ |
    ⟨d, r, us, -, -, -, heq, -⟩
  · cases heq
  · injection heq with hcd hts
    injection hcd with hcd
    subst hcd hts
    have hscan : scan line c q n = .ok ((c, q + 1), n) := by
      rw [scan, if_neg (symbol_ne_zero hd)]
      by_cases hless : c = 124 ∨ c = 60
      · rw [if_pos hless]
        rfl
      · rw [if_neg hless, if_pos (symbol_greater hd hless)]
        rfl
    obtain ⟨m, hrun, hm⟩ := gettoken_of hz hskip (deref_cons hdrop n) hscan hus
    exact ⟨_, _, m, hrun, hm, hd⟩
  · cases heq

theorem gettoken_word {n : ℕ} {w : Str} (h : At line n (.word w :: ts)) :
    ∃ q eq m, gettoken line n = .ok ((97, q, eq), m) ∧
      (∀ t, mkcopy line q eq t = .ok (w, t)) ∧ At line m ts := by
  obtain ⟨q, hskip, hq, hs⟩ := skipSpace_run hz h n
  rcases At.next hz hq hs with ⟨-, heq⟩ | ⟨d, r, us, -, -, heq, -⟩ |
    ⟨d, r, us, hdrop, hd, hne, heq, hus⟩
  · cases heq
  · cases heq
  · injection heq with hw hts
    injection hw with hw
    subst hts
    rw [← hw] at hus
    have hword := takeWhile_congr (s := line.drop q)
      (p := fun c => decide (¬ strchr whitespace c ∧ ¬ strchr symbols c))
      (q := fun c => decide (WordChar c)) fun c hc =>
        decide_eq_decide.mpr (wordChar_iff (nonzero_drop hz q c hc))
    have hscan : scan line d q n = .ok ((97, q + w.length), n) := by
      have hno : ¬ (d = 124 ∨ d = 60) ∧ ¬ d = 62 := by
        constructor
        · rintro (rfl | rfl)
          · exact hd.2 (by decide)
          · exact hd.2 (by decide)
        · rintro rfl
          exact hd.2 (by decide)
      rw [scan, if_neg hne, if_neg hno.1, if_neg hno.2, skipWord,
        run_bind (skip_run hq.le (by omega) n), hword.1, ← hw]
      rfl
    obtain ⟨m, hrun, hm⟩ := gettoken_of hz hskip (deref_cons hdrop n) hscan hus
    refine ⟨_, _, m, hrun, fun t => ?_, hm⟩
    have hle := skip_le (fun c => decide (WordChar c)) hq.le
    rw [← hw] at hle
    rw [mkcopy, Nat.add_sub_cancel_left, strncpy_run hle, hw, take_takeWhile]

/-! The productions. Each is proved to take what its only derivation has, or to exit where
there is none. -/

theorem parseredirs_wp {k n : ℕ} (cmd : Cmd) (h : At line n ts) (hk : ts.length < k) :
    wp (parseredirs line k cmd)
      (fun c m => ∃ rs us, Only redirTokens RedirsEnd ts rs us ∧ c = wrap cmd rs ∧ At line m us)
      (fun e => Exits e ∧ Never redirTokens RedirsEnd ts) n := by
  induction k generalizing cmd n ts with
  | zero => exact absurd hk (Nat.not_lt_zero _)
  | succ k ih =>
    obtain ⟨m, hpeek, hm, -⟩ := peek_run hz h [60, 62] (by decide)
    apply wp_bind_run hpeek
    by_cases hstart : starts [60, 62] ts = true
    · rw [if_pos hstart]
      obtain ⟨type, us, rfl⟩ := starts_redir hstart
      obtain ⟨q, eq, m₁, htok, hm₁, -⟩ := gettoken_symbol hz hm
      apply wp_bind_run htok
      cases us with
      | nil =>
        obtain ⟨q', eq', m₂, hnext, -⟩ := gettoken_end hz hm₁
        apply wp_bind_run hnext
        exact wp_throw ⟨⟨_, rfl⟩, never_redir nofun⟩
      | cons u us =>
        cases u with
        | symbol c =>
          obtain ⟨q', eq', m₂, hnext, -, hc⟩ := gettoken_symbol hz hm₁
          apply wp_bind_run hnext
          have hne : c ≠ 97 := by
            rintro rfl
            exact absurd hc (by decide)
          dsimp only
          rw [if_pos hne]
          exact wp_throw ⟨⟨_, rfl⟩, never_redir nofun⟩
        | word w =>
          obtain ⟨q', eq', m₂, hnext, hcopy, hm₂⟩ := gettoken_word hz hm₁
          apply wp_bind_run hnext
          have hlen : us.length < k := by
            simp only [List.length_cons] at hk
            omega
          have hrest : wp (parseredirs line k (.redircmd cmd w type))
              (fun c m => ∃ rs us', Only redirTokens RedirsEnd
                (.symbol (symbolOf type) :: .word w :: us) rs us' ∧ c = wrap cmd rs ∧
                At line m us')
              (fun e => Exits e ∧ Never redirTokens RedirsEnd
                (.symbol (symbolOf type) :: .word w :: us)) m₂ := by
            apply wp_conseq (ih (.redircmd cmd w type) hm₂ hlen)
            · rintro c m ⟨rs, us', honly, rfl, hm⟩
              exact ⟨⟨type, w⟩ :: rs, us', only_redir honly, rfl, hm⟩
            · rintro e ⟨he, hnever⟩
              exact ⟨he, never_redir_rest hnever⟩
          dsimp only
          rw [if_neg (not_not.mpr rfl)]
          cases type with
          | input =>
            rw [if_pos (by rfl)]
            exact wp_bind_run (hcopy m₂) hrest
          | output =>
            rw [if_neg (by decide), if_pos (by rfl)]
            exact wp_bind_run (hcopy m₂) hrest
    · rw [if_neg hstart]
      exact wp_pure ⟨[], ts, only_no_redir hstart, rfl, hm⟩

theorem parseargs_wp {k n : ℕ} (argv : List Str) (rs : List Redir) (h : At line n ts)
    (hk : ts.length < k) (hargc : argv.length < MAXARGS) :
    wp (parseargs line k argv.length (wrap (.execcmd argv) rs))
      (fun c m => ∃ args us, Only argsTokens (ArgsEnd argv.length) ts args us ∧
        c = wrap (.execcmd (argv ++ args.map Arg.word)) (rs ++ args.flatMap Arg.redirs) ∧
        At line m us)
      (fun e => Exits e ∧ Never argsTokens (ArgsEnd argv.length) ts) n := by
  induction k generalizing argv rs n ts with
  | zero => exact absurd hk (Nat.not_lt_zero _)
  | succ k ih =>
    obtain ⟨m, hpeek, hm, -⟩ := peek_run hz h [124] (by decide)
    apply wp_bind_run hpeek
    -- the arguments end here
    have hdone : ∀ {m}, At line m ts → PipeFollows ts →
        ∃ args us, Only argsTokens (ArgsEnd argv.length) ts args us ∧
          wrap (.execcmd argv) rs = wrap (.execcmd (argv ++ args.map Arg.word))
            (rs ++ args.flatMap Arg.redirs) ∧ At line m us := by
      intro m hm hts
      refine ⟨[], ts, only_no_args hargc hts, ?_, hm⟩
      rw [List.map_nil, List.append_nil, List.flatMap_nil, List.append_nil]
    cases ts with
    | nil =>
      obtain ⟨q, eq, m₁, htok, hm₁⟩ := gettoken_end hz hm
      rw [if_neg (by decide)]
      apply wp_bind_run htok
      exact wp_pure (hdone hm₁ (Or.inl rfl))
    | cons t us =>
      cases t with
      | symbol c =>
        by_cases hbar : c = 124
        · subst hbar
          rw [if_pos (by rfl)]
          exact wp_pure (hdone hm (Or.inr rfl))
        · have hno : ¬ starts [124] (.symbol c :: us) = true := fun h =>
            hbar (List.mem_singleton.mp (of_decide_eq_true h))
          rw [if_neg hno]
          obtain ⟨q, eq, m₁, htok, hm₁, hc⟩ := gettoken_symbol hz hm
          apply wp_bind_run htok
          have hne : c ≠ 97 := by
            rintro rfl
            exact absurd hc (by decide)
          dsimp only
          rw [if_neg (symbol_ne_zero hc), if_pos hne]
          exact wp_throw ⟨⟨_, rfl⟩, never_args_symbol hno⟩
      | word w =>
        rw [if_neg (by nofun)]
        obtain ⟨q, eq, m₁, htok, hcopy, hm₁⟩ := gettoken_word hz hm
        apply wp_bind_run htok
        dsimp only
        rw [if_neg (by decide), if_neg (by decide)]
        apply wp_bind_run (hcopy m₁)
        by_cases hmany : MAXARGS ≤ argv.length + 1
        · rw [if_pos hmany]
          exact wp_throw ⟨⟨_, rfl⟩, never_args_many hmany⟩
        · rw [if_neg hmany]
          apply wp_bind
          have hlen := tokens_length hm₁.tokens
          rw [List.length_drop] at hlen
          apply wp_conseq (parseredirs_wp hz (addArg (wrap (.execcmd argv) rs) w) hm₁ (by omega))
          · rintro c m₂ ⟨rs', us₁, honly, rfl, hm₂⟩
            have hshort := congrArg List.length honly.1.1
            rw [List.length_append] at hshort
            rw [List.length_cons] at hk
            have hnext := ih (argv ++ [w]) (rs ++ rs') hm₂ (by omega) (by
              rw [List.length_append, List.length_singleton]
              omega)
            have hargs : (argv ++ [w]).length = argv.length + 1 := by
              rw [List.length_append, List.length_singleton]
            rw [addArg_wrap, ← wrap_append, addArg, ← hargs]
            apply wp_conseq hnext
            · rintro c m₃ ⟨args, us₂, hrest, rfl, hm₃⟩
              rw [hargs] at hrest
              refine ⟨⟨w, rs'⟩ :: args, us₂, only_arg honly hrest, ?_, hm₃⟩
              rw [List.map_cons, List.flatMap_cons, List.append_assoc, List.append_assoc]
              rfl
            · rintro e ⟨he, hnever⟩
              rw [hargs] at hnever
              exact ⟨he, never_arg_rest honly hnever⟩
          · rintro e ⟨he, hnever⟩
            exact ⟨he, never_arg_redirs hnever⟩

theorem parseexec_wp {n : ℕ} (h : At line n ts) : wp (parseexec line)
    (fun c m => ∃ e us, Only Exec.tokens ExecEnd ts e us ∧ c = e.cmd ∧ At line m us)
    (fun e => Exits e ∧ Never Exec.tokens ExecEnd ts) n := by
  have hlen := tokens_length h.tokens
  rw [List.length_drop] at hlen
  apply wp_bind
  apply wp_conseq (parseredirs_wp hz (.execcmd []) h (by omega))
  · rintro c m ⟨rs, us, hredirs, rfl, hm⟩
    have hlen' := tokens_length hm.tokens
    rw [List.length_drop] at hlen'
    apply wp_conseq (parseargs_wp hz [] rs hm (k := line.length + 1) (by omega) (by decide))
    · rintro c m' ⟨args, us', hargs, rfl, hm'⟩
      exact ⟨⟨rs, args⟩, us', only_exec hredirs hargs, rfl, hm'⟩
    · rintro e ⟨he, hnever⟩
      exact ⟨he, never_exec_args hredirs hnever⟩
  · rintro e ⟨he, hnever⟩
    exact ⟨he, never_exec_redirs hnever⟩

theorem parsepipe_wp {k n : ℕ} (h : At line n ts) (hk : ts.length < k) : wp (parsepipe line k)
    (fun c m => ∃ p us, Only Pipe.tokens PipeEnd ts p us ∧ c = p.cmd ∧ At line m us)
    (fun e => Exits e ∧ Never Pipe.tokens PipeEnd ts) n := by
  induction k generalizing n ts with
  | zero => exact absurd hk (Nat.not_lt_zero _)
  | succ k ih =>
    apply wp_bind
    apply wp_conseq (parseexec_wp hz h)
    · rintro c m ⟨e, us, hexec, rfl, hm⟩
      obtain ⟨m₁, hpeek, hm₁, -⟩ := peek_run hz hm [124] (by decide)
      apply wp_bind_run hpeek
      rcases hexec.1.2.1 with rfl | hbar
      · rw [if_neg (by decide)]
        exact wp_pure ⟨.exec e, [], only_last hexec, rfl, hm₁⟩
      · rw [if_pos hbar]
        obtain ⟨us, rfl⟩ := starts_bar hbar
        obtain ⟨q, eq, m₂, htok, hm₂, -⟩ := gettoken_symbol hz hm₁
        apply wp_bind_run htok
        apply wp_bind
        have hshort := congrArg List.length hexec.1.1
        rw [List.length_append, List.length_cons] at hshort
        apply wp_conseq (ih hm₂ (by omega))
        · rintro c m₃ ⟨p, us', hpipe, rfl, hm₃⟩
          exact wp_pure ⟨.pipe e p, us', only_pipe hexec hpipe, rfl, hm₃⟩
        · rintro e' ⟨he, hnever⟩
          exact ⟨he, never_pipe_rest hexec hnever⟩
    · rintro e ⟨he, hnever⟩
      exact ⟨he, never_pipe_exec hnever⟩

end Line

/-! Whole lines. -/

theorem tokens_total (s : Str) : ∃ ts, Tokens s ts := by
  induction hn : s.length using Nat.strong_induction_on generalizing s with
  | _ n ih =>
    cases s with
    | nil => exact ⟨[], .nil⟩
    | cons c s =>
      rw [List.length_cons] at hn
      by_cases hspace : c ∈ whitespace
      · obtain ⟨ts, hts⟩ := ih s.length (by omega) s rfl
        exact ⟨ts, .space hspace hts⟩
      · by_cases hsym : c ∈ symbols
        · obtain ⟨ts, hts⟩ := ih s.length (by omega) s rfl
          exact ⟨_, .symbol hsym hts⟩
        · have hword : WordChar c := ⟨hspace, hsym⟩
          have hdrop : (c :: s).dropWhile (fun c => WordChar c) =
              s.dropWhile fun c => WordChar c := by
            simp only [List.dropWhile_cons, decide_eq_true hword, if_true]
          have hle := (List.dropWhile_sublist (l := s) fun c => decide (WordChar c)).length_le
          obtain ⟨ts, hts⟩ := ih _ (by omega) (s.dropWhile fun c => WordChar c) rfl
          exact ⟨_, (tokens_word hword).mpr ⟨ts, rfl, hdrop ▸ hts⟩⟩

theorem tokens_unique (h : Tokens s ts) (h' : Tokens s us) : us = ts := by
  induction h generalizing us with
  | nil => exact tokens_nil.mp h'
  | space hc h ih => exact ih ((tokens_space hc).mp h')
  | symbol hc h ih =>
    obtain ⟨us', rfl, hus⟩ := (tokens_symbol hc).mp h'
    rw [ih hus]
  | @word w s ts hne hw hs h ih =>
    obtain ⟨htake, hdrop⟩ := word_run hw hs
    cases w with
    | nil => exact absurd rfl hne
    | cons c w =>
      obtain ⟨us', rfl, hus⟩ := (tokens_word (hw c List.mem_cons_self)).mp h'
      change Token.word (((c :: w) ++ s).takeWhile fun c => WordChar c) :: us' = _
      change Tokens (((c :: w) ++ s).dropWhile fun c => WordChar c) us' at hus
      rw [hdrop] at hus
      rw [htake, ih hus]

/-- The parser returns the tree of the line's only derivation, or exits where it has none. -/
theorem parsecmd_correct (line : Str) (hz : ∀ c ∈ line, c ≠ 0) :
    ∃ ts, Tokens line ts ∧ (∀ us, Tokens line us → us = ts) ∧
      ((∃ p : Pipe, p.tokens = ts ∧ p.Fits ∧ parsecmd line = .ok p.cmd ∧
          ∀ p' : Pipe, p'.tokens = ts → p'.Fits → p' = p) ∨
        (∃ msg, parsecmd line = .error (.exit msg)) ∧ ∀ p : Pipe, p.tokens = ts → ¬ p.Fits) := by
  obtain ⟨ts, hts⟩ := tokens_total line
  refine ⟨ts, hts, fun us hus => tokens_unique hts hus, ?_⟩
  have hstart : At line 0 ts := ⟨Nat.zero_le _, hts⟩
  have hlen := tokens_length hts
  have hwp := parsepipe_wp hz hstart (k := line.length + 1) (by omega)
  cases hrun : parsepipe line (line.length + 1) 0 with
  | ok x =>
    obtain ⟨cmd, n⟩ := x
    obtain ⟨p, us, ⟨⟨htokens, rfl, hfits⟩, honly⟩, rfl, hn⟩ := wp_ok hwp hrun
    rw [List.append_nil] at htokens
    obtain ⟨m, hpeek, -, hend⟩ := peek_run hz hn [] (by decide)
    obtain rfl := hend rfl
    refine Or.inl ⟨p, htokens.symm, hfits, ?_, fun p' hp' hfits' => ?_⟩
    · have hall : (do
          let cmd ← parseline line
          let _ ← peek line []
          let s ← get
          if s ≠ line.length then throw (.leftovers (line.drop s)) else pure cmd : Parse Cmd) 0 =
            .ok (p.cmd, line.length) := by
        rw [run_bind (show parseline line 0 = _ from hrun), run_bind hpeek, run_bind (get_run _),
          if_neg (not_not.mpr rfl)]
        rfl
      rw [parsecmd, hall]
      rfl
    · exact (honly p' [] (by rw [List.append_nil, hp']) ⟨rfl, hfits'⟩).1
  | error e =>
    obtain ⟨⟨msg, rfl⟩, hnever⟩ := wp_error hwp hrun
    refine Or.inr ⟨⟨msg, ?_⟩, fun p hp hfits => ?_⟩
    · rw [parsecmd, bind_run, show parseline line 0 = _ from hrun]
      rfl
    · exact hnever p [] (by rw [List.append_nil, hp]) ⟨rfl, hfits⟩

/-- `ls > y` -/
theorem parsecmd_correct_redir : ∃ ts, Tokens [108, 115, 32, 62, 32, 121] ts ∧
    ((∃ p : Pipe, p.tokens = ts ∧ parsecmd [108, 115, 32, 62, 32, 121] = .ok p.cmd) ∨
      ∃ msg, parsecmd [108, 115, 32, 62, 32, 121] = .error (.exit msg)) := by
  obtain ⟨ts, hts, -, ⟨p, hp, -, hrun, -⟩ | ⟨hexit, -⟩⟩ :=
    parsecmd_correct [108, 115, 32, 62, 32, 121] (by decide)
  · exact ⟨ts, hts, Or.inl ⟨p, hp, hrun⟩⟩
  · exact ⟨ts, hts, Or.inr hexit⟩

end ShellParsing
