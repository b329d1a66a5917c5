import OsEngineering.ShGrammar

/-! Derivations found by recursive descent over the tokens: what is found is a derivation, every
derivation is found, and so each line has at most one. -/
namespace ShDerivations

open ByteBlock ShParser ShGrammar
open ShellCommands (Str MAXARGS)

/-- Whether the next token is one of the symbols in `toks`. -/
def starts (toks : List Byte) : List Token → Bool
  | .symbol c :: _ => c ∈ toks
  | _ => false

def opOf (c : Byte) : Option Op :=
  if c = 60 then some .read else if c = 62 then some .write
  else if c = 43 then some .append else none

def findRedirs : List Token → Option (List Redir × List Token)
  | [] => some ([], [])
  | .word w :: ts => some ([], .word w :: ts)
  | [.symbol c] => if opOf c = none then some ([], [.symbol c]) else none
  | .symbol c :: .symbol d :: ts =>
    if opOf c = none then some ([], .symbol c :: .symbol d :: ts) else none
  | .symbol c :: .word w :: ts =>
    (opOf c).elim (some ([], .symbol c :: .word w :: ts)) fun op =>
      (findRedirs ts).map fun (rs, us) => (⟨op, w⟩ :: rs, us)

/-- The end, or what ends the words of a command. -/
def EndsExec (ts : List Token) : Prop := ts = [] ∨ starts [124, 41, 38, 59] ts = true

def findArgs : ℕ → ℕ → List Token → Option (List Arg × List Token)
  | 0, _, _ => none
  | _ + 1, _, [] => some ([], [])
  | _ + 1, _, .symbol c :: ts =>
    if starts [124, 41, 38, 59] (.symbol c :: ts) then some ([], .symbol c :: ts) else none
  | k + 1, argc, .word w :: ts =>
    if MAXARGS ≤ argc + 1 then none
    else (findRedirs ts).bind fun (rs, us) =>
      (findArgs k (argc + 1) us).map fun (args, us) => (⟨w, rs⟩ :: args, us)

def findExec (findLine : List Token → Option (Line × List Token)) (ts : List Token) :
    Option (Exec × List Token) :=
  if starts [40] ts then
    (findLine ts.tail).bind fun (l, us) =>
      if starts [41] us then (findRedirs us.tail).map fun (rs, us) => (.block l rs, us) else none
  else
    (findRedirs ts).bind fun (rs, us) =>
      (findArgs (us.length + 1) 0 us).map fun (args, us) => (.words rs args, us)

def findPipe (findLine : List Token → Option (Line × List Token)) :
    ℕ → List Token → Option (Pipe × List Token)
  | 0, _ => none
  | k + 1, ts =>
    (findExec findLine ts).bind fun (e, us) =>
      if starts [124] us then
        (findPipe findLine k us.tail).map fun (p, us) => (.pipe e p, us)
      else some (.last e, us)

def findBacks : List Token → ℕ × List Token
  | [] => (0, [])
  | t :: ts =>
    if starts [38] (t :: ts) then ((findBacks ts).1 + 1, (findBacks ts).2) else (0, t :: ts)

def findLine : ℕ → List Token → Option (Line × List Token)
  | 0, _ => none
  | k + 1, ts =>
    (findPipe (findLine k) (ts.length + 1) ts).bind fun (p, us) =>
      if starts [59] (findBacks us).2 then
        (findLine k (findBacks us).2.tail).map fun (l, vs) => (.list p (findBacks us).1 l, vs)
      else some (.last p (findBacks us).1, (findBacks us).2)

variable {ts us : List Token} {rs : List Redir} {args : List Arg} {k argc : ℕ} {c : Byte}

theorem starts_single (h : starts [c] ts = true) : ts = .symbol c :: ts.tail := by
  match ts, h with
  | .symbol d :: us, h =>
    obtain rfl := List.mem_singleton.mp (of_decide_eq_true h)
    rfl

theorem opOf_symbol (op : Op) : opOf op.symbol = some op := by
  cases op <;> rfl

theorem opOf_some {op : Op} (h : opOf c = some op) : c = op.symbol := by
  rw [opOf] at h
  split_ifs at h with h₁ h₂ h₃
  · rw [← Option.some.inj h]
    exact h₁
  · rw [← Option.some.inj h]
    exact h₂
  · rw [← Option.some.inj h]
    exact h₃

/-! What is found is a derivation. -/

theorem findRedirs_sound (h : findRedirs ts = some (rs, us)) : ts = redirTokens rs ++ us := by
  induction ts using findRedirs.induct generalizing rs us with
  | case1 =>
    cases h
    rfl
  | case2 w ts =>
    cases h
    rfl
  | case3 c hop =>
    rw [findRedirs, if_pos hop] at h
    cases h
    rfl
  | case4 c hop =>
    rw [findRedirs, if_neg hop] at h
    cases h
  | case5 c d ts hop =>
    rw [findRedirs, if_pos hop] at h
    cases h
    rfl
  | case6 c d ts hop =>
    rw [findRedirs, if_neg hop] at h
    cases h
  | case7 c w ts ih =>
    rw [findRedirs] at h
    cases hop : opOf c with
    | none =>
      rw [hop] at h
      cases h
      rfl
    | some op =>
      rw [hop] at h
      obtain ⟨⟨rs', us'⟩, hrest, heq⟩ := Option.map_eq_some_iff.mp h
      cases heq
      rw [ih hrest, opOf_some hop]
      rfl

theorem findArgs_sound (h : findArgs k argc ts = some (args, us)) :
    ts = argTokens args ++ us ∧ argc + args.length ≤ max argc (MAXARGS - 1) := by
  induction k generalizing argc ts args with
  | zero => cases h
  | succ k ih =>
    cases ts with
    | nil =>
      cases h
      exact ⟨rfl, le_max_left _ _⟩
    | cons t ts =>
      cases t with
      | symbol c =>
        rw [findArgs] at h
        split_ifs at h with hend
        cases h
        exact ⟨rfl, le_max_left _ _⟩
      | word w =>
        rw [findArgs] at h
        split_ifs at h with hmany
        obtain ⟨⟨rs, us₁⟩, hredirs, hrest⟩ := Option.bind_eq_some_iff.mp h
        obtain ⟨⟨args', us'⟩, hargs, heq⟩ := Option.map_eq_some_iff.mp hrest
        cases heq
        obtain ⟨htokens, hlen⟩ := ih hargs
        refine ⟨?_, ?_⟩
        · rw [findRedirs_sound hredirs, htokens, argTokens, argTokens, List.flatMap_cons,
            List.append_assoc]
          rfl
        · rw [List.length_cons]
          omega

variable {find : List Token → Option (Line × List Token)}

/-- What `find` finds are derivations. -/
def Sound (find : List Token → Option (Line × List Token)) : Prop :=
  ∀ ts l us, find ts = some (l, us) → ts = l.tokens ++ us ∧ l.Fits

theorem findExec_sound (hfind : Sound find) {e : Exec} (h : findExec find ts = some (e, us)) :
    ts = e.tokens ++ us ∧ e.Fits := by
  rw [findExec] at h
  split_ifs at h with hopen
  · obtain ⟨⟨l, us₁⟩, hline, hrest⟩ := Option.bind_eq_some_iff.mp h
    obtain ⟨htokens, hfits⟩ := hfind _ l us₁ hline
    simp only at hrest
    split_ifs at hrest with hclose
    obtain ⟨⟨rs, us₂⟩, hredirs, heq⟩ := Option.map_eq_some_iff.mp hrest
    cases heq
    have hlast := findRedirs_sound hredirs
    refine ⟨?_, hfits⟩
    rw [starts_single hopen, htokens, starts_single hclose, hlast]
    simp only [Exec.tokens, List.cons_append, List.append_assoc]
  · obtain ⟨⟨rs, us₁⟩, hredirs, hrest⟩ := Option.bind_eq_some_iff.mp h
    obtain ⟨⟨args, us₂⟩, hargs, heq⟩ := Option.map_eq_some_iff.mp hrest
    cases heq
    obtain ⟨htokens, hlen⟩ := findArgs_sound hargs
    have hmax : MAXARGS = 10 := rfl
    refine ⟨?_, ?_⟩
    · rw [findRedirs_sound hredirs, htokens, Exec.tokens, List.append_assoc]
    · rw [Exec.Fits]
      omega

theorem findPipe_sound (hfind : Sound find) {p : Pipe} (h : findPipe find k ts = some (p, us)) :
    ts = p.tokens ++ us ∧ p.Fits := by
  induction k generalizing ts p with
  | zero => cases h
  | succ k ih =>
    rw [findPipe] at h
    obtain ⟨⟨e, us₁⟩, hexec, hrest⟩ := Option.bind_eq_some_iff.mp h
    obtain ⟨htokens, hfits⟩ := findExec_sound hfind hexec
    simp only at hrest
    split_ifs at hrest with hbar
    · obtain ⟨⟨p', us₂⟩, hpipe, heq⟩ := Option.map_eq_some_iff.mp hrest
      cases heq
      obtain ⟨hlast, hfits'⟩ := ih hpipe
      refine ⟨?_, hfits, hfits'⟩
      rw [htokens, starts_single hbar, hlast]
      simp only [Pipe.tokens, List.cons_append, List.append_assoc]
    · cases hrest
      exact ⟨htokens, hfits⟩

theorem findBacks_sound (ts : List Token) :
    ts = backTokens (findBacks ts).1 ++ (findBacks ts).2 := by
  induction ts with
  | nil => rfl
  | cons t ts ih =>
    rw [findBacks]
    split_ifs with hback
    · have ht := starts_single hback
      rw [List.tail_cons] at ht
      simp only [backTokens, List.replicate_succ, List.cons_append]
      rw [← backTokens, ← ih]
      exact ht
    · rfl

theorem findLine_sound (k : ℕ) : Sound (findLine k) := by
  induction k with
  | zero =>
    intro ts l us h
    cases h
  | succ k ih =>
    intro ts l us h
    rw [findLine] at h
    obtain ⟨⟨p, us₁⟩, hpipe, hrest⟩ := Option.bind_eq_some_iff.mp h
    obtain ⟨htokens, hfits⟩ := findPipe_sound ih hpipe
    have hbacks := findBacks_sound us₁
    simp only at hrest
    split_ifs at hrest with hsemi
    · obtain ⟨⟨l', us₂⟩, hline, heq⟩ := Option.map_eq_some_iff.mp hrest
      cases heq
      obtain ⟨hlast, hfits'⟩ := ih _ l' _ hline
      refine ⟨?_, hfits, hfits'⟩
      rw [htokens, Line.tokens, List.append_assoc, List.append_assoc, List.cons_append, ← hlast,
        ← starts_single hsemi, ← hbacks]
    · cases hrest
      refine ⟨?_, hfits⟩
      rw [htokens, Line.tokens, List.append_assoc, ← hbacks]

/-! Every derivation is found. -/

theorem starts_mem {toks : List Byte} (h : starts toks ts = true) :
    ∃ c, c ∈ toks ∧ ts = .symbol c :: ts.tail := by
  match ts, h with
  | .symbol d :: us, h => exact ⟨d, of_decide_eq_true h, rfl⟩

/-- The next token, if it is one of some symbols, is none of some others. -/
theorem starts_other {toks others : List Byte} (hdiff : ∀ c ∈ toks, c ∉ others)
    (h : ts = [] ∨ starts toks ts = true) : starts others ts = false := by
  rcases h with rfl | h
  · rfl
  · obtain ⟨c, hc, hts⟩ := starts_mem h
    rw [hts]
    exact decide_eq_false (hdiff c hc)

theorem opOf_none (h : c ∉ ([60, 62, 43] : List Byte)) : opOf c = none := by
  simp only [List.mem_cons, List.not_mem_nil, or_false, not_or] at h
  rw [opOf, if_neg h.1, if_neg h.2.1, if_neg h.2.2]

theorem findRedirs_none (h : starts [60, 62, 43] us = false) : findRedirs us = some ([], us) := by
  match us, h with
  | [], _ => rfl
  | .word w :: us, _ => rfl
  | [.symbol c], h => rw [findRedirs, if_pos (opOf_none (of_decide_eq_false h))]
  | .symbol c :: .symbol d :: us, h =>
    rw [findRedirs, if_pos (opOf_none (of_decide_eq_false h))]
  | .symbol c :: .word w :: us, h =>
    rw [findRedirs, opOf_none (of_decide_eq_false h)]
    rfl

theorem findRedirs_complete (rs : List Redir) (h : starts [60, 62, 43] us = false) :
    findRedirs (redirTokens rs ++ us) = some (rs, us) := by
  induction rs with
  | nil => exact findRedirs_none h
  | cons r rs ih =>
    have hsplit : redirTokens (r :: rs) ++ us =
        .symbol r.op.symbol :: .word r.file :: (redirTokens rs ++ us) := rfl
    rw [hsplit, findRedirs, opOf_symbol, ih]
    rfl

theorem args_no_redir (args : List Arg) (h : EndsExec us) :
    starts [60, 62, 43] (argTokens args ++ us) = false := by
  cases args with
  | nil => exact starts_other (by decide) h
  | cons a args => rfl

theorem findArgs_complete (args : List Arg) (hus : EndsExec us)
    (hlen : argc + args.length < MAXARGS) (hk : (argTokens args ++ us).length < k) :
    findArgs k argc (argTokens args ++ us) = some (args, us) := by
  induction args generalizing argc k with
  | nil =>
    obtain ⟨k, rfl⟩ : ∃ j, k = j + 1 := ⟨k - 1, by omega⟩
    rcases hus with rfl | hus
    · rfl
    · obtain ⟨c, -, hts⟩ := starts_mem hus
      change findArgs (k + 1) argc us = some ([], us)
      rw [hts] at hus ⊢
      rw [findArgs, if_pos hus]
  | cons a args ih =>
    obtain ⟨k, rfl⟩ : ∃ j, k = j + 1 := ⟨k - 1, by omega⟩
    have hsplit : argTokens (a :: args) ++ us =
        .word a.word :: (redirTokens a.redirs ++ (argTokens args ++ us)) := by
      rw [← List.append_assoc]
      rfl
    rw [List.length_cons] at hlen
    rw [hsplit, List.length_cons, List.length_append] at hk
    rw [hsplit, findArgs, if_neg (by omega), findRedirs_complete _ (args_no_redir args hus)]
    change ((findArgs k (argc + 1) (argTokens args ++ us)).map _) = _
    rw [ih (by omega) (by omega)]
    rfl

def EndsPipe (ts : List Token) : Prop := ts = [] ∨ starts [41, 38, 59] ts = true

def EndsLine (ts : List Token) : Prop := ts = [] ∨ starts [41] ts = true

theorem EndsPipe.exec (h : EndsPipe ts) : EndsExec ts := by
  rcases h with h | h
  · exact Or.inl h
  · obtain ⟨c, hc, hts⟩ := starts_mem h
    rw [hts]
    exact Or.inr (decide_eq_true (List.mem_cons_of_mem 124 hc))

/-- `find` finds the derivations that are shorter than `k`. -/
def Complete (k : ℕ) (find : List Token → Option (Line × List Token)) : Prop :=
  ∀ (l : Line) us, l.Fits → EndsLine us → (l.tokens ++ us).length < k →
    find (l.tokens ++ us) = some (l, us)

theorem findExec_complete (hfind : Complete k find) (e : Exec) (hfits : e.Fits)
    (hus : EndsExec us) (hk : (e.tokens ++ us).length ≤ k) :
    findExec find (e.tokens ++ us) = some (e, us) := by
  have hredir : starts [60, 62, 43] us = false := starts_other (by decide) hus
  cases e with
  | block l rs =>
    have hsplit : (Exec.block l rs).tokens ++ us =
        .symbol 40 :: (l.tokens ++ .symbol 41 :: (redirTokens rs ++ us)) := by
      simp only [Exec.tokens, List.cons_append, List.append_assoc]
    rw [hsplit, List.length_cons] at hk
    rw [hsplit, findExec, if_pos (by rfl), List.tail_cons,
      hfind l _ hfits (Or.inr rfl) (by omega), Option.bind_some]
    change (if starts [41] (.symbol 41 :: (redirTokens rs ++ us)) = true then
      (findRedirs (redirTokens rs ++ us)).map _ else none) = _
    rw [if_pos (by rfl), findRedirs_complete rs hredir]
    rfl
  | words rs args =>
    have hopen : starts [40] (redirTokens rs ++ (argTokens args ++ us)) = false := by
      cases rs with
      | nil =>
        cases args with
        | nil => exact starts_other (by decide) hus
        | cons a args => rfl
      | cons r rs =>
        obtain ⟨op, w⟩ := r
        cases op <;> rfl
    rw [Exec.tokens, List.append_assoc, findExec, if_neg (by rw [hopen]; decide),
      findRedirs_complete rs (args_no_redir args hus), Option.bind_some]
    change (findArgs _ 0 (argTokens args ++ us)).map _ = _
    rw [findArgs_complete args hus (by rw [Nat.zero_add]; exact hfits) (Nat.lt_succ_self _)]
    rfl

theorem findPipe_complete {j : ℕ} (hfind : Complete k find) (p : Pipe) (hfits : p.Fits)
    (hus : EndsPipe us) (hj : (p.tokens ++ us).length < j) (hk : (p.tokens ++ us).length ≤ k) :
    findPipe find j (p.tokens ++ us) = some (p, us) := by
  induction j generalizing p with
  | zero => exact absurd hj (Nat.not_lt_zero _)
  | succ j ih =>
    cases p with
    | last e =>
      have hbar : ¬ starts [124] us = true := by
        rw [starts_other (by decide) hus]
        decide
      rw [findPipe, Pipe.tokens, findExec_complete hfind e hfits hus.exec hk, Option.bind_some]
      change (if starts [124] us = true then _ else some (Pipe.last e, us)) = _
      rw [if_neg hbar]
    | pipe e rest =>
      have hsplit : (Pipe.pipe e rest).tokens ++ us =
          e.tokens ++ .symbol 124 :: (rest.tokens ++ us) := by
        simp only [Pipe.tokens, List.cons_append, List.append_assoc]
      rw [hsplit] at hj hk ⊢
      rw [findPipe, findExec_complete hfind e hfits.1 (Or.inr rfl) hk, Option.bind_some]
      change (if starts [124] (.symbol 124 :: (rest.tokens ++ us)) = true then
        (findPipe find j (rest.tokens ++ us)).map _ else _) = _
      rw [List.length_append, List.length_cons] at hj hk
      rw [if_pos (by rfl), ih rest hfits.2 (by omega) (by omega)]
      rfl

theorem findBacks_complete (n : ℕ) (h : starts [38] us = false) :
    findBacks (backTokens n ++ us) = (n, us) := by
  induction n with
  | zero =>
    change findBacks us = (0, us)
    cases us with
    | nil => rfl
    | cons t us => rw [findBacks, if_neg (by rw [h]; decide)]
  | succ n ih =>
    have hsplit : backTokens (n + 1) ++ us = .symbol 38 :: (backTokens n ++ us) := rfl
    rw [hsplit, findBacks, if_pos (by rfl), ih]

theorem backs_ends (n : ℕ) (h : EndsPipe us) : EndsPipe (backTokens n ++ us) := by
  cases n with
  | zero => exact h
  | succ n => exact Or.inr rfl

theorem findLine_complete (k : ℕ) : Complete k (findLine k) := by
  induction k with
  | zero => exact fun l us _ _ hk => absurd hk (Nat.not_lt_zero _)
  | succ k ih =>
    intro l us hfits hus hk
    cases l with
    | last p n =>
      have hend : EndsPipe us := by
        rcases hus with h | h
        · exact Or.inl h
        · rw [starts_single h]
          exact Or.inr rfl
      have hsplit : (Line.last p n).tokens ++ us = p.tokens ++ (backTokens n ++ us) := by
        rw [Line.tokens, List.append_assoc]
      have hsemi : ¬ starts [59] us = true := by
        rw [starts_other (by decide) hus]
        decide
      rw [hsplit] at hk ⊢
      rw [findLine, findPipe_complete ih p hfits (backs_ends n hend) (Nat.lt_succ_self _)
        (by omega), Option.bind_some]
      simp only [findBacks_complete n (starts_other (by decide) hus)]
      rw [if_neg hsemi]
    | list p n rest =>
      have hsplit : (Line.list p n rest).tokens ++ us =
          p.tokens ++ (backTokens n ++ .symbol 59 :: (rest.tokens ++ us)) := by
        simp only [Line.tokens, List.append_assoc, List.cons_append]
      rw [hsplit] at hk ⊢
      have hsemi : starts [38] (.symbol 59 :: (rest.tokens ++ us)) = false := rfl
      rw [findLine, findPipe_complete ih p hfits.1 (backs_ends n (Or.inr rfl))
        (Nat.lt_succ_self _) (by omega), Option.bind_some]
      simp only [findBacks_complete n hsemi, List.tail_cons]
      simp only [List.length_append, List.length_cons] at hk
      rw [if_pos (by rfl), ih rest us hfits.2 hus (by rw [List.length_append]; omega)]
      rfl

/-- The tokens of a line determine its derivation. -/
theorem derivation_unique {l l' : Line} (h : l.tokens = l'.tokens) (hfits : l.Fits)
    (hfits' : l'.Fits) : l = l' := by
  have hl := findLine_complete _ l [] hfits (Or.inl rfl) (Nat.lt_succ_self _)
  have hl' := findLine_complete _ l' [] hfits' (Or.inl rfl) (Nat.lt_succ_self _)
  rw [h] at hl
  exact congrArg Prod.fst (Option.some.inj (hl.symm.trans hl'))

end ShDerivations
