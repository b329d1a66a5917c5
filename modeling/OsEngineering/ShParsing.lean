import OsEngineering.ShTokens
import Mathlib.Data.List.Forall2

/-! The functions of sh.c find the derivations that the recursive descent over tokens finds, and
panic where it finds none. -/
namespace ShParsing

open ByteBlock FaultState ShParser ShGrammar ShDerivations ShTokens
open ShellCommands (Str MAXARGS)
open ShellParser (Stop Parse)

variable {line : Str} {ts us : List Token} {cmd : Cmd Slice} {tree : Cmd Str} {k j n m : ℕ}

/-- A tree of slices of the line and the tree of their words. -/
inductive Spells (line : Str) : Cmd Slice → Cmd Str → Prop where
  | execcmd {argv : List Slice} {ws : List Str} (h : List.Forall₂ (SliceOf line) argv ws) :
    Spells line (.execcmd argv) (.execcmd ws)
  | redircmd {cmd : Cmd Slice} {tree : Cmd Str} {file : Slice} {w : Str} {mode fd : ℕ}
    (h : Spells line cmd tree) (hf : SliceOf line file w) :
    Spells line (.redircmd cmd file mode fd) (.redircmd tree w mode fd)
  | pipecmd {left right : Cmd Slice} {left' right' : Cmd Str} (hl : Spells line left left')
    (hr : Spells line right right') : Spells line (.pipecmd left right) (.pipecmd left' right')
  | listcmd {left right : Cmd Slice} {left' right' : Cmd Str} (hl : Spells line left left')
    (hr : Spells line right right') : Spells line (.listcmd left right) (.listcmd left' right')
  | backcmd {cmd : Cmd Slice} {tree : Cmd Str} (h : Spells line cmd tree) :
    Spells line (.backcmd cmd) (.backcmd tree)

/-- A run of the parser next to a search for derivations. -/
inductive Finds {D : Type} (line : Str) (tree : D → Cmd Str) :
    Except Stop (Cmd Slice × ℕ) → Option (D × List Token) → Prop where
  | found {cmd : Cmd Slice} {m : ℕ} {d : D} {us : List Token} (hspells : Spells line cmd (tree d))
    (hat : At line m us) : Finds line tree (.ok (cmd, m)) (some (d, us))
  | panics (msg : String) : Finds line tree (.error (.exit msg)) none

theorem Finds.map {D D' : Type} {tree : D → Cmd Str} {tree' : D' → Cmd Str}
    {run : Except Stop (Cmd Slice × ℕ)} {found : Option (D × List Token)} (h : Finds line tree run found)
    (f : D → D') (hf : ∀ d, tree' (f d) = tree d) :
    Finds line tree' run (found.map fun (d, us) => (f d, us)) := by
  cases h with
  | found hspells hat => exact .found ((hf _).symm ▸ hspells) hat
  | panics msg => exact .panics msg

theorem Finds.bind {D D' : Type} {tree : D → Cmd Str} {tree' : D' → Cmd Str}
    {run : Parse (Cmd Slice)} {f : Cmd Slice → Parse (Cmd Slice)} {found : Option (D × List Token)}
    {g : D × List Token → Option (D' × List Token)} (h : Finds line tree (run n) found)
    (hrest : ∀ cmd m d us, found = some (d, us) → Spells line cmd (tree d) → At line m us →
      Finds line tree' (f cmd m) (g (d, us))) :
    Finds line tree' ((run >>= f) n) (found.bind g) := by
  rw [bind_run]
  generalize run n = r at h
  cases h with
  | found hspells hat => exact hrest _ _ _ _ rfl hspells hat
  | panics msg => exact .panics msg

theorem Finds.node {D D' : Type} {tree : D → Cmd Str} {tree' : D' → Cmd Str}
    {run : Parse (Cmd Slice)} {found : Option (D × List Token)} (h : Finds line tree (run n) found)
    {f : Cmd Slice → Cmd Slice} (g : D → D')
    (hf : ∀ cmd d, Spells line cmd (tree d) → Spells line (f cmd) (tree' (g d))) :
    Finds line tree' ((run >>= fun cmd => pure (f cmd)) n) (found.map fun (d, us) => (g d, us)) := by
  rw [bind_run]
  generalize run n = r at h
  cases h with
  | found hspells hat => exact .found (hf _ _ hspells) hat
  | panics msg => exact .panics msg

theorem addArg_spells (h : Spells line cmd tree) {a : Slice} {w : Str} (ha : SliceOf line a w) :
    Spells line (addArg cmd a) (addArg tree w) := by
  induction h with
  | execcmd h => exact .execcmd (List.rel_append h (.cons ha .nil))
  | redircmd h hf ih => exact .redircmd ih hf
  | pipecmd hl hr => exact .pipecmd hl hr
  | listcmd hl hr => exact .listcmd hl hr
  | backcmd h => exact .backcmd h

theorem addArg_wrap (c : Cmd Str) (rs : List Redir) (w : Str) :
    addArg (wrap c rs) w = wrap (addArg c w) rs := by
  induction rs generalizing c with
  | nil => rfl
  | cons r rs ih => exact ih (.redircmd c r.file r.op.mode r.op.fd)

theorem wrap_append (c : Cmd Str) (rs rs' : List Redir) : wrap c (rs ++ rs') = wrap (wrap c rs) rs' :=
  List.foldl_append

theorem starts_redir (h : starts [60, 62, 43] ts = true) :
    ∃ op, ts = .symbol (Op.symbol op) :: ts.tail := by
  obtain ⟨c, hc, hts⟩ := starts_mem h
  simp only [List.mem_cons, List.not_mem_nil, or_false] at hc
  rcases hc with rfl | rfl | rfl
  · exact ⟨.read, hts⟩
  · exact ⟨.write, hts⟩
  · exact ⟨.append, hts⟩

section Line

variable (hz : ∀ c ∈ line, c ≠ 0)

include hz

theorem parseredirs_finds (h : At line n ts) (hk : ts.length < k) (hcmd : Spells line cmd tree) :
    Finds line (wrap tree) (parseredirs line k cmd n) (findRedirs ts) := by
  induction k generalizing cmd tree n ts with
  | zero => exact absurd hk (Nat.not_lt_zero _)
  | succ k ih =>
    obtain ⟨m, hpeek, hm, -⟩ := peek_run h [60, 62] [60, 62, 43]
      (by decide) (by decide) (by decide)
    rw [parseredirs, run_bind hpeek]
    by_cases hstart : starts [60, 62, 43] ts = true
    · rw [if_pos hstart]
      obtain ⟨op, hts⟩ := starts_redir hstart
      rw [hts] at hm hk ⊢
      generalize ts.tail = us at hm hk ⊢
      rw [List.length_cons] at hk
      obtain ⟨a, m₁, htok, hm₁, -, -⟩ := gettoken_symbol hm
      rw [run_bind htok]
      cases us with
      | nil =>
        obtain ⟨a', m₂, hnext, -⟩ := gettoken_end hm₁
        rw [findRedirs, opOf_symbol, if_neg (by simp)]
        dsimp only
        rw [run_bind hnext]
        exact .panics _
      | cons u us =>
        cases u with
        | symbol c =>
          obtain ⟨a', m₂, hnext, -, -, hc⟩ := gettoken_symbol hm₁
          rw [findRedirs, opOf_symbol, if_neg (by simp)]
          dsimp only
          rw [run_bind hnext]
          dsimp only
          rw [if_pos hc]
          exact .panics _
        | word w =>
          obtain ⟨a', m₂, hnext, hslice, hm₂⟩ := gettoken_word hz hm₁
          have hlen : us.length < k := by
            rw [List.length_cons] at hk
            omega
          rw [findRedirs, opOf_symbol]
          dsimp only [Option.elim_some]
          rw [run_bind hnext]
          dsimp only
          rw [if_neg (not_not.mpr rfl)]
          have hnode : Spells line (.redircmd cmd a' op.mode op.fd)
              (.redircmd tree w op.mode op.fd) := .redircmd hcmd hslice
          have hrest : Finds line (wrap tree) _ _ :=
            (ih hm₂ hlen hnode).map (fun rs => ⟨op, w⟩ :: rs) fun rs => rfl
          cases op with
          | read =>
            rw [if_pos (by rfl)]
            exact hrest
          | write =>
            rw [if_neg (by decide), if_pos (by rfl)]
            exact hrest
          | append =>
            rw [if_neg (by decide), if_neg (by decide), if_pos (by rfl)]
            exact hrest
    · rw [if_neg hstart, findRedirs_none (eq_false_of_ne_true hstart)]
      exact .found hcmd hm

theorem parseargs_finds (argc : ℕ) {ws : List Str} {rs : List Redir} (h : At line n ts)
    (hk : ts.length < k) (hj : ts.length < j)
    (hcmd : Spells line cmd (wrap (.execcmd ws) rs)) :
    Finds line (fun args => wrap (.execcmd (ws ++ args.map Arg.word)) (rs ++ args.flatMap Arg.redirs))
      (parseargs line k argc cmd n) (findArgs j argc ts) := by
  induction k generalizing j n ts argc ws rs cmd with
  | zero => exact absurd hk (Nat.not_lt_zero _)
  | succ k ih =>
    obtain ⟨j, rfl⟩ : ∃ i, j = i + 1 := ⟨j - 1, by omega⟩
    obtain ⟨m, hpeek, hm, -⟩ := peek_run h [124, 41, 38, 59] [124, 41, 38, 59]
      (by decide) (by decide) (by decide)
    rw [parseargs, run_bind hpeek]
    -- no more arguments
    have hdone : ∀ {m us}, At line m us → Finds line
        (fun args => wrap (.execcmd (ws ++ args.map Arg.word)) (rs ++ args.flatMap Arg.redirs))
        (.ok (cmd, m)) (some ([], us)) := by
      intro m us hm
      refine .found ?_ hm
      rw [List.map_nil, List.append_nil, List.flatMap_nil, List.append_nil]
      exact hcmd
    cases ts with
    | nil =>
      obtain ⟨a, m₁, htok, hm₁⟩ := gettoken_end hm
      rw [if_neg (by decide), run_bind htok]
      exact hdone hm₁
    | cons t us =>
      cases t with
      | symbol c =>
        rw [findArgs]
        by_cases hend : starts [124, 41, 38, 59] (.symbol c :: us) = true
        · rw [if_pos hend, if_pos hend]
          exact hdone hm
        · obtain ⟨a, m₁, htok, -, hzero, hword⟩ := gettoken_symbol hm
          rw [if_neg hend, if_neg hend, run_bind htok]
          dsimp only
          rw [if_neg hzero, if_pos hword]
          exact .panics _
      | word w =>
        obtain ⟨a, m₁, htok, hslice, hm₁⟩ := gettoken_word hz hm
        rw [if_neg (by rintro ⟨⟩), run_bind htok, findArgs]
        dsimp only
        rw [if_neg (by decide), if_neg (by decide)]
        by_cases hmany : MAXARGS ≤ argc + 1
        · rw [if_pos hmany, if_pos hmany]
          exact .panics _
        · rw [if_neg hmany, if_neg hmany]
          have hle := hm₁.length_le
          rw [List.length_cons] at hk hj
          have hadd := addArg_spells hcmd hslice
          rw [addArg_wrap] at hadd
          apply Finds.bind (parseredirs_finds hz hm₁ (by omega) hadd)
          intro cmd' m₂ rs' us' hredirs hspells hm₂
          have hshort := congrArg List.length (findRedirs_sound hredirs)
          rw [List.length_append] at hshort
          rw [← wrap_append] at hspells
          refine (ih (argc + 1) (j := j) hm₂ (by omega) (by omega) hspells).map
            (fun args => ⟨w, rs'⟩ :: args) fun args => ?_
          simp only [List.map_cons, List.flatMap_cons, List.append_assoc, List.cons_append,
            List.nil_append]

/-- `run` is a parseline() that finds what `find` finds in less than `k` tokens. -/
def Lines (line : Str) (k : ℕ) (run : Parse (Cmd Slice))
    (find : List Token → Option (Line × List Token)) : Prop :=
  ∀ n ts, At line n ts → ts.length < k → Finds line Line.cmd (run n) (find ts)

variable {run : Parse (Cmd Slice)} {find : List Token → Option (Line × List Token)}

theorem parseblock_finds (hlines : Lines line k run find) (h : At line n ts) (hk : ts.length ≤ k)
    (hopen : starts [40] ts = true) :
    Finds line Exec.cmd (parseblock line run n) (findExec find ts) := by
  obtain ⟨m, hpeek, hm, -⟩ := peek_run h [40] [40]
      (by decide) (by decide) (by decide)
  have hts := starts_single hopen
  rw [parseblock, run_bind hpeek, if_pos hopen, findExec, if_pos hopen]
  rw [hts] at hm hk
  obtain ⟨a, m₁, htok, hm₁, -⟩ := gettoken_symbol hm
  rw [run_bind htok]
  apply Finds.bind (hlines m₁ _ hm₁ hk)
  intro cmd m₂ l us hline hspells hm₂
  obtain ⟨m₃, hpeek', hm₃, -⟩ := peek_run hm₂ [41] [41]
      (by decide) (by decide) (by decide)
  rw [run_bind hpeek']
  dsimp only
  by_cases hclose : starts [41] us = true
  · rw [if_pos hclose, if_pos hclose]
    rw [starts_single hclose] at hm₃
    obtain ⟨a', m₄, htok', hm₄, -⟩ := gettoken_symbol hm₃
    rw [run_bind htok']
    have hle := hm₄.length_le
    exact (parseredirs_finds hz hm₄ (k := line.length + 1) (by omega) hspells).map
      (fun rs => Exec.block l rs) fun rs => rfl
  · rw [if_neg hclose, if_neg hclose]
    exact .panics _

theorem parseexec_finds (hlines : Lines line k run find) (h : At line n ts) (hk : ts.length ≤ k) :
    Finds line Exec.cmd (parseexec line run n) (findExec find ts) := by
  obtain ⟨m, hpeek, hm, -⟩ := peek_run h [40] [40]
      (by decide) (by decide) (by decide)
  rw [parseexec, run_bind hpeek]
  by_cases hopen : starts [40] ts = true
  · rw [if_pos hopen]
    exact parseblock_finds hz hlines hm hk hopen
  · rw [if_neg hopen, findExec, if_neg hopen]
    have hle := hm.length_le
    have hempty : Spells line (.execcmd []) (.execcmd []) := .execcmd .nil
    apply Finds.bind (parseredirs_finds hz hm (by omega) hempty)
    intro cmd m₁ rs us hredirs hspells hm₁
    have hle' := hm₁.length_le
    exact (parseargs_finds hz 0 hm₁ (k := line.length + 1) (by omega) (Nat.lt_succ_self _)
      hspells).map (fun args => Exec.words rs args) fun args => rfl

theorem parsepipe_finds {i : ℕ} (hlines : Lines line k run find) (hsound : Sound find)
    (h : At line n ts) (hk : ts.length ≤ k) (hi : ts.length < i) (hj : ts.length < j) :
    Finds line Pipe.cmd (parsepipe line run i n) (findPipe find j ts) := by
  induction i generalizing j n ts with
  | zero => exact absurd hi (Nat.not_lt_zero _)
  | succ i ih =>
    obtain ⟨j, rfl⟩ : ∃ l, j = l + 1 := ⟨j - 1, by omega⟩
    rw [parsepipe, findPipe]
    apply Finds.bind (parseexec_finds hz hlines h hk)
    intro cmd m e us hexec hspells hm
    obtain ⟨m₁, hpeek, hm₁, -⟩ := peek_run hm [124] [124]
      (by decide) (by decide) (by decide)
    rw [run_bind hpeek]
    dsimp only
    by_cases hbar : starts [124] us = true
    · have hshort := congrArg List.length (findExec_sound hsound hexec).1
      rw [if_pos hbar, if_pos hbar]
      rw [starts_single hbar] at hm₁ hshort
      obtain ⟨a, m₂, htok, hm₂, -⟩ := gettoken_symbol hm₁
      rw [run_bind htok]
      rw [List.length_append, List.length_cons] at hshort
      exact (ih (j := j) hm₂ (by omega) (by omega) (by omega)).node (Pipe.pipe e)
        fun cmd' p hspells' => .pipecmd hspells hspells'
    · rw [if_neg hbar, if_neg hbar]
      exact .found hspells hm₁

omit hz in
theorem parsebacks_run (h : At line n ts) (hk : ts.length < k) (hcmd : Spells line cmd tree) :
    ∃ cmd' m, parsebacks line k cmd n = .ok (cmd', m) ∧
      Spells line cmd' (backs (findBacks ts).1 tree) ∧ At line m (findBacks ts).2 := by
  induction k generalizing n ts cmd tree with
  | zero => exact absurd hk (Nat.not_lt_zero _)
  | succ k ih =>
    obtain ⟨m, hpeek, hm, -⟩ := peek_run h [38] [38]
      (by decide) (by decide) (by decide)
    rw [parsebacks, run_bind hpeek]
    cases ts with
    | nil => exact ⟨cmd, m, rfl, hcmd, hm⟩
    | cons t us =>
      rw [findBacks]
      by_cases hback : starts [38] (t :: us) = true
      · rw [if_pos hback, if_pos hback]
        rw [starts_single hback] at hm
        obtain ⟨a, m₁, htok, hm₁, -⟩ := gettoken_symbol hm
        rw [run_bind htok]
        rw [List.length_cons] at hk
        exact ih hm₁ (Nat.lt_of_succ_lt_succ hk) (.backcmd hcmd)
      · rw [if_neg hback, if_neg hback]
        exact ⟨cmd, m, rfl, hcmd, hm⟩

theorem parseline_finds (h : At line n ts) (hk : ts.length < k) (hj : ts.length < j) :
    Finds line Line.cmd (parseline line k n) (findLine j ts) := by
  induction k generalizing j n ts with
  | zero => exact absurd hk (Nat.not_lt_zero _)
  | succ k ih =>
    obtain ⟨j, rfl⟩ : ∃ i, j = i + 1 := ⟨j - 1, by omega⟩
    have hlines : Lines line (min k j) (parseline line k) (findLine j) := fun n' ts' h' hlen =>
      ih h' (by omega) (by omega)
    have hle := h.length_le
    rw [parseline, findLine]
    apply Finds.bind (parsepipe_finds hz hlines (findLine_sound j) h (by omega) (by omega)
      (Nat.lt_succ_self _))
    intro cmd m p us hpipe hspells hm
    have hle' := hm.length_le
    obtain ⟨cmd', m₁, hrun, hbacks, hm₁⟩ := parsebacks_run hm (k := line.length + 1) (by omega)
      hspells
    rw [run_bind hrun]
    obtain ⟨m₂, hpeek, hm₂, -⟩ := peek_run hm₁ [59] [59]
      (by decide) (by decide) (by decide)
    rw [run_bind hpeek]
    dsimp only
    by_cases hsemi : starts [59] (findBacks us).2 = true
    · have hshort := congrArg List.length (findPipe_sound (findLine_sound j) hpipe).1
      have hshort' := congrArg List.length (findBacks_sound us)
      rw [if_pos hsemi, if_pos hsemi]
      rw [List.length_append] at hshort hshort'
      rw [starts_single hsemi] at hm₂ hshort'
      rw [List.length_cons] at hshort'
      obtain ⟨a, m₃, htok, hm₃, -⟩ := gettoken_symbol hm₂
      rw [run_bind htok]
      exact (ih (j := j) hm₃ (by omega) (by omega)).node (Line.list p (findBacks us).1)
        fun cmd'' l hspells' => .listcmd hbacks hspells'
    · rw [if_neg hsemi, if_neg hsemi]
      exact .found hbacks hm₂

end Line

end ShParsing
