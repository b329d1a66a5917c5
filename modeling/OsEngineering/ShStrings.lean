import OsEngineering.ShParsing

/-! nulterminate() writes zeros into the line behind its words, never into one, and parsecmd()
returns the tree of the line's only derivation. -/
namespace ShStrings

open ByteBlock FaultState ShParser ShGrammar ShDerivations ShTokens ShParsing
open ShellCommands (Str MAXARGS)
open ShellParser (Stop Parse)

variable {line : Str} {buf : List Byte} {a : Slice} {w : Str} {cmd : Cmd Slice} {tree : Cmd Str}

/-- A buffer of the line in which the words are as they were. -/
structure Cut (s : Str) (buf : List Byte) : Prop where
  length_eq : buf.length = s.length + 1
  keep : ∀ (i : ℕ) (c : Byte), s[i]? = some c → WordChar c → buf[i]? = some c

theorem uncut (line : Str) : Cut line (line ++ [0]) := by
  refine ⟨List.length_append, fun i c hi _ => ?_⟩
  obtain ⟨hlt, -⟩ := List.getElem?_eq_some_iff.mp hi
  rw [List.getElem?_append_left hlt]
  exact hi

/-- A zero behind a word is in no word. -/
theorem Cut.set (h : Cut line buf) (ha : SliceOf line a w) : Cut line (buf.set a.stop 0) := by
  refine ⟨?_, fun i c hi hc => ?_⟩
  · rw [List.length_set]
    exact h.length_eq
  · by_cases hstop : a.stop = i
    · refine absurd hc (ha.ends c ?_)
      rw [List.head?_drop, hstop]
      exact hi
    · rw [List.getElem?_set_ne hstop]
      exact h.keep i c hi hc

theorem zero_run (h : Cut line buf) (ha : SliceOf line a w) :
    zero a.stop buf = .ok ((), buf.set a.stop 0) := by
  have hle := ha.le
  have hlen := h.length_eq
  rw [zero, if_pos (by omega)]

/-- The offsets that nulterminate() writes to. -/
def stops : Cmd Slice → List ℕ
  | .execcmd argv => argv.map Slice.stop
  | .redircmd cmd file _ _ => stops cmd ++ [file.stop]
  | .pipecmd left right => stops left ++ stops right
  | .listcmd left right => stops left ++ stops right
  | .backcmd cmd => stops cmd

/-- After code that has cut the buffer at `ends`. -/
structure CutAt (line : Str) (buf : List Byte) (ends : List ℕ) (buf' : List Byte) : Prop where
  cut : Cut line buf'
  grow : ∀ i : ℕ, buf[i]? = some 0 → buf'[i]? = some 0
  ends : ∀ s ∈ ends, buf'[s]? = some 0

theorem CutAt.trans {buf' buf'' : List Byte} {ends ends' : List ℕ} (h : CutAt line buf ends buf')
    (h' : CutAt line buf' ends' buf'') : CutAt line buf (ends ++ ends') buf'' := by
  refine ⟨h'.cut, fun i hi => h'.grow i (h.grow i hi), fun s hs => ?_⟩
  rcases List.mem_append.mp hs with hs | hs
  · exact h'.grow s (h.ends s hs)
  · exact h'.ends s hs

theorem set_cutAt (h : Cut line buf) (ha : SliceOf line a w) :
    CutAt line buf [a.stop] (buf.set a.stop 0) := by
  have hle := ha.le
  have hlen := h.length_eq
  have hself : (buf.set a.stop 0)[a.stop]? = some 0 := List.getElem?_set_self (by omega)
  refine ⟨h.set ha, fun i hi => ?_, fun s hs => ?_⟩
  · by_cases hstop : a.stop = i
    · rw [← hstop]
      exact hself
    · rw [List.getElem?_set_ne hstop]
      exact hi
  · rw [List.mem_singleton.mp hs]
    exact hself

theorem zeroAll_run {argv : List Slice} {ws : List Str} (h : List.Forall₂ (SliceOf line) argv ws)
    (hbuf : Cut line buf) :
    ∃ buf', zeroAll argv buf = .ok ((), buf') ∧ CutAt line buf (argv.map Slice.stop) buf' := by
  induction h generalizing buf with
  | nil => exact ⟨buf, rfl, hbuf, fun _ hi => hi, fun s hs => absurd hs List.not_mem_nil⟩
  | cons ha _ ih =>
    have hset := set_cutAt hbuf ha
    obtain ⟨buf', hrun, hcut⟩ := ih hset.cut
    refine ⟨buf', ?_, hset.trans hcut⟩
    rw [zeroAll, run_bind (zero_run hbuf ha)]
    exact hrun

theorem nulterminate_run (h : Spells line cmd tree) (hbuf : Cut line buf) :
    ∃ buf', nulterminate cmd buf = .ok ((), buf') ∧ CutAt line buf (stops cmd) buf' := by
  induction h generalizing buf with
  | execcmd h => exact zeroAll_run h hbuf
  | redircmd h hf ih =>
    obtain ⟨buf₁, hrun, hcut⟩ := ih hbuf
    refine ⟨_, ?_, hcut.trans (set_cutAt hcut.cut hf)⟩
    rw [nulterminate, run_bind hrun]
    exact zero_run hcut.cut hf
  | pipecmd hl hr ihl ihr =>
    obtain ⟨buf₁, hrun, hcut⟩ := ihl hbuf
    obtain ⟨buf₂, hrun', hcut'⟩ := ihr hcut.cut
    refine ⟨buf₂, ?_, hcut.trans hcut'⟩
    rw [nulterminate, run_bind hrun]
    exact hrun'
  | listcmd hl hr ihl ihr =>
    obtain ⟨buf₁, hrun, hcut⟩ := ihl hbuf
    obtain ⟨buf₂, hrun', hcut'⟩ := ihr hcut.cut
    refine ⟨buf₂, ?_, hcut.trans hcut'⟩
    rw [nulterminate, run_bind hrun]
    exact hrun'
  | backcmd h ih => exact ih hbuf

/-! Reading the words back. -/

theorem cstring_word (hz : ∀ c ∈ line, c ≠ 0) (h : Cut line buf) (ha : SliceOf line a w)
    (hstop : buf[a.stop]? = some 0) : cstring buf a.start = w := by
  have hw : ∀ c ∈ w, c ≠ 0 := fun c hc => hz c (List.mem_of_mem_drop (by
    rw [ha.text]
    exact List.mem_append_left _ hc))
  have hfront : (buf.drop a.start).take w.length = w := by
    apply List.ext_getElem?
    intro i
    by_cases hi : i < w.length
    · have hline : (line.drop a.start)[i]? = some w[i] := by
        rw [ha.text, List.getElem?_append_left hi, List.getElem?_eq_getElem hi]
      rw [List.getElem?_drop] at hline
      rw [List.getElem?_take_of_lt hi, List.getElem?_drop,
        h.keep _ _ hline (ha.word _ (List.getElem_mem hi)), List.getElem?_eq_getElem hi]
    · rw [List.getElem?_eq_none (by rw [List.length_take]; omega),
        List.getElem?_eq_none (by omega)]
  have hback : (buf.drop a.start).drop w.length = 0 :: buf.drop (a.stop + 1) := by
    obtain ⟨hlt, hget⟩ := List.getElem?_eq_some_iff.mp hstop
    rw [List.drop_drop, ← ha.stop_eq, List.drop_eq_getElem_cons hlt, hget]
  have hsplit := List.take_append_drop w.length (buf.drop a.start)
  rw [hfront, hback] at hsplit
  have hall : ∀ c ∈ w, decide (c ≠ 0) = true := fun c hc => decide_eq_true (hw c hc)
  rw [cstring, ← hsplit, List.takeWhile_append_of_pos hall, List.takeWhile_cons_of_neg (by decide),
    List.append_nil]

theorem words_read (hz : ∀ c ∈ line, c ≠ 0) (hbuf : Cut line buf) {argv : List Slice}
    {ws : List Str} (h : List.Forall₂ (SliceOf line) argv ws)
    (hstops : ∀ s ∈ argv.map Slice.stop, buf[s]? = some 0) :
    argv.map (fun a => cstring buf a.start) = ws := by
  induction h with
  | nil => rfl
  | cons ha _ ih =>
    rw [List.map_cons, cstring_word hz hbuf ha (hstops _ List.mem_cons_self),
      ih fun s hs => hstops s (List.mem_cons_of_mem _ hs)]

theorem tree_read (hz : ∀ c ∈ line, c ≠ 0) (hbuf : Cut line buf) (h : Spells line cmd tree)
    (hstops : ∀ s ∈ stops cmd, buf[s]? = some 0) :
    cmd.map (fun a => cstring buf a.start) = tree := by
  induction h with
  | execcmd h => rw [Cmd.map, words_read hz hbuf h hstops]
  | redircmd h hf ih =>
    rw [Cmd.map, ih fun s hs => hstops s (List.mem_append_left _ hs),
      cstring_word hz hbuf hf (hstops _ (List.mem_append_right _ List.mem_cons_self))]
  | pipecmd hl hr ihl ihr =>
    rw [Cmd.map, ihl fun s hs => hstops s (List.mem_append_left _ hs),
      ihr fun s hs => hstops s (List.mem_append_right _ hs)]
  | listcmd hl hr ihl ihr =>
    rw [Cmd.map, ihl fun s hs => hstops s (List.mem_append_left _ hs),
      ihr fun s hs => hstops s (List.mem_append_right _ hs)]
  | backcmd h ih => rw [Cmd.map, ih hstops]

/-! Whole lines. -/

/-- panic(), with or without the leftovers of the line. -/
def Panics (e : Stop) : Prop := (∃ msg, e = .exit msg) ∨ ∃ s, e = .leftovers s

/-- The parser returns the tree of the line's only derivation, its words as C strings in the
buffer, or panics where the line has none. -/
theorem parsecmd_derives (line : Str) (hz : ∀ c ∈ line, c ≠ 0) :
    ∃ ts, Tokens line ts ∧ (∀ us, Tokens line us → us = ts) ∧
      ((∃ l : Line, l.tokens = ts ∧ l.Fits ∧ (∀ l' : Line, l'.tokens = ts → l'.Fits → l' = l) ∧
          ∃ cmd buf, parsecmd line = .ok (cmd, buf) ∧
            cmd.map (fun a => cstring buf a.start) = l.cmd) ∨
        (∃ e, parsecmd line = .error e ∧ Panics e) ∧ ∀ l : Line, l.tokens = ts → ¬ l.Fits) := by
  obtain ⟨ts, hts⟩ := tokens_total line
  refine ⟨ts, hts, fun us hus => tokens_unique hts hus, ?_⟩
  have hstart : At line 0 ts := ⟨Nat.zero_le _, hts⟩
  have hlen := hstart.length_le
  have hfinds := parseline_finds hz hstart (k := line.length + 1) (j := line.length + 1) (by omega)
    (by omega)
  have hsound := findLine_sound (line.length + 1) ts
  have hcomplete : ∀ l : Line, l.tokens = ts → l.Fits →
      findLine (line.length + 1) ts = some (l, []) := by
    rintro l rfl hfits
    have hfound := findLine_complete (line.length + 1) l [] hfits (Or.inl rfl)
      (by rw [List.append_nil]; omega)
    rw [List.append_nil] at hfound
    exact hfound
  generalize hrun : parseline line (line.length + 1) 0 = run at hfinds
  generalize findLine (line.length + 1) ts = found at hfinds hsound hcomplete
  cases hfinds with
  | panics msg =>
    refine Or.inr ⟨⟨.exit msg, ?_, Or.inl ⟨msg, rfl⟩⟩, fun l hl hfits => ?_⟩
    · rw [parsecmd, bind_run, hrun]
      rfl
    · cases hcomplete l hl hfits
  | @found cmd m l us hspells hat =>
    obtain ⟨n, hpeek, hn, hend, hmore⟩ := peek_run hat [] []
      (by decide) (by decide) (by decide)
    have hall : (do
        let cmd ← parseline line (line.length + 1)
        let _ ← peek line []
        let s ← get
        if s ≠ line.length then throw (.leftovers (line.drop s)) else pure cmd :
          Parse (Cmd Slice)) 0 =
        (if n ≠ line.length then throw (.leftovers (line.drop n)) else pure cmd :
          Parse (Cmd Slice)) n := by
      rw [run_bind hrun, run_bind hpeek, run_bind (get_run _)]
    cases us with
    | nil =>
      obtain ⟨htokens, hfits⟩ := hsound l [] rfl
      rw [List.append_nil] at htokens
      have hn := hend rfl
      obtain ⟨buf, hterm, hcut⟩ := nulterminate_run hspells (uncut line)
      refine Or.inl ⟨l, htokens.symm, hfits, fun l' hl' hfits' =>
        derivation_unique (hl'.trans htokens) hfits' hfits, cmd, buf, ?_,
        tree_read hz hcut.cut hspells hcut.ends⟩
      rw [parsecmd, hall, if_neg (not_not.mpr hn)]
      change (nulterminate cmd (line ++ [0]) >>= fun p => pure (cmd, p.2)) = _
      rw [hterm]
      rfl
    | cons u us =>
      refine Or.inr ⟨⟨.leftovers (line.drop n), ?_, Or.inr ⟨_, rfl⟩⟩, fun l' hl' hfits' => ?_⟩
      · rw [parsecmd, hall, if_pos (hmore (List.cons_ne_nil u us))]
        rfl
      · cases hcomplete l' hl' hfits'

/-- `(a>b)|c` -/
theorem parsecmd_derives_block : ∃ ts, Tokens [40, 97, 62, 98, 41, 124, 99] ts ∧
    ((∃ l : Line, l.tokens = ts ∧ ∃ cmd buf,
      parsecmd [40, 97, 62, 98, 41, 124, 99] = .ok (cmd, buf) ∧
        cmd.map (fun a => cstring buf a.start) = l.cmd) ∨
      ∃ e, parsecmd [40, 97, 62, 98, 41, 124, 99] = .error e ∧ Panics e) := by
  obtain ⟨ts, hts, -, ⟨l, hl, -, -, hrun⟩ | ⟨hpanics, -⟩⟩ :=
    parsecmd_derives [40, 97, 62, 98, 41, 124, 99] (by decide)
  · exact ⟨ts, hts, Or.inl ⟨l, hl, hrun⟩⟩
  · exact ⟨ts, hts, Or.inr hpanics⟩

end ShStrings
