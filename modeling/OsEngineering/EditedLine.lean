import OsEngineering.ConsoleBuffer
import OsEngineering.Screens

/-! The line being edited, as consoleintr() shows it. Keys, reads of earlier lines and output
between two lines may come in any order. -/
namespace EditedLine

open ByteBlock Console ConsoleBuffer EndlessSheet RingBuffer Screens.Xv6 TransitionSystem

/-- The loop of ^U, as consputc() sees it. -/
def killEcho : ℕ → Input → List Word
  | 0, _ => []
  | k + 1, i =>
    if i.e ≠ i.w ∧ i.buf (slot INPUT_BUF (i.e - 1)) ≠ chr '\n' then
      BACKSPACE :: killEcho k { i with e := i.e - 1 }
    else []

/-- What one round of consoleintr() passes to consputc(). -/
def echo (i : Input) (c : Byte) : List Word :=
  if c = C 'P' then []
  else if c = C 'U' then killEcho (i.e - i.w).toNat i
  else if c = C 'H' ∨ c = 0x7f then if i.e ≠ i.w then [BACKSPACE] else []
  else if c ≠ 0 ∧ (i.e - i.r).toNat < INPUT_BUF then
    [(if c = chr '\r' then chr '\n' else c).setWidth 32]
  else []

/-- There is no screen any more once cgaputc() has panicked. -/
structure State where
  input : Input
  screen : Option Screen

def State.print (s : State) (cs : List Word) : State :=
  { s with screen := s.screen.bind fun t => cs.foldlM cgaputc t }

inductive Event where
  | key (c : Byte)
  | read (killed : Bool) (target n : ℕ)
  | print (cs : List Word)

/-- Nothing is printed into a line. -/
def Enabled (s : State) : Event → Prop
  | .key _ => True
  | .read _ target n => n ≤ target
  | .print _ => s.input.e = s.input.w

def next (s : State) : Event → State
  | .key c => { s.print (echo s.input c) with input := (s.input.key c).1 }
  | .read killed target n => { s with input := (readLoop killed target n s.input).input }
  | .print cs => s.print cs

def machine : Machine State Event := ⟨Enabled, next⟩

instance (s : State) (e : Event) : Decidable (machine.enabled s e) := by
  change Decidable (Enabled s e)
  cases e <;> unfold Enabled <;> infer_instance

def boot (buf : Fin INPUT_BUF → Byte) (t : Screen) : State := ⟨⟨buf, 0, 0, 0⟩, some t⟩

/-- The cell of a character. -/
def ink (c : Byte) : Half := glyph (c.setWidth 32)

/-- The `n` cells before the cursor. -/
def shown (t : Screen) (n : ℕ) : List Half := (List.range n).map fun k => t.crt (t.pos - n + k)

/-! On the sheet. -/

/-- The characters of the line are the last ones before the cursor, and not scrolled away. -/
def Written (q : Sheet Half) (l : List Byte) : Prop :=
  l.length + q.top * 80 ≤ q.cursor ∧
    ∀ k (h : k < l.length), q.cell (q.cursor - l.length + k) = ink l[k]

variable {q : Sheet Half} {t : Screen} {l p : List Byte} {i : Input} {c : Byte}

theorem written_nil (h : Displays q t) : Written q [] := by
  refine ⟨?_, fun k hk => absurd hk (Nat.not_lt_zero k)⟩
  have := h.1.cursor
  simp
  omega

@[simp] theorem feed_cell (q : Sheet Half) : (q.feed 24 80).cell = q.cell := by
  simp only [Sheet.feed]
  split <;> rfl

@[simp] theorem feed_cursor (q : Sheet Half) : (q.feed 24 80).cursor = q.cursor := by
  simp only [Sheet.feed]
  split <;> rfl

theorem feed_top (q : Sheet Half) : (q.feed 24 80).top = q.top ∨
    ((q.feed 24 80).top = q.top + 1 ∧ (q.top + 24) * 80 ≤ q.cursor) := by
  simp only [Sheet.feed]
  split
  · next h => exact Or.inr ⟨rfl, h⟩
  · exact Or.inl rfl

theorem ink_ordinary (hc : c ≠ chr '\n') :
    c.setWidth 32 ≠ (10 : Word) ∧ c.setWidth 32 ≠ BACKSPACE := by
  revert c
  decide

theorem Written.type (h : Written q l) (hl : l.length < INPUT_BUF) (hc : c ≠ chr '\n') :
    Written (put q (c.setWidth 32)) (l ++ [c]) := by
  obtain ⟨hlen, hcells⟩ := h
  obtain ⟨h10, hback⟩ := ink_ordinary hc
  have hcap : INPUT_BUF = 128 := rfl
  simp only [put, if_neg h10, if_neg hback]
  constructor
  · rcases feed_top (q.type (glyph (c.setWidth 32))) with htop | ⟨htop, hfull⟩
    · simp only [Sheet.write, htop, feed_cursor, List.length_append, List.length_singleton]
      simp only [Sheet.type, Sheet.write]
      omega
    · -- the line is shorter than the rows that stay
      simp only [Sheet.write, htop, feed_cursor, List.length_append, List.length_singleton]
      simp only [Sheet.type, Sheet.write] at hfull ⊢
      omega
  · intro k hk
    simp only [List.length_append, List.length_singleton] at hk
    simp only [Sheet.write, feed_cell, feed_cursor, Sheet.type, List.length_append,
      List.length_singleton]
    have hnext : q.cursor + 1 - (l.length + 1) + k ≠ q.cursor + 1 := by omega
    rw [Function.update_of_ne hnext]
    rcases Nat.lt_or_ge k l.length with hold | hnew
    · have hcursor : q.cursor + 1 - (l.length + 1) + k ≠ q.cursor := by omega
      have hsame : q.cursor + 1 - (l.length + 1) + k = q.cursor - l.length + k := by omega
      rw [Function.update_of_ne hcursor, hsame, hcells k hold]
      simp [List.getElem_append_left, hold]
    · obtain rfl : k = l.length := by omega
      have hsame : q.cursor + 1 - (l.length + 1) + l.length = q.cursor := by omega
      rw [hsame, Function.update_self]
      simp [ink]

theorem Written.erase (h : Written q (l ++ [c])) (hd : Displays q t) :
    Written (put q BACKSPACE) l := by
  obtain ⟨hlen, hcells⟩ := h
  obtain ⟨hs, hpos⟩ := hd
  have hcursor := hs.cursor
  simp only [List.length_append, List.length_singleton] at hlen hcells
  have h10 : BACKSPACE ≠ 10 := by decide
  have hback : q.back 80 = { q with cursor := q.cursor - 1 } := by
    simp only [Sheet.back]
    rw [if_pos (by omega)]
  have hroom : Sheet.feed 24 80 { q with cursor := q.cursor - 1 } =
      { q with cursor := q.cursor - 1 } := by
    simp only [Sheet.feed]
    rw [if_neg (by omega)]
  have hput : put q BACKSPACE = Sheet.write { q with cursor := q.cursor - 1 } Screens.space := by
    simp only [put, if_neg h10, ↓reduceIte, hback, hroom]
  simp only [hput, Sheet.write]
  constructor
  · simp only
    omega
  · intro k hk
    have hne : q.cursor - 1 - l.length + k ≠ q.cursor - 1 := by omega
    have hsame : q.cursor - 1 - l.length + k = q.cursor - (l.length + 1) + k := by omega
    change Function.update q.cell (q.cursor - 1) _ (q.cursor - 1 - l.length + k) = _
    rw [Function.update_of_ne hne, hsame, hcells k (by omega)]
    simp [List.getElem_append_left, hk]

/-- The screen has it too. -/
theorem Written.shown (h : Written q l) (hd : Displays q t) :
    l.length ≤ t.pos ∧ EditedLine.shown t l.length = l.map ink := by
  obtain ⟨hlen, hcells⟩ := h
  obtain ⟨hs, hpos⟩ := hd
  have hcursor := hs.cursor
  have hle : l.length ≤ t.pos := by omega
  refine ⟨hle, ?_⟩
  apply List.ext_getElem
  · simp [EditedLine.shown]
  · intro k hk _
    have hk : k < l.length := by simpa [EditedLine.shown] using hk
    have hcell := hs.cells (t.pos - l.length + k) (by omega)
    have hsame : q.top * 80 + (t.pos - l.length + k) = q.cursor - l.length + k := by omega
    rw [hsame, hcells k hk] at hcell
    simpa [EditedLine.shown] using hcell

/-! Keys. -/

theorem Holds.contents_line (h : Holds i p l) : contents i.buf i.w i.e = l := by
  have hcap := cap_lt
  have hbound := h.bound
  have hchars := h.chars
  have hsplit := contents_append i.buf i.r (j := p.length) (k := l.length) (by omega)
  rw [← h.e_eq, ← h.w_eq, hchars] at hsplit
  have hlen : (contents i.buf i.r i.w).length = p.length := by
    rw [length_contents, h.w_eq, count_add (by omega)]
  exact (List.append_inj hsplit hlen.symm).2.symm


theorem kill_written (hd : Displays q t) (hw : Written q l) (h : Holds i p l)
    (hl : ∀ x ∈ l, x ≠ chr '\n') : ∃ q' t', (killEcho l.length i).foldlM cgaputc t = some t' ∧
      Displays q' t' := by
  induction l using List.reverseRecOn generalizing i q t with
  | nil => exact ⟨q, t, rfl, hd⟩
  | append_singleton l c ih =>
    obtain ⟨hlast, hback⟩ := h.last
    have hne : i.e ≠ i.w := mt h.no_line.mp (by simp)
    have hc : i.buf (slot INPUT_BUF (i.e - 1)) ≠ chr '\n' := by
      rw [hlast]
      exact hl c (by simp)
    obtain ⟨t', ht', hd', -⟩ := cgaputc_displays hd BACKSPACE
    obtain ⟨q'', t'', ht'', hd''⟩ := ih hd' (hw.erase hd) hback fun x hx => hl x (by simp [hx])
    refine ⟨q'', t'', ?_, hd''⟩
    simp only [List.length_append, List.length_singleton, killEcho, if_pos (And.intro hne hc),
      List.foldlM_cons, ht']
    exact ht''

/-- The line discipline `t` and the sheet `q` are what the ring and the screen hold. -/
structure Shown (s : State) : Prop where
  text : ∃ front t p q u, s.screen = some u ∧ Displays q u ∧ Mirrors front s.input t p ∧
    Written q t.line

theorem key_shown {s : State} (h : Shown s) (c : Byte) : Shown (next s (.key c)) := by
  obtain ⟨front, x, p, q, u, hu, hd, hm, hw⟩ := h.text
  obtain ⟨p', hm'⟩ := key_mirrors hm c
  have hh := hm.holds
  have hwait := hm.waiting
  -- it is enough to follow the echo on the sheet
  suffices hecho : ∃ q' u', (echo s.input c).foldlM cgaputc u = some u' ∧ Displays q' u' ∧
      Written q' (x.type front.length c).line by
    obtain ⟨q', u', hu', hd', hw'⟩ := hecho
    refine ⟨front, _, p', q', u', ?_, hd', hm', hw'⟩
    simpa [next, State.print, hu] using hu'
  simp only [echo, Text.type, hh.count_line, hh.count_e, hwait]
  split
  · exact ⟨q, u, rfl, hd, hw⟩
  · split
    · obtain ⟨q', u', hu', hd'⟩ := kill_written hd hw hh fun y hy => (hm.clean y hy).1
      exact ⟨q', u', hu', hd', written_nil hd'⟩
    · split
      · rcases List.eq_nil_or_concat' x.line with hempty | ⟨l, y, hline⟩
        · rw [hempty] at hh hw
          rw [if_neg (not_not.mpr (hh.no_line.mpr rfl)), hempty]
          exact ⟨q, u, rfl, hd, hw⟩
        · rw [hline] at hh hw
          have hne : s.input.e ≠ s.input.w := mt hh.no_line.mp (by simp)
          obtain ⟨u', hu', hd', -⟩ := cgaputc_displays hd BACKSPACE
          refine ⟨_, u', ?_, hd', ?_⟩
          · simp [hne, hu']
          · simpa [hline] using hw.erase hd
      · by_cases hroom : c ≠ 0 ∧ p.length + x.line.length < INPUT_BUF
        · have hfull : ¬ (c = 0 ∨ INPUT_BUF ≤ p.length + x.line.length) := by
            rw [not_or, not_le]
            exact hroom
          rw [if_pos hroom, if_neg hfull]
          generalize hy : (if c = chr '\r' then chr '\n' else c) = y
          obtain ⟨u', hu', hd', -⟩ := cgaputc_displays hd (y.setWidth 32)
          refine ⟨_, u', by simp [hu'], hd', ?_⟩
          split
          · exact written_nil hd'
          · next hno =>
            have hnl : y ≠ chr '\n' := fun h => hno (Or.inl h)
            exact hw.type (by omega) hnl
        · have hfull : c = 0 ∨ INPUT_BUF ≤ p.length + x.line.length := by
            by_contra hno
            rw [not_or, not_le] at hno
            exact hroom hno
          rw [if_neg hroom, if_pos hfull]
          exact ⟨q, u, rfl, hd, hw⟩

theorem read_shown {s : State} (h : Shown s) (killed : Bool) {target n : ℕ} (hn : n ≤ target) :
    Shown (next s (.read killed target n)) := by
  obtain ⟨front, x, p, q, u, hu, hd, hm, hw⟩ := h.text
  obtain ⟨p', ht⟩ := readLoop_taken killed hn hm.holds
  refine ⟨front ++ (readLoop killed target n s.input).took, x, p', q, u, hu, hd, ?_, hw⟩
  refine ⟨ht.holds, ?_, hm.clean⟩
  rw [hm.committed, ht.split, List.append_assoc]

theorem print_shown {s : State} (h : Shown s) (he : s.input.e = s.input.w) (cs : List Word) :
    Shown (next s (.print cs)) := by
  obtain ⟨front, x, p, q, u, hu, hd, hm, hw⟩ := h.text
  have hempty : x.line = [] := hm.holds.no_line.mp he
  obtain ⟨u', hu', hd', -⟩ := run_displays hd cs
  refine ⟨front, x, p, _, u', ?_, hd', hm, ?_⟩
  · simpa [next, State.print, hu] using hu'
  · rw [hempty]
    exact written_nil hd'

theorem boot_shown (buf : Fin INPUT_BUF → Byte) {t : Screen} (ht : t.pos < 24 * 80) :
    Shown (boot buf t) := by
  have hd : Displays (sheetOf 24 80 0 t.crt t.pos) t := ⟨shows_sheetOf _ _ _ _ _, ht⟩
  refine ⟨[], ⟨[], []⟩, [], _, t, rfl, hd, ⟨?_, rfl, ?_⟩, written_nil hd⟩
  · exact ⟨rfl, rfl, by simp, by simp [boot]⟩
  · simp

/-- At any time the cells before the cursor are the line that is being edited: the characters
of the ring from w to e, in order. -/
theorem line_shown {buf : Fin INPUT_BUF → Byte} {t : Screen} (ht : t.pos < 24 * 80)
    {es : List Event} {s : State} (r : Run machine.Step (· = boot buf t) es s) :
    ∃ u, s.screen = some u ∧ (contents s.input.buf s.input.w s.input.e).length ≤ u.pos ∧
      shown u (contents s.input.buf s.input.w s.input.e).length =
        (contents s.input.buf s.input.w s.input.e).map ink := by
  have h : Shown s := by
    refine r.invariant ?_ ?_
    · rintro s rfl
      exact boot_shown buf ht
    · rintro s e s' h ⟨he, rfl⟩
      cases e with
      | key c => exact key_shown h c
      | read killed target n => exact read_shown h killed he
      | print cs => exact print_shown h he cs
  obtain ⟨front, x, p, q, u, hu, hd, hm, hw⟩ := h.text
  rw [Holds.contents_line hm.holds]
  exact ⟨u, hu, hw.shown hd⟩

/-- "ab", backspace and "c" are typed at the end of the last row. -/
def typed : List Event := [.print [0x24, 0x20], .key 0x61, .key 0x62, .key 0x08, .key 0x63]

def desk : State := boot (fun _ => 0) ⟨fun _ => 0, 7, 124⟩

theorem line_shown_typed : ∃ u, (machine.exec desk typed).screen = some u ∧
    (contents (machine.exec desk typed).input.buf (machine.exec desk typed).input.w
      (machine.exec desk typed).input.e).length ≤ u.pos ∧
    shown u (contents (machine.exec desk typed).input.buf (machine.exec desk typed).input.w
        (machine.exec desk typed).input.e).length =
      (contents (machine.exec desk typed).input.buf (machine.exec desk typed).input.w
        (machine.exec desk typed).input.e).map ink :=
  line_shown (by decide) (Machine.Valid.run (by decide +kernel))

example : contents (machine.exec desk typed).input.buf (machine.exec desk typed).input.w
    (machine.exec desk typed).input.e = [0x61, 0x63] := by decide +kernel

end EditedLine
