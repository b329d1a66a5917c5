import OsEngineering.ByteBlock
import OsEngineering.EndlessSheet

/-! The text screens: cgaputc() of xv6's console.c and cga_putc() of JOS's. A cell is a
character with its attribute; what the memory holds behind the screen is kept as well. -/
namespace Screens

open ByteBlock EndlessSheet

/-- ' ' | 0x0700, black on white. -/
def space : Half := 0x0720

/-! xv6 -/

namespace Xv6

/-- CGA memory, and the two registers of the CRT controller with the cursor. -/
structure Screen where
  crt : ℕ → Half
  high : Byte
  low : Byte

def BACKSPACE : Word := 0x100

def glyph (c : Word) : Half := (c &&& 0xff).setWidth 16 ||| 0x0700

/-- Cursor position: col + 80*row. -/
def Screen.pos (s : Screen) : ℕ := s.high.toNat * 256 + s.low.toNat

/-- memmove(crt, crt+80, sizeof(crt[0])*23*80) -/
def moveUp (crt : ℕ → Half) : ℕ → Half := fun i => if i < 23 * 80 then crt (i + 80) else crt i

/-- memset(crt+pos, 0, sizeof(crt[0])*(24*80 - pos)) -/
def clearFrom (crt : ℕ → Half) (pos : ℕ) : ℕ → Half :=
  fun i => if pos ≤ i ∧ i < 24 * 80 then 0 else crt i

/-- A position is never negative here, so the first half of the panic is not reached. -/
def cgaputc (s : Screen) (c : Word) : Option Screen :=
  let (crt, pos) :=
    if c = 10 then (s.crt, s.pos + (80 - s.pos % 80))
    else if c = BACKSPACE then (s.crt, s.pos - 1)
    else (Function.update s.crt s.pos (glyph c), s.pos + 1)
  if 25 * 80 < pos then none
  else
    let (crt, pos) :=
      if 24 ≤ pos / 80 then (clearFrom (moveUp crt) (pos - 80), pos - 80) else (crt, pos)
    some ⟨Function.update crt pos space, BitVec.ofNat 8 (pos / 256), BitVec.ofNat 8 pos⟩

/-- The sheet has 24 rows on the screen: the last row of the CGA memory is not used. -/
def put (s : Sheet Half) (c : Word) : Sheet Half :=
  let s := if c = 10 then s.newline 80 else if c = BACKSPACE then s.back 80 else s.type (glyph c)
  (s.feed 24 80).write space

/-- The screen shows the sheet, and its cursor is on the screen. -/
def Displays (p : Sheet Half) (s : Screen) : Prop :=
  Shows 24 80 0 p s.crt s.pos ∧ s.pos < 24 * 80

variable {p : Sheet Half} {s t : Screen} {c : Word}

theorem pos_of_registers (crt : ℕ → Half) {pos : ℕ} (hpos : pos < 24 * 80) :
    (⟨crt, BitVec.ofNat 8 (pos / 256), BitVec.ofNat 8 pos⟩ : Screen).pos = pos := by
  simp only [Screen.pos, BitVec.toNat_ofNat]
  omega

/-- The rest of cgaputc(), once the character is written and `pos` has moved. -/
theorem scroll_displays {crt : ℕ → Half} {pos : ℕ} (h : Shows 24 80 0 p crt pos)
    (hpos : pos ≤ 24 * 80) :
    ∃ crt', ∃ pos' < 24 * 80,
      (if 24 ≤ pos / 80 then (clearFrom (moveUp crt) (pos - 80), pos - 80) else (crt, pos)) =
        (crt', pos') ∧ Shows 24 80 0 (p.feed 24 80) crt' pos' ∧
        ∀ i, 24 * 80 ≤ i → crt' i = crt i := by
  split
  · next hfull =>
    obtain rfl : pos = 24 * 80 := by omega
    refine ⟨_, _, by decide, rfl, ?_, ?_⟩
    · apply h.feed (by decide) le_rfl
      · intro i hi
        have hlow : ¬ (24 * 80 - 80 ≤ i ∧ i < 24 * 80) := by omega
        have hmoved : i < 23 * 80 := by omega
        simp only [clearFrom, if_neg hlow, moveUp, if_pos hmoved]
      · intro i hlow hi
        have hcleared : 24 * 80 - 80 ≤ i ∧ i < 24 * 80 := by omega
        simp only [clearFrom, if_pos hcleared]
    · intro i hi
      have hcleared : ¬ (24 * 80 - 80 ≤ i ∧ i < 24 * 80) := by omega
      have hmoved : ¬ i < 23 * 80 := by omega
      simp only [clearFrom, if_neg hcleared, moveUp, if_neg hmoved]
  · next hroom =>
    have hlt : pos < 24 * 80 := by omega
    rw [h.feed_of_lt hlt]
    exact ⟨crt, pos, hlt, rfl, h, fun _ _ => rfl⟩

/-- One character. -/
theorem cgaputc_displays (h : Displays p s) (c : Word) :
    ∃ t, cgaputc s c = some t ∧ Displays (put p c) t ∧ ∀ i, 24 * 80 ≤ i → t.crt i = s.crt i := by
  obtain ⟨hs, hpos⟩ := h
  -- what is written and where the cursor goes
  have hmove : ∃ crt pos, (if c = 10 then (s.crt, s.pos + (80 - s.pos % 80))
      else if c = BACKSPACE then (s.crt, s.pos - 1)
      else (Function.update s.crt s.pos (glyph c), s.pos + 1)) = (crt, pos) ∧ pos ≤ 24 * 80 ∧
      Shows 24 80 0 (if c = 10 then p.newline 80 else if c = BACKSPACE then p.back 80
        else p.type (glyph c)) crt pos ∧ ∀ i, 24 * 80 ≤ i → crt i = s.crt i := by
    split
    · refine ⟨_, _, rfl, by omega, ?_, fun _ _ => rfl⟩
      have hrow : s.pos + (80 - s.pos % 80) = (s.pos / 80 + 1) * 80 := by omega
      rw [hrow]
      exact hs.newline (by decide)
    · split
      · exact ⟨_, _, rfl, by omega, hs.back, fun _ _ => rfl⟩
      · refine ⟨_, _, rfl, by omega, hs.type hpos _, ?_⟩
        intro i hi
        exact Function.update_of_ne (by omega) ..
  obtain ⟨crt, pos, heq, hle, hshows, hkeep⟩ := hmove
  obtain ⟨crt', pos', hlt, heq', hshows', hkeep'⟩ := scroll_displays hshows hle
  have hok : ¬ 25 * 80 < pos := by omega
  refine ⟨⟨Function.update crt' pos' space, BitVec.ofNat 8 (pos' / 256), BitVec.ofNat 8 pos'⟩,
    ?_, ?_, ?_⟩
  · simp only [cgaputc, heq, if_neg hok, heq']
  · rw [Displays, pos_of_registers _ hlt]
    exact ⟨hshows'.write hlt space, hlt⟩
  · intro i hi
    have hne : i ≠ pos' := by omega
    simp only [Function.update_of_ne hne, hkeep' i hi, hkeep i hi]

theorem run_displays (h : Displays p s) (cs : List Word) :
    ∃ t, cs.foldlM cgaputc s = some t ∧ Displays (cs.foldl put p) t ∧
      ∀ i, 24 * 80 ≤ i → t.crt i = s.crt i := by
  induction cs generalizing p s with
  | nil => exact ⟨s, rfl, h, fun _ _ => rfl⟩
  | cons c cs ih =>
    obtain ⟨u, hu, hd, hkeep⟩ := cgaputc_displays h c
    obtain ⟨t, ht, hd', hkeep'⟩ := ih hd
    refine ⟨t, ?_, hd', fun i hi => (hkeep' i hi).trans (hkeep i hi)⟩
    simp [List.foldlM, hu, ht]

/-- What `cs` has put on the sheet behind the screen. -/
def paper (s : Screen) (cs : List Word) : Sheet Half :=
  cs.foldl put (sheetOf 24 80 0 s.crt s.pos)

end Xv6

/-! JOS -/

namespace Jos

def CRT_COLS : ℕ := 80
def CRT_SIZE : ℕ := 25 * CRT_COLS

structure Screen where
  crt_buf : ℕ → Half
  crt_pos : ℕ

/-- If no attribute given, then use black on white. -/
def withAttribute (c : Word) : Word := if c &&& ~~~0xFF = 0 then c ||| 0x0700 else c

/-- What '\b' leaves in the cell. -/
def erased (c : Word) : Half := ((c &&& ~~~0xff) ||| 0x20).setWidth 16

/-- The memmove() and the loop that scroll. -/
def moveUp (crt_buf : ℕ → Half) : ℕ → Half := fun i =>
  if i < CRT_SIZE - CRT_COLS then crt_buf (i + CRT_COLS)
  else if i < CRT_SIZE then space else crt_buf i

/-- The switch of cga_putc(), with `tab` for the spaces of '\t'. -/
def write (tab : Screen → Screen) (s : Screen) (c : Word) : Screen :=
  if c &&& 0xff = 8 then
    if 0 < s.crt_pos then
      ⟨Function.update s.crt_buf (s.crt_pos - 1) (erased c), s.crt_pos - 1⟩
    else s
  else if c &&& 0xff = 10 then
    let pos := (s.crt_pos + CRT_COLS) % 2 ^ 16
    ⟨s.crt_buf, pos - pos % CRT_COLS⟩
  else if c &&& 0xff = 13 then ⟨s.crt_buf, s.crt_pos - s.crt_pos % CRT_COLS⟩
  else if c &&& 0xff = 9 then tab s
  else ⟨Function.update s.crt_buf s.crt_pos (c.setWidth 16), (s.crt_pos + 1) % 2 ^ 16⟩

def Screen.scroll (s : Screen) : Screen :=
  if CRT_SIZE ≤ s.crt_pos then ⟨moveUp s.crt_buf, s.crt_pos - CRT_COLS⟩ else s

def putcWith (tab : Screen → Screen) (s : Screen) (c : Word) : Screen :=
  (write tab s (withAttribute c)).scroll

/-- A space is not a tab, so the calls for '\t' make none of their own. -/
def putSpace (s : Screen) : Screen := putcWith id s 0x20

def cga_putc (s : Screen) (c : Word) : Screen := putcWith putSpace^[5] s c

/-- The same on the sheet. -/
def writeSheet (tab : Sheet Half → Sheet Half) (p : Sheet Half) (c : Word) : Sheet Half :=
  if c &&& 0xff = 8 then
    if p.top * CRT_COLS < p.cursor then (p.back CRT_COLS).write (erased c) else p
  else if c &&& 0xff = 10 then p.newline CRT_COLS
  else if c &&& 0xff = 13 then p.home CRT_COLS
  else if c &&& 0xff = 9 then tab p
  else p.type (c.setWidth 16)

def putWith (tab : Sheet Half → Sheet Half) (p : Sheet Half) (c : Word) : Sheet Half :=
  (writeSheet tab p (withAttribute c)).feed 25 CRT_COLS

def put (p : Sheet Half) (c : Word) : Sheet Half := putWith (putWith id · 0x20)^[5] p c

def paper (s : Screen) (cs : List Word) : Sheet Half :=
  cs.foldl put (sheetOf 25 CRT_COLS space s.crt_buf s.crt_pos)

def Displays (p : Sheet Half) (s : Screen) : Prop :=
  Shows 25 CRT_COLS space p s.crt_buf s.crt_pos ∧ s.crt_pos < CRT_SIZE

/-- The memory behind the screen. -/
def SameBehind (s t : Screen) : Prop := ∀ i, CRT_SIZE ≤ i → t.crt_buf i = s.crt_buf i

variable {p : Sheet Half} {s t : Screen} {c : Word}

theorem SameBehind.trans {u : Screen} (h : SameBehind s t) (k : SameBehind t u) :
    SameBehind s u :=
  fun i hi => (k i hi).trans (h i hi)

theorem scroll_displays (h : Shows 25 CRT_COLS space p s.crt_buf s.crt_pos)
    (hpos : s.crt_pos < CRT_SIZE + CRT_COLS) :
    Displays (p.feed 25 CRT_COLS) s.scroll ∧ SameBehind s s.scroll := by
  simp only [Screen.scroll]
  split
  · next hfull =>
    have hsize : CRT_SIZE = 25 * CRT_COLS := rfl
    have hlast : CRT_SIZE - CRT_COLS = (25 - 1) * CRT_COLS := by decide
    refine ⟨⟨?_, ?_⟩, ?_⟩
    · apply h.feed (by decide) hfull
      · intro i hi
        simp only [moveUp, hlast, if_pos hi]
      · intro i hlow hi
        have hmoved : ¬ i < CRT_SIZE - CRT_COLS := by omega
        rw [← hsize] at hi
        simp only [moveUp, if_neg hmoved, if_pos hi]
    · simp only
      omega
    · intro i hi
      have hmoved : ¬ i < CRT_SIZE - CRT_COLS := by omega
      simp only [moveUp, if_neg hmoved, if_neg (not_lt.mpr hi)]
  · next hroom =>
    have hlt : s.crt_pos < CRT_SIZE := by omega
    rw [h.feed_of_lt hlt]
    exact ⟨⟨h, hlt⟩, fun _ _ => rfl⟩

/-- The switch leaves the cursor on the screen or at the start of the row below. -/
theorem write_shows {tab : Screen → Screen} {tabp : Sheet Half → Sheet Half}
    (htab : ∀ {p s}, Displays p s → Displays (tabp p) (tab s) ∧ SameBehind s (tab s))
    (h : Displays p s) (c : Word) :
    Shows 25 CRT_COLS space (writeSheet tabp p c) (write tab s c).crt_buf (write tab s c).crt_pos ∧
      (write tab s c).crt_pos < CRT_SIZE + CRT_COLS ∧ SameBehind s (write tab s c) := by
  obtain ⟨hs, hpos⟩ := h
  have hcursor := hs.cursor
  have hcols : CRT_COLS = 80 := rfl
  have hsize : CRT_SIZE = 25 * 80 := rfl
  simp only [writeSheet, write]
  split
  · split
    · next hne =>
      rw [if_pos (by omega)]
      refine ⟨hs.back.write ?_ _, ?_, ?_⟩
      · rw [hcols]
        omega
      · simp only
        omega
      · intro i hi
        exact Function.update_of_ne (by omega) ..
    · next hzero =>
      rw [if_neg (by omega)]
      exact ⟨hs, by omega, fun _ _ => rfl⟩
  · split
    · have hrow : (s.crt_pos + CRT_COLS) % 2 ^ 16 - (s.crt_pos + CRT_COLS) % 2 ^ 16 % CRT_COLS =
          (s.crt_pos / CRT_COLS + 1) * CRT_COLS := by
        simp only [CRT_COLS]
        omega
      refine ⟨?_, ?_, fun _ _ => rfl⟩
      · simp only [hrow]
        exact hs.newline (by decide)
      · simp only
        omega
    · split
      · have hrow : s.crt_pos - s.crt_pos % CRT_COLS = s.crt_pos / CRT_COLS * CRT_COLS := by
          simp only [CRT_COLS]
          omega
        refine ⟨?_, ?_, fun _ _ => rfl⟩
        · simp only [hrow]
          exact hs.home (by decide)
        · simp only
          omega
      · split
        · obtain ⟨⟨ht, hlt⟩, hkeep⟩ := htab ⟨hs, hpos⟩
          exact ⟨ht, by omega, hkeep⟩
        · have hnext : (s.crt_pos + 1) % 2 ^ 16 = s.crt_pos + 1 := by omega
          simp only [hnext]
          refine ⟨hs.type hpos _, by omega, ?_⟩
          intro i hi
          exact Function.update_of_ne (by omega) ..

theorem putcWith_displays {tab : Screen → Screen} {tabp : Sheet Half → Sheet Half}
    (htab : ∀ {p s}, Displays p s → Displays (tabp p) (tab s) ∧ SameBehind s (tab s))
    (h : Displays p s) (c : Word) :
    Displays (putWith tabp p c) (putcWith tab s c) ∧ SameBehind s (putcWith tab s c) := by
  obtain ⟨hs, hpos, hkeep⟩ := write_shows htab h (withAttribute c)
  obtain ⟨hd, hkeep'⟩ := scroll_displays hs hpos
  exact ⟨hd, hkeep.trans hkeep'⟩

theorem iterate_displays {f : Screen → Screen} {g : Sheet Half → Sheet Half}
    (hf : ∀ {p s}, Displays p s → Displays (g p) (f s) ∧ SameBehind s (f s)) (n : ℕ)
    (h : Displays p s) : Displays (g^[n] p) (f^[n] s) ∧ SameBehind s (f^[n] s) := by
  induction n generalizing p s with
  | zero => exact ⟨h, fun _ _ => rfl⟩
  | succ n ih =>
    obtain ⟨hd, hkeep⟩ := hf h
    obtain ⟨hd', hkeep'⟩ := ih hd
    exact ⟨hd', hkeep.trans hkeep'⟩

theorem cga_putc_displays (h : Displays p s) (c : Word) :
    Displays (put p c) (cga_putc s c) ∧ SameBehind s (cga_putc s c) := by
  refine putcWith_displays (fun h => iterate_displays (fun h => ?_) 5 h) h c
  exact putcWith_displays (fun h => ⟨h, fun _ _ => rfl⟩) h 0x20

theorem run_displays (h : Displays p s) (cs : List Word) :
    Displays (cs.foldl put p) (cs.foldl cga_putc s) ∧ SameBehind s (cs.foldl cga_putc s) := by
  induction cs generalizing p s with
  | nil => exact ⟨h, fun _ _ => rfl⟩
  | cons c cs ih =>
    obtain ⟨hd, hkeep⟩ := cga_putc_displays h c
    obtain ⟨hd', hkeep'⟩ := ih hd
    exact ⟨hd', hkeep.trans hkeep'⟩

end Jos

/-- Whatever is printed, each driver's screen is the window of its sheet that the cursor is
in: nothing panics, no row is lost or out of order, and the memory behind the screen stays. -/
theorem screens_show_sheets (x : Xv6.Screen) (hx : x.pos < 24 * 80) (j : Jos.Screen)
    (hj : j.crt_pos < Jos.CRT_SIZE) (cs : List Word) :
    (∃ t, cs.foldlM Xv6.cgaputc x = some t ∧ Xv6.Displays (Xv6.paper x cs) t ∧
        ∀ i, 24 * 80 ≤ i → t.crt i = x.crt i) ∧
      Jos.Displays (Jos.paper j cs) (cs.foldl Jos.cga_putc j) ∧
      Jos.SameBehind j (cs.foldl Jos.cga_putc j) := by
  refine ⟨Xv6.run_displays ⟨shows_sheetOf _ _ _ _ _, hx⟩ cs, ?_⟩
  exact Jos.run_displays ⟨shows_sheetOf _ _ _ _ _, hj⟩ cs

/-- Both cursors are near the end of the last row. -/
def endOfScreen : Xv6.Screen := ⟨fun i => BitVec.ofNat 16 i, 7, 127⟩

def endOfJos : Jos.Screen := ⟨fun i => BitVec.ofNat 16 i, Jos.CRT_SIZE - 1⟩

def scrolled : List Word := [0x41, 0x42, 0x08, 0x100, 0x0a, 0x09, 0x43]

theorem screens_show_sheets_scrolled :
    ((∃ t, scrolled.foldlM Xv6.cgaputc endOfScreen = some t ∧
        Xv6.Displays (Xv6.paper endOfScreen scrolled) t ∧
        ∀ i, 24 * 80 ≤ i → t.crt i = endOfScreen.crt i) ∧
      Jos.Displays (Jos.paper endOfJos scrolled) (scrolled.foldl Jos.cga_putc endOfJos) ∧
      Jos.SameBehind endOfJos (scrolled.foldl Jos.cga_putc endOfJos)) ∧
    (Xv6.paper endOfScreen scrolled).top = 2 ∧ (Jos.paper endOfJos scrolled).top = 2 :=
  ⟨screens_show_sheets endOfScreen (by decide) endOfJos (by decide) scrolled, by decide +kernel,
    by decide +kernel⟩

end Screens
