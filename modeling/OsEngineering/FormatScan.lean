import OsEngineering.PrintFormat
import Mathlib.Data.List.TakeWhile

/-! What vprintfmt() makes of a format: it takes it piece by piece, and never reads outside of
it. -/
namespace FormatScan

open ByteBlock Console OutputPrograms PrintNumber PrintFormat

/-- The characters that reswitch goes on after. -/
def IsModifier (c : Byte) : Bool :=
  c = chr '-' ∨ isDigit c ∨ c = chr '*' ∨ c = chr '.' ∨ c = chr '#' ∨ c = chr 'l'

def conversions : List Byte := bytes ['c', 'e', 's', 'd', 'u', 'o', 'p', 'x', '%']

inductive Piece where
  | text (c : Byte)
  | conversion (mods : List Byte) (d : Byte)
  /-- From the percent sign on, with the character that is not recognised or up to the end. -/
  | unrecognised (escape : List Byte)

def Piece.source : Piece → List Byte
  | .text c => [c]
  | .conversion mods d => chr '%' :: (mods ++ [d])
  | .unrecognised escape => escape

theorem rest_length {fmt rest : List Byte} {d : Byte} (h : fmt.dropWhile IsModifier = d :: rest) :
    rest.length < fmt.length := by
  have hle := List.length_dropWhile_le (p := IsModifier) fmt
  rw [h, List.length_cons] at hle
  omega

def pieces : List Byte → List Piece
  | [] => []
  | c :: fmt =>
    if c = chr '%' then
      match h : fmt.dropWhile IsModifier with
      | [] => [.unrecognised (c :: fmt)]
      | d :: rest =>
        have := rest_length h
        if d ∈ conversions then .conversion (fmt.takeWhile IsModifier) d :: pieces rest
        else .unrecognised (c :: (fmt.takeWhile IsModifier ++ [d])) :: pieces rest
    else .text c :: pieces fmt
termination_by fmt => fmt.length

/-! The equations of `pieces` -/

variable {mods fmt : List Byte} {c d : Byte}

/-- The characters of an escape that come before the one it is named after. -/
def Modifiers (mods : List Byte) : Prop := ∀ c ∈ mods, IsModifier c = true

theorem takeWhile_mods (h : Modifiers mods) (hd : IsModifier d = false) (rest : List Byte) :
    (mods ++ d :: rest).takeWhile IsModifier = mods := by
  rw [List.takeWhile_append_of_pos h, List.takeWhile_cons_of_neg (by rw [hd]; exact nofun),
    List.append_nil]

theorem dropWhile_mods (h : Modifiers mods) (hd : IsModifier d = false) (rest : List Byte) :
    (mods ++ d :: rest).dropWhile IsModifier = d :: rest := by
  rw [List.dropWhile_append_of_pos h, List.dropWhile_cons_of_neg (by rw [hd]; exact nofun)]

theorem pieces_text (h : c ≠ chr '%') (fmt : List Byte) :
    pieces (c :: fmt) = .text c :: pieces fmt := by
  rw [pieces, if_neg h]

theorem pieces_unended (h : Modifiers mods) :
    pieces (chr '%' :: mods) = [.unrecognised (chr '%' :: mods)] := by
  have hdrop : mods.dropWhile IsModifier = [] := List.dropWhile_eq_nil_iff.mpr h
  rw [pieces, if_pos rfl]
  split
  next => rfl
  next heq =>
    rw [hdrop] at heq
    cases heq

theorem pieces_escape (h : Modifiers mods) (hd : IsModifier d = false) (rest : List Byte) :
    pieces (chr '%' :: (mods ++ d :: rest)) =
      (if d ∈ conversions then .conversion mods d
        else .unrecognised (chr '%' :: (mods ++ [d]))) :: pieces rest := by
  have hdrop := dropWhile_mods h hd rest
  rw [pieces, if_pos rfl, takeWhile_mods h hd]
  split
  next heq =>
    rw [hdrop] at heq
    cases heq
  next heq =>
    rw [hdrop] at heq
    cases heq
    split <;> rfl

/-- A format begins with text or with an escape. -/
theorem format_induction {P : List Byte → Prop} (nil : P [])
    (text : ∀ c fmt, c ≠ chr '%' → P fmt → P (c :: fmt))
    (unended : ∀ mods, Modifiers mods → P (chr '%' :: mods))
    (escape : ∀ mods d rest, Modifiers mods → IsModifier d = false → P rest →
      P (chr '%' :: (mods ++ d :: rest))) (fmt : List Byte) : P fmt := by
  induction hn : fmt.length using Nat.strongRecOn generalizing fmt with
  | ind n ih =>
    cases fmt with
    | nil => exact nil
    | cons c fmt =>
      rw [List.length_cons] at hn
      by_cases hc : c = chr '%'
      · subst hc
        cases hdrop : fmt.dropWhile IsModifier with
        | nil => exact unended fmt (List.dropWhile_eq_nil_iff.mp hdrop)
        | cons d rest =>
          have hlen := rest_length hdrop
          have hfmt := List.takeWhile_append_dropWhile (p := IsModifier) (l := fmt)
          rw [hdrop] at hfmt
          rw [← hfmt]
          refine escape _ d rest (fun c hc => List.mem_takeWhile_imp hc) ?_
            (ih rest.length (by omega) rest rfl)
          have hhead := List.head_dropWhile_not IsModifier (l := fmt) (by rw [hdrop]; exact nofun)
          simp only [hdrop, List.head_cons] at hhead
          exact hhead
      · exact text c fmt hc (ih fmt.length (by omega) fmt rfl)

/-- The pieces make up the format. -/
theorem source_pieces (fmt : List Byte) : (pieces fmt).flatMap Piece.source = fmt := by
  induction fmt using format_induction with
  | nil => rw [pieces, List.flatMap_nil]
  | text c fmt h ih => rw [pieces_text h, List.flatMap_cons, ih, Piece.source, List.singleton_append]
  | unended mods h =>
    rw [pieces_unended h, List.flatMap_cons, List.flatMap_nil, List.append_nil, Piece.source]
  | escape mods d rest h hd ih =>
    rw [pieces_escape h hd, List.flatMap_cons, ih]
    split <;> rw [Piece.source, List.cons_append, List.append_assoc, List.singleton_append]

/-! Reading the flags -/

variable {before after rest : List Byte} {ap : List Word} {f : Flags} {k : ℕ}

/-- What the loop of the width field makes of digits. -/
def decimal (precision : Word) (ds : List Byte) : Word :=
  ds.foldl (fun precision ch => precision * 10 + ch.setWidth 32 - 48) precision

theorem widthField_reads {ds : List Byte} (hds : ∀ c ∈ ds, isDigit c = true)
    (hd : isDigit d = false) (hk : ds.length < k) (precision : Word) (c : Byte) :
    widthField k precision c ⟨before, ds ++ d :: rest⟩ =
      .ok (decimal precision (c :: ds), ⟨ds.reverse ++ before, d :: rest⟩) := by
  induction ds generalizing k precision c before with
  | nil =>
    obtain ⟨k, rfl⟩ := Nat.exists_eq_add_of_lt hk
    rw [List.nil_append, List.length_nil, Nat.zero_add, widthField]
    change (if isDigit d then _ else _) = _
    rw [hd]
    rfl
  | cons e ds ih =>
    obtain ⟨k, rfl⟩ : ∃ j, k = j + 1 := Nat.exists_eq_add_one.mpr (by omega)
    have he : isDigit e = true := hds e List.mem_cons_self
    rw [List.length_cons] at hk
    have hmore : widthField k (precision * 10 + c.setWidth 32 - 48) e
        ⟨e :: before, ds ++ d :: rest⟩ = _ :=
      ih (fun c hc => hds c (List.mem_cons_of_mem e hc)) (by omega) _ e
    rw [List.cons_append, widthField]
    change (if isDigit e then widthField k (precision * 10 + c.setWidth 32 - 48) e
      ⟨e :: before, ds ++ d :: rest⟩ else _) = _
    rw [he, if_pos rfl, hmore, List.reverse_cons, List.append_assoc]
    rfl

theorem reswitch_minus : reswitch (k + 1) ⟨⟨before, chr '-' :: after⟩, ap, f⟩ =
    reswitch k ⟨⟨chr '-' :: before, after⟩, ap, { f with padc := chr '-' }⟩ := rfl

theorem reswitch_zero : reswitch (k + 1) ⟨⟨before, chr '0' :: after⟩, ap, f⟩ =
    reswitch k ⟨⟨chr '0' :: before, after⟩, ap, { f with padc := chr '0' }⟩ := rfl

theorem reswitch_star (w : Word) : reswitch (k + 1) ⟨⟨before, chr '*' :: after⟩, w :: ap, f⟩ =
    reswitch k ⟨⟨chr '*' :: before, after⟩, ap, f.processPrecision w⟩ := rfl

theorem reswitch_dot : reswitch (k + 1) ⟨⟨before, chr '.' :: after⟩, ap, f⟩ =
    reswitch k ⟨⟨chr '.' :: before, after⟩, ap,
      { f with width := if f.width.toInt < 0 then 0 else f.width }⟩ := rfl

theorem reswitch_sharp : reswitch (k + 1) ⟨⟨before, chr '#' :: after⟩, ap, f⟩ =
    reswitch k ⟨⟨chr '#' :: before, after⟩, ap, { f with altflag := true }⟩ := rfl

theorem reswitch_l : reswitch (k + 1) ⟨⟨before, chr 'l' :: after⟩, ap, f⟩ =
    reswitch k ⟨⟨chr 'l' :: before, after⟩, ap, { f with lflag := f.lflag + 1 }⟩ := rfl

theorem reswitch_digits {ds : List Byte} (hc : isDigit c = true) (hzero : c ≠ chr '0')
    (hds : ∀ c ∈ ds, isDigit c = true) (hd : isDigit d = false) (hk : ds.length ≤ k) :
    reswitch (k + 1) ⟨⟨before, c :: (ds ++ d :: rest)⟩, ap, f⟩ =
      reswitch k ⟨⟨ds.reverse ++ c :: before, d :: rest⟩, ap,
        f.processPrecision (decimal 0 (c :: ds))⟩ := by
  have hminus : c ≠ chr '-' := by
    rintro rfl
    exact absurd hc (by decide)
  have hread : widthField (k + 1) 0 c ⟨c :: before, ds ++ d :: rest⟩ = _ :=
    widthField_reads hds hd (Nat.lt_succ_of_le hk) 0 c
  rw [reswitch]
  change (if c = chr '-' then _ else if c = chr '0' then _ else if isDigit c then
    (widthField (k + 1) 0 c ⟨c :: before, ds ++ d :: rest⟩ >>= _) else _) = _
  rw [if_neg hminus, if_neg hzero, if_pos hc, hread]
  rfl

theorem reswitch_stop (hd : IsModifier d = false) :
    reswitch (k + 1) ⟨⟨before, d :: after⟩, ap, f⟩ = .ok (d, ⟨⟨d :: before, after⟩, ap, f⟩) := by
  simp only [IsModifier, decide_eq_false_iff_not, not_or] at hd
  obtain ⟨hminus, hdigit, hstar, hdot, hsharp, hl⟩ := hd
  have hzero : d ≠ chr '0' := by
    rintro rfl
    exact hdigit (by decide)
  rw [reswitch]
  change (if d = chr '-' then _ else if d = chr '0' then _ else if isDigit d then _ else
    if d = chr '*' then _ else if d = chr '.' then _ else if d = chr '#' then _ else
    if d = chr 'l' then _ else _) = _
  rw [if_neg hminus, if_neg hzero, if_neg hdigit, if_neg hstar, if_neg hdot, if_neg hsharp,
    if_neg hl]
  rfl

theorem lflag_processPrecision (f : Flags) (w : Word) : (f.processPrecision w).lflag = f.lflag := by
  unfold Flags.processPrecision
  split <;> rfl

theorem notMem_digits {ds : List Byte} (hds : ∀ c ∈ ds, isDigit c = true) {c : Byte}
    (hc : isDigit c = false) : ds.count c = 0 := by
  apply List.count_eq_zero.mpr
  intro hmem
  rw [hds c hmem] at hc
  cases hc

/-- After the modifiers of an escape the switch stands at the character that follows them, wherever
the escape is. -/
def Reads (mods : List Byte) (d : Byte) (ap : List Word) (f : Flags) (ap' : List Word)
    (f' : Flags) : Prop :=
  ∀ before rest k, mods.length < k → reswitch k ⟨⟨before, mods ++ d :: rest⟩, ap, f⟩ =
    .ok (d, ⟨⟨d :: (mods.reverse ++ before), rest⟩, ap', f'⟩)

variable {ap₁ ap' : List Word} {f₁ f' : Flags}

theorem Reads.nil (hd : IsModifier d = false) (ap : List Word) (f : Flags) :
    Reads [] d ap f ap f := by
  intro before rest k hk
  obtain ⟨k, rfl⟩ : ∃ j, k = j + 1 := Nat.exists_eq_add_one.mpr (by omega)
  exact reswitch_stop hd

theorem Reads.cons (hstep : ∀ before after k, reswitch (k + 1) ⟨⟨before, c :: after⟩, ap, f⟩ =
    reswitch k ⟨⟨c :: before, after⟩, ap₁, f₁⟩) (h : Reads mods d ap₁ f₁ ap' f') :
    Reads (c :: mods) d ap f ap' f' := by
  intro before rest k hk
  rw [List.length_cons] at hk
  obtain ⟨k, rfl⟩ : ∃ j, k = j + 1 := Nat.exists_eq_add_one.mpr (by omega)
  rw [List.cons_append, hstep, h (c :: before) rest k (by omega), List.reverse_cons,
    List.append_assoc]
  rfl

/-- All digits that stand together are one number. -/
theorem Reads.digits {ds : List Byte} (hc : isDigit c = true) (hzero : c ≠ chr '0')
    (hds : ∀ c ∈ ds, isDigit c = true) (hd : isDigit ((mods ++ [d]).headD 0) = false)
    (h : Reads mods d ap (f.processPrecision (decimal 0 (c :: ds))) ap' f') :
    Reads (c :: (ds ++ mods)) d ap f ap' f' := by
  intro before rest k hk
  rw [List.length_cons, List.length_append] at hk
  obtain ⟨k, rfl⟩ : ∃ j, k = j + 1 := Nat.exists_eq_add_one.mpr (by omega)
  have hmore := h (ds.reverse ++ c :: before) rest k (by omega)
  have hwhere : d :: (mods.reverse ++ (ds.reverse ++ c :: before)) =
      d :: ((c :: (ds ++ mods)).reverse ++ before) := by
    rw [List.reverse_cons, List.reverse_append, List.append_assoc, List.append_assoc]
    rfl
  rw [hwhere] at hmore
  rw [List.cons_append, List.append_assoc, ← hmore]
  cases mods with
  | nil => exact reswitch_digits hc hzero hds hd (by omega)
  | cons e mods => exact reswitch_digits hc hzero hds hd (by omega)

/-- Each asterisk takes an argument. -/
def stars (mods : List Byte) : ℕ := mods.count (chr '*')

def longs (mods : List Byte) : Word := BitVec.ofNat 32 (mods.count (chr 'l'))

theorem not_digit (hd : IsModifier d = false) : isDigit d = false := by
  simp only [IsModifier, decide_eq_false_iff_not, not_or] at hd
  exact Bool.eq_false_iff.mpr hd.2.1

theorem digit_run (mods : List Byte) (hd : IsModifier d = false) : ∃ ds more, mods = ds ++ more ∧
    (∀ c ∈ ds, isDigit c = true) ∧ isDigit ((more ++ [d]).headD 0) = false := by
  refine ⟨mods.takeWhile isDigit, mods.dropWhile isDigit, List.takeWhile_append_dropWhile.symm,
    fun c hc => List.mem_takeWhile_imp hc, ?_⟩
  cases hmore : mods.dropWhile isDigit with
  | nil => exact not_digit hd
  | cons e more =>
    have hhead := List.head_dropWhile_not isDigit (l := mods) (by rw [hmore]; exact nofun)
    simp only [hmore, List.head_cons] at hhead
    exact hhead

theorem exists_reads (h : Modifiers mods) (hd : IsModifier d = false) (f : Flags)
    (hap : stars mods ≤ ap.length) : ∃ f' : Flags, f'.lflag = f.lflag + longs mods ∧
      Reads mods d ap f (ap.drop (stars mods)) f' := by
  induction hn : mods.length using Nat.strongRecOn generalizing mods ap f with
  | ind n ih =>
    cases mods with
    | nil => exact ⟨f, (BitVec.add_zero _).symm, .nil hd ap f⟩
    | cons c mods =>
      have hmods : Modifiers mods := fun e he => h e (List.mem_cons_of_mem c he)
      have hc := h c List.mem_cons_self
      rw [List.length_cons] at hn
      have hplain : ∀ f₁ : Flags, f₁.lflag = f.lflag → c ≠ chr '*' → c ≠ chr 'l' →
          (∀ before after k, reswitch (k + 1) ⟨⟨before, c :: after⟩, ap, f⟩ =
            reswitch k ⟨⟨c :: before, after⟩, ap, f₁⟩) →
          ∃ f' : Flags, f'.lflag = f.lflag + longs (c :: mods) ∧
            Reads (c :: mods) d ap f (ap.drop (stars (c :: mods))) f' := by
        intro f₁ hf₁ hstar hl hstep
        have hstars : stars (c :: mods) = stars mods := List.count_cons_of_ne hstar
        have hlongs : longs (c :: mods) = longs mods :=
          congrArg (BitVec.ofNat 32) (List.count_cons_of_ne hl)
        obtain ⟨f', hf', hreads⟩ := ih mods.length (by omega) hmods f₁ (hstars ▸ hap) rfl
        rw [hstars, hlongs]
        exact ⟨f', hf'.trans (by rw [hf₁]), hreads.cons hstep⟩
      simp only [IsModifier, decide_eq_true_eq] at hc
      rcases hc with rfl | hdigit | rfl | rfl | rfl | rfl
      · exact hplain { f with padc := chr '-' } rfl (by decide) (by decide) fun _ _ _ =>
          reswitch_minus
      · by_cases hzero : c = chr '0'
        · subst hzero
          exact hplain { f with padc := chr '0' } rfl (by decide) (by decide) fun _ _ _ =>
            reswitch_zero
        · obtain ⟨ds, more, rfl, hds, hmore⟩ := digit_run mods hd
          have hall : ∀ e ∈ c :: ds, isDigit e = true := by
            intro e he
            rcases List.mem_cons.mp he with rfl | he
            · exact hdigit
            · exact hds e he
          have hcount : ∀ e, isDigit e = false → (c :: (ds ++ more)).count e = more.count e := by
            intro e he
            rw [← List.cons_append, List.count_append, notMem_digits hall he, Nat.zero_add]
          have hstars : stars (c :: (ds ++ more)) = stars more := hcount _ (by decide)
          have hlongs : longs (c :: (ds ++ more)) = longs more :=
            congrArg (BitVec.ofNat 32) (hcount _ (by decide))
          rw [List.length_append] at hn
          obtain ⟨f', hf', hreads⟩ := ih more.length (by omega)
            (fun e he => hmods e (List.mem_append_right ds he))
            (f.processPrecision (decimal 0 (c :: ds))) (hstars ▸ hap) rfl
          rw [lflag_processPrecision] at hf'
          rw [hstars, hlongs]
          exact ⟨f', hf', hreads.digits hdigit hzero hds hmore⟩
      · have hstars : stars (chr '*' :: mods) = stars mods + 1 := List.count_cons_self
        have hlongs : longs (chr '*' :: mods) = longs mods :=
          congrArg (BitVec.ofNat 32) (List.count_cons_of_ne (by decide))
        rw [hstars] at hap
        cases ap with
        | nil => exact absurd hap (by simp)
        | cons w ap =>
          obtain ⟨f', hf', hreads⟩ := ih mods.length (by omega) hmods (f.processPrecision w)
            (Nat.le_of_succ_le_succ hap) rfl
          rw [lflag_processPrecision] at hf'
          rw [hstars, hlongs, List.drop_succ_cons]
          exact ⟨f', hf', hreads.cons fun _ _ _ => reswitch_star w⟩
      · exact hplain { f with width := if f.width.toInt < 0 then 0 else f.width } rfl (by decide)
          (by decide) fun _ _ _ => reswitch_dot
      · exact hplain { f with altflag := true } rfl (by decide) (by decide) fun _ _ _ =>
          reswitch_sharp
      · have hstars : stars (chr 'l' :: mods) = stars mods := List.count_cons_of_ne (by decide)
        have hlongs : longs (chr 'l' :: mods) = 1 + longs mods := by
          unfold longs
          rw [List.count_cons_self, Nat.add_comm, BitVec.ofNat_add]
          rfl
        obtain ⟨f', hf', hreads⟩ := ih mods.length (by omega) hmods
          { f with lflag := f.lflag + 1 } (hstars ▸ hap) rfl
        rw [hstars, hlongs, ← BitVec.add_assoc]
        exact ⟨f', hf', hreads.cons fun _ _ _ => reswitch_l⟩

/-! What the conversions print -/

variable {strings : Strings} {num : BitVec 64} {base : Word}

def numberChars (num : BitVec 64) (base : Word) (f : Flags) : List Word :=
  List.replicate
    (f.width - BitVec.ofNat 32 (Numerals.numeral base.toNat num.toNat).length).toInt.toNat
    (f.padc.setWidth 32) ++ (Numerals.numeral base.toNat num.toNat).map digit

theorem number_prints (hlow : 1 < base.toNat) (hhigh : base.toNat ≤ 16) (hk : 64 ≤ k)
    (num : BitVec 64) (f : Flags) :
    Prints (fun _ putch => number putch k num base f) () (numberChars num base f) :=
  printnum_prints hlow hhigh _ (Nat.le_trans (digits_le hlow num) hk) _

def intWords (lflag : Word) : ℕ := if 2 ≤ lflag.toInt then 2 else 1

theorem getuint_ok {lflag : Word} (h : intWords lflag ≤ ap.length) :
    ∃ num, getuint ap lflag = .ok (num, ap.drop (intWords lflag)) := by
  unfold getuint
  unfold intWords at h ⊢
  split at h
  next hlong =>
    rw [if_pos hlong, if_pos hlong]
    match ap, h with
    | low :: high :: ap, _ => exact ⟨high ++ low, rfl⟩
  next hlong =>
    rw [if_neg hlong, if_neg hlong]
    match ap, h with
    | w :: ap, _ => exact ⟨w.setWidth 64, rfl⟩

theorem getint_ok {lflag : Word} (h : intWords lflag ≤ ap.length) :
    ∃ num, getint ap lflag = .ok (num, ap.drop (intWords lflag)) := by
  unfold getint
  unfold intWords at h ⊢
  split at h
  next hlong =>
    rw [if_pos hlong, if_pos hlong]
    match ap, h with
    | low :: high :: ap, _ => exact ⟨high ++ low, rfl⟩
  next hlong =>
    rw [if_neg hlong, if_neg hlong]
    match ap, h with
    | w :: ap, _ => exact ⟨w.signExtend 64, rfl⟩

theorem putPad_prints (c width : Word) : Prints (fun _ putch => putPad putch c width)
    (if 0 < width.toInt then 0 else width) (List.replicate width.toInt.toNat c) := by
  unfold putPad
  exact .congr (.bind (putTimes_prints c width.toInt.toNat) (.pure _)) (List.append_nil _)

theorem exists_putString (altflag : Bool) (p : List Byte) (precision width : Word) :
    ∃ w cs, Prints (fun _ putch => putString putch altflag p precision width) w cs := by
  induction p generalizing precision width with
  | nil => exact ⟨width, [], .pure width⟩
  | cons c p ih =>
    have hstep : ∀ next : Word, ∃ w cs, Prints (fun _ putch => (if precision.toInt < 0 ∨
        0 ≤ next.toInt then do
          modify (putch (if altflag ∧ ((c.signExtend 32).toInt < 32 ∨
            126 < (c.signExtend 32).toInt) then int '?' else c.signExtend 32))
          putString putch altflag p next (width - 1)
        else pure width : StateT _ (Except Stop) Word)) w cs := by
      intro next
      by_cases hmore : precision.toInt < 0 ∨ 0 ≤ next.toInt
      · obtain ⟨w, cs, h⟩ := ih next (width - 1)
        simp only [if_pos hmore]
        exact ⟨w, _, (Prints.putch _).bind h⟩
      · simp only [if_neg hmore]
        exact ⟨width, [], .pure width⟩
    exact hstep _

theorem exists_printString (f : Flags) (p : List Byte) :
    ∃ cs, Prints (fun _ putch => printString putch f p) () cs := by
  have hrest : ∀ width, ∃ cs, Prints (fun _ putch => (do
      let width ← putString putch f.altflag p f.precision width
      let _ ← putPad putch (int ' ') width
      pure ())) () cs := by
    intro width
    obtain ⟨w, cs, h⟩ := exists_putString f.altflag p f.precision width
    exact ⟨_, h.bind ((putPad_prints (int ' ') w).bind (.pure ()))⟩
  unfold printString
  split
  next =>
    obtain ⟨cs, h⟩ := hrest _
    exact ⟨_, (putPad_prints _ _).bind h⟩
  next =>
    obtain ⟨cs, h⟩ := hrest _
    exact ⟨_, (Prints.pure _).bind h⟩

/-! The loop over the format -/

variable {cs out : List Word} {fmt' : Ptr}

/-- A character as putch() gets it from the format. -/
def plain (s : List Byte) : List Word := s.map fun c => c.setWidth 32

theorem end_prints (strings : Strings) (k : ℕ) (before after : List Byte) (ap : List Word) :
    Prints (fun _ putch => vprintfmt putch strings (k + 1) ⟨before, 0 :: after⟩ ap) () [] :=
  fun _ _ _ => rfl

theorem text_prints (hc : c ≠ chr '%') (hzero : c ≠ 0)
    (h : Prints (fun _ putch => vprintfmt putch strings k ⟨c :: before, after⟩ ap) () out) :
    Prints (fun _ putch => vprintfmt putch strings (k + 1) ⟨before, c :: after⟩ ap) ()
      (c.setWidth 32 :: out) := by
  have hfetch : fetch ⟨before, c :: after⟩ = .ok (c, ⟨c :: before, after⟩) := rfl
  unfold vprintfmt
  refine Prints.lift_bind hfetch ?_
  simp only [if_neg hc, if_neg hzero]
  exact (Prints.putch _).bind h

theorem texts_print {s : List Byte} (hs : ∀ c ∈ s, c ≠ chr '%' ∧ c ≠ 0)
    (h : Prints (fun _ putch => vprintfmt putch strings k ⟨s.reverse ++ before, after⟩ ap) ()
      out) :
    Prints (fun _ putch => vprintfmt putch strings (s.length + k) ⟨before, s ++ after⟩ ap) ()
      (plain s ++ out) := by
  induction s generalizing before with
  | nil =>
    rw [List.length_nil, Nat.zero_add]
    exact h
  | cons c s ih =>
    rw [List.reverse_cons, List.append_assoc] at h
    obtain ⟨hc, hzero⟩ := hs c List.mem_cons_self
    have hmore := ih (fun e he => hs e (List.mem_cons_of_mem c he)) h
    rw [List.length_cons, Nat.add_right_comm]
    exact text_prints hc hzero hmore

/-- The switch, for a conversion or what is none. -/
abbrev switch (strings : Strings) (k : ℕ) (d : Byte) (st : Scan) : Program Word Stop Scan :=
  fun _ putch => convert putch strings (fun fmt ap => vprintfmt putch strings k (.start fmt) ap)
    k d st

theorem escape_prints (hreads : Reads mods d ap .none ap' f')
    (hk : mods.length < k)
    (hconv : Prints (switch strings k d
      ⟨⟨d :: (mods.reverse ++ chr '%' :: before), rest⟩, ap', f'⟩) ⟨fmt', ap₁, f'⟩ cs)
    (h : Prints (fun _ putch => vprintfmt putch strings k fmt' ap₁) () out) :
    Prints (fun _ putch =>
      vprintfmt putch strings (k + 1) ⟨before, chr '%' :: (mods ++ d :: rest)⟩ ap) ()
      (cs ++ out) := by
  have hfetch : fetch ⟨before, chr '%' :: (mods ++ d :: rest)⟩ =
      .ok (chr '%', ⟨chr '%' :: before, mods ++ d :: rest⟩) := rfl
  unfold vprintfmt
  refine Prints.lift_bind hfetch ?_
  refine Prints.lift_bind (hreads (chr '%' :: before) rest k hk) ?_
  exact hconv.bind h

/-! The conversions -/

/-- The words that a conversion takes from the arguments. -/
def argWords (d : Byte) (lflag : Word) : ℕ :=
  if d ∈ bytes ['d', 'u', 'o', 'x'] then intWords lflag else if d = chr '%' then 0 else 1

theorem vaArg_ok (h : 1 ≤ ap.length) : ∃ w, vaArg ap = .ok (w, ap.drop 1) := by
  cases ap with
  | nil => exact absurd h (by decide)
  | cons w ap => exact ⟨w, rfl⟩

theorem unsigned_prints (hlow : 1 < base.toNat) (hhigh : base.toNat ≤ 16) (hk : 64 ≤ k)
    {ptr : Ptr} (hnum : getuint ap f.lflag = .ok (num, ap')) :
    Prints (fun σ putch => (do
        let (num, ap) ← getuint ap f.lflag
        number putch k num base f
        pure ⟨ptr, ap, f⟩ : StateT σ (Except Stop) Scan)) ⟨ptr, ap', f⟩
      (numberChars num base f) :=
  .lift_bind hnum (.congr (.bind (number_prints hlow hhigh hk num f) (.pure _))
    (List.append_nil _))

/-- The sign and what is left of the number. -/
def signChars (num : BitVec 64) : List Word := if num.toInt < 0 then [int '-'] else []

def magnitude (num : BitVec 64) : BitVec 64 := if num.toInt < 0 then -num else num

theorem signed_prints (hk : 64 ≤ k) {ptr : Ptr} (hnum : getint ap f.lflag = .ok (num, ap')) :
    Prints (switch strings k (chr 'd') ⟨ptr, ap, f⟩) ⟨ptr, ap', f⟩
      (signChars num ++ numberChars (magnitude num) 10 f) := by
  have hsign : Prints (fun σ putch => (if num.toInt < 0 then do
      modify (putch (int '-'))
      pure (-num) else pure num : StateT σ (Except Stop) (BitVec 64))) (magnitude num)
      (signChars num) := by
    unfold magnitude signChars
    by_cases hneg : num.toInt < 0
    · simp only [if_pos hneg]
      exact .bind (.putch _) (.pure _)
    · simp only [if_neg hneg]
      exact .pure num
  have hnumber : Prints (fun _ putch => number putch k (magnitude num) 10 f) () _ :=
    number_prints (by decide) (by decide) hk (magnitude num) f
  refine Prints.lift_bind hnum (hsign.bind ?_)
  exact .congr (.bind hnumber (.pure _)) (List.append_nil _)

/-- Only the smallest int is its own negation and below zero. -/
theorem abs_cases (err : Word) : 0 ≤ (if err.toInt < 0 then -err else err).toInt ∨
    (if err.toInt < 0 then -err else err).toNat = 2 ^ 31 := by
  have hneg := BitVec.toNat_neg err
  have hlt := err.isLt
  rw [BitVec.toInt_eq_toNat_cond err]
  split
  next hpos =>
    rw [if_neg (by omega), BitVec.toInt_eq_toNat_cond, if_pos hpos]
    omega
  next =>
    rw [if_pos (by omega), BitVec.toInt_eq_toNat_cond]
    split <;> omega

theorem errorEntry_ok (strings : Strings) {err : Word} (h : err.toInt < MAXERROR)
    (habs : 0 ≤ err.toInt ∨ err.toNat = 2 ^ 31) : ∃ p, errorEntry strings err = .ok p := by
  have hmax : MAXERROR = 7 := rfl
  have hentry : (err.setWidth 30).toNat < MAXERROR := by
    rw [BitVec.toNat_setWidth]
    rw [BitVec.toInt_eq_toNat_cond] at h habs
    split at h <;> omega
  exact ⟨_, dif_pos hentry⟩

/-- The format of a message that names the number. -/
theorem exists_number_prints (strings : Strings) (err : Word) : ∃ cs, ∀ k, 80 ≤ k →
    Prints (fun _ putch => vprintfmt putch strings k (.start (bytes "error %d".toList)) [err]) ()
      cs := by
  refine ⟨plain (bytes "error ".toList) ++ (signChars (err.signExtend 64) ++
    numberChars (magnitude (err.signExtend 64)) 10 .none ++ []), fun k hk => ?_⟩
  have hnum : getint [err] Flags.none.lflag = .ok (err.signExtend 64, []) := rfl
  have hfmt : bytes "error %d".toList ++ [0] =
      bytes "error ".toList ++ chr '%' :: ([] ++ chr 'd' :: [0]) := by decide
  obtain ⟨j, rfl⟩ : ∃ j, k = (bytes "error ".toList).length + (j + 1 + 1) := ⟨k - 8, by
    change k = 6 + (k - 8 + 1 + 1)
    omega⟩
  have hj : 64 ≤ j + 1 := by
    change 80 ≤ 6 + (j + 1 + 1) at hk
    omega
  unfold Ptr.start
  rw [hfmt]
  refine texts_print (by decide) ?_
  exact escape_prints (.nil (by decide) _ _) (Nat.succ_pos j) (signed_prints hj hnum)
    (end_prints strings j _ _ [])

theorem exists_string_prints (strings : Strings) (p : Word) : ∃ cs, ∀ k, 80 ≤ k →
    Prints (fun _ putch => vprintfmt putch strings k (.start (bytes "%s".toList)) [p]) () cs := by
  obtain ⟨cs, hcs⟩ := exists_printString .none
    (if p = 0 then bytes "(null)".toList else strings.text p)
  refine ⟨cs ++ [] ++ [], fun k hk => ?_⟩
  obtain ⟨j, rfl⟩ : ∃ j, k = j + 1 + 1 := ⟨k - 2, by omega⟩
  have hword : vaArg [p] = .ok (p, []) := rfl
  have hfmt : bytes "%s".toList ++ [0] = chr '%' :: ([] ++ chr 's' :: [0]) := by decide
  unfold Ptr.start
  rw [hfmt]
  exact escape_prints (.nil (by decide) _ _) (Nat.succ_pos j)
    (.lift_bind hword (.bind hcs (.pure _)))
    (end_prints strings j _ _ [])

theorem exists_printError (strings : Strings) (err : Word) : ∃ cs, ∀ k, 80 ≤ k →
    Prints (fun σ putch => printError (σ := σ) strings
      (fun fmt ap => vprintfmt putch strings k (.start fmt) ap) err) () cs := by
  have habs := abs_cases err
  unfold printError
  dsimp only
  generalize (if err.toInt < 0 then -err else err) = e at *
  obtain ⟨ns, hns⟩ := exists_number_prints strings e
  by_cases hmax : (MAXERROR : ℤ) ≤ e.toInt
  · simp only [if_pos hmax]
    exact ⟨ns, hns⟩
  · obtain ⟨p, hp⟩ := errorEntry_ok strings (lt_of_not_ge hmax) habs
    simp only [if_neg hmax]
    by_cases hnull : p = 0
    · refine ⟨ns, fun k hk => .lift_bind hp ?_⟩
      simp only [if_pos hnull]
      exact hns k hk
    · obtain ⟨cs, hcs⟩ := exists_string_prints strings p
      refine ⟨cs, fun k hk => .lift_bind hp ?_⟩
      simp only [if_neg hnull]
      exact hcs k hk

theorem exists_convert (strings : Strings) (hd : d ∈ conversions) (f : Flags)
    (hap : argWords d f.lflag ≤ ap.length) : ∃ cs, ∀ k, 80 ≤ k → ∀ ptr,
      Prints (switch strings k d ⟨ptr, ap, f⟩) ⟨ptr, ap.drop (argWords d f.lflag), f⟩ cs := by
  have hcases : d = chr 'c' ∨ d = chr 'e' ∨ d = chr 's' ∨ d = chr 'd' ∨ d = chr 'u' ∨
      d = chr 'o' ∨ d = chr 'p' ∨ d = chr 'x' ∨ d = chr '%' := by
    simpa only [conversions, bytes, List.map_cons, List.map_nil, List.mem_cons, List.not_mem_nil,
      or_false] using hd
  rcases hcases with rfl | rfl | rfl | rfl | rfl | rfl | rfl | rfl | rfl
  · obtain ⟨w, hw⟩ := vaArg_ok hap
    exact ⟨_, fun k hk ptr => .lift_bind hw (.bind (.putch w) (.pure _))⟩
  · obtain ⟨w, hw⟩ := vaArg_ok hap
    obtain ⟨cs, hcs⟩ := exists_printError strings w
    exact ⟨_, fun k hk ptr => .lift_bind hw (.bind (hcs k hk) (.pure _))⟩
  · obtain ⟨w, hw⟩ := vaArg_ok hap
    obtain ⟨cs, hcs⟩ := exists_printString f
      (if w = 0 then bytes "(null)".toList else strings.text w)
    exact ⟨_, fun k hk ptr => .lift_bind hw (.bind hcs (.pure _))⟩
  · obtain ⟨num, hnum⟩ := getint_ok hap
    exact ⟨_, fun k hk ptr => signed_prints (by omega) hnum⟩
  · obtain ⟨num, hnum⟩ := getuint_ok hap
    exact ⟨_, fun k hk ptr => unsigned_prints (by decide) (by decide) (by omega) hnum⟩
  · obtain ⟨num, hnum⟩ := getuint_ok hap
    exact ⟨_, fun k hk ptr => unsigned_prints (by decide) (by decide) (by omega) hnum⟩
  · obtain ⟨w, hw⟩ := vaArg_ok hap
    refine ⟨_, fun k hk ptr => .bind (.putch _) (.bind (.putch _) (.lift_bind hw (.bind
      (number_prints (by decide) (by decide) (by omega) _ f) (.pure _))))⟩
  · obtain ⟨num, hnum⟩ := getuint_ok hap
    exact ⟨_, fun k hk ptr => unsigned_prints (by decide) (by decide) (by omega) hnum⟩
  · exact ⟨_, fun k hk ptr => .bind (.putch _) (.pure _)⟩

/-! What is not recognised -/

theorem toPercent_finds (h : chr '%' ∉ mods) (before after : List Byte) :
    toPercent (mods ++ chr '%' :: before) after =
      .ok ⟨chr '%' :: before, mods.reverse ++ after⟩ := by
  induction mods generalizing after with
  | nil => rfl
  | cons c mods ih =>
    have hc : c ≠ chr '%' := fun heq => h (heq ▸ List.mem_cons_self)
    rw [List.cons_append, toPercent, if_neg hc, ih fun hmem => h (List.mem_cons_of_mem c hmem),
      List.reverse_cons, List.append_assoc, List.singleton_append]

theorem unrecognised_prints (hd : d ∉ conversions) (h : chr '%' ∉ mods) :
    Prints (switch strings k d ⟨⟨d :: (mods.reverse ++ chr '%' :: before), rest⟩, ap, f⟩)
      ⟨⟨chr '%' :: before, mods ++ d :: rest⟩, ap, f⟩ [int '%'] := by
  have hrewind : rewind ⟨d :: (mods.reverse ++ chr '%' :: before), rest⟩ =
      .ok ⟨chr '%' :: before, mods ++ d :: rest⟩ := by
    have hmods : chr '%' ∉ mods.reverse := fun hmem => h (List.mem_reverse.mp hmem)
    have hfinds := toPercent_finds hmods before (d :: rest)
    rwa [List.reverse_reverse] at hfinds
  simp only [conversions, bytes, List.map_cons, List.map_nil, List.mem_cons, List.not_mem_nil,
    or_false, not_or] at hd
  obtain ⟨hc, he, hs, hsigned, hu, ho, hp, hx, hpercent⟩ := hd
  unfold switch convert
  simp only [if_neg hc, if_neg he, if_neg hs, if_neg hsigned, if_neg hu, if_neg ho, if_neg hp,
    if_neg hx, if_neg hpercent]
  exact .bind (.putch _) (.lift_bind hrewind (.pure _))

theorem modifiers_text (h : Modifiers mods) : ∀ c ∈ mods, c ≠ chr '%' ∧ c ≠ 0 := by
  intro c hc
  have hmod := h c hc
  constructor
  · rintro rfl
    exact absurd hmod (by decide)
  · rintro rfl
    exact absurd hmod (by decide)

/-! The whole format -/

/-- What an escape prints as a format of its own. -/
def Converts (strings : Strings) (mods : List Byte) (d : Byte) (ap cs : List Word) : Prop :=
  ∀ k, mods.length + 84 ≤ k → Prints (fun _ putch =>
    vprintfmt putch strings k (.start (chr '%' :: (mods ++ [d]))) ap) () cs

theorem converts (hreads : Reads mods d ap .none ap' f') (hswitch : ∀ k, 80 ≤ k → ∀ ptr,
    Prints (switch strings k d ⟨ptr, ap', f'⟩) ⟨ptr, ap₁, f'⟩ cs) :
    Converts strings mods d ap cs := by
  intro k hk
  obtain ⟨k, rfl⟩ : ∃ j, k = j + 1 + 1 := ⟨k - 2, by omega⟩
  rw [Ptr.start, List.cons_append, List.append_assoc, ← List.append_nil cs]
  exact escape_prints hreads (by omega) (hswitch (k + 1) (by omega) _)
    (end_prints strings k _ [] _)

/-- The words that a piece takes from the arguments. -/
def Piece.words : Piece → ℕ
  | .text _ => 0
  | .conversion mods d => stars mods + argWords d (longs mods)
  | .unrecognised escape => stars escape

def words (ps : List Piece) : ℕ := (ps.map Piece.words).sum

/-- Pieces with their arguments print this: text and what is not recognised as it stands. -/
inductive Renders (strings : Strings) : List Piece → List Word → List Word → Prop where
  | nil (ap : List Word) : Renders strings [] ap []
  | text (c : Byte) {ps : List Piece} {ap out : List Word} : Renders strings ps ap out →
      Renders strings (.text c :: ps) ap (c.setWidth 32 :: out)
  | conversion {mods : List Byte} {d : Byte} {ps : List Piece} {ap cs out : List Word} :
      Converts strings mods d ap cs →
      Renders strings ps (ap.drop (Piece.conversion mods d).words) out →
      Renders strings (.conversion mods d :: ps) ap (cs ++ out)
  | unrecognised (escape : List Byte) {ps : List Piece} {ap out : List Word} :
      Renders strings ps (ap.drop (Piece.unrecognised escape).words) out →
      Renders strings (.unrecognised escape :: ps) ap (plain escape ++ out)

theorem unrecognised_escape_prints (h : Modifiers mods) (hd : d ∉ conversions)
    (hmod : IsModifier d = false) (hap : stars mods ≤ ap.length) (hk : mods.length < k)
    (hout : Prints (fun _ putch => vprintfmt putch strings k
      ⟨chr '%' :: before, mods ++ d :: rest⟩ (ap.drop (stars mods))) () out) :
    Prints (fun _ putch =>
      vprintfmt putch strings (k + 1) ⟨before, chr '%' :: (mods ++ d :: rest)⟩ ap) ()
      (int '%' :: out) := by
  obtain ⟨f', -, hreads⟩ := exists_reads h hmod .none hap
  exact escape_prints hreads hk
    (unrecognised_prints hd fun hmem => (modifiers_text h _ hmem).1 rfl) hout

theorem words_cons (piece : Piece) (ps : List Piece) :
    words (piece :: ps) = piece.words + words ps := by
  rw [words, List.map_cons, List.sum_cons, words]

theorem exists_renders (strings : Strings) {fmt : List Byte} (hfmt : 0 ∉ fmt)
    (before : List Byte) {ap : List Word} (hap : words (pieces fmt) ≤ ap.length) :
    ∃ out, Renders strings (pieces fmt) ap out ∧ ∀ k, fmt.length + 82 ≤ k →
      Prints (fun _ putch => vprintfmt putch strings k ⟨before, fmt ++ [0]⟩ ap) () out := by
  induction fmt using format_induction generalizing before ap with
  | nil =>
    rw [pieces]
    refine ⟨[], .nil ap, fun k hk => ?_⟩
    obtain ⟨k, rfl⟩ : ∃ j, k = j + 1 := ⟨k - 1, by omega⟩
    exact end_prints strings k before [] ap
  | text c fmt hc ih =>
    rw [List.mem_cons, not_or] at hfmt
    rw [pieces_text hc] at hap ⊢
    rw [words_cons, Piece.words, Nat.zero_add] at hap
    obtain ⟨out, hout, hprints⟩ := ih hfmt.2 (c :: before) hap
    refine ⟨_, .text c hout, fun k hk => ?_⟩
    rw [List.length_cons] at hk
    obtain ⟨k, rfl⟩ : ∃ j, k = j + 1 := ⟨k - 1, by omega⟩
    exact text_prints hc (Ne.symm hfmt.1) (hprints k (by omega))
  | unended mods h =>
    rw [pieces_unended h] at hap ⊢
    rw [words_cons, Piece.words] at hap
    have hstars : stars (chr '%' :: mods) = stars mods := List.count_cons_of_ne (by decide)
    rw [hstars] at hap
    refine ⟨_, .unrecognised _ (.nil _), fun k hk => ?_⟩
    rw [List.length_cons] at hk
    obtain ⟨k, rfl⟩ : ∃ j, k = mods.length + (j + 1) + 1 := ⟨k - mods.length - 2, by omega⟩
    exact unrecognised_escape_prints h (by decide) (by decide) (by omega) (by omega)
      (texts_print (modifiers_text h) (end_prints strings k _ _ _))
  | escape mods d rest h hd ih =>
    rw [List.mem_cons, List.mem_append, List.mem_cons, not_or, not_or, not_or] at hfmt
    obtain ⟨-, -, hzero, hrest⟩ := hfmt
    rw [pieces_escape h hd] at hap ⊢
    rw [words_cons] at hap
    by_cases hconv : d ∈ conversions
    · rw [if_pos hconv] at hap ⊢
      rw [Piece.words] at hap
      have hmods : stars mods ≤ ap.length := by omega
      obtain ⟨f', hlflag, hreads⟩ := exists_reads h hd .none hmods
      have hlongs : f'.lflag = longs mods := hlflag.trans (BitVec.zero_add _)
      have hargs : argWords d f'.lflag ≤ (ap.drop (stars mods)).length := by
        rw [hlongs, List.length_drop]
        omega
      obtain ⟨cs, hcs⟩ := exists_convert strings hconv f' hargs
      rw [hlongs, List.drop_drop] at hcs
      have hleft : words (pieces rest) ≤
          (ap.drop (stars mods + argWords d (longs mods))).length := by
        rw [List.length_drop]
        omega
      obtain ⟨out, hout, hprints⟩ := ih hrest (d :: (mods.reverse ++ chr '%' :: before)) hleft
      refine ⟨cs ++ out, .conversion (converts hreads hcs) hout, fun k hk => ?_⟩
      rw [List.length_cons, List.length_append, List.length_cons] at hk
      obtain ⟨k, rfl⟩ : ∃ j, k = j + 1 := ⟨k - 1, by omega⟩
      rw [List.cons_append, List.append_assoc]
      exact escape_prints hreads (by omega) (hcs k (by omega) _) (hprints k (by omega))
    · rw [if_neg hconv] at hap ⊢
      have htext : ∀ c ∈ mods ++ [d], c ≠ chr '%' ∧ c ≠ 0 := by
        intro c hc
        rcases List.mem_append.mp hc with hc | hc
        · exact modifiers_text h c hc
        · rw [List.mem_singleton] at hc
          subst hc
          refine ⟨fun heq => hconv ?_, Ne.symm hzero⟩
          rw [heq]
          decide
      have hstars : (Piece.unrecognised (chr '%' :: (mods ++ [d]))).words = stars mods := by
        have hd' : chr '*' ∉ [d] := by
          rw [List.mem_singleton]
          rintro rfl
          exact absurd hd (by decide)
        rw [Piece.words, stars, List.count_cons_of_ne (by decide), List.count_append,
          List.count_eq_zero.mpr hd', Nat.add_zero, stars]
      rw [hstars] at hap
      have hleft : words (pieces rest) ≤ (ap.drop (stars mods)).length := by
        rw [List.length_drop]
        omega
      obtain ⟨out, hout, hprints⟩ := ih hrest ((mods ++ [d]).reverse ++ chr '%' :: before) hleft
      refine ⟨_, .unrecognised _ (hstars ▸ hout), fun k hk => ?_⟩
      rw [List.length_cons, List.length_append, List.length_cons] at hk
      obtain ⟨j, rfl⟩ : ∃ j, k = (mods ++ [d]).length + j + 1 := ⟨k - (mods.length + 1) - 1, by
        rw [List.length_append, List.length_singleton]
        omega⟩
      rw [List.length_append, List.length_singleton] at hk
      have hlater := texts_print htext (hprints j (by omega))
      rw [List.append_assoc] at hlater
      rw [List.cons_append, List.append_assoc]
      refine unrecognised_escape_prints h hconv hd (by omega) ?_ hlater
      rw [List.length_append, List.length_singleton]
      omega

/-- With enough arguments vprintfmt() comes to the end of any format and has read nothing outside
of it. It has printed the pieces that make it up, each once: text and escapes that it does not know
as they stand. -/
theorem formats_scanned (strings : Strings) {fmt : List Byte} (hfmt : 0 ∉ fmt) {ap : List Word}
    (hap : words (pieces fmt) ≤ ap.length) : (pieces fmt).flatMap Piece.source = fmt ∧
      ∃ out, Renders strings (pieces fmt) ap out ∧ ∀ k, fmt.length + 82 ≤ k →
        Prints (fun _ putch => vprintfmt putch strings k (.start fmt) ap) () out :=
  ⟨source_pieces fmt, exists_renders strings hfmt [] hap⟩

theorem errorText_text {i : ℕ} {s : List Byte} (h : errorText i = some s) : 0 ∉ s := by
  unfold errorText at h
  split at h <;> cases h <;> decide

/-- A memory with nothing but the texts of error_string[]. -/
def messages : Strings where
  text p := match h : errorText p.toNat with
    | some s => ⟨s, errorText_text h⟩
    | none => ⟨[], List.not_mem_nil⟩
  error_string i := BitVec.ofNat 32 i
  null_iff := by decide
  error_text := by
    intro i s h
    have hi : (BitVec.ofNat 32 i).toNat = i.val := by
      rw [BitVec.toNat_ofNat]
      exact Nat.mod_eq_of_lt (Nat.lt_trans i.isLt (by decide))
    have htext : errorText (BitVec.ofNat 32 i).toNat = some s := by
      rw [hi]
      exact h
    split
    next t ht => exact Option.some.inj (ht.symm.trans htext)
    next hnone => cases hnone.symm.trans htext

/-- A percent sign and a width at the end. -/
theorem formats_scanned_cut : (pieces (chr 'a' :: [chr '%', chr '5'])).flatMap Piece.source =
    chr 'a' :: [chr '%', chr '5'] ∧
      ∃ out, Renders messages (pieces (chr 'a' :: [chr '%', chr '5'])) [] out ∧
        ∀ k, [chr 'a', chr '%', chr '5'].length + 82 ≤ k → Prints (fun _ putch =>
          vprintfmt putch messages k (.start (chr 'a' :: [chr '%', chr '5'])) []) () out := by
  refine formats_scanned messages (by decide) ?_
  have hmods : Modifiers [chr '5'] := List.forall_mem_singleton.mpr (by decide)
  rw [pieces_text (by decide), pieces_unended hmods]
  decide

end FormatScan
