import OsEngineering.GrepMatch
import OsEngineering.ListOverwrite
import OsEngineering.StreamLines

/-! grep() of grep.c over a stream that read() returns in chunks, and what a chunk without a
newline does to the line it belongs to. -/
namespace Grep

open ByteBlock GrepMatch ListOverwrite StreamLines
open ShellCommands (Str)

def BUFSIZE : ℕ := 1024

/-- The string that starts at `p`. -/
def cstring (buf : List Byte) (p : ℕ) : Str := (buf.drop p).takeWhile (· != 0)

/-- The distance from s to the pointer returned. -/
def strchr : Str → Byte → Option ℕ
  | [], _ => none
  | b :: s, c => if b = c then some 0 else (strchr s c).map (· + 1)

structure Scan where
  buf : List Byte
  p : ℕ
  out : List Str

/-- The body of the inner loop, when strchr() has found a newline at `q`. `out` is what write()
got. -/
def line (pattern : Str) (s : Scan) (q : ℕ) : Scan :=
  let buf := s.buf.set q 0
  if matchText pattern (cstring buf s.p) then
    let buf := buf.set q 10
    ⟨buf, q + 1, s.out ++ [(buf.drop s.p).take (q + 1 - s.p)]⟩
  else ⟨buf, q + 1, s.out⟩

def scan (pattern : Str) : ℕ → Scan → Option Scan
  | 0, _ => none
  | k + 1, s =>
    match strchr (cstring s.buf s.p) 10 with
    | none => some s
    | some d => scan pattern k (line pattern s (s.p + d))

structure State where
  buf : List Byte
  m : ℕ
  out : List Str

/-- What the outer loop does after the inner one. -/
def carry (m : ℕ) (s : Scan) : State :=
  let m := if s.p = 0 then 0 else m
  if 0 < m then ⟨overwrite s.buf 0 ((s.buf.drop s.p).take (m - s.p)), m - s.p, s.out⟩
  else ⟨s.buf, m, s.out⟩

/-- The body of the outer loop, after read() has put `chunk` to buf + m. -/
def turn (pattern : Str) (g : State) (chunk : List Byte) : Option State :=
  let m := g.m + chunk.length
  (scan pattern BUFSIZE ⟨(overwrite g.buf g.m chunk).set m 0, 0, g.out⟩).map (carry m)

/-- After the last chunk read() returns 0. -/
def grep (pattern : Str) : List (List Byte) → State → Option State
  | [], g => some g
  | chunk :: chunks, g => (turn pattern g chunk).bind (grep pattern chunks)

/-- Each chunk has a byte and no more of them than read() was asked for. -/
def Served (pattern : Str) : List (List Byte) → State → Prop
  | [], _ => True
  | chunk :: chunks, g =>
    chunk ≠ [] ∧ chunk.length ≤ BUFSIZE - g.m - 1 ∧
      ∀ h, turn pattern g chunk = some h → Served pattern chunks h

def start (buf : List Byte) : State := ⟨buf, 0, []⟩

/-- What is written for the lines. -/
def written (pattern : Str) (ls : List Str) : List Str :=
  (ls.filter (matchText pattern)).map (· ++ [10])

/-- grep() writes the lines that match, each once and in order. -/
def Right (pattern : Str) (chunks : List (List Byte)) (ls : List Str) (buf : List Byte) : Prop :=
  ∃ g, grep pattern chunks (start buf) = some g ∧ g.out = written pattern ls

/-! The lines as they are left when a buffer without a newline is thrown away -/

/-- What is kept of the bytes that are there: the last line of them, if they had a newline. -/
def kept (r chunk : List Byte) : List Byte :=
  if 10 ∈ chunk then unended 10 (r ++ chunk) else []

def linesLeft : List Byte → List (List Byte) → List Str
  | _, [] => []
  | r, chunk :: chunks => lines 10 (r ++ chunk) ++ linesLeft (kept r chunk) chunks

section Strings

variable {buf x y z : List Byte} {p : ℕ}

theorem cstring_eq (hx : 0 ∉ x) (h : buf.drop p = x ++ 0 :: z) : cstring buf p = x := by
  unfold cstring
  have hall : ∀ b ∈ x, (b != 0) = true := fun b hb => bne_iff_ne.mpr fun h0 => hx (h0 ▸ hb)
  rw [h, List.takeWhile_append_of_pos hall]
  exact List.append_nil x

theorem strchr_none {s : Str} {c : Byte} (h : c ∉ s) : strchr s c = none := by
  induction s with
  | nil => rfl
  | cons b s ih =>
    rw [List.mem_cons, not_or] at h
    unfold strchr
    rw [if_neg (Ne.symm h.1), ih h.2]
    rfl

theorem strchr_some {l t : Str} {c : Byte} (h : c ∉ l) : strchr (l ++ c :: t) c = some l.length := by
  induction l with
  | nil => exact if_pos rfl
  | cons b l ih =>
    rw [List.mem_cons, not_or] at h
    rw [List.cons_append, strchr, if_neg (Ne.symm h.1), ih h.2]
    rfl

theorem drop_set {b c : Byte} (h : buf.drop p = x ++ b :: z) :
    (buf.set (p + x.length) c).drop p = x ++ c :: z := by
  rw [List.drop_set, if_neg (by omega), h, Nat.add_sub_cancel_left,
    List.set_append_right _ _ (le_refl _), Nat.sub_self, List.set_cons_zero]

theorem drop_after {b : Byte} (h : buf.drop p = x ++ b :: z) :
    buf.drop (p + x.length + 1) = z := by
  rw [Nat.add_assoc, ← List.drop_drop, h, ← List.drop_drop, List.drop_left, List.drop_one,
    List.tail_cons]

end Strings

/-! One chunk -/

section Turn

variable {pattern : Str} {s : Scan} {l x y z : List Byte}

/-- The line is written if it matches, and the string after it is as it was. -/
theorem line_spec (pattern : Str) (hl : 0 ∉ l) (h : s.buf.drop s.p = l ++ 10 :: z) :
    (line pattern s (s.p + l.length)).out = s.out ++ written pattern [l] ∧
    (line pattern s (s.p + l.length)).p = s.p + l.length + 1 ∧
    (line pattern s (s.p + l.length)).buf.drop (s.p + l.length + 1) = z ∧
    (line pattern s (s.p + l.length)).buf.length = s.buf.length := by
  have hend := drop_set (c := 0) h
  have hback := drop_set (c := 10) hend
  unfold line written
  dsimp only
  rw [cstring_eq hl hend]
  by_cases hm : matchText pattern l = true
  · rw [if_pos hm, List.filter_cons_of_pos hm]
    refine ⟨?_, rfl, drop_after hback, by rw [List.length_set, List.length_set]⟩
    dsimp only
    have htake : (l ++ 10 :: z).take (l.length + 1) = l ++ [10] := by
      rw [List.append_cons l 10 z]
      exact List.take_left' (List.length_append ..)
    rw [hback, Nat.add_assoc, Nat.add_sub_cancel_left, htake]
    rfl
  · rw [if_neg hm, List.filter_cons_of_neg hm]
    exact ⟨(List.append_nil _).symm, rfl, drop_after hend, List.length_set ..⟩

theorem written_append (ks ls : List Str) :
    written pattern (ks ++ ls) = written pattern ks ++ written pattern ls := by
  rw [written, List.filter_append, List.map_append, written, written]

/-- The inner loop takes the lines off the string at p. -/
theorem scan_spec (pattern : Str) {k : ℕ} (hx : 0 ∉ x) (hk : x.length < k) (h : s.buf.drop s.p = x ++ 0 :: z) :
    ∃ t, scan pattern k s = some t ∧ t.out = s.out ++ written pattern (lines 10 x) ∧
      t.buf.drop t.p = unended 10 x ++ 0 :: z ∧
      t.p + (unended 10 x).length = s.p + x.length ∧ t.buf.length = s.buf.length := by
  induction x using line_induction (10 : Byte) generalizing k s with
  | last x hno =>
    obtain ⟨k, rfl⟩ : ∃ j, k = j + 1 := ⟨k - 1, by omega⟩
    unfold scan
    rw [cstring_eq hx h, strchr_none hno, lines_of_notMem hno, unended_of_notMem hno]
    exact ⟨s, rfl, (List.append_nil _).symm, h, rfl, rfl⟩
  | line l y hl ih =>
    obtain ⟨k, rfl⟩ : ∃ j, k = j + 1 := ⟨k - 1, by omega⟩
    rw [List.length_append, List.length_cons] at hk
    have hl0 : 0 ∉ l := fun h0 => hx (List.mem_append_left _ h0)
    have hy0 : 0 ∉ y := fun h0 => hx (List.mem_append_right _ (List.mem_cons_of_mem _ h0))
    have hs : s.buf.drop s.p = l ++ 10 :: (y ++ 0 :: z) := by
      rw [h, List.append_assoc, List.cons_append]
    obtain ⟨hout, hp, hdrop, hlen⟩ := line_spec pattern hl0 hs
    obtain ⟨t, ht, htout, htdrop, htp, htlen⟩ := ih (k := k)
      (s := line pattern s (s.p + l.length)) hy0 (by omega) (by rw [hp, hdrop])
    unfold scan
    rw [cstring_eq hx h, strchr_some hl, lines_line hl, unended_line hl]
    refine ⟨t, ht, ?_, htdrop, ?_, htlen.trans hlen⟩
    · rw [htout, hout, List.append_assoc, ← written_append]
      rfl
    · rw [htp, hp, List.length_append, List.length_cons]
      omega

/-- The buffer holds `r`, a part of a line. -/
structure Holds (g : State) (r : List Byte) : Prop where
  size : g.buf.length = BUFSIZE
  m : g.m = r.length
  bytes : g.buf.take r.length = r
  no_newline : 10 ∉ r
  no_nul : 0 ∉ r

theorem Holds.start {buf : List Byte} (h : buf.length = BUFSIZE) : Holds (start buf) [] :=
  ⟨h, rfl, rfl, List.not_mem_nil, List.not_mem_nil⟩

variable {g : State} {r chunk : List Byte} {chunks : List (List Byte)}

/-- The string in the buffer after read(). -/
theorem Holds.filled (h : Holds g r) (hlen : chunk.length ≤ BUFSIZE - g.m - 1)
    (hne : chunk ≠ []) : ∃ z,
      ((overwrite g.buf g.m chunk).set (g.m + chunk.length) 0) = r ++ chunk ++ 0 :: z ∧
      (r ++ chunk).length < BUFSIZE ∧
      ((overwrite g.buf g.m chunk).set (g.m + chunk.length) 0).length = BUFSIZE := by
  have hpos := List.length_pos_iff.mpr hne
  have hsize := h.size
  have hm := h.m
  have htail : g.buf.drop (g.m + chunk.length) ≠ [] := by
    rw [ne_eq, List.drop_eq_nil_iff]
    omega
  obtain ⟨b, z, hz⟩ := List.exists_cons_of_ne_nil htail
  have heq : (overwrite g.buf g.m chunk).set (g.m + chunk.length) 0 = r ++ chunk ++ 0 :: z := by
    unfold overwrite
    rw [hz, hm, h.bytes, ← List.length_append, List.set_append_right _ _ (le_refl _), Nat.sub_self,
      List.set_cons_zero]
  refine ⟨z, heq, ?_, ?_⟩
  · rw [List.length_append]
    omega
  · rw [List.length_set, length_overwrite (by omega)]
    omega

theorem carry_out (m : ℕ) (s : Scan) : (carry m s).out = s.out := by
  unfold carry
  dsimp only
  by_cases h : 0 < if s.p = 0 then 0 else m
  · rw [if_pos h]
  · rw [if_neg h]

theorem carry_drops {m : ℕ} (h : s.p = 0) : carry m s = ⟨s.buf, 0, s.out⟩ := by
  unfold carry
  dsimp only
  rw [if_pos h, if_neg (Nat.lt_irrefl 0)]

theorem carry_moves {m : ℕ} (hp : s.p ≠ 0) (hm : s.p ≤ m) :
    carry m s = ⟨overwrite s.buf 0 ((s.buf.drop s.p).take (m - s.p)), m - s.p, s.out⟩ := by
  unfold carry
  dsimp only
  rw [if_neg hp, if_pos (by omega)]

/-- The part of a line at the end of the buffer is moved to its start. -/
theorem carry_holds {m : ℕ} (hp : s.p ≠ 0) (hm : s.p + (unended 10 x).length = m)
    (hlen : s.buf.length = BUFSIZE) (hx : 0 ∉ x) (h : s.buf.drop s.p = unended 10 x ++ 0 :: z) :
    Holds (carry m s) (unended 10 x) := by
  have hdist : m - s.p = (unended 10 x).length := by omega
  have hroom := congrArg List.length h
  rw [List.length_drop, List.length_append, List.length_cons] at hroom
  rw [carry_moves hp (by omega), hdist, h, List.take_left]
  refine ⟨?_, rfl, ?_, notMem_unended _, fun h0 => hx ?_⟩
  · rw [length_overwrite (Nat.zero_le _)]
    omega
  · dsimp only
    rw [overwrite, List.take_zero, List.nil_append, List.take_left]
  · rw [← ended_lines (10 : Byte) x]
    exact List.mem_append_right _ h0

theorem turn_spec (pattern : Str) (h : Holds g r) (hne : chunk ≠ []) (h0 : 0 ∉ chunk)
    (hlen : chunk.length ≤ BUFSIZE - g.m - 1) :
    ∃ g', turn pattern g chunk = some g' ∧
      g'.out = g.out ++ written pattern (lines 10 (r ++ chunk)) ∧ Holds g' (kept r chunk) := by
  obtain ⟨z, hbuf, hlt, hsize⟩ := h.filled hlen hne
  have hx : 0 ∉ r ++ chunk := fun hx => (List.mem_append.mp hx).elim h.no_nul h0
  have hm : g.m + chunk.length = (r ++ chunk).length := by rw [List.length_append, h.m]
  obtain ⟨t, ht, hout, hdrop, hp, htlen⟩ := scan_spec pattern
    (s := ⟨(overwrite g.buf g.m chunk).set (g.m + chunk.length) 0, 0, g.out⟩) hx hlt hbuf
  have htsize : t.buf.length = BUFSIZE := htlen.trans hsize
  have hp : t.p + (unended 10 (r ++ chunk)).length = (r ++ chunk).length := by
    rw [hp, Nat.zero_add]
  refine ⟨carry (g.m + chunk.length) t, ?_, (carry_out _ t).trans hout, ?_⟩
  · rw [turn, ht, Option.map_some]
  · unfold kept
    by_cases hnl : 10 ∈ chunk
    · have hless := unended_length_lt (List.mem_append_right r hnl)
      rw [if_pos hnl]
      exact carry_holds (by omega) (hp.trans hm.symm) htsize hx hdrop
    · have hno : 10 ∉ r ++ chunk := fun hx => (List.mem_append.mp hx).elim h.no_newline hnl
      rw [unended_of_notMem hno] at hp
      rw [if_neg hnl, carry_drops (by omega)]
      exact ⟨htsize, rfl, rfl, List.not_mem_nil, List.not_mem_nil⟩

/-- The run writes the lines that are left. -/
theorem grep_spec (pattern : Str) (h : Holds g r) (h0 : ∀ chunk ∈ chunks, 0 ∉ chunk)
    (hserved : Served pattern chunks g) :
    ∃ g', grep pattern chunks g = some g' ∧
      g'.out = g.out ++ written pattern (linesLeft r chunks) := by
  induction chunks generalizing g r with
  | nil => exact ⟨g, rfl, (List.append_nil _).symm⟩
  | cons chunk chunks ih =>
    obtain ⟨hne, hlen, hrest⟩ := hserved
    obtain ⟨k, hk, hout, hkept⟩ := turn_spec pattern h hne
      (h0 chunk List.mem_cons_self) hlen
    obtain ⟨g', hg, hout'⟩ := ih hkept (fun c hc => h0 c (List.mem_cons_of_mem _ hc)) (hrest k hk)
    refine ⟨g', ?_, ?_⟩
    · rw [grep, hk, Option.bind_some, hg]
    · rw [hout', hout, List.append_assoc, ← written_append, linesLeft]

/-- What read() is asked for depends on the chunks before only. -/
def Fits : List Byte → List (List Byte) → Prop
  | _, [] => True
  | r, chunk :: chunks =>
    chunk ≠ [] ∧ chunk.length ≤ BUFSIZE - r.length - 1 ∧ Fits (kept r chunk) chunks

theorem served_iff (h : Holds g r) (h0 : ∀ chunk ∈ chunks, 0 ∉ chunk) :
    Served pattern chunks g ↔ Fits r chunks := by
  induction chunks generalizing g r with
  | nil => exact Iff.rfl
  | cons chunk chunks ih =>
    unfold Served Fits
    rw [h.m]
    refine and_congr_right fun hne => and_congr_right fun hlen => ?_
    obtain ⟨k, hk, -, hkept⟩ := turn_spec pattern h hne (h0 chunk List.mem_cons_self)
      (by rw [h.m]; exact hlen)
    have hrest := ih hkept fun c hc => h0 c (List.mem_cons_of_mem _ hc)
    constructor
    · intro hall
      exact hrest.mp (hall k hk)
    · intro hfits k' hk'
      obtain rfl : k = k' := Option.some.inj (hk.symm.trans hk')
      exact hrest.mpr hfits

end Turn

/-! The lines left against the lines of the stream -/

section Lines

variable {r : List Byte} {chunks : List (List Byte)}

theorem linesLeft_eq (hr : 10 ∉ r) (h : ∀ chunk ∈ chunks, 10 ∈ chunk) :
    linesLeft r chunks = lines 10 (r ++ chunks.flatten) := by
  induction chunks generalizing r with
  | nil =>
    rw [List.flatten_nil, List.append_nil, lines_of_notMem hr]
    rfl
  | cons chunk chunks ih =>
    rw [linesLeft, kept, if_pos (h chunk List.mem_cons_self),
      ih (notMem_unended _) fun c hc => h c (List.mem_cons_of_mem _ hc), ← lines_append,
      List.flatten_cons, List.append_assoc]

theorem kept_notMem (r chunk : List Byte) : 10 ∉ kept r chunk := by
  unfold kept
  split
  · exact notMem_unended _
  · exact List.not_mem_nil

theorem length_kept_le (r chunk : List Byte) :
    (ended 10 (lines 10 (r ++ chunk))).length + (kept r chunk).length ≤ r.length + chunk.length := by
  have := length_ended_lines (10 : Byte) (r ++ chunk)
  rw [List.length_append] at this
  unfold kept
  split
  · omega
  · rw [List.length_nil]
    omega

theorem length_ended_append (ks ls : List Str) :
    (ended (10 : Byte) (ks ++ ls)).length = (ended 10 ks).length + (ended 10 ls).length := by
  rw [ended, List.map_append, List.flatten_append, List.length_append, ended, ended]

theorem length_linesLeft_le (r : List Byte) (chunks : List (List Byte)) : (ended 10 (linesLeft r chunks)).length ≤
    r.length + chunks.flatten.length := by
  induction chunks generalizing r with
  | nil => exact Nat.zero_le _
  | cons chunk chunks ih =>
    have hhead := length_kept_le r chunk
    have htail := ih (r := kept r chunk)
    rw [linesLeft, length_ended_append, List.flatten_cons, List.length_append]
    omega

/-- A chunk without a newline is lost. -/
theorem length_linesLeft_lt (hr : 10 ∉ r) {lost : List Byte} (hlost : lost ∈ chunks)
    (hne : lost ≠ []) (h : 10 ∉ lost) :
    (ended 10 (linesLeft r chunks)).length < r.length + chunks.flatten.length := by
  induction chunks generalizing r with
  | nil => cases hlost
  | cons chunk chunks ih =>
    have hhead := length_kept_le r chunk
    rw [linesLeft, length_ended_append, List.flatten_cons, List.length_append]
    rcases List.mem_cons.mp hlost with rfl | hlost
    · have hpos := List.length_pos_iff.mpr hne
      have htail := length_linesLeft_le (kept r lost) chunks
      have hno : 10 ∉ r ++ lost := fun hx => (List.mem_append.mp hx).elim hr h
      have hkept : kept r lost = [] := if_neg h
      rw [hkept, List.length_nil] at htail
      rw [lines_of_notMem hno, hkept]
      have hzero : (ended (10 : Byte) []).length = 0 := rfl
      omega
    · have htail := ih (r := kept r chunk) (kept_notMem r chunk) hlost
      omega

end Lines

theorem written_inj {pattern : Str} {ks ls : List Str} : written pattern ks = written pattern ls ↔
    ks.filter (matchText pattern) = ls.filter (matchText pattern) :=
  (List.map_injective_iff.mpr (List.append_left_injective [10])).eq_iff

section Result

variable {pattern : Str} {buf : List Byte} {chunks : List (List Byte)} {ls : List Str}

/-- A stream of lines that fit into the buffer. -/
structure Lines (chunks : List (List Byte)) (ls : List Str) : Prop where
  stream : chunks.flatten = ended 10 ls
  short : ∀ l ∈ ls, l.length ≤ 1022
  no_nul : ∀ l ∈ ls, 0 ∉ l
  no_newline : ∀ l ∈ ls, 10 ∉ l

theorem Lines.chunk_no_nul (h : Lines chunks ls) : ∀ chunk ∈ chunks, 0 ∉ chunk := by
  intro chunk hchunk h0
  have hmem : 0 ∈ ended 10 ls := h.stream ▸ List.mem_flatten_of_mem hchunk h0
  obtain ⟨l', hl', hin⟩ := List.mem_flatten.mp hmem
  obtain ⟨l, hl, rfl⟩ := List.mem_map.mp hl'
  rcases List.mem_append.mp hin with hin | hin
  · exact h.no_nul l hl hin
  · exact absurd (List.mem_singleton.mp hin) (by decide)

theorem linesLeft_iff (h : Lines chunks ls) (hne : ∀ chunk ∈ chunks, chunk ≠ []) :
    linesLeft [] chunks = ls ↔ ∀ chunk ∈ chunks, 10 ∈ chunk := by
  constructor
  · intro heq chunk hchunk
    by_contra hno
    have hlt := length_linesLeft_lt (r := []) List.not_mem_nil hchunk (hne chunk hchunk) hno
    rw [heq, h.stream, List.length_nil] at hlt
    omega
  · intro hall
    rw [linesLeft_eq List.not_mem_nil hall, List.nil_append, h.stream, lines_ended h.no_newline]

theorem Fits.ne_nil {r : List Byte} (h : Fits r chunks) : ∀ chunk ∈ chunks, chunk ≠ [] := by
  induction chunks generalizing r with
  | nil => exact nofun
  | cons chunk chunks ih =>
    intro c hc
    rcases List.mem_cons.mp hc with rfl | hc
    · exact h.1
    · exact ih h.2.2 c hc

/-- grep() writes the right lines exactly when the lines left match as the lines do, and the lines
left are the lines exactly when every chunk has a newline. -/
theorem grep_right (hbuf : buf.length = BUFSIZE) (h : Lines chunks ls)
    (hserved : Served pattern chunks (start buf)) :
    (Right pattern chunks ls buf ↔
      (linesLeft [] chunks).filter (matchText pattern) = ls.filter (matchText pattern)) ∧
    (linesLeft [] chunks = ls ↔ ∀ chunk ∈ chunks, 10 ∈ chunk) := by
  have hstart := Holds.start hbuf
  have hfits := (served_iff hstart h.chunk_no_nul).mp hserved
  refine ⟨?_, linesLeft_iff h hfits.ne_nil⟩
  obtain ⟨g, hg, hout⟩ := grep_spec pattern hstart h.chunk_no_nul hserved
  have hout : g.out = written pattern (linesLeft [] chunks) := hout
  rw [← written_inj, ← hout]
  constructor
  · rintro ⟨g', hg', hright⟩
    obtain rfl : g = g' := Option.some.inj (hg.symm.trans hg')
    exact hright
  · intro hright
    exact ⟨g, hg, hright⟩

/-- "ab" and a newline, of which read() returns "a" first. -/
def split : List (List Byte) := [[97], [98, 10]]

theorem split_lines : Lines split [[97, 98]] := ⟨rfl, by decide, by decide, by decide⟩

theorem split_served (pattern : Str) (hbuf : buf.length = BUFSIZE) :
    Served pattern split (start buf) := by
  refine (served_iff (Holds.start hbuf) split_lines.chunk_no_nul).mpr ?_
  exact ⟨by decide, by decide, by decide, by decide, trivial⟩

theorem grep_right_split :
    (Right [97] split [[97, 98]] (List.replicate BUFSIZE 0) ↔
      (linesLeft [] split).filter (matchText [97]) = [[97, 98]].filter (matchText [97])) ∧
    (linesLeft [] split = [[97, 98]] ↔ ∀ chunk ∈ split, 10 ∈ chunk) :=
  grep_right List.length_replicate split_lines (split_served _ List.length_replicate)

/-- The line "ab" is lost to a search for "a". -/
theorem grep_loses_line : Lines split [[97, 98]] ∧
    Served [97] split (start (List.replicate BUFSIZE 0)) ∧
    ¬ Right [97] split [[97, 98]] (List.replicate BUFSIZE 0) := by
  refine ⟨split_lines, split_served _ List.length_replicate, ?_⟩
  obtain ⟨g, hg, hout⟩ := grep_spec [97] (Holds.start List.length_replicate)
    split_lines.chunk_no_nul (split_served _ List.length_replicate)
  rintro ⟨g', hg', hright⟩
  obtain rfl : g = g' := Option.some.inj (hg.symm.trans hg')
  rw [hout] at hright
  exact absurd hright (by decide)

end Result

end Grep
