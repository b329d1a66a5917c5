import OsEngineering.Printers
import OsEngineering.StreamFilters
import OsEngineering.Words

/-! cat.c and wc.c as the programs of a pipeline. -/
namespace UserPrograms

open ByteBlock Console Printers StreamFilters Words

/-- `char buf[512]` -/
def BUFSIZE : ℕ := 512

theorem BUFSIZE_pos : 0 < BUFSIZE := by decide

/-- The loop of cat() writes each buffer it has read. -/
def cat : StreamFilter Byte where
  Vars := Unit
  init := ()
  size := BUFSIZE
  feed v buf := (v, if buf = [] then [] else [buf])
  finish _ := []
  size_pos := BUFSIZE_pos
  feed_nil := by simp
  feed_vars := by simp
  feed_writes v xs ys := by by_cases hx : xs = [] <;> by_cases hy : ys = [] <;> simp [hx, hy]
  feed_ne_nil v xs := by by_cases hx : xs = [] <;> simp [hx, eq_comm]
  finish_ne_nil := by simp

structure Counts where
  l : Word
  w : Word
  c : Word
  inword : Bool

/-- " \r\t\n\v" -/
def blanks : List Byte := [chr ' ', chr '\r', chr '\t', chr '\n', 0x0b]

/-- The body of the inner loop of wc(). -/
def Counts.next (v : Counts) (b : Byte) : Counts :=
  let v := { v with c := v.c + 1 }
  let v := if b = chr '\n' then { v with l := v.l + 1 } else v
  if b ∈ blanks then { v with inword := false }
  else if v.inword then v
  else { v with w := v.w + 1, inword := true }

/-- The arguments of printf(1, "%d %d %d %s\n", l, w, c, name); the name is "". -/
def Counts.args (v : Counts) : ℕ → Word
  | 0 => v.l
  | 1 => v.w
  | 2 => v.c
  | _ => 1

def format : List Byte :=
  ['%', 'd', ' ', '%', 'd', ' ', '%', 'd', ' ', '%', 's', '\n'].map chr

/-- What printf() gives to putc(). -/
def Counts.print (v : Counts) : List Byte := (User.printf (fun _ => []) v.args format).getD []

/-- wc(0, "") -/
def wc : StreamFilter Byte where
  Vars := Counts
  init := ⟨0, 0, 0, false⟩
  size := BUFSIZE
  feed v buf := (buf.foldl Counts.next v, [])
  finish v := v.print.map fun b => [b]
  size_pos := BUFSIZE_pos
  feed_nil := by simp
  feed_vars := by simp
  feed_writes := by simp
  feed_ne_nil := by simp
  finish_ne_nil := by simp

theorem cat_written (xs : List Byte) : cat.written xs = xs := by
  by_cases hx : xs = [] <;> simp [StreamFilter.written, StreamFilter.early, cat, hx]

theorem stream_cats (program : ℕ → StreamFilter Byte) {n : ℕ} (h : ∀ i < n, program i = cat)
    (file : List Byte) : stream program file n = file := by
  induction n with
  | zero => rfl
  | succ n ih =>
    have hcat := h n (by omega)
    rw [stream, hcat, cat_written, ih fun i hi => h i (by omega)]

/-! The counters of wc() -/

def Blank (b : Byte) : Bool := b ∈ blanks

section Fields

variable (v : Counts) (b : Byte)

theorem next_l : (v.next b).l = if b = chr '\n' then v.l + 1 else v.l := by
  simp only [Counts.next]
  split_ifs <;> rfl

theorem next_c : (v.next b).c = v.c + 1 := by
  simp only [Counts.next]
  split_ifs <;> rfl

theorem next_inword : (v.next b).inword = !Blank b := by
  simp only [Counts.next, Blank]
  split_ifs <;> simp_all

theorem next_w : (v.next b).w = if !Blank b && !v.inword then v.w + 1 else v.w := by
  simp only [Counts.next, Blank]
  split_ifs <;> simp_all

end Fields

theorem add_one (x : Word) (k : ℕ) : x + 1 + BitVec.ofNat 32 k = x + BitVec.ofNat 32 (k + 1) := by
  have hone : (1 : Word) = BitVec.ofNat 32 1 := rfl
  rw [BitVec.ofNat_add, BitVec.add_assoc, hone, BitVec.add_comm (BitVec.ofNat 32 1)]

theorem counted_l (xs : List Byte) (v : Counts) :
    (xs.foldl Counts.next v).l = v.l + BitVec.ofNat 32 (xs.count (chr '\n')) := by
  induction xs generalizing v with
  | nil => simp
  | cons b xs ih =>
    rw [List.foldl_cons, ih, next_l]
    by_cases hb : b = chr '\n'
    · rw [if_pos hb, hb, List.count_cons_self, add_one]
    · rw [if_neg hb, List.count_cons_of_ne hb]

theorem counted_c (xs : List Byte) (v : Counts) :
    (xs.foldl Counts.next v).c = v.c + BitVec.ofNat 32 xs.length := by
  induction xs generalizing v with
  | nil => simp
  | cons b xs ih => rw [List.foldl_cons, ih, next_c, List.length_cons, add_one]

/-- The words that begin in `xs`, when the byte before it was in a word or was not. -/
def begun (inword : Bool) (xs : List Byte) : List (List Byte) :=
  if inword then words Blank (xs.dropWhile fun b => !Blank b) else words Blank xs

theorem begun_cons (inword : Bool) (b : Byte) (xs : List Byte) : (begun inword (b :: xs)).length =
    (if !Blank b && !inword then 1 else 0) + (begun (!Blank b) xs).length := by
  cases hb : Blank b with
  | true => cases inword <;> simp [begun, hb, words_sep hb]
  | false =>
    cases inword with
    | true => simp [begun, hb]
    | false =>
      have hsplit := words_cons hb xs
      simp [begun, hb, hsplit, Nat.add_comm]

theorem counted_w (xs : List Byte) (v : Counts) :
    (xs.foldl Counts.next v).w = v.w + BitVec.ofNat 32 (begun v.inword xs).length := by
  induction xs generalizing v with
  | nil => cases hv : v.inword <;> simp [begun]
  | cons b xs ih =>
    rw [List.foldl_cons, ih, next_w, next_inword, begun_cons]
    by_cases hnew : (!Blank b && !v.inword) = true
    · rw [if_pos hnew, if_pos hnew, Nat.add_comm 1, add_one]
    · rw [if_neg hnew, if_neg hnew, Nat.zero_add]

/-- The line that wc() prints for these counters. -/
def report (l w c : Word) : List Byte :=
  decimal userStyle l.toInt ++ chr ' ' :: (decimal userStyle w.toInt ++ chr ' ' ::
    (decimal userStyle c.toInt ++ [chr ' ', chr '\n']))

theorem print_report (v : Counts) : v.print = report v.l v.w v.c := by
  have hrun : User.printf (fun _ => []) v.args format =
      some (render userStyle (fun _ => []) v.args (pieces format) 0) := user_loop format 0
  have hpieces : pieces format = [.conv (chr 'd'), .text (chr ' '), .conv (chr 'd'),
      .text (chr ' '), .conv (chr 'd'), .text (chr ' '), .conv (chr 's'), .text (chr '\n')] := by
    decide
  have hd : ∀ arg, convert userStyle (fun _ => []) (chr 'd') arg =
      (decimal userStyle arg.toInt, true) := fun arg => rfl
  have hs : convert userStyle (fun _ => []) (chr 's') 1#32 = ([], true) := rfl
  simp [Counts.print, hrun, hpieces, render, hd, hs, Counts.args, report]

theorem wc_written (xs : List Byte) : wc.written xs =
    report (BitVec.ofNat 32 (xs.count (chr '\n'))) (BitVec.ofNat 32 (words Blank xs).length)
      (BitVec.ofNat 32 xs.length) := by
  have hafter : wc.after xs = xs.foldl Counts.next ⟨0, 0, 0, false⟩ := rfl
  have hflat : ∀ cs : List Byte, (cs.map fun b => [b]).flatten = cs := by
    intro cs
    induction cs with
    | nil => rfl
    | cons b cs ih => simp [ih]
  have hl := counted_l xs ⟨0, 0, 0, false⟩
  have hw := counted_w xs ⟨0, 0, 0, false⟩
  have hc := counted_c xs ⟨0, 0, 0, false⟩
  have hbegun : begun false xs = words Blank xs := rfl
  have hzero : ∀ x : Word, 0 + x = x := fun x => BitVec.zero_add x
  simp only [hzero, hbegun] at hl hw hc
  have hearly : wc.early xs = [] := rfl
  have hfinish : wc.finish (wc.after xs) = (wc.after xs).print.map fun b => [b] := rfl
  rw [StreamFilter.written, hearly, hfinish, hflat, List.nil_append, hafter, print_report, hl, hw,
    hc]

end UserPrograms
