import OsEngineering.FormatScan
import OsEngineering.Memmove
import Mathlib.Data.List.GetD

/-! vsnprintf() of lab01's lib/printfmt.c: vprintfmt() with a putch() that stops at the end of a
buffer. The buffer is apart from the format and from the strings that it prints. -/
namespace BoundedPrint

open ByteBlock FlatMemory MemoryMoves Memmove OutputPrograms PrintNumber PrintFormat

def E_INVAL : Word := 3

structure Sprintbuf where
  mem : Memory
  buf : Word
  ebuf : Word
  cnt : Word

def sprintputch (ch : Word) (b : Sprintbuf) : Sprintbuf :=
  let b := { b with cnt := b.cnt + 1 }
  if b.buf < b.ebuf then
    { b with mem := Function.update b.mem b.buf (ch.setWidth 8), buf := b.buf + 1 }
  else b

/-- What vsnprintf() returns, and the memory after it. -/
def vsnprintf (strings : Strings) (k : ℕ) (mem : Memory) (buf n : Word) (fmt : List Byte)
    (ap : List Word) : Except Stop (Word × Memory) :=
  if buf = 0 ∨ n.toInt < 1 then .ok (-E_INVAL, mem)
  else do
    let (_, b) ← (vprintfmt sprintputch strings k (.start fmt) ap).run ⟨mem, buf, buf + n - 1, 0⟩
    .ok (b.cnt, Function.update b.mem b.buf 0)

/-! No part of vprintfmt() looks at what putch() does -/

theorem uniform_putTimes (c : Word) (n : ℕ) :
    Uniform (fun _ putch => putTimes putch c n) :=
  .of_prints (putTimes_prints c n)

theorem uniform_putDigit (d : ℕ) : Uniform (fun _ putch => putDigit putch d) := by
  unfold putDigit
  cases hexDigits[d]? with
  | none => exact .throw _
  | some c => exact .putch _

theorem uniform_printnum (base padc : Word) (k : ℕ) (num : BitVec 64) (width : Word) :
    Uniform (fun _ putch => printnum putch base padc k num width) := by
  induction k generalizing num width with
  | zero => exact .throw _
  | succ k ih =>
    unfold printnum
    refine .bind (.ite (fun _ => ih _ _) fun _ => uniform_putTimes _ _) fun _ => ?_
    exact uniform_putDigit _

theorem uniform_printString (f : Flags) (p : List Byte) :
    Uniform (fun _ putch => printString putch f p) := by
  obtain ⟨cs, h⟩ := FormatScan.exists_printString f p
  exact .of_prints h

section Nested

variable {printfmt : List Byte → List Word → Program Word Stop Unit}

theorem uniform_printError (strings : Strings) (err : Word)
    (h : ∀ fmt ap, Uniform (printfmt fmt ap)) :
    Uniform (fun σ putch => printError strings (fun fmt ap => printfmt fmt ap σ putch) err) := by
  unfold printError
  refine .ite (fun _ => h _ _) fun _ => .bind (.lift _) fun p => ?_
  exact .ite (fun _ => h _ _) fun _ => h _ _

theorem uniform_convert (strings : Strings) (k : ℕ) (d : Byte) (st : Scan)
    (h : ∀ fmt ap, Uniform (printfmt fmt ap)) : Uniform (fun σ putch =>
      convert putch strings (fun fmt ap => printfmt fmt ap σ putch) k d st) := by
  obtain ⟨fmt, ap, f⟩ := st
  have hnumber : ∀ num base ap, Uniform (fun σ putch => (do
      number putch k num base f
      pure ⟨fmt, ap, f⟩ : StateT σ (Except Stop) Scan)) := fun num base ap =>
    .bind (uniform_printnum base _ k num _) fun _ => .pure _
  unfold convert
  refine .ite (fun _ => ?_) fun _ => ?_
  · exact .bind (.lift _) fun r => .bind (.putch r.1) fun _ => .pure _
  refine .ite (fun _ => ?_) fun _ => ?_
  · exact .bind (.lift _) fun r => .bind (uniform_printError strings r.1 h) fun _ => .pure _
  refine .ite (fun _ => ?_) fun _ => ?_
  · exact .bind (.lift _) fun r => .bind (uniform_printString f _) fun _ => .pure _
  refine .ite (fun _ => ?_) fun _ => ?_
  · refine .bind (.lift _) fun r => .bind (.ite (fun _ => ?_) fun _ => .pure _) fun num =>
      hnumber num 10 r.2
    exact .bind (.putch _) fun _ => .pure _
  refine .ite (fun _ => ?_) fun _ => ?_
  · exact .bind (.lift _) fun r => hnumber r.1 10 r.2
  refine .ite (fun _ => ?_) fun _ => ?_
  · exact .bind (.lift _) fun r => hnumber r.1 8 r.2
  refine .ite (fun _ => ?_) fun _ => ?_
  · exact .bind (.putch _) fun _ => .bind (.putch _) fun _ => .bind (.lift _) fun r =>
      hnumber _ 16 r.2
  refine .ite (fun _ => ?_) fun _ => ?_
  · exact .bind (.lift _) fun r => hnumber r.1 16 r.2
  refine .ite (fun _ => ?_) fun _ => ?_
  · exact .bind (.putch _) fun _ => .pure _
  · exact .bind (.putch _) fun _ => .bind (.lift _) fun ptr => .pure _

end Nested

theorem uniform_vprintfmt (strings : Strings) (k : ℕ) (fmt : Ptr) (ap : List Word) :
    Uniform (fun _ putch => vprintfmt putch strings k fmt ap) := by
  induction k generalizing fmt ap with
  | zero => exact .throw _
  | succ k ih =>
    unfold vprintfmt
    refine .bind (.lift _) fun r => .ite (fun _ => .bind (.lift _) fun r => ?_) fun _ =>
      .ite (fun _ => .pure _) fun _ => ?_
    · exact .bind (uniform_convert strings k r.1 r.2 fun fmt ap => ih (.start fmt) ap) fun st =>
        ih st.fmt st.ap
    · exact .bind (.putch _) fun _ => ih r.2 ap

/-! The buffer -/

variable {mem : Memory} {buf ebuf n : Word} {room : ℕ} {cs : List Word} {b : Sprintbuf}

/-- The bytes that a list of characters leaves in a buffer. -/
def stored (cs : List Word) (i : ℕ) : Byte := (cs.getD i 0).setWidth 8

/-- After the characters `cs`, of which `room` have a place. -/
structure Filled (mem : Memory) (buf ebuf : Word) (room : ℕ) (cs : List Word)
    (b : Sprintbuf) : Prop where
  written : Written (cell buf) (stored cs) (· < min cs.length room) mem b.mem
  buf_eq : b.buf = cell buf (min cs.length room)
  ebuf_eq : b.ebuf = ebuf
  cnt_eq : b.cnt = BitVec.ofNat 32 cs.length

theorem stored_append {i : ℕ} (hi : i < cs.length) (c : Word) :
    stored (cs ++ [c]) i = stored cs i := by
  rw [stored, stored, List.getD_append _ _ _ _ hi]

theorem stored_length (cs : List Word) (c : Word) :
    stored (cs ++ [c]) cs.length = c.setWidth 8 := by
  rw [stored, List.getD_append_right _ _ _ _ (le_refl _), Nat.sub_self, List.getD_cons_zero]

theorem Filled.sprintputch (h : Filled mem buf ebuf room cs b)
    (hroom : ebuf.toNat = buf.toNat + room) (c : Word) :
    Filled mem buf ebuf room (cs ++ [c]) (sprintputch c b) := by
  have hebuf := ebuf.isLt
  have hcell : (cell buf (min cs.length room)).toNat = buf.toNat + min cs.length room :=
    cell_toNat (by omega)
  have hfree : b.buf < b.ebuf ↔ cs.length < room := by
    rw [h.buf_eq, h.ebuf_eq, BitVec.lt_def, hcell]
    omega
  have hcnt : b.cnt + 1 = BitVec.ofNat 32 (cs ++ [c]).length := by
    rw [h.cnt_eq, List.length_append, List.length_singleton, BitVec.ofNat_add]
    rfl
  unfold BoundedPrint.sprintputch
  dsimp only
  by_cases hlt : cs.length < room
  · have hlast : min cs.length room = cs.length := by omega
    have hmin : min (cs ++ [c]).length room = cs.length + 1 := by
      rw [List.length_append, List.length_singleton]
      omega
    have hone : Written (cell buf) (stored (cs ++ [c])) (fun i => i = cs.length) b.mem
        (Function.update b.mem (cell buf cs.length) (c.setWidth 8)) := by
      rw [← stored_length cs c]
      exact written_update b.mem cs.length
    have hold : Written (cell buf) (stored (cs ++ [c])) (· < min cs.length room) mem b.mem :=
      h.written.congr_val fun i hi => (stored_append (by omega) c).symm
    have hbuf := h.buf_eq
    rw [hlast] at hbuf
    rw [if_pos (hfree.mpr hlt)]
    refine ⟨?_, ?_, h.ebuf_eq, hcnt⟩
    · rw [hbuf, hmin]
      refine (hold.union hone ?_).congr fun i => by omega
      rintro i j hi rfl
      have hbounded : Bounded buf buf room := ⟨by omega, by omega⟩
      exact hbounded.dst_ne (by omega) hlt (by omega)
    · rw [hmin, hbuf]
      exact cell_succ buf cs.length
  · have hmin : min (cs ++ [c]).length room = min cs.length room := by
      rw [List.length_append, List.length_singleton]
      omega
    rw [if_neg (mt hfree.mp hlt)]
    refine ⟨?_, hmin ▸ h.buf_eq, h.ebuf_eq, hcnt⟩
    rw [hmin]
    exact h.written.congr_val fun i hi => (stored_append (by omega) c).symm

theorem filled_emit (mem : Memory) (hroom : ebuf.toNat = buf.toNat + room) (cs : List Word) :
    Filled mem buf ebuf room cs (emit sprintputch cs ⟨mem, buf, ebuf, 0⟩) := by
  induction cs using List.reverseRecOn with
  | nil =>
    refine ⟨.refl (fun i => ?_) mem, ?_, rfl, rfl⟩
    · rw [List.length_nil, Nat.zero_min]
      exact Nat.not_lt_zero i
    · rw [List.length_nil, Nat.zero_min, cell_zero]
      rfl
  | append_singleton cs c ih =>
    rw [emit_append]
    exact ih.sprintputch hroom c

/-- vsnprintf() counts what vprintfmt() prints and stores as much of it as has a place before the
NUL. -/
theorem vsnprintf_truncates (strings : Strings) {k : ℕ} {fmt : List Byte} {ap o : List Word}
    (h : (vprintfmt collect strings k (.start fmt) ap).run [] = .ok ((), o))
    (hlen : o.length < 2 ^ 31) (mem : Memory) (hbuf : buf ≠ 0) (hn : 1 ≤ n.toInt)
    (hend : buf.toNat + n.toNat ≤ 2 ^ 32) : ∃ r mem',
      vsnprintf strings k mem buf n fmt ap = .ok (r, mem') ∧ r.toInt = o.length ∧
      (∀ i (hi : i < o.length), i < n.toNat - 1 → mem' (cell buf i) = o[i].setWidth 8) ∧
      mem' (cell buf (min o.length (n.toNat - 1))) = 0 ∧
      ∀ a, (∀ i ≤ min o.length (n.toNat - 1), a ≠ cell buf i) → mem' a = mem a := by
  have hpos : 0 < n.toNat := by
    rcases Nat.eq_zero_or_pos n.toNat with hzero | hpos
    · rw [BitVec.eq_of_toNat_eq (y := 0) hzero] at hn
      exact absurd hn (by decide)
    · exact hpos
  have hroom : (buf + n - 1).toNat = buf.toNat + (n.toNat - 1) := by bv_omega
  have hfilled := filled_emit mem hroom o
  have hrun := uniform_vprintfmt strings k (.start fmt) ap Sprintbuf sprintputch
    ⟨mem, buf, buf + n - 1, 0⟩
  rw [h] at hrun
  have hargs : ¬ (buf = 0 ∨ n.toInt < 1) := by
    rintro (hnull | hshort)
    · exact hbuf hnull
    · omega
  have hne : ∀ i < min o.length (n.toNat - 1),
      cell buf i ≠ cell buf (min o.length (n.toNat - 1)) := by
    intro i hi
    have hebuf := (buf + n - 1).isLt
    rw [ne_eq, ← BitVec.toNat_inj, cell_toNat (by omega), cell_toNat (by omega)]
    omega
  have hcall : ∃ b, Filled mem buf (buf + n - 1) (n.toNat - 1) o b ∧
      vsnprintf strings k mem buf n fmt ap = .ok (b.cnt, Function.update b.mem b.buf 0) := by
    refine ⟨_, hfilled, ?_⟩
    unfold vsnprintf
    rw [if_neg hargs, hrun]
    rfl
  obtain ⟨b, hb, hcall⟩ := hcall
  refine ⟨b.cnt, Function.update b.mem b.buf 0, hcall, ?_, fun i hi hroom => ?_, ?_,
    fun a ha => ?_⟩
  · rw [hb.cnt_eq, BitVec.toInt_eq_toNat_of_lt] <;>
      rw [BitVec.toNat_ofNat, Nat.mod_eq_of_lt (by omega)]
    omega
  · rw [hb.buf_eq, Function.update_of_ne (hne i (by omega)), hb.written.inside i (by omega),
      stored, List.getD_eq_getElem _ _ hi]
  · rw [hb.buf_eq, Function.update_self]
  · rw [hb.buf_eq, Function.update_of_ne (ha _ (le_refl _))]
    exact hb.written.outside a fun i hi => ha i (Nat.le_of_lt hi)

/-- Three characters and a NUL have to share two bytes. -/
theorem vsnprintf_truncates_two : ∃ r mem',
    vsnprintf FormatScan.messages 90 oneByte 16 2 (bytes ['a', '%', 'd']) [42] = .ok (r, mem') ∧
      r.toInt = ([int 'a', int '4', int '2'] : List Word).length ∧
      (∀ i (hi : i < [int 'a', int '4', int '2'].length), i < (2 : Word).toNat - 1 →
        mem' (cell 16 i) = [int 'a', int '4', int '2'][i].setWidth 8) ∧
      mem' (cell 16 (min [int 'a', int '4', int '2'].length ((2 : Word).toNat - 1))) = 0 ∧
      ∀ a, (∀ i ≤ min [int 'a', int '4', int '2'].length ((2 : Word).toNat - 1), a ≠ cell 16 i) →
        mem' a = oneByte a :=
  vsnprintf_truncates FormatScan.messages rfl (by decide) oneByte (by decide) (by decide)
    (by decide)

end BoundedPrint
