import OsEngineering.Console

/-! The input ring holds the committed text that no read has taken, and behind it the line that is
being edited. -/
namespace ConsoleBuffer

open ByteBlock RingBuffer Console

variable {i : Input} {p l front : List Byte} {t : Text} {c : Byte}

/-- The ring has the committed characters `p`, then the line `l`. -/
structure Holds (i : Input) (p l : List Byte) : Prop where
  w_eq : i.w = i.r + BitVec.ofNat 32 p.length
  e_eq : i.e = i.r + BitVec.ofNat 32 (p.length + l.length)
  bound : p.length + l.length ≤ INPUT_BUF
  chars : contents i.buf i.r i.e = p ++ l

theorem cap_lt : INPUT_BUF < 2 ^ 32 := by decide

theorem cap_dvd : INPUT_BUF ∣ 2 ^ 32 := ⟨2 ^ 25, by decide⟩

theorem Holds.count_e (h : Holds i p l) : (i.e - i.r).toNat = p.length + l.length := by
  have hcap := cap_lt
  have hbound := h.bound
  rw [h.e_eq]
  exact count_add (by omega)

theorem Holds.count_w (h : Holds i p l) : (i.w - i.r).toNat = p.length := by
  have hcap := cap_lt
  have hbound := h.bound
  rw [h.w_eq]
  exact count_add (by omega)

theorem Holds.count_line (h : Holds i p l) : (i.e - i.w).toNat = l.length := by
  have hcap := cap_lt
  have hbound := h.bound
  have hmid : i.e = i.w + BitVec.ofNat 32 l.length := by
    rw [h.e_eq, h.w_eq, BitVec.ofNat_add, BitVec.add_assoc]
  rw [hmid]
  exact count_add (by omega)

theorem Holds.no_line (h : Holds i p l) : i.e = i.w ↔ l = [] := by
  rw [← List.length_eq_zero_iff, ← h.count_line]
  exact eq_comm.trans count_eq_zero.symm

theorem Holds.no_text (h : Holds i p l) : i.r = i.w ↔ p = [] := by
  rw [← List.length_eq_zero_iff, ← h.count_w]
  exact count_eq_zero.symm

theorem Holds.full (h : Holds i p l) :
    i.e = i.r + BitVec.ofNat 32 INPUT_BUF ↔ p.length + l.length = INPUT_BUF := by
  rw [← h.count_e]
  exact (count_eq_cap cap_lt).symm

/-! One lemma for each way the counters move. -/

theorem Holds.put (h : Holds i p l) (hroom : p.length + l.length < INPUT_BUF) :
    Holds (i.put c) p (l ++ [c]) := by
  refine ⟨h.w_eq, ?_, ?_, ?_⟩
  · have hone : (1 : Word) = BitVec.ofNat 32 1 := rfl
    simp only [Input.put, h.e_eq, List.length_append, List.length_singleton]
    rw [BitVec.add_assoc, hone, ← BitVec.ofNat_add, Nat.add_assoc]
  · rw [List.length_append, List.length_singleton]
    omega
  · have hcount : count i.r i.e < INPUT_BUF := by
      rw [count, h.count_e]
      exact hroom
    simp only [Input.put]
    rw [contents_push cap_dvd c hcount (lt_of_le_of_lt hcount cap_lt), h.chars, List.append_assoc]

theorem Holds.commit (h : Holds i p l) : Holds { i with w := i.e } (p ++ l) [] := by
  refine ⟨?_, ?_, ?_, ?_⟩
  · rw [List.length_append]
    exact h.e_eq
  · rw [List.length_append, List.length_nil, Nat.add_zero]
    exact h.e_eq
  · rw [List.length_append, List.length_nil, Nat.add_zero]
    exact h.bound
  · rw [List.append_nil]
    exact h.chars

theorem Holds.last (h : Holds i p (l ++ [c])) :
    i.buf (slot INPUT_BUF (i.e - 1)) = c ∧ Holds { i with e := i.e - 1 } p l := by
  have hcap := cap_lt
  have hbound := h.bound
  have hone : (1 : Word) = BitVec.ofNat 32 1 := rfl
  rw [List.length_append, List.length_singleton] at hbound
  have hback : i.e - 1 = i.r + BitVec.ofNat 32 (p.length + l.length) := by
    rw [h.e_eq, List.length_append, List.length_singleton, ← Nat.add_assoc, BitVec.ofNat_add,
      ← BitVec.add_assoc, ← hone, BitVec.add_sub_cancel]
  have hcount : count i.r (i.e - 1) + 1 < 2 ^ 32 := by
    rw [hback, count_add (by omega)]
    omega
  have hchars := h.chars
  have hsplit := contents_succ i.buf hcount
  rw [BitVec.sub_add_cancel] at hsplit
  rw [hsplit, ← List.append_assoc] at hchars
  obtain ⟨hfront, hlast⟩ := List.append_inj' hchars rfl
  refine ⟨List.singleton_inj.mp hlast, h.w_eq, hback, ?_, hfront⟩
  omega

theorem Holds.take (h : Holds i (c :: p) l) :
    i.buf (slot INPUT_BUF i.r) = c ∧ Holds { i with r := i.r + 1 } p l := by
  have hone : (1 : Word) = BitVec.ofNat 32 1 := rfl
  have hbound := h.bound
  rw [List.length_cons] at hbound
  have hne : i.r ≠ i.e := by
    intro heq
    have hcount := h.count_e
    rw [heq, BitVec.sub_self, List.length_cons] at hcount
    exact absurd hcount (by simp only [BitVec.toNat_zero]; omega)
  have hchars := h.chars
  rw [contents_pop i.buf hne, List.cons_append] at hchars
  obtain ⟨hhead, htail⟩ := List.cons.inj hchars
  refine ⟨hhead, ?_, ?_, ?_, htail⟩
  · simp only [h.w_eq, List.length_cons]
    rw [Nat.add_comm, BitVec.ofNat_add, ← BitVec.add_assoc]
    rfl
  · simp only [h.e_eq, List.length_cons]
    rw [Nat.add_right_comm, Nat.add_comm (p.length + l.length), BitVec.ofNat_add,
      ← BitVec.add_assoc]
    rfl
  · omega

/-! consoleintr() edits the line as the discipline says. -/

theorem killLine_empty (h : Holds i p l) (hl : ∀ x ∈ l, x ≠ chr '\n') :
    Holds (Input.killLine l.length i) p [] := by
  induction l using List.reverseRecOn generalizing i with
  | nil => exact h
  | append_singleton l c ih =>
    obtain ⟨hlast, hback⟩ := h.last
    have hne : i.e ≠ i.w := mt h.no_line.mp (List.append_ne_nil_of_right_ne_nil l (List.cons_ne_nil c []))
    have hc : i.buf (slot INPUT_BUF (i.e - 1)) ≠ chr '\n' := by
      rw [hlast]
      exact hl c (List.mem_append_right l List.mem_cons_self)
    rw [List.length_append, List.length_singleton, Input.killLine, if_pos ⟨hne, hc⟩]
    exact ih hback fun x hx => hl x (List.mem_append_left [c] hx)

/-- `front` has been read; the ring and the text agree on the rest. -/
structure Mirrors (front : List Byte) (i : Input) (t : Text) (p : List Byte) : Prop where
  holds : Holds i p t.line
  committed : t.committed = front ++ p
  clean : ∀ x ∈ t.line, x ≠ chr '\n' ∧ x ≠ C 'D'

theorem Mirrors.waiting (h : Mirrors front i t p) :
    t.committed.length - front.length + t.line.length = p.length + t.line.length := by
  rw [h.committed, List.length_append]
  omega

theorem insert_mirrors (h : Mirrors front i t p) (hroom : p.length + t.line.length < INPUT_BUF) :
    ∃ p', Mirrors front
      (if c = chr '\n' ∨ c = C 'D' ∨ (i.put c).e = (i.put c).r + BitVec.ofNat 32 INPUT_BUF then
        ({ i.put c with w := (i.put c).e }, true) else (i.put c, false)).1
      (if c = chr '\n' ∨ c = C 'D' ∨ p.length + t.line.length + 1 = INPUT_BUF then
        ⟨t.committed ++ (t.line ++ [c]), []⟩ else { t with line := t.line ++ [c] }) p' := by
  have hput := h.holds.put (c := c) hroom
  have hfull : (i.put c).e = (i.put c).r + BitVec.ofNat 32 INPUT_BUF ↔
      p.length + t.line.length + 1 = INPUT_BUF := by
    rw [hput.full, List.length_append, List.length_singleton, Nat.add_assoc]
  by_cases hcommit : c = chr '\n' ∨ c = C 'D' ∨ p.length + t.line.length + 1 = INPUT_BUF
  · rw [if_pos (by rw [hfull]; exact hcommit), if_pos hcommit]
    refine ⟨p ++ (t.line ++ [c]), hput.commit, ?_, fun x hx => absurd hx List.not_mem_nil⟩
    rw [h.committed, List.append_assoc]
  · rw [if_neg (by rw [hfull]; exact hcommit), if_neg hcommit]
    obtain ⟨hnewline, hrest⟩ := not_or.mp hcommit
    refine ⟨p, hput, h.committed, fun x hx => ?_⟩
    rcases List.mem_append.mp hx with hx | hx
    · exact h.clean x hx
    · rw [List.mem_singleton] at hx
      rw [hx]
      exact ⟨hnewline, (not_or.mp hrest).1⟩

theorem key_mirrors (h : Mirrors front i t p) (c : Byte) :
    ∃ p', Mirrors front (i.key c).1 (t.type front.length c) p' := by
  rw [Input.key, Text.type, h.waiting]
  by_cases hlist : c = C 'P'
  · rw [if_pos hlist, if_pos hlist]
    exact ⟨p, h⟩
  rw [if_neg hlist, if_neg hlist]
  by_cases hkill : c = C 'U'
  · rw [if_pos hkill, if_pos hkill, h.holds.count_line]
    exact ⟨p, killLine_empty h.holds fun x hx => (h.clean x hx).1, h.committed,
      fun x hx => absurd hx List.not_mem_nil⟩
  rw [if_neg hkill, if_neg hkill]
  by_cases herase : c = C 'H' ∨ c = 0x7f
  · rw [if_pos herase, if_pos herase]
    rcases List.eq_nil_or_concat t.line with hempty | ⟨l, x, hline⟩
    · rw [if_neg (not_not.mpr (h.holds.no_line.mpr hempty))]
      refine ⟨p, ⟨?_, h.committed, ?_⟩⟩
      · have hholds := h.holds
        rw [hempty] at hholds ⊢
        exact hholds
      · rw [hempty]
        exact fun x hx => absurd hx List.not_mem_nil
    · have hholds := h.holds
      rw [hline] at hholds
      have hne : i.e ≠ i.w := mt h.holds.no_line.mp (by rw [hline]; simp)
      rw [if_pos hne, hline, List.concat_eq_append, List.dropLast_concat]
      rw [List.concat_eq_append] at hholds hline
      exact ⟨p, hholds.last.2, h.committed, fun y hy =>
        h.clean y (by rw [hline]; exact List.mem_append_left [x] hy)⟩
  rw [if_neg herase, if_neg herase]
  by_cases hroom : c ≠ 0 ∧ p.length + t.line.length < INPUT_BUF
  · have hroom' : ¬ (c = 0 ∨ INPUT_BUF ≤ p.length + t.line.length) := by
      rw [not_or, not_le]
      exact hroom
    rw [h.holds.count_e, if_pos hroom, if_neg hroom']
    exact insert_mirrors h hroom.2
  · have hroom' : c = 0 ∨ INPUT_BUF ≤ p.length + t.line.length := by
      by_contra hno
      rw [not_or, not_le] at hno
      exact hroom hno
    rw [h.holds.count_e, if_neg hroom, if_pos hroom']
    exact ⟨p, h⟩

/-- What is committed stays. -/
theorem type_committed (t : Text) (k : ℕ) (c : Byte) : t.committed <+: (t.type k c).committed := by
  simp only [Text.type]
  split_ifs
  all_goals first
    | exact List.prefix_append _ _
    | exact List.prefix_rfl

/-! consoleread(). -/

/-- A stretch took characters in order; it stored them all, or they are the one ^D that ends a read
of nothing. -/
structure Taken (killed : Bool) (target n : ℕ) (p l : List Byte) (r : Stretch) (p' : List Byte) : Prop where
  split : p = r.took ++ p'
  holds : Holds r.input p' l
  outcome : (C 'D' ∉ r.took ∧ r.dst = r.took ∧ r.dst.length + r.n = n ∧
      ((r.ret = none ∧ 0 < r.n) ∨ (r.ret = some (-1) ∧ killed = true) ∨
        (r.ret = some ((target : ℤ) - r.n) ∧ (r.n < target ∨ target = 0)))) ∨
    (r.took = [C 'D'] ∧ r.dst = [] ∧ r.n = n ∧ n = target ∧ 0 < target ∧ r.ret = some 0)

theorem readLoop_taken (killed : Bool) {target n : ℕ} (hn : n ≤ target) (h : Holds i p l) :
    ∃ p', Taken killed target n p l (readLoop killed target n i) p' := by
  induction n generalizing i p with
  | zero =>
    refine ⟨p, rfl, h, Or.inl ⟨List.not_mem_nil, rfl, rfl, Or.inr (Or.inr ⟨?_, ?_⟩)⟩⟩
    · simp only [readLoop, Nat.cast_zero, sub_zero]
    · simp only [readLoop]
      omega
  | succ n ih =>
    rw [readLoop]
    cases p with
    | nil =>
      rw [if_pos (h.no_text.mpr rfl)]
      refine ⟨[], rfl, h, Or.inl ⟨List.not_mem_nil, rfl, Nat.zero_add _, ?_⟩⟩
      cases killed with
      | false => exact Or.inl ⟨rfl, Nat.succ_pos n⟩
      | true => exact Or.inr (Or.inl ⟨rfl, rfl⟩)
    | cons c p =>
      obtain ⟨hc, hnext⟩ := h.take
      rw [if_neg (mt h.no_text.mp (List.cons_ne_nil c p)), hc]
      by_cases hd : c = C 'D'
      · rw [if_pos hd]
        by_cases hback : n + 1 < target
        · rw [if_pos hback]
          have hsame : i.r + 1 - 1 = i.r := BitVec.add_sub_cancel i.r 1
          refine ⟨c :: p, rfl, ?_, Or.inl ⟨List.not_mem_nil, rfl, Nat.zero_add _,
            Or.inr (Or.inr ⟨?_, Or.inl hback⟩)⟩⟩
          · simp only [hsame]
            exact h
          · simp only [Nat.cast_add, Nat.cast_one]
        · rw [if_neg hback]
          have htarget : n + 1 = target := by omega
          refine ⟨p, rfl, hnext, Or.inr ⟨by rw [hd], rfl, rfl, htarget, by omega, ?_⟩⟩
          rw [← htarget, Nat.cast_add, Nat.cast_one, sub_self]
      · rw [if_neg hd]
        by_cases hnl : c = chr '\n'
        · rw [if_pos hnl]
          refine ⟨p, rfl, hnext, Or.inl ⟨?_, rfl, Nat.add_comm 1 n,
            Or.inr (Or.inr ⟨rfl, Or.inl hn⟩)⟩⟩
          rw [List.mem_singleton]
          exact Ne.symm hd
        · rw [if_neg hnl]
          obtain ⟨p', htaken⟩ := ih (by omega) hnext
          generalize readLoop killed target n { i with r := i.r + 1 } = t at htaken ⊢
          refine ⟨p', ?_, htaken.holds, Or.inl ?_⟩
          · rw [List.cons_append, ← htaken.split]
          · rcases htaken.outcome with ⟨hno, hdst, hlen, hret⟩ | ⟨-, -, -, htarget, -, -⟩
            · refine ⟨?_, congrArg (List.cons c) hdst, ?_, hret⟩
              · rw [List.mem_cons, not_or]
                exact ⟨Ne.symm hd, hno⟩
              · simp only [List.length_cons]
                omega
            · omega

end ConsoleBuffer
