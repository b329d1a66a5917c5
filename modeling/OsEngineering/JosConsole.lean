import OsEngineering.ByteBlock
import OsEngineering.RingBuffer
import OsEngineering.TransitionSystem

/-! The input buffer of the console in lab01's kern/console.c: when cons_intr() fills the last free
place, the buffer counts as empty. -/
namespace JosConsole

open ByteBlock RingBuffer TransitionSystem

def CONSBUFSIZE : ℕ := 512

instance : NeZero CONSBUFSIZE := ⟨by decide⟩

structure Cons where
  buf : Fin CONSBUFSIZE → Byte
  rpos : Fin CONSBUFSIZE
  wpos : Fin CONSBUFSIZE

/-- pos++, and back to 0 at the end of the buffer. -/
def advance (pos : Fin CONSBUFSIZE) : Fin CONSBUFSIZE :=
  if h : pos.val + 1 = CONSBUFSIZE then ⟨0, by decide⟩
  else ⟨pos.val + 1, lt_of_le_of_ne pos.isLt h⟩

def Cons.store (s : Cons) (c : Byte) : Cons :=
  { s with buf := Function.update s.buf s.wpos c, wpos := advance s.wpos }

/-- The characters are those that (*proc)() returns before -1. -/
def cons_intr (s : Cons) : List Byte → Cons
  | [] => s
  | c :: cs => if c = 0 then cons_intr s cs else cons_intr (s.store c) cs

/-- The characters are those that serial_intr() and kbd_intr() find. -/
def cons_getc (s : Cons) (serial kbd : List Byte) : Byte × Cons :=
  let s := cons_intr (cons_intr s serial) kbd
  if s.rpos ≠ s.wpos then (s.buf s.rpos, { s with rpos := advance s.rpos }) else (0, s)

/-! The two positions are counters of nine bits. -/

def counter (pos : Fin CONSBUFSIZE) : BitVec 9 := BitVec.ofFin pos

theorem slot_counter (pos : Fin CONSBUFSIZE) : slot CONSBUFSIZE (counter pos) = pos :=
  Fin.ext (Nat.mod_eq_of_lt pos.isLt)

theorem counter_advance (pos : Fin CONSBUFSIZE) : counter (advance pos) = counter pos + 1 := by
  have hlt := pos.isLt
  have hsize : CONSBUFSIZE = 2 ^ 9 := rfl
  apply BitVec.eq_of_toNat_eq
  rw [BitVec.toNat_add]
  change (advance pos).val = (pos.val + 1) % 2 ^ 9
  unfold advance
  split
  next h =>
    change 0 = _
    rw [h, hsize, Nat.mod_self]
  next h =>
    exact (Nat.mod_eq_of_lt (by omega)).symm

theorem counter_inj {a b : Fin CONSBUFSIZE} : counter a = counter b ↔ a = b := by
  constructor
  · intro h
    exact congrArg BitVec.toFin h
  · rintro rfl
    rfl

/-- What is in the buffer. -/
def waiting (s : Cons) : List Byte := contents s.buf (counter s.rpos) (counter s.wpos)

theorem length_waiting_lt (s : Cons) : (waiting s).length < CONSBUFSIZE := by
  rw [waiting, length_contents]
  exact BitVec.isLt _

theorem waiting_store {s : Cons} (c : Byte) (h : (waiting s).length + 1 < CONSBUFSIZE) :
    waiting (s.store c) = waiting s ++ [c] := by
  rw [waiting, length_contents] at h
  have hpush : contents (Function.update s.buf (slot CONSBUFSIZE (counter s.wpos)) c)
      (counter s.rpos) (counter s.wpos + 1) = waiting s ++ [c] :=
    contents_push (dvd_refl _) c (Nat.lt_of_succ_lt h) h
  rw [slot_counter, ← counter_advance] at hpush
  exact hpush

/-- The last free place. -/
theorem waiting_store_last {s : Cons} (c : Byte) (h : (waiting s).length + 1 = CONSBUFSIZE) :
    waiting (s.store c) = [] := by
  rw [waiting, length_contents] at h
  have hlast := count_push_last h
  rw [← counter_advance] at hlast
  change contents _ (counter s.rpos) (counter (advance s.wpos)) = []
  rw [hlast, contents_self]

theorem waiting_next {s : Cons} (h : s.rpos ≠ s.wpos) :
    waiting s = s.buf s.rpos :: waiting { s with rpos := advance s.rpos } := by
  have hpop := contents_pop s.buf (mt counter_inj.mp h)
  rw [slot_counter, ← counter_advance] at hpop
  exact hpop

theorem waiting_eq_nil {s : Cons} : waiting s = [] ↔ s.rpos = s.wpos := by
  rw [← counter_inj, ← count_eq_zero, ← length_contents s.buf, List.length_eq_zero_iff]
  rfl

/-! Runs of interrupts and reads -/

def nonzero (cs : List Byte) : List Byte := cs.filter (· ≠ 0)

/-- A character comes in. -/
structure Reception where
  before : List Byte
  c : Byte
  after : List Byte

def receptions (s : Cons) : List Byte → List Reception
  | [] => []
  | c :: cs =>
    if c = 0 then receptions s cs
    else ⟨waiting s, c, waiting (s.store c)⟩ :: receptions (s.store c) cs

/-- `received` and `returned` are the non-zero characters so far, `fresh` those since the last
cons_getc(). An answer is what cons_getc() returns, with what was fresh. -/
structure State where
  cons : Cons
  received : List Byte
  returned : List Byte
  fresh : List Byte
  receptions : List Reception
  answers : List (List Byte × Byte)

inductive Event where
  | intr (cs : List Byte)
  | getc (serial kbd : List Byte)

def State.take (s : State) (cs : List Byte) : State :=
  { s with
    cons := cons_intr s.cons cs
    received := s.received ++ nonzero cs
    fresh := s.fresh ++ nonzero cs
    receptions := s.receptions ++ JosConsole.receptions s.cons cs }

/-- cons_getc() returns `r`. -/
def State.answer (s : State) (r : Byte × Cons) : State :=
  { s with
    cons := r.2
    returned := s.returned ++ nonzero [r.1]
    fresh := []
    answers := s.answers ++ [(s.fresh, r.1)] }

def next (s : State) : Event → State
  | .intr cs => s.take cs
  | .getc serial kbd => ((s.take serial).take kbd).answer (cons_getc s.cons serial kbd)

def machine : Machine State Event where
  enabled _ _ := True
  next := next

def boot : State := ⟨⟨fun _ => 0, 0, 0⟩, [], [], [], [], []⟩

/-- No character is forgotten, lost or out of order. -/
structure Lawful (s : State) : Prop where
  prompt : ∀ x ∈ s.answers, x.1 ≠ [] → x.2 ≠ 0
  order : s.returned.Sublist s.received
  kept : ∀ x ∈ s.receptions, x.before.length < CONSBUFSIZE → x.after = x.before ++ [x.c]

def Event.chars : Event → List Byte
  | .intr cs => cs
  | .getc serial kbd => serial ++ kbd

/-- At least one place of the buffer stays free. -/
def Fits (s : State) (e : Event) : Prop :=
  (waiting s.cons).length + (nonzero e.chars).length < CONSBUFSIZE

/-- All characters are kept. -/
def Kept (l : List Reception) : Prop := ∀ x ∈ l, x.after = x.before ++ [x.c]

theorem kept_receptions (s : Cons) (cs : List Byte) :
    Kept (receptions s cs) ↔ (waiting s).length + (nonzero cs).length < CONSBUFSIZE := by
  induction cs generalizing s with
  | nil => exact iff_of_true nofun (length_waiting_lt s)
  | cons c cs ih =>
    rw [receptions]
    by_cases hc : c = 0
    · have hsame : nonzero (c :: cs) = nonzero cs := List.filter_cons_of_neg (by simpa using hc)
      rw [if_pos hc, hsame]
      exact ih s
    · have hmore : nonzero (c :: cs) = c :: nonzero cs := List.filter_cons_of_pos (by simpa using hc)
      rw [if_neg hc, hmore, Kept, List.forall_mem_cons, List.length_cons]
      by_cases hroom : (waiting s).length + 1 < CONSBUFSIZE
      · have hstore := waiting_store c hroom
        have hrest := ih (s.store c)
        rw [hstore, List.length_append, List.length_singleton] at hrest
        rw [and_iff_right hstore]
        refine hrest.trans ?_
        rw [Nat.add_assoc, Nat.add_comm 1]
      · have hlt := length_waiting_lt s
        have hlast : waiting (s.store c) = [] := waiting_store_last c (by omega)
        refine iff_of_false ?_ (by omega)
        rintro ⟨h, -⟩
        rw [hlast] at h
        exact List.append_ne_nil_of_right_ne_nil _ (List.cons_ne_nil c []) h.symm

theorem waiting_cons_intr {s : Cons} {cs : List Byte}
    (h : (waiting s).length + (nonzero cs).length < CONSBUFSIZE) :
    waiting (cons_intr s cs) = waiting s ++ nonzero cs := by
  induction cs generalizing s with
  | nil => exact (List.append_nil _).symm
  | cons c cs ih =>
    rw [cons_intr]
    by_cases hc : c = 0
    · have hsame : nonzero (c :: cs) = nonzero cs := List.filter_cons_of_neg (by simpa using hc)
      rw [hsame] at h ⊢
      rw [if_pos hc]
      exact ih h
    · have hmore : nonzero (c :: cs) = c :: nonzero cs := List.filter_cons_of_pos (by simpa using hc)
      rw [hmore, List.length_cons] at h
      have hstore : waiting (s.store c) = waiting s ++ [c] := waiting_store c (by omega)
      rw [if_neg hc, hmore, ih ?_, hstore, List.append_assoc]
      · rfl
      · rw [hstore, List.length_append, List.length_singleton]
        omega

/-! Order, which no burst disturbs -/

theorem nonzero_ne {cs : List Byte} {c : Byte} (h : c ∈ nonzero cs) : c ≠ 0 := by
  simpa using List.of_mem_filter h

theorem waiting_sublist {s : Cons} {l r : List Byte} (h : (l ++ waiting s).Sublist r)
    (cs : List Byte) : (l ++ waiting (cons_intr s cs)).Sublist (r ++ nonzero cs) := by
  induction cs generalizing s r with
  | nil => exact h.trans (List.sublist_append_left r _)
  | cons c cs ih =>
    rw [cons_intr]
    by_cases hc : c = 0
    · have hsame : nonzero (c :: cs) = nonzero cs := List.filter_cons_of_neg (by simpa using hc)
      rw [if_pos hc, hsame]
      exact ih h
    · have hmore : nonzero (c :: cs) = c :: nonzero cs := List.filter_cons_of_pos (by simpa using hc)
      have hstore : (l ++ waiting (s.store c)).Sublist (r ++ [c]) := by
        by_cases hroom : (waiting s).length + 1 < CONSBUFSIZE
        · rw [waiting_store c hroom, ← List.append_assoc]
          exact h.append_right [c]
        · have hlt := length_waiting_lt s
          rw [waiting_store_last c (by omega), List.append_nil]
          exact ((List.sublist_append_left l _).trans h).trans (List.sublist_append_left r _)
      have hrest := ih hstore
      rw [if_neg hc, hmore]
      rwa [List.append_assoc] at hrest

/-- What holds in every run, whatever the buffer drops. -/
structure Ordered (s : State) : Prop where
  order : (s.returned ++ waiting s.cons).Sublist s.received
  nonzero : ∀ c ∈ s.received, c ≠ 0
  fresh : Kept s.receptions → s.fresh.length ≤ (waiting s.cons).length
  short : ∀ x ∈ s.receptions, x.before.length < CONSBUFSIZE

theorem receptions_short (s : Cons) (cs : List Byte) :
    ∀ x ∈ receptions s cs, x.before.length < CONSBUFSIZE := by
  induction cs generalizing s with
  | nil => exact nofun
  | cons c cs ih =>
    rw [receptions]
    split
    · exact ih s
    · exact List.forall_mem_cons.mpr ⟨length_waiting_lt s, ih _⟩

theorem Ordered.take {s : State} (h : Ordered s) (cs : List Byte) : Ordered (s.take cs) where
  order := waiting_sublist h.order cs
  nonzero := by
    intro c hc
    rcases List.mem_append.mp hc with hc | hc
    · exact h.nonzero c hc
    · exact nonzero_ne hc
  fresh := by
    intro hkept
    have hold : Kept s.receptions := fun x hx => hkept x (List.mem_append_left _ hx)
    have hnew : Kept (receptions s.cons cs) := fun x hx => hkept x (List.mem_append_right _ hx)
    have hle := h.fresh hold
    change (s.fresh ++ JosConsole.nonzero cs).length ≤ (waiting (cons_intr s.cons cs)).length
    rw [waiting_cons_intr ((kept_receptions s.cons cs).mp hnew), List.length_append,
      List.length_append]
    omega
  short := by
    intro x hx
    rcases List.mem_append.mp hx with hx | hx
    · exact h.short x hx
    · exact receptions_short s.cons cs x hx

/-- The first of the waiting characters, or 0. -/
def taken (s : Cons) : Byte × Cons :=
  if s.rpos ≠ s.wpos then (s.buf s.rpos, { s with rpos := advance s.rpos }) else (0, s)

theorem taken_none {s : Cons} (h : waiting s = []) : taken s = (0, s) :=
  if_neg (not_not.mpr (waiting_eq_nil.mp h))

theorem taken_some {s : Cons} {c : Byte} {cs : List Byte} (h : waiting s = c :: cs) :
    (taken s).1 = c ∧ waiting (taken s).2 = cs := by
  have hne : s.rpos ≠ s.wpos := by
    intro heq
    rw [waiting_eq_nil.mpr heq] at h
    cases h
  have hnext := waiting_next hne
  rw [h] at hnext
  obtain ⟨hhead, htail⟩ := List.cons.inj hnext
  rw [taken, if_pos hne]
  exact ⟨hhead.symm, htail.symm⟩

theorem Ordered.answer {s : State} (h : Ordered s) : Ordered (s.answer (taken s.cons)) := by
  have horder := h.order
  cases hw : waiting s.cons with
  | nil =>
    rw [taken_none hw]
    rw [hw] at horder
    refine ⟨?_, h.nonzero, fun _ => Nat.zero_le _, h.short⟩
    change ((s.returned ++ []) ++ waiting s.cons).Sublist s.received
    rwa [hw, List.append_nil]
  | cons c cs =>
    obtain ⟨hc, hcs⟩ := taken_some hw
    rw [hw] at horder
    have hne : c ≠ 0 := by
      apply h.nonzero
      exact horder.subset (List.mem_append_right _ List.mem_cons_self)
    have hone : JosConsole.nonzero [c] = [c] := List.filter_cons_of_pos (by simpa using hne)
    refine ⟨?_, h.nonzero, fun _ => Nat.zero_le _, h.short⟩
    change ((s.returned ++ JosConsole.nonzero [(taken s.cons).1]) ++
      waiting (taken s.cons).2).Sublist s.received
    rwa [hc, hcs, hone, List.append_assoc]

theorem next_ordered {s : State} (h : Ordered s) (e : Event) : Ordered (next s e) := by
  cases e with
  | intr cs => exact h.take cs
  | getc serial kbd => exact ((h.take serial).take kbd).answer

theorem boot_ordered : Ordered boot where
  order := List.nil_sublist _
  nonzero := nofun
  fresh _ := Nat.zero_le _
  short := nofun

/-! When the claims of a run hold -/

theorem Ordered.kept_iff {s : State} (h : Ordered s) : Kept s.receptions ↔
    ∀ x ∈ s.receptions, x.before.length < CONSBUFSIZE → x.after = x.before ++ [x.c] :=
  ⟨fun hk x hx _ => hk x hx, fun hk x hx => hk x hx (h.short x hx)⟩

theorem Ordered.sublist {s : State} (h : Ordered s) : s.returned.Sublist s.received :=
  (List.sublist_append_left _ _).trans h.order

theorem lawful_take {s : State} (h : Ordered s) (hl : Lawful s) (cs : List Byte) :
    Lawful (s.take cs) ↔ (waiting s.cons).length + (nonzero cs).length < CONSBUFSIZE := by
  have hnext := h.take cs
  rw [← kept_receptions]
  constructor
  · intro ht x hx
    exact hnext.kept_iff.mpr ht.kept x (List.mem_append_right _ hx)
  · intro hnew
    refine ⟨hl.prompt, hnext.sublist, hnext.kept_iff.mp fun x hx => ?_⟩
    rcases List.mem_append.mp hx with hx | hx
    · exact h.kept_iff.mpr hl.kept x hx
    · exact hnew x hx

theorem lawful_answer {s : State} (h : Ordered s) :
    Lawful (s.answer (taken s.cons)) ↔ Lawful s := by
  constructor
  · intro ht
    exact ⟨fun x hx => ht.prompt x (List.mem_append_left _ hx), h.sublist, ht.kept⟩
  · intro hl
    refine ⟨fun x hx hfresh => ?_, h.answer.sublist, hl.kept⟩
    rcases List.mem_append.mp hx with hx | hx
    · exact hl.prompt x hx hfresh
    · -- what is fresh is still waiting
      rw [List.mem_singleton.mp hx] at hfresh ⊢
      have hle := h.fresh (h.kept_iff.mpr hl.kept)
      have hpos : 0 < s.fresh.length := List.length_pos_iff.mpr hfresh
      cases hw : waiting s.cons with
      | nil =>
        rw [hw, List.length_nil] at hle
        omega
      | cons c cs =>
        dsimp only
        rw [(taken_some hw).1]
        apply h.nonzero
        apply h.order.subset
        rw [hw]
        exact List.mem_append_right _ List.mem_cons_self

theorem cons_intr_append (s : Cons) (a b : List Byte) :
    cons_intr s (a ++ b) = cons_intr (cons_intr s a) b := by
  induction a generalizing s with
  | nil => rfl
  | cons c a ih =>
    rw [List.cons_append, cons_intr, cons_intr]
    split
    · exact ih s
    · exact ih _

theorem receptions_append (s : Cons) (a b : List Byte) :
    receptions s (a ++ b) = receptions s a ++ receptions (cons_intr s a) b := by
  induction a generalizing s with
  | nil => rfl
  | cons c a ih =>
    rw [List.cons_append, receptions, receptions, cons_intr]
    split
    · exact ih s
    · rw [ih, List.cons_append]

theorem take_append (s : State) (a b : List Byte) : (s.take a).take b = s.take (a ++ b) := by
  have hnonzero : nonzero (a ++ b) = nonzero a ++ nonzero b := List.filter_append a b
  simp only [State.take, cons_intr_append, receptions_append, hnonzero, List.append_assoc]

theorem lawful_next {s : State} (h : Ordered s) (hl : Lawful s) (e : Event) :
    Lawful (next s e) ↔ Fits s e := by
  cases e with
  | intr cs => exact lawful_take h hl cs
  | getc serial kbd =>
    have hanswer := lawful_answer ((h.take serial).take kbd)
    refine hanswer.trans ?_
    rw [take_append]
    exact lawful_take h hl (serial ++ kbd)

/-- The console keeps to its rules all along a run if and only if each step leaves a place of the
buffer free. -/
theorem console_input_iff {es : List Event} {s : State} (r : Run machine.Step (· = boot) es s) :
    (∀ fs t, fs <+: es → Run machine.Step (· = boot) fs t → Lawful t) ↔
      Run (Guarded machine.Step Fits) (· = boot) es s := by
  refine Machine.always_iff_guarded boot_ordered ⟨nofun, List.Sublist.refl _, nofun⟩ ?_ ?_ r
  · rintro s e t h ⟨-, rfl⟩
    exact next_ordered h e
  · rintro s e t h hl ⟨-, rfl⟩
    exact lawful_next h hl e

/-- Some characters typed between two reads. -/
theorem console_input_iff_typed :
    (∀ fs t, fs <+: [Event.intr [104, 0, 105], .getc [] [10]] →
      Run machine.Step (· = boot) fs t → Lawful t) ↔
      Run (Guarded machine.Step Fits) (· = boot) [.intr [104, 0, 105], .getc [] [10]]
        (machine.exec boot [.intr [104, 0, 105], .getc [] [10]]) :=
  console_input_iff (Machine.Valid.run ⟨trivial, trivial, trivial⟩)

/-- 512 characters and a read, which finds nothing. -/
def burst : List Event := [.intr (List.replicate CONSBUFSIZE 97), .getc [] []]

theorem burst_forgotten : ∃ s, Run machine.Step (· = boot) burst s ∧ ¬ Lawful s := by
  have hrun : Run machine.Step (· = boot) burst (machine.exec boot burst) :=
    Machine.Valid.run ⟨trivial, trivial, trivial⟩
  refine ⟨_, hrun, fun hl => ?_⟩
  have hmem : (List.replicate CONSBUFSIZE (97 : Byte), (0 : Byte)) ∈
      (machine.exec boot burst).answers := by
    decide +kernel
  exact hl.prompt _ hmem (by decide) rfl

end JosConsole
