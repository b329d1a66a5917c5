import OsEngineering.PipeWakeups

/-! pipewrite() when the read end is closed. It looks at readopen only where the pipe is full, so a
write whose last bytes find room is told that they were delivered. -/
namespace ClosedReader

open ByteBlock TransitionSystem Pipes PipeStream PipeWakeups

variable {π : Type*}

/-- A pipewrite() of process `q` that has stored `i` of its `n` bytes. -/
structure Writing (π : Type*) where
  q : π
  n : ℤ
  i : ℕ

/-- The write that goes on when the call of `q` has the lock again. -/
def pending (q : π) : Phase → Option (Writing π)
  | .woken (.pipewrite _ n i) => some ⟨q, n, i⟩
  | _ => none

def writing (s : State π) : Event π → Option (Writing π)
  | .pipewrite q _ n => some ⟨q, n, 0⟩
  | .resume q => pending q (s.phase q)
  | _ => none

/-- Without a reader, a write that has not stored its last byte returns -1. -/
def Rejects (s : State π) (e : Event π) (t : State π) : Prop :=
  s.pipe.readopen = false → ∀ w ∈ writing s e, (w.i : ℤ) < w.n →
    (t.phase w.q).isIdle = true ∧ t.ret w.q = -1

/-- Without a reader, what a write has still to store does not fit into the pipe. -/
def TooLong (s : State π) (e : Event π) : Prop :=
  s.pipe.readopen = false → ∀ w ∈ writing s e, (w.i : ℤ) < w.n →
    PIPESIZE - s.pipe.unread < (w.n - w.i).toNat

instance (s : State π) (e : Event π) : Decidable (TooLong s e) := by
  unfold TooLong
  infer_instance

/-- No writer sleeps once the read end is closed. -/
def Awake (s : State π) : Prop :=
  s.pipe.readopen = false → ∀ q, (s.phase q).chan ≠ some .nwrite

theorem initial_awake (data : Fin PIPESIZE → Byte) (killed : π → Bool) :
    Awake (initial data killed) := by
  intro _ q hq
  cases hq

theorem closeEnd_awake {s : State π} (h : Awake s) (writable : Bool) :
    Awake (closeEnd s writable) := by
  cases writable with
  | true => exact fun hr q hq => h hr q (chan_wake.mp hq).1
  | false => exact fun _ q hq => (chan_wake.mp hq).2 rfl

theorem pipeclose_awake {s : State π} (h : Awake s) (writable : Bool) :
    Awake (pipeclose s writable) := by
  rw [pipeclose]
  split
  · exact closeEnd_awake h writable
  · exact closeEnd_awake h writable

section Sections

variable [DecidableEq π]

theorem piperead_awake {s : State π} (h : Awake s) (q : π) (n : ℤ) : Awake (piperead s q n) := by
  obtain ⟨hr, -, -, -⟩ := drain_spec n.toNat s.pipe
  rw [piperead]
  split
  · split
    · exact fun hro r hc => h hro r (chan_finish hc)
    · intro hro r hc
      rcases chan_move hc with ⟨-, hc⟩ | ⟨-, hc⟩
      · cases hc
      · exact h hro r hc
  · intro hro r hc
    exact (chan_wake.mp (chan_finish hc)).2 rfl

theorem kill_awake {s : State π} (h : Awake s) (q : π) : Awake (kill s q) := by
  rw [kill]
  split
  · intro hro r hc
    rcases chan_move hc with ⟨-, hc⟩ | ⟨-, hc⟩
    · cases hc
    · exact h hro r hc
  · exact h

/-- The three ways in which a section of pipewrite() ends. -/
theorem pipewrite_cases (s : State π) (q : π) (addr : ℕ → Byte) (n : ℤ) (i : ℕ)
    (h : s.pipe.unread ≤ PIPESIZE) :
    (PIPESIZE - s.pipe.unread < (n - i).toNat ∧
      (s.pipe.readopen = false ∨ s.killed q = true) ∧
      pipewrite s q addr n i = (filled s addr n i).finish q (-1)) ∨
    (PIPESIZE - s.pipe.unread < (n - i).toNat ∧ s.pipe.readopen = true ∧
      ∃ j, pipewrite s q addr n i =
        ((filled s addr n i).wakeup .nread).move q (.asleep .nwrite (.pipewrite addr n j))) ∨
    ((n - i).toNat ≤ PIPESIZE - s.pipe.unread ∧
      pipewrite s q addr n i = ((filled s addr n i).wakeup .nread).finish q n) := by
  obtain ⟨hj, -, hro, -, -, -⟩ := fill_spec addr (n - i).toNat i s.pipe h
  have hro : (filled s addr n i).pipe.readopen = s.pipe.readopen := hro
  rw [pipewrite]
  split
  · have hlong : PIPESIZE - s.pipe.unread < (n - i).toNat := by omega
    split
    next hstop =>
      rw [hro] at hstop
      exact Or.inl ⟨hlong, hstop, rfl⟩
    next hstop =>
      rw [hro, not_or, Bool.not_eq_false] at hstop
      exact Or.inr (Or.inl ⟨hlong, hstop.1, _, rfl⟩)
  · exact Or.inr (Or.inr ⟨by omega, rfl⟩)

theorem pipewrite_awake {s : State π} (hs : Stream s) (h : Awake s) (q : π) (addr : ℕ → Byte)
    (n : ℤ) (i : ℕ) : Awake (pipewrite s q addr n i) := by
  obtain ⟨-, -, hro, -, -, -⟩ := fill_spec addr (n - i).toNat i s.pipe hs.bounded
  have hro : (filled s addr n i).pipe.readopen = s.pipe.readopen := hro
  rcases pipewrite_cases s q addr n i hs.bounded with ⟨-, -, heq⟩ | ⟨-, hopen, j, heq⟩ | ⟨-, heq⟩
  · rw [heq]
    exact fun hclosed r hc => h (hro.symm.trans hclosed) r (chan_finish (v := -1) hc)
  · rw [heq]
    exact fun hclosed => absurd (hclosed.symm.trans (hro.trans hopen)) (by decide)
  · rw [heq]
    exact fun hclosed r hc => h (hro.symm.trans hclosed) r (chan_wake.mp (chan_finish hc)).1

theorem step_awake {s t : State π} {e : Event π} (hs : Stream s) (h : Awake s)
    (hstep : machine.Step s e t) : Awake t := by
  obtain ⟨-, rfl⟩ := hstep
  cases e with
  | pipewrite q addr n => exact pipewrite_awake hs h q addr n 0
  | piperead q n => exact piperead_awake h q n
  | pipeclose q writable => exact pipeclose_awake h writable
  | kill q => exact kill_awake h q
  | resume q =>
    change Awake (next s (.resume q))
    rw [next]
    split
    next c _ =>
      cases c with
      | pipewrite addr n i => exact pipewrite_awake hs h q addr n i
      | piperead n => exact piperead_awake h q n
    next => exact h

theorem finish_self (s : State π) (q : π) (v : ℤ) :
    ((s.finish q v).phase q).isIdle = true ∧ (s.finish q v).ret q = v := by
  constructor
  · change (Function.update s.phase q Phase.idle q).isIdle = true
    rw [Function.update_self]
    rfl
  · exact Function.update_self ..

/-- A section of pipewrite() without a reader. -/
theorem pipewrite_rejects_iff {s : State π} (hs : Stream s) (hclosed : s.pipe.readopen = false)
    (q : π) (addr : ℕ → Byte) {n : ℤ} {i : ℕ} (hi : (i : ℤ) < n) :
    (((pipewrite s q addr n i).phase q).isIdle = true ∧ (pipewrite s q addr n i).ret q = -1) ↔
      PIPESIZE - s.pipe.unread < (n - i).toNat := by
  rcases pipewrite_cases s q addr n i hs.bounded with
    ⟨hlong, -, heq⟩ | ⟨-, hopen, -⟩ | ⟨hshort, heq⟩
  · rw [heq]
    exact iff_of_true (finish_self _ q (-1)) hlong
  · rw [hclosed] at hopen
    cases hopen
  · rw [heq]
    refine iff_of_false ?_ (Nat.not_lt.mpr hshort)
    rintro ⟨-, hret⟩
    rw [(finish_self _ q n).2] at hret
    omega

theorem step_rejects_iff {s t : State π} {e : Event π} (hs : Stream s)
    (hstep : machine.Step s e t) : Rejects s e t ↔ TooLong s e := by
  obtain ⟨-, rfl⟩ := hstep
  unfold Rejects TooLong
  refine forall_congr' fun hclosed => forall₂_congr fun w hw => forall_congr' fun hi => ?_
  cases e with
  | pipewrite q addr n =>
    cases hw
    exact pipewrite_rejects_iff hs hclosed q addr hi
  | resume q =>
    change w ∈ pending q (s.phase q) at hw
    change _ ∧ (next s (.resume q)).ret w.q = -1 ↔ _
    have hnext : machine.next s (.resume q) = next s (.resume q) := rfl
    rw [hnext, next]
    cases hp : s.phase q with
    | idle => rw [hp] at hw; cases hw
    | asleep c call => rw [hp] at hw; cases hw
    | woken call =>
      rw [hp] at hw
      cases call with
      | piperead n => cases hw
      | pipewrite addr n i =>
        cases hw
        exact pipewrite_rejects_iff hs hclosed q addr hi
  | piperead q n => cases hw
  | pipeclose q writable => cases hw
  | kill q => cases hw

/-- What holds of a run: every write without a reader is rejected, and no writer sleeps then. -/
structure Closed (data : Fin PIPESIZE → Byte) (killed : π → Bool) (es : List (Event π)) : Prop where
  rejects : ∀ fs e s t, fs ++ [e] <+: es → Reaches data killed fs s → machine.Step s e t →
    Rejects s e t
  awake : ∀ fs s, fs <+: es → Reaches data killed fs s → Awake s

theorem reaches_awake {data : Fin PIPESIZE → Byte} {killed : π → Bool} {es : List (Event π)}
    {s : State π} (r : Reaches data killed es s) : Awake s := by
  have hboth : Stream s ∧ Awake s := by
    refine r.invariant (I := fun s => Stream s ∧ Awake s) ?_ fun _ _ _ h hs =>
      ⟨step_stream h.1 hs, step_awake h.1 h.2 hs⟩
    rintro _ rfl
    exact ⟨initial_stream data killed, initial_awake data killed⟩
  exact hboth.2

/-- In a run all writes without a reader are rejected exactly if none of them has room for its last
bytes. -/
theorem closed_reader_rejects {data : Fin PIPESIZE → Byte} {killed : π → Bool}
    {es : List (Event π)} {s : State π} (r : Reaches data killed es s) :
    Closed data killed es ↔ Run (Guarded machine.Step TooLong) (· = initial data killed) es s := by
  have hsteps := Machine.steps_iff_guarded Rejects TooLong
    (fun _ _ hu => reaches_stream hu) (fun _ _ _ h hs => step_rejects_iff h hs) r
  rw [← hsteps]
  constructor
  · intro h
    exact h.rejects
  · intro h
    exact ⟨h, fun _ _ _ hu => reaches_awake hu⟩

end Sections

/-- A write of 600 bytes waits for room, and goes on when the reader has left. -/
def leavingReader : List (Event (Fin 2)) :=
  [.pipewrite p0 (fun _ => 0) 600, .pipeclose p1 false, .resume p0]

theorem closed_reader_rejects_leaving :
    Closed (fun _ => 0) (fun _ => false) leavingReader ↔
      Run (Guarded machine.Step TooLong) (· = initial (fun _ => 0) fun _ => false) leavingReader
        (machine.exec (initial (fun _ => 0) fun _ => false) leavingReader) :=
  closed_reader_rejects (Machine.Valid.run (by decide +kernel))

/-- A write of one byte to an empty pipe without a reader returns 1. -/
theorem write_to_nobody : ∃ (data : Fin PIPESIZE → Byte) (killed : Fin 2 → Bool)
    (es : List (Event (Fin 2))) (s : State (Fin 2)),
    Reaches data killed es s ∧ s.pipe.readopen = false ∧
      (machine.next s (.pipewrite 0 (fun _ => 7) 1)).ret 0 = 1 ∧
      ¬ Closed data killed (es ++ [.pipewrite 0 (fun _ => 7) 1]) := by
  have hrun : Reaches (fun _ => 0) (fun _ => false) [.pipeclose 1 false]
      (machine.exec (initial (fun _ => 0) fun _ => false) [.pipeclose (1 : Fin 2) false]) :=
    Machine.Valid.run (by decide +kernel)
  refine ⟨fun _ => 0, fun _ => false, [.pipeclose 1 false], _, hrun, by decide +kernel,
    by decide +kernel, fun hclosed => ?_⟩
  have hrejects := hclosed.rejects [.pipeclose 1 false] (.pipewrite 0 (fun _ => 7) 1) _ _
    (List.prefix_refl _) hrun ⟨by decide +kernel, rfl⟩
  have hret := (hrejects (by decide +kernel) ⟨0, 1, 0⟩ rfl (by decide)).2
  exact absurd hret (by decide +kernel)

end ClosedReader
