import OsEngineering.PipeStream
import Mathlib.Data.Fintype.Defs

/-! Sleepers on a pipe have nothing to wake up for, except that pipewrite() stores bytes and
returns -1 on a full pipe without a wakeup of the readers. -/
namespace PipeWakeups

open ByteBlock TransitionSystem Pipes PipeStream

variable {π : Type*}

/-- No reader sleeps over unread bytes or a closed write end, and no writer over free space
or a closed read end. -/
structure NoLostWakeup (s : State π) : Prop where
  reader : ∀ q, (s.phase q).chan = some .nread → s.pipe.unread = 0 ∧ s.pipe.writeopen = true
  writer : ∀ q, (s.phase q).chan = some .nwrite →
    PIPESIZE ≤ s.pipe.unread ∧ s.pipe.readopen = true

/-- From its loop counter `i`, pipewrite() fills the pipe and then returns -1. -/
def GivesUp (s : State π) (q : π) (n : ℤ) (i : ℕ) : Prop :=
  PIPESIZE - s.pipe.unread < (n - i).toNat ∧ (s.pipe.readopen = false ∨ s.killed q = true)

def CallGivesUp (s : State π) (q : π) : Phase → Prop
  | .woken (.pipewrite _ n i) => GivesUp s q n i
  | _ => False

def CutShort (s : State π) : Event π → Prop
  | .pipewrite q _ n => GivesUp s q n 0
  | .resume q => CallGivesUp s q (s.phase q)
  | _ => False

/-- No write is cut short while a reader sleeps. -/
def Announced (s : State π) (e : Event π) : Prop :=
  CutShort s e → ∀ r, (s.phase r).chan ≠ some .nread

instance (s : State π) (q : π) (n : ℤ) (i : ℕ) : Decidable (GivesUp s q n i) :=
  inferInstanceAs (Decidable (_ ∧ _))

instance (s : State π) (q : π) : (f : Phase) → Decidable (CallGivesUp s q f)
  | .woken (.pipewrite _ n i) => inferInstanceAs (Decidable (GivesUp s q n i))
  | .woken (.piperead _) | .idle | .asleep _ _ => inferInstanceAs (Decidable False)

instance (s : State π) : (e : Event π) → Decidable (CutShort s e)
  | .pipewrite q _ n => inferInstanceAs (Decidable (GivesUp s q n 0))
  | .resume q => inferInstanceAs (Decidable (CallGivesUp s q (s.phase q)))
  | .piperead _ _ | .pipeclose _ _ | .kill _ => inferInstanceAs (Decidable False)

instance [Fintype π] (s : State π) (e : Event π) : Decidable (Announced s e) :=
  inferInstanceAs (Decidable (_ → _))

theorem chan_wake {c d : Channel} {f : Phase} :
    (wake c f).chan = some d ↔ f.chan = some d ∧ d ≠ c := by
  cases f with
  | idle => simp [wake, Phase.chan]
  | woken call => simp [wake, Phase.chan]
  | asleep b call =>
    by_cases hb : b = c
    · subst hb
      simp only [wake, ↓reduceIte, Phase.chan, reduceCtorEq, Option.some.injEq, false_iff]
      rintro ⟨rfl, hne⟩
      exact hne rfl
    · simp only [wake, if_neg hb, Phase.chan, Option.some.injEq]
      constructor
      · rintro rfl
        exact ⟨rfl, hb⟩
      · exact And.left

theorem chan_of_idle {f : Phase} (h : f.isIdle = true) : f.chan = none := by
  cases f <;> simp_all [Phase.isIdle, Phase.chan]

/-- Ending one end wakes those who wait for the other. -/
theorem closeEnd_good {s : State π} (g : NoLostWakeup s) (writable : Bool) :
    NoLostWakeup (closeEnd s writable) := by
  cases writable with
  | true =>
    constructor
    · intro q hq
      exact absurd rfl (chan_wake.mp hq).2
    · intro q hq
      exact g.writer q (chan_wake.mp hq).1
  | false =>
    constructor
    · intro q hq
      exact g.reader q (chan_wake.mp hq).1
    · intro q hq
      exact absurd rfl (chan_wake.mp hq).2

theorem pipeclose_good {s : State π} (g : NoLostWakeup s) (writable : Bool) :
    NoLostWakeup (pipeclose s writable) := by
  have hc := closeEnd_good g writable
  rw [pipeclose]
  split
  · exact ⟨hc.reader, hc.writer⟩
  · exact hc

section Sections

variable [DecidableEq π]

theorem chan_move {s : State π} {q r : π} {f : Phase} {c : Channel}
    (h : ((s.move q f).phase r).chan = some c) :
    (r = q ∧ f.chan = some c) ∨ (r ≠ q ∧ (s.phase r).chan = some c) := by
  by_cases hr : r = q
  · subst hr
    have hm : (s.move r f).phase r = f := Function.update_self ..
    rw [hm] at h
    exact Or.inl ⟨rfl, h⟩
  · have hm : (s.move q f).phase r = s.phase r := Function.update_of_ne hr ..
    rw [hm] at h
    exact Or.inr ⟨hr, h⟩

theorem chan_finish {s : State π} {q r : π} {v : ℤ} {c : Channel}
    (h : ((s.finish q v).phase r).chan = some c) : (s.phase r).chan = some c := by
  rcases chan_move h with ⟨-, h⟩ | ⟨-, h⟩
  · exact absurd h (by simp [Phase.chan])
  · exact h

theorem finish_good {s : State π} (g : NoLostWakeup s) (q : π) (v : ℤ) :
    NoLostWakeup (s.finish q v) where
  reader := fun r hr => g.reader r (chan_finish hr)
  writer := fun r hr => g.writer r (chan_finish hr)

theorem piperead_good {s : State π} (g : NoLostWakeup s) (q : π) (n : ℤ) :
    NoLostWakeup (piperead s q n) := by
  obtain ⟨hr, hw, hu, -⟩ := drain_spec n.toNat s.pipe
  rw [piperead]
  split
  · next he =>
    split
    · exact finish_good g q (-1)
    · constructor
      · intro r _
        exact ⟨s.pipe.unread_eq_zero.mpr he.1, he.2⟩
      · intro r hc
        rcases chan_move hc with ⟨-, hc⟩ | ⟨-, hc⟩
        · exact absurd hc (by simp [Phase.chan])
        · exact g.writer r hc
  · constructor
    · intro r hc
      have hs := g.reader r (chan_wake.mp (chan_finish hc)).1
      refine ⟨?_, hw.trans hs.2⟩
      change (drain n.toNat s.pipe).2.unread = 0
      omega
    · intro r hc
      exact absurd rfl (chan_wake.mp (chan_finish hc)).2

theorem kill_good {s : State π} (g : NoLostWakeup s) (q : π) : NoLostWakeup (kill s q) := by
  rw [kill]
  split
  · constructor
    · intro r hr
      rcases chan_move hr with ⟨-, hr⟩ | ⟨-, hr⟩
      · exact absurd hr (by simp [Phase.chan])
      · exact g.reader r hr
    · intro r hr
      rcases chan_move hr with ⟨-, hr⟩ | ⟨-, hr⟩
      · exact absurd hr (by simp [Phase.chan])
      · exact g.writer r hr
  · exact ⟨g.reader, g.writer⟩

/-- One section of pipewrite(), by the three ways it ends. -/
theorem pipewrite_good_iff {s : State π} (h : Stream s) (g : NoLostWakeup s) {q : π}
    (hq : (s.phase q).chan = none) (addr : ℕ → Byte) (n : ℤ) (i : ℕ) :
    NoLostWakeup (pipewrite s q addr n i) ↔
      (GivesUp s q n i → ∀ r, (s.phase r).chan ≠ some .nread) := by
  obtain ⟨hj, -, hro, -, hu, -⟩ := fill_spec addr (n - i).toNat i s.pipe h.bounded
  have hbound := h.bounded
  -- a sleeping writer saw a full pipe, so nothing was stored
  have hwriter : ∀ r, (s.phase r).chan = some .nwrite →
      PIPESIZE ≤ (filled s addr n i).pipe.unread ∧ (filled s addr n i).pipe.readopen = true := by
    intro r hr
    have hs := g.writer r hr
    refine ⟨?_, hro.trans hs.2⟩
    change PIPESIZE ≤ (fill addr (n - i).toNat i s.pipe).2.unread
    omega
  rw [pipewrite]
  split
  · next hlt =>
    have hroom : PIPESIZE - s.pipe.unread < (n - i).toNat := by omega
    have hfull : (filled s addr n i).pipe.unread = PIPESIZE := by
      change (fill addr (n - i).toNat i s.pipe).2.unread = PIPESIZE
      omega
    split
    · next hstop =>
      have hgive : GivesUp s q n i := by
        refine ⟨hroom, ?_⟩
        rcases hstop with hstop | hstop
        · exact Or.inl (hro.symm.trans hstop)
        · exact Or.inr hstop
      constructor
      · intro good _ r hr
        have hrq : r ≠ q := by
          rintro rfl
          simp [hq] at hr
        have hkeep : (((filled s addr n i).finish q (-1)).phase r).chan = some .nread := by
          change (Function.update s.phase q Phase.idle r).chan = some .nread
          rw [Function.update_of_ne hrq]
          exact hr
        have hzero := (good.reader r hkeep).1
        change (filled s addr n i).pipe.unread = 0 at hzero
        rw [hfull] at hzero
        exact absurd hzero (by decide)
      · intro hno
        constructor
        · intro r hr
          exact absurd (chan_finish hr) (hno hgive r)
        · intro r hr
          exact hwriter r (chan_finish (v := -1) hr)
    · next hstop =>
      push Not at hstop
      have hopen : (filled s addr n i).pipe.readopen = true := by simpa using hstop.1
      refine iff_of_true ?_ ?_
      · constructor
        · intro r hr
          rcases chan_move hr with ⟨-, hr⟩ | ⟨-, hr⟩
          · exact absurd hr (by simp [Phase.chan])
          · exact absurd rfl (chan_wake.mp hr).2
        · intro r _
          exact ⟨hfull.ge, hopen⟩
      · rintro ⟨-, hc⟩
        rcases hc with hc | hc
        · exact absurd (hro.trans hc) hstop.1
        · exact absurd hc hstop.2
  · next hge =>
    refine iff_of_true ?_ ?_
    · constructor
      · intro r hr
        exact absurd rfl (chan_wake.mp (chan_finish hr)).2
      · intro r hr
        exact hwriter r (chan_wake.mp (chan_finish hr)).1
    · rintro ⟨hroom, -⟩
      omega

theorem step_good_iff {s t : State π} {e : Event π} (h : Stream s) (g : NoLostWakeup s)
    (hs : machine.Step s e t) : NoLostWakeup t ↔ Announced s e := by
  obtain ⟨hen, rfl⟩ := hs
  cases e with
  | pipewrite q addr n => exact pipewrite_good_iff h g (chan_of_idle hen.1) addr n 0
  | piperead q n => exact iff_of_true (piperead_good g q n) (fun hc => hc.elim)
  | pipeclose q writable => exact iff_of_true (pipeclose_good g writable) (fun hc => hc.elim)
  | kill q => exact iff_of_true (kill_good g q) (fun hc => hc.elim)
  | resume q =>
    change NoLostWakeup (next s (.resume q)) ↔ (CallGivesUp s q (s.phase q) → _)
    rw [next]
    cases hp : s.phase q with
    | idle => exact iff_of_true g (fun hc => hc.elim)
    | asleep c call => exact iff_of_true g (fun hc => hc.elim)
    | woken call =>
      cases call with
      | piperead n => exact iff_of_true (piperead_good g q n) (fun hc => hc.elim)
      | pipewrite addr n i =>
        exact pipewrite_good_iff h g (by rw [hp]; rfl) addr n i

/-- A run loses no wakeup exactly if no write in it is cut short while a reader sleeps. -/
theorem no_lost_wakeup_iff {data : Fin PIPESIZE → Byte} {killed : π → Bool}
    {es : List (Event π)} {s : State π} (r : Reaches data killed es s) :
    (∀ fs t, fs <+: es → Reaches data killed fs t → NoLostWakeup t) ↔
      Run (Guarded machine.Step Announced) (· = initial data killed) es s := by
  refine Machine.always_iff_guarded (I := Stream) (G := NoLostWakeup)
    (initial_stream data killed) ?_ (fun _ _ _ h hs => step_stream h hs)
    (fun _ _ _ h g hs => step_good_iff h g hs) r
  constructor
  · intro q hq
    exact absurd hq (by simp [initial, Phase.chan])
  · intro q hq
    exact absurd hq (by simp [initial, Phase.chan])

end Sections

theorem no_lost_wakeup_long :
    (∀ fs t, fs <+: longWrite → Reaches (fun _ => 0) (fun _ => false) fs t → NoLostWakeup t) ∧
      (machine.exec (initial (fun _ => 0) fun _ => false) longWrite).ret = ![600, 100] := by
  have hok : Run (Guarded machine.Step Announced) (· = initial (fun _ => 0) fun _ => false)
      longWrite (machine.exec (initial (fun _ => 0) fun _ => false) longWrite) :=
    Machine.Valid.guarded_run (by decide +kernel)
  exact ⟨(no_lost_wakeup_iff hok.unguarded).mpr hok, by decide +kernel⟩

/-- The writer fills the pipe twice; it is killed after the reader has gone to sleep. -/
def killedWriter : List (Event (Fin 2)) :=
  [.pipewrite p0 (fun _ => 0) 1025, .piperead p1 512, .piperead p1 512, .kill p0, .resume p0]

theorem reader_sleeps_over_bytes :
    ∃ (data : Fin PIPESIZE → Byte) (killed : Fin 2 → Bool) (es : List (Event (Fin 2)))
      (s : State (Fin 2)), Reaches data killed es s ∧ ¬ NoLostWakeup s := by
  refine ⟨fun _ => 0, fun _ => false, killedWriter, _, Machine.Valid.run (by decide +kernel), ?_⟩
  intro h
  have hread := h.reader 1 (by decide +kernel)
  exact absurd hread.1 (by decide +kernel)

end PipeWakeups
