import OsEngineering.RedoLog
import OsEngineering.TransitionSystem
import Mathlib.Data.Finset.Card
import Mathlib.Data.Finset.Insert
import Mathlib.Data.Finset.Lattice.Basic

/-! Group commit in log.c, for any number of processes. Each section under log.lock is
one event; log_write() tests sizes before it takes the lock, so it is two events; commit()
runs without the lock and is a sequence of events of the process that ended last. -/
set_option linter.unusedSectionVars false

namespace LogGroupCommit

open KernelParams RedoLog TransitionSystem

/-- Where commit() stands in the process that runs it. -/
inductive CommitPoint where
  | start
  | writeLog (tail : ℕ)
  | writeHead
  | installTrans (tail : ℕ)
  | clear
  | eraseHead
  | finish
  deriving DecidableEq

inductive Phase where
  | idle
  | asleep
  | woken
  | active
  | logging (b : BlockNo)
  | committing (c : CommitPoint)
  deriving DecidableEq

/-- `overrun` is a store behind `lh.block[LOGSIZE-1]`, which C leaves undefined. -/
inductive Halt where
  | panic (msg : String)
  | overrun
  deriving DecidableEq

/-- `headBlock` is the header on disk and `logged` the block numbers write_log() has
written. `op`, `ended` and `group` are history: the blocks logged by the current operation
of each process, by the operations ended since the last commit, and by all of them. -/
structure State (π : Type*) where
  log : Log
  phase : π → Phase
  halted : Option Halt
  headBlock : List BlockNo
  logged : List BlockNo
  op : π → Finset BlockNo
  ended : Finset BlockNo
  group : Finset BlockNo

variable {π : Type*} [DecidableEq π]

def initial (start : BlockNo) (size : ℤ) : State π where
  log := ⟨start, size, 0, false, ⟨0, fun _ => 0⟩⟩
  phase := fun _ => .idle
  halted := none
  headBlock := []
  logged := []
  op := fun _ => ∅
  ended := ∅
  group := ∅

def InOp : Phase → Prop
  | .active | .logging _ => True
  | _ => False

instance (f : Phase) : Decidable (InOp f) := by
  cases f <;> simp only [InOp] <;> infer_instance

def State.move (s : State π) (p : π) (f : Phase) : State π :=
  { s with phase := Function.update s.phase p f }

@[simp] theorem move_log (s : State π) (p : π) (f : Phase) : (s.move p f).log = s.log := rfl
@[simp] theorem move_op (s : State π) (p : π) (f : Phase) : (s.move p f).op = s.op := rfl
@[simp] theorem move_group (s : State π) (p : π) (f : Phase) :
    (s.move p f).group = s.group := rfl
@[simp] theorem move_ended (s : State π) (p : π) (f : Phase) :
    (s.move p f).ended = s.ended := rfl
@[simp] theorem move_halted (s : State π) (p : π) (f : Phase) :
    (s.move p f).halted = s.halted := rfl

def State.stop (s : State π) (h : Halt) : State π := { s with halted := some h }

/-- wakeup(&log). -/
def wakeup (phase : π → Phase) : π → Phase :=
  fun q => if phase q = .asleep then .woken else phase q

def beginOp (s : State π) (p : π) : State π :=
  if s.log.committing then s.move p .asleep
  else if s.log.exhausted then s.move p .asleep
  else
    { s with
      log := { s.log with outstanding := s.log.outstanding + 1 }
      phase := Function.update s.phase p .active
      op := Function.update s.op p ∅ }

def logWrite (s : State π) (p : π) (b : BlockNo) : State π :=
  if s.log.tooBig then s.stop (.panic "too big a transaction")
  else if s.log.outstanding < 1 then s.stop (.panic "log_write outside of trans")
  else s.move p (.logging b)

/-- The locked half of log_write(). -/
def logRecord (s : State π) (p : π) (b : BlockNo) : State π :=
  if LOGSIZE ≤ s.log.lh.slot b then s.stop .overrun
  else
    { s with
      log := { s.log with lh := s.log.lh.record b }
      phase := Function.update s.phase p .active
      op := Function.update s.op p (insert b (s.op p))
      group := insert b s.group }

def endOp (s : State π) (p : π) : State π :=
  let s := { s with
    log := { s.log with outstanding := s.log.outstanding - 1 }
    ended := s.ended ∪ s.op p }
  if s.log.committing then s.stop (.panic "log.committing")
  else if s.log.outstanding = 0 then
    { s with
      log := { s.log with committing := true }
      phase := Function.update s.phase p (.committing .start) }
  else { s with phase := Function.update (wakeup s.phase) p .idle }

def commit (s : State π) (p : π) : CommitPoint → State π
  | .start => s.move p (.committing (if 0 < s.log.lh.n then .writeLog 0 else .finish))
  | .writeLog tail =>
    if tail < s.log.lh.n then
      { s.move p (.committing (.writeLog (tail + 1))) with
        logged := s.logged ++ [s.log.start + BitVec.ofNat 32 tail + 1] }
    else s.move p (.committing .writeHead)
  | .writeHead =>
    { s.move p (.committing (.installTrans 0)) with headBlock := s.log.lh.blocks }
  | .installTrans tail =>
    s.move p (.committing (if tail < s.log.lh.n then .installTrans (tail + 1) else .clear))
  | .clear =>
    { s.move p (.committing .eraseHead) with
      log := { s.log with lh := { s.log.lh with n := 0 } } }
  | .eraseHead =>
    { s.move p (.committing .finish) with headBlock := s.log.lh.blocks }
  | .finish =>
    { s with
      log := { s.log with committing := false }
      phase := Function.update (wakeup s.phase) p .idle
      ended := ∅
      group := ∅ }

/-- `wake` is kill(), which also ends the sleep of begin_op(). -/
inductive Event (π : Type*) where
  | beginOp (p : π)
  | wake (p : π)
  | logWrite (p : π) (b : BlockNo)
  | logRecord (p : π) (b : BlockNo)
  | endOp (p : π)
  | commit (p : π) (c : CommitPoint)
  deriving DecidableEq

def Enabled (s : State π) (e : Event π) : Prop :=
  s.halted = none ∧ match e with
  | .beginOp p => s.phase p = .idle ∨ s.phase p = .woken
  | .wake p => s.phase p = .asleep
  | .logWrite p _ => s.phase p = .active
  | .logRecord p b => s.phase p = .logging b
  | .endOp p => s.phase p = .active
  | .commit p c => s.phase p = .committing c

instance (s : State π) (e : Event π) : Decidable (Enabled s e) := by
  cases e <;> unfold Enabled <;> infer_instance

def next (s : State π) : Event π → State π
  | .beginOp p => beginOp s p
  | .wake p => s.move p .woken
  | .logWrite p b => logWrite s p b
  | .logRecord p b => logRecord s p b
  | .endOp p => endOp s p
  | .commit p c => commit s p c

def machine : Machine (State π) (Event π) := ⟨Enabled, next⟩

abbrev Reaches (start : BlockNo) (size : ℤ) (es : List (Event π)) (s : State π) : Prop :=
  Run machine.Step (· = initial start size) es s

/-! Counting the operations between begin_op() and end_op(). -/

def Ops (phase : π → Phase) (n : ℤ) : Prop :=
  ∃ A : Finset π, (∀ p, p ∈ A ↔ InOp (phase p)) ∧ n = A.card

theorem ops_congr {f g : π → Phase} {n : ℤ} (h : ∀ q, InOp (g q) ↔ InOp (f q))
    (hf : Ops f n) : Ops g n := by
  obtain ⟨A, hA, hn⟩ := hf
  exact ⟨A, fun p => (hA p).trans (h p).symm, hn⟩

theorem ops_insert {f : π → Phase} {n : ℤ} {p : π} {x : Phase} (hp : ¬ InOp (f p))
    (hx : InOp x) (hf : Ops f n) : Ops (Function.update f p x) (n + 1) := by
  obtain ⟨A, hA, hn⟩ := hf
  refine ⟨insert p A, ?_, ?_⟩
  · intro q
    by_cases hq : q = p
    · subst hq; simpa using hx
    · simp [hq, hA]
  · rw [Finset.card_insert_of_notMem (fun h => hp ((hA p).mp h))]
    push_cast
    omega

theorem ops_erase {f : π → Phase} {n : ℤ} {p : π} {x : Phase} (hp : InOp (f p))
    (hx : ¬ InOp x) (hf : Ops f n) : Ops (Function.update f p x) (n - 1) := by
  obtain ⟨A, hA, hn⟩ := hf
  have hm : p ∈ A := (hA p).mpr hp
  have hc := Finset.card_pos.mpr ⟨p, hm⟩
  refine ⟨A.erase p, ?_, ?_⟩
  · intro q
    by_cases hq : q = p
    · subst hq; simpa using hx
    · simp [hq, hA]
  · rw [Finset.card_erase_of_mem hm]
    omega

theorem ops_zero {f : π → Phase} (hf : Ops f 0) (q : π) : ¬ InOp (f q) := by
  obtain ⟨A, hA, hn⟩ := hf
  have : A = ∅ := Finset.card_eq_zero.mp (by omega)
  intro h
  simpa [this] using (hA q).mpr h

theorem ops_pos {f : π → Phase} {n : ℤ} {p : π} (hp : InOp (f p)) (hf : Ops f n) : 1 ≤ n := by
  obtain ⟨A, hA, hn⟩ := hf
  have := Finset.card_pos.mpr ⟨p, (hA p).mpr hp⟩
  omega

theorem inOp_wakeup (f : π → Phase) (q : π) : InOp (wakeup f q) ↔ InOp (f q) := by
  unfold wakeup
  split
  · next h => simp [h, InOp]
  · rfl

theorem wakeup_committing {f : π → Phase} {q : π} {c : CommitPoint} :
    wakeup f q = .committing c ↔ f q = .committing c := by
  unfold wakeup
  split
  · next h => simp [h]
  · rfl

theorem inOp_update {f : π → Phase} {p : π} {x : Phase} (h : InOp x ↔ InOp (f p)) (q : π) :
    InOp (Function.update f p x q) ↔ InOp (f q) := by
  by_cases hq : q = p
  · subst hq; simpa using h
  · simp [hq]

/-! The invariant. `held` and `cleared` split a commit at the point where it empties
the header in memory; `quiet` is what keeps log_write() out of it. -/

def Emptied (c : CommitPoint) : Prop := c = .eraseHead ∨ c = .finish

structure Invariant (s : State π) : Prop where
  count : Ops s.phase s.log.outstanding
  flag : s.log.committing = true ↔ ∃ p c, s.phase p = .committing c
  single : ∀ p q c d, s.phase p = .committing c → s.phase q = .committing d → p = q
  quiet : ∀ p q c, s.phase p = .committing c → ¬ InOp (s.phase q)
  nodup : s.log.lh.blocks.Nodup
  held : (∀ p c, s.phase p = .committing c → ¬ Emptied c) →
    s.group = s.log.lh.blocks.toFinset
  cleared : ∀ p c, s.phase p = .committing c → Emptied c → s.log.lh.n = 0
  op_group : ∀ p, InOp (s.phase p) → s.op p ⊆ s.group
  ended_group : s.ended ⊆ s.group
  no_panic : s.halted ≠ some (.panic "log.committing") ∧
    s.halted ≠ some (.panic "log_write outside of trans")

theorem initial_invariant (start : BlockNo) (size : ℤ) :
    Invariant (initial start size : State π) where
  count := ⟨∅, by simp [initial, InOp], rfl⟩
  flag := by simp [initial]
  single := by simp [initial]
  quiet := by simp [initial]
  nodup := by simp [initial]
  held := by simp [initial]
  cleared := by simp [initial]
  op_group := by simp [initial, InOp]
  ended_group := by simp [initial]
  no_panic := by simp [initial]

theorem Invariant.halt {s : State π} (h : Invariant s) {x : Halt}
    (hx : x ≠ .panic "log.committing" ∧ x ≠ .panic "log_write outside of trans") :
    Invariant (s.stop x) where
  count := h.count
  flag := h.flag
  single := h.single
  quiet := h.quiet
  nodup := h.nodup
  held := h.held
  cleared := h.cleared
  op_group := h.op_group
  ended_group := h.ended_group
  no_panic := by simpa [State.stop] using hx

/-- Moves between phases that are neither inside nor at the ends of a commit. -/
theorem Invariant.shift {s : State π} (h : Invariant s) {p : π} {x : Phase}
    (hp : ∀ c, s.phase p ≠ .committing c) (hx : ∀ c, x ≠ .committing c)
    (hin : InOp x ↔ InOp (s.phase p)) : Invariant (s.move p x) := by
  have hc : ∀ q c, (s.move p x).phase q = .committing c ↔ s.phase q = .committing c := by
    intro q c
    by_cases hq : q = p
    · subst hq; simp [State.move, hx, hp]
    · simp [State.move, hq]
  have hi : ∀ q, InOp ((s.move p x).phase q) ↔ InOp (s.phase q) := inOp_update hin
  exact {
    count := ops_congr hi h.count
    flag := by simpa only [hc, move_log] using h.flag
    single := by simpa only [hc] using h.single
    quiet := by simpa only [hc, hi] using h.quiet
    nodup := h.nodup
    held := by simpa only [hc, move_log, move_group] using h.held
    cleared := by simpa only [hc, move_log] using h.cleared
    op_group := by simpa only [hi, move_op, move_group] using h.op_group
    ended_group := h.ended_group
    no_panic := h.no_panic }

/-- No process is in commit(): a state in which operations may run. -/
theorem Invariant.calm {s : State π} (h : Invariant s) (hc : s.log.committing = false)
    (p : π) (c : CommitPoint) : s.phase p ≠ .committing c := by
  intro hp
  have := h.flag.mpr ⟨p, c, hp⟩
  simp [hc] at this

theorem Invariant.not_committing {s : State π} (h : Invariant s) {p : π}
    (hp : InOp (s.phase p)) : s.log.committing = false := by
  by_contra hc
  obtain ⟨q, c, hq⟩ := h.flag.mp (by simpa using hc)
  exact h.quiet q p c hq hp

theorem beginOp_invariant {s : State π} (h : Invariant s) {p : π}
    (hp : s.phase p = .idle ∨ s.phase p = .woken) : Invariant (beginOp s p) := by
  have hout : ¬ InOp (s.phase p) := by rcases hp with hp | hp <;> simp [hp, InOp]
  have hnc : ∀ c, s.phase p ≠ .committing c := by
    intro c; rcases hp with hp | hp <;> simp [hp]
  have hsleep : Invariant (s.move p .asleep) :=
    h.shift hnc (by simp) (by simpa [InOp] using hout)
  unfold beginOp
  split
  · exact hsleep
  · next hc =>
    split
    · exact hsleep
    · have calm := h.calm (by simpa using hc)
      have calm' : ∀ q c, Function.update s.phase p .active q ≠ .committing c := by
        intro q c
        by_cases hq : q = p
        · subst hq; simp
        · simpa [hq] using calm q c
      exact {
        count := ops_insert hout trivial h.count
        flag := by
          refine iff_of_false (by simpa using hc) ?_
          rintro ⟨q, c, hq⟩
          exact calm' q c hq
        single := fun q _ c _ hq _ => absurd hq (calm' q c)
        quiet := fun q _ c hq => absurd hq (calm' q c)
        nodup := h.nodup
        held := fun _ => h.held fun q c hq => absurd hq (calm q c)
        cleared := fun q c hq => absurd hq (calm' q c)
        op_group := by
          intro q hq
          by_cases hqp : q = p
          · subst hqp; simp
          · simpa [hqp] using h.op_group q (by simpa [hqp] using hq)
        ended_group := h.ended_group
        no_panic := h.no_panic }

theorem logWrite_invariant {s : State π} (h : Invariant s) {p : π} {b : BlockNo}
    (hp : s.phase p = .active) : Invariant (logWrite s p b) := by
  unfold logWrite
  split
  · exact h.halt (by simp)
  · split
    · next ho =>
      have := ops_pos (p := p) (by simp [hp, InOp]) h.count
      omega
    · exact h.shift (by simp [hp]) (by simp) (by simp [hp, InOp])

theorem logRecord_invariant {s : State π} (h : Invariant s) {p : π} {b : BlockNo}
    (hp : s.phase p = .logging b) : Invariant (logRecord s p b) := by
  unfold logRecord
  split
  · exact h.halt (by simp)
  · have calm : ∀ q c, s.phase q ≠ .committing c := by
      intro q c hq
      exact h.quiet q p c hq (by simp [hp, InOp])
    have calm' : ∀ q c, Function.update s.phase p .active q ≠ .committing c := by
      intro q c
      by_cases hq : q = p
      · subst hq; simp
      · simpa [hq] using calm q c
    have hin : ∀ q, InOp (Function.update s.phase p .active q) ↔ InOp (s.phase q) :=
      inOp_update (by simp [hp, InOp])
    exact {
      count := ops_congr hin h.count
      flag := by
        constructor
        · intro hc
          obtain ⟨q, c, hq⟩ := h.flag.mp hc
          exact absurd hq (calm q c)
        · rintro ⟨q, c, hq⟩
          exact absurd hq (calm' q c)
      single := fun q _ c _ hq _ => absurd hq (calm' q c)
      quiet := fun q _ c hq => absurd hq (calm' q c)
      nodup := nodup_record h.nodup
      held := by
        intro _
        have hg := h.held fun q c hq => absurd hq (calm q c)
        ext c
        simp [hg, mem_blocks_record]
      cleared := fun q c hq => absurd hq (calm' q c)
      op_group := by
        intro q hq
        by_cases hqp : q = p
        · subst hqp
          simpa using Finset.insert_subset_insert b
            (h.op_group q (by simp [hp, InOp]))
        · simpa [hqp] using (h.op_group q ((hin q).mp hq)).trans (Finset.subset_insert b _)
      ended_group := h.ended_group.trans (Finset.subset_insert b _)
      no_panic := h.no_panic }

theorem endOp_invariant {s : State π} (h : Invariant s) {p : π} (hp : s.phase p = .active) :
    Invariant (endOp s p) := by
  have hin : InOp (s.phase p) := by simp [hp, InOp]
  have calm : ∀ q c, s.phase q ≠ .committing c := fun q c hq => h.quiet q p c hq hin
  have hc := h.not_committing hin
  have hgroup := h.held fun q c hq => absurd hq (calm q c)
  have hended : s.ended ∪ s.op p ⊆ s.group :=
    Finset.union_subset h.ended_group (h.op_group p hin)
  have hcount : ∀ {x}, ¬ InOp x → Ops (Function.update s.phase p x) (s.log.outstanding - 1) :=
    fun hx => ops_erase hin hx h.count
  simp only [endOp, hc, Bool.false_eq_true, ↓reduceIte]
  split
  · next hz =>
    have hnone : ∀ q, ¬ InOp (Function.update s.phase p (.committing .start) q) := by
      have := hcount (x := .committing .start) (by simp [InOp])
      rw [hz] at this
      exact ops_zero this
    have only : ∀ q c, Function.update s.phase p (.committing .start) q = .committing c →
        q = p ∧ c = .start := by
      intro q c hq
      by_cases hqp : q = p
      · subst hqp
        simp only [Function.update_self, Phase.committing.injEq] at hq
        exact ⟨rfl, hq.symm⟩
      · exact absurd (by simpa [hqp] using hq) (calm q c)
    exact {
      count := by simpa only using hcount (by simp [InOp])
      flag := by simpa using ⟨p, .start, Function.update_self p _ _⟩
      single := fun q r c d hq hr => (only q c hq).1.trans (only r d hr).1.symm
      quiet := fun _ q _ _ => hnone q
      nodup := h.nodup
      held := fun _ => hgroup
      cleared := by
        intro q c hq he
        obtain ⟨-, rfl⟩ := only q c hq
        simp [Emptied] at he
      op_group := fun q hq => absurd hq (hnone q)
      ended_group := hended
      no_panic := h.no_panic }
  · have calm' : ∀ q c, Function.update (wakeup s.phase) p .idle q ≠ .committing c := by
      intro q c
      by_cases hq : q = p
      · subst hq; simp
      · simpa [hq, wakeup_committing] using calm q c
    have hops : ∀ q, InOp (Function.update (wakeup s.phase) p .idle q) ↔
        InOp (Function.update s.phase p .idle q) := by
      intro q
      by_cases hq : q = p
      · subst hq; simp
      · simp [hq, inOp_wakeup]
    exact {
      count := ops_congr hops (hcount (by simp [InOp]))
      flag := iff_of_false (by simp) fun ⟨q, c, hq⟩ => calm' q c hq
      single := fun q _ c _ hq _ => absurd hq (calm' q c)
      quiet := fun q _ c hq => absurd hq (calm' q c)
      nodup := h.nodup
      held := fun _ => hgroup
      cleared := fun q c hq => absurd hq (calm' q c)
      op_group := by
        intro q hq
        refine h.op_group q ?_
        by_cases hqp : q = p
        · subst hqp; exact hin
        · simpa [hqp] using (hops q).mp hq
      ended_group := hended
      no_panic := h.no_panic }

/-- A step inside commit() changes at most the header, in memory or on disk. -/
theorem Invariant.advance {s t : State π} (h : Invariant s) {p : π} {c d : CommitPoint}
    (hp : s.phase p = .committing c)
    (hphase : t.phase = Function.update s.phase p (.committing d))
    (hout : t.log.outstanding = s.log.outstanding)
    (hcom : t.log.committing = s.log.committing)
    (hhist : t.op = s.op ∧ t.ended = s.ended ∧ t.group = s.group ∧ t.halted = s.halted)
    (hnodup : t.log.lh.blocks.Nodup)
    (hheld : ¬ Emptied d → t.group = t.log.lh.blocks.toFinset)
    (hclear : Emptied d → t.log.lh.n = 0) : Invariant t := by
  obtain ⟨hop, hended, hgroup, hhalt⟩ := hhist
  have hin : ∀ q, InOp (t.phase q) ↔ InOp (s.phase q) := by
    rw [hphase]
    exact inOp_update (by simp [hp, InOp])
  have only : ∀ q e, t.phase q = .committing e → q = p ∧ e = d := by
    intro q e hq
    rw [hphase] at hq
    by_cases hqp : q = p
    · subst hqp
      simp only [Function.update_self, Phase.committing.injEq] at hq
      exact ⟨rfl, hq.symm⟩
    · exact absurd (h.single q p e c (by simpa [hqp] using hq) hp) hqp
  have here : t.phase p = .committing d := by rw [hphase]; exact Function.update_self p _ _
  exact {
    count := by rw [hout]; exact ops_congr hin h.count
    flag := by
      rw [hcom]
      exact iff_of_true (h.flag.mpr ⟨p, c, hp⟩) ⟨p, d, here⟩
    single := fun q r e f hq hr => (only q e hq).1.trans (only r f hr).1.symm
    quiet := fun _ q _ _ => by rw [hin q]; exact h.quiet p q c hp
    nodup := hnodup
    held := fun he => hheld (he p d here)
    cleared := fun q e hq he => hclear ((only q e hq).2 ▸ he)
    op_group := by
      intro q hq
      rw [hop, hgroup]
      exact h.op_group q ((hin q).mp hq)
    ended_group := by rw [hended, hgroup]; exact h.ended_group
    no_panic := by rw [hhalt]; exact h.no_panic }

theorem commit_invariant {s : State π} (h : Invariant s) {p : π} {c : CommitPoint}
    (hp : s.phase p = .committing c) : Invariant (commit s p c) := by
  have full : ¬ Emptied c → s.group = s.log.lh.blocks.toFinset := fun he =>
    h.held fun q d hq => by
      obtain rfl := h.single q p d c hq hp
      rwa [Phase.committing.inj (hq.symm.trans hp)]
  have same : s.op = s.op ∧ s.ended = s.ended ∧ s.group = s.group ∧ s.halted = s.halted :=
    ⟨rfl, rfl, rfl, rfl⟩
  cases c with
  | start =>
    refine h.advance hp rfl rfl rfl same h.nodup (fun _ => full (by simp [Emptied])) ?_
    intro he
    by_contra hn
    rw [if_pos (Nat.pos_of_ne_zero (show s.log.lh.n ≠ 0 from hn))] at he
    simp [Emptied] at he
  | writeLog tail =>
    simp only [commit]
    split
    · exact h.advance hp rfl rfl rfl same h.nodup (fun _ => full (by simp [Emptied]))
        (by simp [Emptied])
    · exact h.advance hp rfl rfl rfl same h.nodup (fun _ => full (by simp [Emptied]))
        (by simp [Emptied])
  | writeHead =>
    exact h.advance hp rfl rfl rfl same h.nodup (fun _ => full (by simp [Emptied]))
      (by simp [Emptied])
  | installTrans tail =>
    refine h.advance hp rfl rfl rfl same h.nodup (fun _ => full (by simp [Emptied])) ?_
    intro he
    split at he <;> simp [Emptied] at he
  | clear =>
    exact h.advance hp rfl rfl rfl same (by simp [commit, LogHeader.blocks])
      (by simp [Emptied]) (fun _ => rfl)
  | eraseHead =>
    exact h.advance hp rfl rfl rfl same h.nodup (by simp [Emptied])
      (fun _ => h.cleared p _ hp (by simp [Emptied]))
  | finish =>
    have hz := h.cleared p _ hp (by simp [Emptied])
    have hin : ∀ q, ¬ InOp (Function.update (wakeup s.phase) p .idle q) := by
      intro q
      by_cases hq : q = p
      · subst hq; simp [InOp]
      · simpa [hq, inOp_wakeup] using h.quiet p q _ hp
    have calm : ∀ q c, Function.update (wakeup s.phase) p .idle q ≠ .committing c := by
      intro q c
      by_cases hq : q = p
      · subst hq; simp
      · simp only [ne_eq, hq, not_false_eq_true, Function.update_of_ne, wakeup_committing]
        exact fun hc => hq (h.single q p c _ hc hp)
    exact {
      count := by
        refine ops_congr (fun q => iff_of_false (hin q) (h.quiet p q _ hp)) h.count
      flag := iff_of_false (by simp [commit]) (by rintro ⟨q, c, hq⟩; exact calm q c hq)
      single := fun q _ c _ hq _ => absurd hq (calm q c)
      quiet := fun q _ c hq => absurd hq (calm q c)
      nodup := h.nodup
      held := fun _ => by simp [commit, blocks_zero _ hz]
      cleared := fun q c hq => absurd hq (calm q c)
      op_group := fun q hq => absurd hq (hin q)
      ended_group := Finset.Subset.refl ∅
      no_panic := h.no_panic }

theorem step_preserves_invariant {s t : State π} {e : Event π} (h : Invariant s)
    (hs : machine.Step s e t) : Invariant t := by
  obtain ⟨⟨-, he⟩, rfl⟩ := hs
  cases e with
  | beginOp p => exact beginOp_invariant h he
  | wake p =>
    exact h.shift (by simp [show s.phase p = .asleep from he]) (by simp)
      (by simp [show s.phase p = .asleep from he, InOp])
  | logWrite p b => exact logWrite_invariant h he
  | logRecord p b => exact logRecord_invariant h he
  | endOp p => exact endOp_invariant h he
  | commit p c => exact commit_invariant h he

theorem reachable_invariant {start : BlockNo} {size : ℤ} {es : List (Event π)} {s : State π}
    (r : Reaches start size es s) : Invariant s := by
  refine r.invariant ?_ fun _ _ _ h hs => step_preserves_invariant h hs
  rintro _ rfl
  exact initial_invariant start size

/-- What a commit may rely on in a state: it is alone, nothing joins it, and the header
holds the blocks of every operation it is about to commit. -/
structure ExclusiveCommit (s : State π) : Prop where
  no_outstanding : s.log.committing = true → s.log.outstanding = 0
  in_progress : ∀ p c, s.phase p = .committing c → s.log.committing = true
  one_commit : ∀ p q c d, s.phase p = .committing c → s.phase q = .committing d → p = q
  no_write : ∀ p c, s.phase p = .committing c →
    ∀ q b, ¬ Enabled s (.logWrite q b) ∧ ¬ Enabled s (.logRecord q b)
  no_start : ∀ p c, s.phase p = .committing c →
    ∀ q, ¬ InOp ((next s (.beginOp q)).phase q)
  no_panic : s.halted ≠ some (.panic "log.committing")
  complete : ∀ p c, s.phase p = .committing c → ¬ Emptied c →
    s.ended ⊆ s.log.lh.blocks.toFinset
  header : ∀ p, s.phase p = .committing .writeHead →
    (next s (.commit p .writeHead)).headBlock = s.log.lh.blocks
  distinct : s.log.lh.blocks.Nodup
  emptied : ∀ p, s.phase p = .committing .finish → s.log.lh.n = 0

theorem group_commit_exclusive {start : BlockNo} {size : ℤ} {es : List (Event π)}
    {s : State π} (r : Reaches start size es s) : ExclusiveCommit s := by
  have h := reachable_invariant r
  exact {
    no_outstanding := by
      intro hc
      obtain ⟨p, c, hp⟩ := h.flag.mp hc
      obtain ⟨A, hA, hn⟩ := h.count
      have : A = ∅ := by
        ext q
        simpa [hA] using h.quiet p q c hp
      simpa [this] using hn
    in_progress := fun p c hp => h.flag.mpr ⟨p, c, hp⟩
    one_commit := h.single
    no_write := by
      intro p c hp q b
      have hq := h.quiet p q c hp
      constructor
      · rintro ⟨-, he⟩
        exact hq (by simp [show s.phase q = .active from he, InOp])
      · rintro ⟨-, he⟩
        exact hq (by simp [show s.phase q = .logging b from he, InOp])
    no_start := by
      intro p c hp q
      simp [next, beginOp, h.flag.mpr ⟨p, c, hp⟩, State.move, InOp]
    no_panic := h.no_panic.1
    complete := by
      intro p c hp he
      have := h.held fun q d hq => by
        obtain rfl := h.single q p d c hq hp
        rwa [Phase.committing.inj (hq.symm.trans hp)]
      rw [← this]
      exact h.ended_group
    header := fun _ _ => rfl
    distinct := h.nodup
    emptied := fun p hp => h.cleared p _ hp (by simp [Emptied]) }

instance (s : State π) (e : Event π) : Decidable (machine.enabled s e) :=
  inferInstanceAs (Decidable (Enabled s e))

/-- Two operations share a commit; the second begin_op() of the first process waits. -/
def sharedCommit : List (Event (Fin 2)) :=
  [.beginOp p0, .beginOp p1, .logWrite p0 40, .logWrite p1 41, .logRecord p1 41, .logRecord p0 40,
   .endOp p0, .endOp p1, .beginOp p0, .commit p1 .start, .commit p1 (.writeLog 0),
   .commit p1 (.writeLog 1), .commit p1 (.writeLog 2)]

theorem group_commit_exclusive_shared :
    ExclusiveCommit (machine.exec (initial 2 30) sharedCommit) ∧
      (machine.exec (initial 2 30) sharedCommit).phase 1 = .committing .writeHead ∧
      (machine.exec (initial 2 30) sharedCommit).ended = {40, 41} :=
  have r : Run machine.Step (· = initial 2 30) sharedCommit _ :=
    Machine.Valid.run (by decide)
  ⟨group_commit_exclusive r, by decide, by decide⟩

end LogGroupCommit
