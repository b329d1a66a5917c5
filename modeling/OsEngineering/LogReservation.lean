import OsEngineering.LogGroupCommit
import Mathlib.Algebra.BigOperators.Group.Finset.Basic
import Mathlib.Algebra.Order.BigOperators.Group.Finset

/-! What begin_op() reserves and what log_write() needs. An operation that logs at most
MAXOPBLOCKS blocks is disciplined; three of them fill `lh.block` and no more. The area
mkfs lays out is one block smaller than that, because the header lives in it. -/
set_option linter.unusedSectionVars false

namespace LogReservation

open KernelParams RedoLog TransitionSystem LogGroupCommit

variable {π : Type*} [DecidableEq π]

/-- The promise of MAXOPBLOCKS: an operation logs few distinct blocks. -/
def Disciplined (s : State π) : Event π → Prop
  | .logWrite p b => (insert b (s.op p)).card ≤ MAXOPBLOCKS
  | _ => True

instance (s : State π) (e : Event π) : Decidable (Disciplined s e) := by
  induction e using Event.casesOn <;> unfold Disciplined <;> infer_instance

/-- A block of the on-disk log other than its header. -/
def InLogArea (start : BlockNo) (size : ℤ) (b : BlockNo) : Prop :=
  ∃ i : ℕ, 1 ≤ i ∧ (i : ℤ) < size ∧ b = start + BitVec.ofNat 32 i

structure Sufficient (s : State π) : Prop where
  no_panic : s.halted ≠ some (.panic "too big a transaction")
  fits : (s.log.lh.n : ℤ) ≤ s.log.size - 1
  inside : ∀ b ∈ s.logged, InLogArea s.log.start s.log.size b

/-- The blocks logged since the last commit leave a block of the log area: strictly when
log_write() tests the size, and counting the new block when it records it. -/
def RoomLeft (s : State π) : Event π → Prop
  | .logWrite _ _ => (s.group.card : ℤ) < s.log.size - 1
  | .logRecord _ b => ((insert b s.group).card : ℤ) ≤ s.log.size - 1
  | _ => True

instance (s : State π) (e : Event π) : Decidable (RoomLeft s e) := by
  induction e using Event.casesOn <;> unfold RoomLeft <;> infer_instance

/-! The reservation invariant. -/

def slack (op : π → Finset BlockNo) (A : Finset π) : ℕ :=
  ∑ p ∈ A, (MAXOPBLOCKS - (op p).card)

theorem slack_le (op : π → Finset BlockNo) (A : Finset π) :
    slack op A ≤ A.card * MAXOPBLOCKS := by
  have := Finset.sum_le_card_nsmul A (fun p => MAXOPBLOCKS - (op p).card) MAXOPBLOCKS
    fun p _ => Nat.sub_le _ _
  simpa [slack] using this

theorem slack_insert_new (op : π → Finset BlockNo) {A : Finset π} {p : π} (hp : p ∉ A) :
    slack (Function.update op p ∅) (insert p A) = MAXOPBLOCKS + slack op A := by
  rw [slack, Finset.sum_insert hp]
  simp only [Function.update_self, Finset.card_empty, Nat.sub_zero, Nat.add_left_cancel_iff]
  refine Finset.sum_congr rfl fun q hq => ?_
  rw [Function.update_of_ne (ne_of_mem_of_not_mem hq hp)]

theorem slack_update (op : π → Finset BlockNo) {A : Finset π} {p : π} (hp : p ∈ A)
    (X : Finset BlockNo) :
    slack (Function.update op p X) A + (MAXOPBLOCKS - (op p).card) =
      slack op A + (MAXOPBLOCKS - X.card) := by
  have hrest : ∑ q ∈ A.erase p, (MAXOPBLOCKS - (Function.update op p X q).card) =
      ∑ q ∈ A.erase p, (MAXOPBLOCKS - (op q).card) := by
    refine Finset.sum_congr rfl fun q hq => ?_
    rw [Function.update_of_ne (Finset.ne_of_mem_erase hq)]
  have h1 := Finset.sum_erase_add A (fun q => MAXOPBLOCKS - (Function.update op p X q).card) hp
  have h2 := Finset.sum_erase_add A (fun q => MAXOPBLOCKS - (op q).card) hp
  simp only [Function.update_self] at h1
  simp only [slack]
  omega

theorem slack_erase_le (op : π → Finset BlockNo) (A : Finset π) (p : π) :
    slack op (A.erase p) ≤ slack op A :=
  Finset.sum_le_sum_of_subset (Finset.erase_subset p A)

structure Reserved (s : State π) : Prop where
  room : ∃ A : Finset π, (∀ p, p ∈ A ↔ InOp (s.phase p)) ∧
    s.log.outstanding = A.card ∧ s.log.lh.n + slack s.op A ≤ LOGSIZE
  pending : ∀ p b, s.phase p = .logging b → (insert b (s.op p)).card ≤ MAXOPBLOCKS

theorem initial_reserved (start : BlockNo) (size : ℤ) :
    Reserved (initial start size : State π) where
  room := ⟨∅, by simp [initial, InOp], rfl, by simp [initial, slack]⟩
  pending := by simp [initial]

/-- Steps that keep the operations as they are and do not let the header grow. -/
theorem Reserved.keep {s t : State π} (h : Reserved s)
    (hin : ∀ q, InOp (t.phase q) ↔ InOp (s.phase q))
    (hlog : ∀ q b, t.phase q = .logging b → s.phase q = .logging b)
    (hout : t.log.outstanding = s.log.outstanding) (hn : t.log.lh.n ≤ s.log.lh.n)
    (hop : t.op = s.op) : Reserved t := by
  obtain ⟨A, hA, ho, hr⟩ := h.room
  refine ⟨⟨A, fun p => (hA p).trans (hin p).symm, hout.trans ho, ?_⟩, ?_⟩
  · rw [hop]; omega
  · intro p b hp
    rw [hop]
    exact h.pending p b (hlog p b hp)

theorem Reserved.move {s : State π} (h : Reserved s) {p : π} {x : Phase}
    (hin : InOp x ↔ InOp (s.phase p)) (hx : ∀ b, x ≠ .logging b) :
    Reserved (s.move p x) := by
  refine h.keep (inOp_update hin) ?_ rfl le_rfl rfl
  intro q b hq
  by_cases hqp : q = p
  · subst hqp; simp [State.move, hx] at hq
  · simpa [State.move, hqp] using hq

theorem beginOp_reserved {s : State π} (h : Reserved s) {p : π}
    (hp : s.phase p = .idle ∨ s.phase p = .woken) : Reserved (beginOp s p) := by
  have hout : ¬ InOp (s.phase p) := by rcases hp with hp | hp <;> simp [hp, InOp]
  have hsleep : Reserved (s.move p .asleep) := h.move (by simpa [InOp] using hout) (by simp)
  unfold beginOp
  split
  · exact hsleep
  split
  · exact hsleep
  next he =>
    obtain ⟨A, hA, ho, hr⟩ := h.room
    have hpA : p ∉ A := fun hm => hout ((hA p).mp hm)
    refine ⟨⟨insert p A, ?_, ?_, ?_⟩, ?_⟩
    · intro q
      by_cases hq : q = p
      · subst hq; simp [InOp]
      · simp [hq, hA]
    · simp [Finset.card_insert_of_notMem hpA, ho]
    · rw [slack_insert_new s.op hpA]
      have hs := slack_le s.op A
      rw [Log.exhausted, ho] at he
      simp only [MAXOPBLOCKS, LOGSIZE] at *
      omega
    · intro q b hq
      by_cases hqp : q = p
      · subst hqp; simp at hq
      · simpa [hqp] using h.pending q b (by simpa [hqp] using hq)

theorem logRecord_reserved {s : State π} (hi : Invariant s) (h : Reserved s) {p : π}
    {b : BlockNo} (hp : s.phase p = .logging b) : Reserved (logRecord s p b) := by
  unfold logRecord
  split
  · exact h.keep (fun _ => Iff.rfl) (fun _ _ => id) rfl le_rfl rfl
  have hin : ∀ q, InOp (Function.update s.phase p .active q) ↔ InOp (s.phase q) :=
    inOp_update (by simp [hp, InOp])
  have hpin : InOp (s.phase p) := by simp [hp, InOp]
  obtain ⟨A, hA, ho, hr⟩ := h.room
  refine ⟨⟨A, fun q => (hA q).trans (hin q).symm, ho, ?_⟩, ?_⟩
  · have hs := slack_update s.op ((hA p).mpr hpin) (insert b (s.op p))
    have hcard := h.pending p b hp
    change (s.log.lh.record b).n + slack (Function.update s.op p (insert b (s.op p))) A ≤ LOGSIZE
    by_cases hb : b ∈ s.log.lh.blocks
    · rw [record_of_mem hb]
      have := Finset.card_le_card (Finset.subset_insert b (s.op p))
      omega
    · have hg := hi.held fun q c hq => absurd hpin (hi.quiet q p c hq)
      have hnew : b ∉ s.op p := fun hm => hb (by
        have := hi.op_group p hpin hm
        rwa [hg, List.mem_toFinset] at this)
      rw [record_of_not_mem hb]
      rw [Finset.card_insert_of_notMem hnew] at hs hcard
      change s.log.lh.n + 1 + _ ≤ LOGSIZE
      omega
  · intro q c hq
    by_cases hqp : q = p
    · subst hqp; simp at hq
    · simpa [hqp] using h.pending q c (by simpa [hqp] using hq)

theorem endOp_reserved {s : State π} (hi : Invariant s) (h : Reserved s) {p : π}
    (hp : s.phase p = .active) : Reserved (endOp s p) := by
  have hpin : InOp (s.phase p) := by simp [hp, InOp]
  obtain ⟨A, hA, ho, hr⟩ := h.room
  have hm : p ∈ A := (hA p).mpr hpin
  have hpos := Finset.card_pos.mpr ⟨p, hm⟩
  have hroom := slack_erase_le s.op A p
  have hcount : s.log.outstanding - 1 = (A.erase p).card := by
    rw [Finset.card_erase_of_mem hm, ho]
    omega
  -- both branches take `p` out of the operations and give up its slack
  have leave : ∀ t : State π, t.op = s.op → t.log.lh = s.log.lh →
      t.log.outstanding = s.log.outstanding - 1 → ¬ InOp (t.phase p) →
      (∀ q, q ≠ p → (InOp (t.phase q) ↔ InOp (s.phase q))) →
      (∀ q b, t.phase q = .logging b → s.phase q = .logging b) → Reserved t := by
    intro t hop hlh hout hself hin hlog
    refine ⟨⟨A.erase p, ?_, hout.trans hcount, ?_⟩, ?_⟩
    · intro q
      by_cases hq : q = p
      · subst hq; simpa using hself
      · simp [hq, hA, hin q hq]
    · rw [hop, hlh]; omega
    · intro q b hq
      rw [hop]
      exact h.pending q b (hlog q b hq)
  simp only [endOp, hi.not_committing hpin, Bool.false_eq_true, ↓reduceIte]
  split
  · refine leave _ rfl rfl rfl (by simp [InOp]) (fun q hq => by simp [hq]) ?_
    intro q b hq
    by_cases hqp : q = p
    · subst hqp; simp at hq
    · simpa [hqp] using hq
  · refine leave _ rfl rfl rfl (by simp [InOp]) (fun q hq => by simp [hq, inOp_wakeup]) ?_
    intro q b hq
    by_cases hqp : q = p
    · subst hqp; simp at hq
    · simp only [ne_eq, hqp, not_false_eq_true, Function.update_of_ne, wakeup] at hq
      split at hq
      · simp at hq
      · exact hq

theorem commit_reserved {s : State π} (h : Reserved s) {p : π} {c : CommitPoint}
    (hp : s.phase p = .committing c) : Reserved (commit s p c) := by
  have hout : ¬ InOp (s.phase p) := by simp [hp, InOp]
  have stay : ∀ d, Reserved (s.move p (.committing d)) := fun d =>
    h.move (by simpa [InOp] using hout) (by simp)
  -- the fields a commit step changes besides the phase play no part in the reservation
  have like : ∀ (d : CommitPoint) (t : State π), t.phase = (s.move p (.committing d)).phase →
      t.log.outstanding = s.log.outstanding → t.log.lh.n ≤ s.log.lh.n → t.op = s.op →
      Reserved t := by
    intro d t hph ho hn hop
    exact (stay d).keep (fun q => by rw [hph]) (fun q b => by rw [hph]; exact id) ho hn hop
  cases c with
  | start => exact stay _
  | writeLog tail =>
    simp only [commit]
    split
    · exact like _ _ rfl rfl le_rfl rfl
    · exact stay _
  | writeHead => exact like _ _ rfl rfl le_rfl rfl
  | installTrans tail => exact stay _
  | clear => exact like _ _ rfl rfl (Nat.zero_le _) rfl
  | eraseHead => exact like _ _ rfl rfl le_rfl rfl
  | finish =>
    refine h.keep ?_ ?_ rfl le_rfl rfl
    · intro q
      by_cases hq : q = p
      · subst hq; simpa [commit, InOp] using hout
      · simp [commit, hq, inOp_wakeup]
    · intro q b hq
      by_cases hqp : q = p
      · subst hqp; simp [commit] at hq
      · simp only [commit, ne_eq, hqp, not_false_eq_true, Function.update_of_ne, wakeup] at hq
        split at hq
        · simp at hq
        · exact hq

theorem step_preserves_reserved {s t : State π} {e : Event π} (hi : Invariant s)
    (h : Reserved s) (hs : Guarded machine.Step Disciplined s e t) : Reserved t := by
  obtain ⟨hd, ⟨-, he⟩, rfl⟩ := hs
  cases e with
  | beginOp p => exact beginOp_reserved h he
  | wake p => exact h.move (by simp [show s.phase p = .asleep from he, InOp]) (by simp)
  | logWrite p b =>
    have hp : s.phase p = .active := he
    change Reserved (logWrite s p b)
    unfold logWrite
    split
    · exact h.keep (fun _ => Iff.rfl) (fun _ _ => id) rfl le_rfl rfl
    split
    · exact h.keep (fun _ => Iff.rfl) (fun _ _ => id) rfl le_rfl rfl
    refine ⟨?_, ?_⟩
    · obtain ⟨A, hA, ho, hr⟩ := h.room
      exact ⟨A, fun q => (hA q).trans (inOp_update (by simp [hp, InOp]) q).symm, ho, hr⟩
    · intro q c hq
      by_cases hqp : q = p
      · subst hqp
        simp only [State.move, Function.update_self, Phase.logging.injEq] at hq
        subst hq
        exact hd
      · exact h.pending q c (by simpa [State.move, hqp] using hq)
  | logRecord p b => exact logRecord_reserved hi h he
  | endOp p => exact endOp_reserved hi h he
  | commit p c => exact commit_reserved h he

/-- Disciplined operations never fill more than `lh.block`. -/
theorem reservation_bound {start : BlockNo} {size : ℤ} {es : List (Event π)} {s : State π}
    (r : Run (Guarded machine.Step Disciplined) (· = initial start size) es s) :
    s.log.lh.n ≤ LOGSIZE := by
  have h : Invariant s ∧ Reserved s := by
    refine r.invariant (I := fun s => Invariant s ∧ Reserved s) ?_ ?_
    · rintro _ rfl
      exact ⟨initial_invariant start size, initial_reserved start size⟩
    · intro s e t h hs
      exact ⟨step_preserves_invariant h.1 hs.2, step_preserves_reserved h.1 h.2 hs⟩
  obtain ⟨A, -, -, hr⟩ := h.2.room
  omega

/-! The exact condition. -/

theorem group_card {s : State π} (h : Invariant s) {p : π} (hp : InOp (s.phase p)) :
    s.group.card = s.log.lh.n := by
  rw [h.held fun q c hq => absurd hp (h.quiet q p c hq), List.toFinset_card_of_nodup h.nodup,
    blocks_length]

theorem step_layout {s t : State π} {e : Event π} (hs : machine.Step s e t) :
    t.log.start = s.log.start ∧ t.log.size = s.log.size := by
  obtain ⟨-, rfl⟩ := hs
  cases e with
  | beginOp p => simp only [machine, next, beginOp]; split_ifs <;> exact ⟨rfl, rfl⟩
  | wake p => exact ⟨rfl, rfl⟩
  | logWrite p b => simp only [machine, next, logWrite]; split_ifs <;> exact ⟨rfl, rfl⟩
  | logRecord p b => simp only [machine, next, logRecord]; split_ifs <;> exact ⟨rfl, rfl⟩
  | endOp p => simp only [machine, next, endOp]; split_ifs <;> exact ⟨rfl, rfl⟩
  | commit p c =>
    cases c with
    | writeLog tail => simp only [machine, next, commit]; split_ifs <;> exact ⟨rfl, rfl⟩
    | _ => exact ⟨rfl, rfl⟩

/-- Steps that leave the header, the disk and the panic state alone. -/
theorem Sufficient.same {s t : State π} (h : Sufficient s) (hh : t.halted = s.halted)
    (hlog : t.log.start = s.log.start ∧ t.log.size = s.log.size)
    (hn : t.log.lh.n ≤ s.log.lh.n) (hw : t.logged = s.logged) : Sufficient t := by
  refine ⟨by rw [hh]; exact h.no_panic, ?_, ?_⟩
  · have := h.fits
    rw [hlog.2]
    omega
  · rw [hw, hlog.1, hlog.2]
    exact h.inside

theorem commit_sufficient {s : State π} (h : Sufficient s) (p : π) (c : CommitPoint) :
    Sufficient (commit s p c) := by
  cases c with
  | writeLog tail =>
    simp only [commit]
    split
    · next hn =>
      refine ⟨h.no_panic, h.fits, ?_⟩
      intro b hb
      rcases List.mem_append.mp hb with hb | hb
      · exact h.inside b hb
      · have hfit := h.fits
        refine ⟨tail + 1, by omega, by change ((tail + 1 : ℕ) : ℤ) < s.log.size; omega, ?_⟩
        rw [List.mem_singleton.mp hb, BitVec.add_assoc, BitVec.ofNat_add]
        rfl
    · exact h.same rfl ⟨rfl, rfl⟩ le_rfl rfl
  | clear => exact h.same rfl ⟨rfl, rfl⟩ (Nat.zero_le _) rfl
  | _ => exact h.same rfl ⟨rfl, rfl⟩ le_rfl rfl

theorem step_sufficient {s t : State π} {e : Event π} (hi : Invariant s)
    (hsize : s.log.size ≤ LOGSIZE) (h : Sufficient s)
    (hs : Guarded machine.Step RoomLeft s e t) : Sufficient t := by
  obtain ⟨hroom, hs⟩ := hs
  have hlog := step_layout hs
  obtain ⟨⟨-, he⟩, rfl⟩ := hs
  cases e with
  | beginOp p =>
    refine h.same ?_ hlog ?_ ?_ <;>
      simp only [machine, next, beginOp] <;> split_ifs <;> simp [State.move]
  | wake p => exact h.same rfl hlog le_rfl rfl
  | logWrite p b =>
    have hc := group_card hi (p := p) (by simp [show s.phase p = .active from he, InOp])
    have hsmall : ¬ s.log.tooBig := by
      simp only [RoomLeft, hc] at hroom
      simp only [Log.tooBig]
      omega
    refine ⟨?_, ?_, ?_⟩ <;> simp only [machine, next, logWrite, hsmall, ↓reduceIte] <;>
      split_ifs
    · simp [State.stop]
    · exact h.no_panic
    · exact h.fits
    · exact h.fits
    · exact h.inside
    · exact h.inside
  | logRecord p b =>
    simp only [machine, next, logRecord] at hlog ⊢
    split
    · exact ⟨by simp [State.stop], h.fits, h.inside⟩
    · refine ⟨h.no_panic, ?_, h.inside⟩
      have hpin : InOp (s.phase p) := by simp [show s.phase p = .logging b from he, InOp]
      have hg := hi.held fun q c hq => absurd hpin (hi.quiet q p c hq)
      change ((s.log.lh.record b).n : ℤ) ≤ s.log.size - 1
      by_cases hb : b ∈ s.log.lh.blocks
      · rw [record_of_mem hb]
        exact h.fits
      · have hnew : b ∉ s.group := by rwa [hg, List.mem_toFinset]
        simp only [RoomLeft, Finset.card_insert_of_notMem hnew, group_card hi hpin] at hroom
        rw [record_of_not_mem hb]
        exact hroom
  | endOp p =>
    have hpin : InOp (s.phase p) := by simp [show s.phase p = .active from he, InOp]
    refine h.same ?_ hlog ?_ ?_ <;>
      simp only [machine, next, endOp, hi.not_committing hpin] <;> split_ifs <;> simp_all
  | commit p c => exact commit_sufficient h p c

/-- A log_write() without room panics, or its second half makes the header too long. -/
theorem room_of_sufficient {s t : State π} {e : Event π} (hi : Invariant s)
    (hsize : s.log.size ≤ LOGSIZE) (hs : machine.Step s e t) (h : Sufficient s)
    (ht : Sufficient t) : RoomLeft s e := by
  obtain ⟨⟨-, he⟩, rfl⟩ := hs
  cases e with
  | logWrite p b =>
    have hc := group_card hi (p := p) (by simp [show s.phase p = .active from he, InOp])
    by_contra hroom
    simp only [RoomLeft, hc, not_lt] at hroom
    refine ht.no_panic ?_
    simp [machine, next, logWrite, Log.tooBig, hroom, State.stop]
  | logRecord p b =>
    have hpin : InOp (s.phase p) := by simp [show s.phase p = .logging b from he, InOp]
    have hg := hi.held fun q c hq => absurd hpin (hi.quiet q p c hq)
    have hfit := h.fits
    by_cases hb : b ∈ s.log.lh.blocks
    · have : b ∈ s.group := by rwa [hg, List.mem_toFinset]
      simp only [RoomLeft, Finset.insert_eq_self.mpr this, group_card hi hpin]
      exact hfit
    · have hnew : b ∉ s.group := by rwa [hg, List.mem_toFinset]
      have hslot := slot_eq hb
      simp only [RoomLeft, Finset.card_insert_of_notMem hnew, group_card hi hpin]
      have hfit' := ht.fits
      have hno : ¬ LOGSIZE ≤ s.log.lh.slot b := by rw [hslot]; omega
      simp only [machine, next, logRecord, hno, ↓reduceIte, record_of_not_mem hb] at hfit'
      exact hfit'
  | _ => trivial

def threeOps : List (Event (Fin 3)) := [.beginOp 0, .beginOp 1, .beginOp 2]

/-- Process `p` logs blocks `base`, ..., `base + k - 1`, one after the other. -/
def logRange (p : Fin 3) (base k : ℕ) : List (Event (Fin 3)) :=
  (List.range k).flatMap fun i =>
    [.logWrite p (BitVec.ofNat 32 (base + i)), .logRecord p (BitVec.ofNat 32 (base + i))]

/-- Two operations of nine blocks and their commit: there is room at every step. -/
def smallGroup : List (Event (Fin 3)) :=
  [.beginOp 0, .beginOp 1] ++ logRange 0 100 9 ++ logRange 1 200 9 ++
    [.endOp 0, .endOp 1, .commit 1 .start] ++
    (List.range 18).map fun i => .commit 1 (.writeLog i)

/-- The thirtieth block meets a full log. -/
def fullLog : List (Event (Fin 3)) :=
  threeOps ++ logRange 0 100 10 ++ logRange 1 200 10 ++ logRange 2 300 9 ++ [.logWrite 2 309]

/-- Two processes pass the size test before either records its block. -/
def racedLog : List (Event (Fin 3)) :=
  threeOps ++ logRange 0 100 10 ++ logRange 1 200 9 ++ logRange 2 300 9 ++
    [.logWrite 1 209, .logWrite 2 309, .logRecord 1 209, .logRecord 2 309,
     .endOp 0, .endOp 1, .endOp 2, .commit 2 .start] ++
    (List.range 30).map fun i => .commit 2 (.writeLog i)

end LogReservation
