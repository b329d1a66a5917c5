import OsEngineering.BufferRuns
import Mathlib.Algebra.Order.BigOperators.Group.Finset
import Mathlib.Data.Finset.Option

/-! When bget() finds no buffer. -/
set_option linter.unusedSectionVars false

namespace BufferSupply

open CircularList FiniteTally KernelParams TransitionSystem BufferCache BufferCoherence BufferRuns

variable {η D : Type*} [Fintype η] [DecidableEq η]

/-- The handles that refer to a buffer. -/
def busy (s : State η D) : Finset η := Finset.univ.filter fun h => s.use h ≠ .idle

/-- The buffers that only B_DIRTY keeps from being recycled. -/
def pinned (s : State η D) : Finset BufNo :=
  Finset.univ.filter fun b => (s.buf b).refcnt = 0 ∧ (s.buf b).dirty = true

/-- bget() is called for a cached block, or with fewer than NBUF buffers held and pinned. -/
def Spare (s : State η D) : Event η D → Prop
  | .bget _ dev blockno => (∃ b, Holds s b dev blockno) ∨ (busy s).card + (pinned s).card < NBUF
  | _ => True

instance (s : State η D) (e : Event η D) : Decidable (Spare s e) := by
  induction e using Event.casesOn <;> unfold Spare Holds <;> infer_instance

variable {s t : State η D} {h : η} {dev : Dev} {blockno : BlockNo} {b : BufNo}

theorem unused_none (k : Ring s) (hu : unused s = none) (b : BufNo) :
    (s.buf b).refcnt ≠ 0 ∨ (s.buf b).dirty = true := by
  obtain ⟨l, hl, hall, -⟩ := k
  rw [unused, hl.scan_prev _ (length_of_nodup hl.nodup)] at hu
  have hnot := List.find?_eq_none.mp hu b (List.mem_reverse.mpr (hall b))
  by_cases hr : (s.buf b).refcnt = 0
  · refine Or.inr ?_
    simpa [hr] using hnot
  · exact Or.inl hr

theorem referenced_iff (k : Refs s) : (s.buf b).refcnt ≠ 0 ↔ ∃ h, on (s.use h) = some b := by
  rw [k b]
  constructor
  · exact fun hne => exists_of_tally hne
  · rintro ⟨h, hh⟩
    have hpos := tally_pos (f := fun g => on (s.use g)) hh
    omega

/-- bget() panics if the block is not cached and no buffer can be recycled. -/
theorem bget_halted (k : Cache s) (hrun : s.halted = none) :
    (bget s h dev blockno).halted ≠ none ↔ (∀ b, ¬ Holds s b dev blockno) ∧
      ∀ b, (∃ g, on (s.use g) = some b) ∨ (s.buf b).dirty = true := by
  cases hc : cached s dev blockno with
  | some b =>
    have hhalted : (bget s h dev blockno).halted = none := by
      simp only [bget, hc]
      exact hrun
    refine iff_of_false (fun hne => hne hhalted) ?_
    rintro ⟨hnone, -⟩
    exact hnone b (cached_some k.ring hc).1
  | none =>
    have hnone := cached_none k.ring hc
    cases hu : unused s with
    | some b =>
      have hhalted : (bget s h dev blockno).halted = none := by
        simp only [bget, hc, hu]
        exact hrun
      obtain ⟨hr, hd⟩ := unused_some k.ring hu
      refine iff_of_false (fun hne => hne hhalted) ?_
      rintro ⟨-, hfull⟩
      rcases hfull b with hon | hdirty
      · exact (referenced_iff k.refs).mpr hon hr
      · cases hd.symm.trans hdirty
    | none =>
      have hhalted : (bget s h dev blockno).halted = some "bget: no buffers" := by
        simp only [bget, hc, hu]
      refine iff_of_true (by rw [hhalted]; rintro ⟨⟩) ⟨hnone, ?_⟩
      intro b
      rw [← referenced_iff k.refs]
      exact unused_none k.ring hu b

/-- Every buffer held or pinned. -/
theorem full_card (k : Refs s)
    (hfull : ∀ b, (∃ g, on (s.use g) = some b) ∨ (s.buf b).dirty = true) :
    NBUF ≤ (busy s).card + (pinned s).card := by
  have hcover : (Finset.univ : Finset BufNo) ⊆
      (busy s).biUnion (fun h => (on (s.use h)).toFinset) ∪ pinned s := by
    intro b _
    rw [Finset.mem_union]
    by_cases hr : ∃ g, on (s.use g) = some b
    · obtain ⟨g, hg⟩ := hr
      refine Or.inl (Finset.mem_biUnion.mpr ⟨g, ?_, Option.mem_toFinset.mpr hg⟩)
      refine Finset.mem_filter.mpr ⟨Finset.mem_univ g, ?_⟩
      intro hidle
      rw [hidle] at hg
      cases hg
    · have hzero : (s.buf b).refcnt = 0 := by
        by_contra hne
        exact hr ((referenced_iff k).mp hne)
      exact Or.inr (Finset.mem_filter.mpr
        ⟨Finset.mem_univ b, hzero, (hfull b).resolve_left hr⟩)
  have hheld : ((busy s).biUnion fun h => (on (s.use h)).toFinset).card ≤ (busy s).card := by
    refine le_trans Finset.card_biUnion_le ?_
    refine le_trans (Finset.sum_le_card_nsmul _ _ 1 ?_) (by simp)
    intro h _
    cases on (s.use h) <;> simp
  calc NBUF = (Finset.univ : Finset BufNo).card := (Finset.card_fin NBUF).symm
    _ ≤ _ := Finset.card_le_card hcover
    _ ≤ _ := Finset.card_union_le _ _
    _ ≤ (busy s).card + (pinned s).card := Nat.add_le_add_right hheld _

theorem next_halted (k : Cache s) {e : Event η D} (he : Enabled s e) (hok : Spare s e) :
    (next s e).halted = none := by
  have hrun := he.1
  cases e with
  | bget h dev blockno =>
    by_contra hne
    obtain ⟨hnone, hfull⟩ := (bget_halted k hrun).mp hne
    rcases hok with ⟨b, hb⟩ | hlt
    · exact hnone b hb
    · have hle := full_card k.refs hfull
      omega
  | readDone h dev blockno b | writeDone h dev blockno b =>
    simp only [next, ideintr]
    split <;> exact hrun
  | brelse h b =>
    simp only [next, brelse]
    split <;> exact hrun
  | _ => exact hrun

/-- bget() finds a buffer unless all are held or pinned, and with fewer than NBUF held and
pinned it always does. -/
theorem bget_finds {zero : D} {disk : Dev → BlockNo → D} {es : List (Event η D)}
    (r : Reaches zero disk es s) :
    (∀ h dev blockno t, machine.Step s (.bget h dev blockno) t →
      (t.halted ≠ none ↔ (∀ b, ¬ Holds s b dev blockno) ∧
        ∀ b, (∃ g, on (s.use g) = some b) ∨ (s.buf b).dirty = true)) ∧
    (Run (Guarded machine.Step Spare) (· = initial zero disk) es s → s.halted = none) := by
  refine ⟨?_, ?_⟩
  · rintro h dev blockno t ⟨⟨hrun, -⟩, rfl⟩
    exact bget_halted (cache r) hrun
  · intro g
    cases g with
    | nil hi =>
      rw [hi]
      rfl
    | snoc g hs =>
      obtain ⟨hok, he, rfl⟩ := hs
      exact next_halted (cache g.unguarded) he hok

/-- Process `p` of NPROC reads its own block. -/
def readers (n : ℕ) : List (Event (Fin NPROC) ℕ) :=
  ((List.finRange NPROC).take n).map fun p => .bget p 1 (BitVec.ofNat 32 (100 + p.val))

theorem bget_finds_thirty :
    (machine.exec (initial 0 fun _ _ => 0) (readers NBUF)).halted = none := by
  have hr : Run (Guarded machine.Step Spare) (· = initial 0 fun _ _ => 0) (readers NBUF)
      (machine.exec (initial 0 fun _ _ => 0) (readers NBUF)) :=
    Machine.Valid.guarded_run (by decide +kernel)
  exact (bget_finds hr.unguarded).2 hr

/-- One reader more than there are buffers, with nothing pinned. -/
theorem no_buffers_left :
    Run machine.Step (· = initial 0 fun _ _ => 0) (readers (NBUF + 1))
        (machine.exec (initial 0 fun _ _ => 0) (readers (NBUF + 1))) ∧
      pinned (machine.exec (initial 0 fun _ _ => 0) (readers (NBUF + 1))) = ∅ ∧
      (machine.exec (initial 0 fun _ _ => 0) (readers (NBUF + 1))).halted =
        some "bget: no buffers" :=
  ⟨Machine.Valid.run (by decide +kernel), by decide +kernel, by decide +kernel⟩

end BufferSupply
