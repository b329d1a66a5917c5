import OsEngineering.PipelineSteps
import OsEngineering.UserPrograms

/-! Whole runs of a pipeline: whatever the schedule, it writes what its filters make of the file,
and it ends. -/
namespace Pipelines

open ByteBlock Console TransitionSystem Pipes PipeStream StreamFilters UserPrograms Words

variable {program : ℕ → StreamFilter Byte} {file : List Byte} {n i k : ℕ} {s : State program}

theorem initial_inv (file : List Byte) (n : ℕ) (old : ℕ → Fin PIPESIZE → Byte) :
    Inv file n (initial program old) where
  off := Nat.zero_le _
  sound k _ := ⟨initial_stream (old k) _, fun _ => rfl⟩
  reads _ _ := ⟨rfl, fun _ => rfl, Or.inl rfl⟩
  writes _ _ := ⟨rfl, Or.inl rfl⟩
  follows i _ := by
    have htook : (initial program old).took file i = [] := by
      cases i <;> simp [State.took, initial, Pipes.initial]
    have hgave : (initial program old).gave n i = [] := by
      simp [State.gave, initial, Pipes.initial]
    rw [htook, hgave]
    exact ⟨(program i).after_nil.symm, (program i).early_nil.symm⟩
  order _ _ hend := by simp [initial, Mode.seenEnd] at hend

abbrev Reaches (program : ℕ → StreamFilter Byte) (file : List Byte) (n : ℕ)
    (old : ℕ → Fin PIPESIZE → Byte) (es : List ℕ) (s : State program) : Prop :=
  Run (machine program file n).Step (· = initial program old) es s

theorem step_inv {t : State program} (h : Inv file n s) (hs : (machine program file n).Step s i t) :
    Inv file n t := by
  obtain ⟨hrun, rfl⟩ := hs
  exact (step_local h hrun).keeps h hrun.2.1

variable {old : ℕ → Fin PIPESIZE → Byte} {es : List ℕ}

theorem run_inv (r : Reaches program file n old es s) : Inv file n s := by
  refine r.invariant ?_ fun _ _ _ h hs => step_inv h hs
  rintro _ rfl
  exact initial_inv file n old

/-! The length of a run -/

theorem rank_le (m : Mode) : m.rank ≤ 7 := by
  cases m with
  | writing call later eof => cases eof <;> simp [Mode.rank]
  | _ => simp [Mode.rank]

theorem Inv.weight_le (h : Inv file n s) (hi : i < n) : s.weight file n i ≤
    3 * ((stream program file i).length + (stream program file (i + 1)).length) + 8 := by
  have htook := h.took_starts hi
  have hgave := ((h.follows i hi).gave_starts htook).length_le
  have hrank := rank_le (s.mode i)
  have hcall := Bool.toNat_le (s.inCall n i)
  have hlen := htook.length_le
  simp only [State.weight, stream]
  omega

/-- Each step of a run adds to the weights. -/
theorem length_le_weight (r : Reaches program file n old es s) :
    es.length ≤ ∑ i ∈ Finset.range n, s.weight file n i := by
  induction r with
  | nil => simp
  | @snoc es s i t r hs ih =>
    have hstep := step_local (run_inv r) hs.1
    have hmore := hstep.total hs.1.1
    rw [hs.2, List.length_append, List.length_singleton]
    exact Nat.lt_of_le_of_lt ih hmore

/-! The end of a run -/

/-- A program that cannot run has exited, or sleeps before an empty pipe or a full one. -/
theorem Inv.stuck_cases (h : Inv file n s) (hi : i < n) (hmode : s.mode i ≠ .exited)
    (hstuck : ¬s.Runnable n i) :
    (∃ k, i = k + 1 ∧ (s.pipe k).pipe.unread = 0 ∧ (s.pipe k).pipe.writeopen = true) ∨
      i + 1 < n ∧ (s.pipe i).pipe.unread = PIPESIZE := by
  have hfollows := h.follows i hi
  have halive : (s.mode i).alive = true := by
    cases hm : s.mode i with
    | exited => exact absurd hm hmode
    | failed =>
      rw [hm] at hfollows
      exact absurd hfollows id
    | _ => rfl
  by_cases hin : (s.inputPhase i).chan = none
  · right
    have hout : (s.outputPhase n i).chan ≠ none := fun hout => hstuck ⟨hi, halive, hin, hout⟩
    have hlast : ¬i + 1 = n := by
      intro hlast
      simp [State.outputPhase, hlast, Phase.chan] at hout
    have hlt : i + 1 < n := by omega
    rcases (h.writes i hlt).phase with hidle | ⟨_, _, _, _, -, -, ⟨hwoken, -⟩ | ⟨-, hfull⟩⟩
    · simp [State.outputPhase, hlast, hidle, Phase.chan] at hout
    · simp [State.outputPhase, hlast, hwoken, Phase.chan] at hout
    · exact ⟨hlt, hfull⟩
  · left
    cases i with
    | zero => simp [State.inputPhase, Phase.chan] at hin
    | succ k =>
      rcases (h.reads k hi).phase with hidle | ⟨hwoken, -⟩ | ⟨-, hempty, hopen⟩
      · simp [State.inputPhase, hidle, Phase.chan] at hin
      · simp [State.inputPhase, hwoken, Phase.chan] at hin
      · exact ⟨k, rfl, hempty, hopen⟩

/-- Behind a full pipe there is another one, if nobody can run. -/
theorem Inv.full_next (h : Inv file n s) (hstuck : ∀ i, ¬s.Runnable n i)
    (hmode : s.mode i ≠ .exited) (hi : i + 1 < n) (hfull : (s.pipe i).pipe.unread = PIPESIZE) :
    s.mode (i + 1) ≠ .exited ∧ i + 2 < n ∧ (s.pipe (i + 1)).pipe.unread = PIPESIZE := by
  have hmode' : s.mode (i + 1) ≠ .exited := by
    intro hexited
    exact hmode (h.order i hi (by simp [hexited, Mode.seenEnd]))
  rcases h.stuck_cases hi hmode' (hstuck (i + 1)) with ⟨k, hk, hempty, -⟩ | hnext
  · obtain rfl : i = k := by omega
    rw [hempty] at hfull
    exact absurd hfull (by decide)
  · exact ⟨hmode', hnext⟩

theorem Inv.full_all (h : Inv file n s) (hstuck : ∀ i, ¬s.Runnable n i)
    (hmode : s.mode i ≠ .exited) (hi : i + 1 < n) (hfull : (s.pipe i).pipe.unread = PIPESIZE)
    (d : ℕ) :
    s.mode (i + d) ≠ .exited ∧ i + d + 1 < n ∧ (s.pipe (i + d)).pipe.unread = PIPESIZE := by
  induction d with
  | zero => exact ⟨hmode, hi, hfull⟩
  | succ d ih => exact h.full_next hstuck ih.1 ih.2.1 ih.2.2

/-- When nobody can run, everybody has exited. -/
theorem Inv.all_exited (h : Inv file n s) (hstuck : ∀ i, ¬s.Runnable n i) (hi : i < n) :
    s.mode i = .exited := by
  induction i using Nat.strong_induction_on with
  | _ i ih =>
    by_contra hmode
    rcases h.stuck_cases hi hmode (hstuck i) with ⟨k, rfl, -, hopen⟩ | ⟨hlt, hfull⟩
    · have hexited := ih k (by omega) (by omega)
      have hopened := (h.writes k hi).opened
      rw [hopen, hexited] at hopened
      simp [Mode.hasOutput] at hopened
    · have hfar := (h.full_all hstuck hmode hlt hfull n).2.1
      omega

theorem Inv.output_starts (h : Inv file (n + 1) s) : s.output <+: stream program file (n + 1) := by
  have hlast : n < n + 1 := by omega
  have hgave := (h.follows n hlast).gave_starts (h.took_starts hlast)
  rwa [s.gave_last rfl] at hgave

theorem Inv.output_all (h : Inv file (n + 1) s) (hexited : s.mode n = .exited) :
    s.output = stream program file (n + 1) := by
  have hfollows := h.follows n (by omega)
  rw [hexited] at hfollows
  obtain ⟨htook, hgave⟩ := hfollows
  rw [htook] at hgave
  rwa [s.gave_last rfl] at hgave

/-- However a pipeline is scheduled, it has written a part of what its filters make of the file,
none of its calls has failed, and its run is not longer than the bytes that go through it allow;
when no program can run, all have exited and everything has been written. -/
theorem pipeline_runs (program : ℕ → StreamFilter Byte) (file : List Byte) (n : ℕ)
    (old : ℕ → Fin PIPESIZE → Byte) (es : List ℕ) (s : State program)
    (r : Reaches program file (n + 1) old es s) :
    s.output <+: stream program file (n + 1) ∧
    (∀ i ≤ n, s.mode i ≠ .failed) ∧
    es.length ≤ ∑ i ∈ Finset.range (n + 1),
      (3 * ((stream program file i).length + (stream program file (i + 1)).length) + 8) ∧
    ((∀ i, ¬s.Runnable (n + 1) i) →
      (∀ i ≤ n, s.mode i = .exited) ∧ s.output = stream program file (n + 1)) := by
  have h := run_inv r
  refine ⟨h.output_starts, ?_, ?_, ?_⟩
  · intro i hi hfailed
    have hfollows := h.follows i (by omega)
    rw [hfailed] at hfollows
    exact hfollows
  · apply (length_le_weight r).trans
    apply Finset.sum_le_sum
    intro i hi
    exact h.weight_le (Finset.mem_range.mp hi)
  · intro hstuck
    have hexited : ∀ i ≤ n, s.mode i = .exited := fun i hi => h.all_exited hstuck (by omega)
    exact ⟨hexited, h.output_all (hexited n le_rfl)⟩

/-- Any number of cats and then wc. -/
def cats (n i : ℕ) : StreamFilter Byte := if i < n then cat else wc

/-- A run of one cat and wc over the file "a\n". -/
def oneCat : List ℕ := [0, 1, 0, 1, 0, 0, 0] ++ List.replicate 10 1

def afterOneCat : State (cats 1) :=
  (machine (cats 1) [0x61, 0x0a] 2).exec (initial (cats 1) fun _ _ => 0) oneCat

theorem pipeline_runs_cat :
    afterOneCat.output <+: stream (cats 1) [0x61, 0x0a] 2 ∧
    (∀ i ≤ 1, afterOneCat.mode i ≠ .failed) ∧
    oneCat.length ≤ ∑ i ∈ Finset.range 2, (3 * ((stream (cats 1) [0x61, 0x0a] i).length +
      (stream (cats 1) [0x61, 0x0a] (i + 1)).length) + 8) ∧
    ((∀ i, ¬afterOneCat.Runnable 2 i) →
      (∀ i ≤ 1, afterOneCat.mode i = .exited) ∧
      afterOneCat.output = stream (cats 1) [0x61, 0x0a] 2) :=
  pipeline_runs (cats 1) [0x61, 0x0a] 1 (fun _ _ => 0) oneCat afterOneCat
    (Machine.Valid.run (by decide +kernel))

/-- A file that any number of cats pass on is counted right, however they are scheduled: when no
program can run, wc has written the numbers of newlines, words and bytes. -/
theorem cats_counted (n : ℕ) (file : List Byte) (old : ℕ → Fin PIPESIZE → Byte) (es : List ℕ)
    (s : State (cats n)) (r : Reaches (cats n) file (n + 1) old es s)
    (hstuck : ∀ i, ¬s.Runnable (n + 1) i) :
    s.output = report (BitVec.ofNat 32 (file.count (chr '\n')))
      (BitVec.ofNat 32 (words Blank file).length) (BitVec.ofNat 32 file.length) := by
  have h := run_inv r
  have hlast : cats n n = wc := if_neg (lt_irrefl n)
  have hfile := stream_cats (cats n) (fun i hi => if_pos hi) file
  have hall := h.output_all (h.all_exited hstuck (Nat.lt_succ_self n))
  rw [hall, stream, hfile, hlast, wc_written]

theorem cats_counted_one : afterOneCat.output = report 1 1 2 :=
  have hstuck : ∀ j < 2, ¬afterOneCat.Runnable 2 j := by decide +kernel
  cats_counted 1 [0x61, 0x0a] (fun _ _ => 0) oneCat afterOneCat
    (Machine.Valid.run (by decide +kernel)) fun i hrun => hstuck i hrun.1 hrun

end Pipelines
