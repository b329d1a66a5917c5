import OsEngineering.ShellPrograms
import Mathlib.Algebra.Order.BigOperators.Group.Finset

/-! Sessions of the shell: each program of its lines is run once, and when there is nothing left
to do the shell is back at its prompt. -/
namespace ShellJobs

open ShParser TransitionSystem
open ShellCommands (Str)

variable {s t : State} {p q r : ℕ} {x y : Path} {turn : Turn} {c k : Control}

/-! The places of the programs -/

theorem leaves_inside {cmd : Cmd Str} {a : Path × List Str} (h : a ∈ leaves cmd x) : x <:+ a.1 := by
  induction cmd generalizing x with
  | execcmd argv =>
    cases argv with
    | nil => simp [leaves] at h
    | cons arg args =>
      obtain rfl := Multiset.mem_singleton.mp h
      exact List.suffix_rfl
  | redircmd cmd file mode fd ih => exact (List.suffix_cons ..).trans (ih h)
  | pipecmd left right ihl ihr =>
    rcases Multiset.mem_add.mp h with h | h
    · exact (List.suffix_cons ..).trans (ihl h)
    · exact (List.suffix_cons ..).trans (ihr h)
  | listcmd left right ihl ihr =>
    rcases Multiset.mem_add.mp h with h | h
    · exact (List.suffix_cons ..).trans (ihl h)
    · exact (List.suffix_cons ..).trans (ihr h)
  | backcmd cmd ih => exact (List.suffix_cons ..).trans (ih h)

/-- Two commands side by side have no place in common. -/
theorem beside {a b : Turn} (h : a ≠ b) : ¬ (a :: x <:+ y ∧ b :: x <:+ y) := by
  rintro ⟨ha, hb⟩
  have heq : a :: x = b :: x :=
    (List.suffix_of_suffix_length_le ha hb (by simp)).eq_of_length (by simp)
  simp [h] at heq

def places (m : Multiset (Path × List Str)) : Multiset Path := m.map Prod.fst

theorem places_add_nodup {m n : Multiset (Path × List Str)} (hm : (places m).Nodup)
    (hn : (places n).Nodup) (h : ∀ a ∈ m, ∀ b ∈ n, a.1 ≠ b.1) : (places (m + n)).Nodup := by
  rw [places, Multiset.map_add, Multiset.nodup_add]
  refine ⟨hm, hn, ?_⟩
  rw [Multiset.disjoint_left]
  intro x hx hy
  obtain ⟨a, ha, rfl⟩ := Multiset.mem_map.mp hx
  obtain ⟨b, hb, heq⟩ := Multiset.mem_map.mp hy
  exact h a ha b hb heq.symm

theorem leaves_nodup (cmd : Cmd Str) (x : Path) : (places (leaves cmd x)).Nodup := by
  have hapart : ∀ {left right : Cmd Str} {x : Path} {a b : Turn}, a ≠ b →
      ∀ m ∈ leaves left (a :: x), ∀ n ∈ leaves right (b :: x), m.1 ≠ n.1 := by
    intro left right x a b hab m hm n hn heq
    have hin := leaves_inside hm
    rw [heq] at hin
    exact beside hab ⟨hin, leaves_inside hn⟩
  induction cmd generalizing x with
  | execcmd argv => cases argv <;> simp [leaves, places]
  | redircmd cmd file mode fd ih => exact ih _
  | pipecmd left right ihl ihr => exact places_add_nodup (ihl _) (ihr _) (hapart (by simp))
  | listcmd left right ihl ihr => exact places_add_nodup (ihl _) (ihr _) (hapart (by simp))
  | backcmd cmd ih => exact ih _

theorem lineLeaves_inside {buf : Str} {a : Path × List Str} (h : a ∈ lineLeaves buf x) :
    x <:+ a.1 := by
  simp only [lineLeaves] at h
  split at h
  · exact leaves_inside h
  · simp at h

theorem lineLeaves_nodup (buf : Str) (x : Path) : (places (lineLeaves buf x)).Nodup := by
  simp only [lineLeaves]
  split
  · exact leaves_nodup _ x
  · simp [places]

/-- A program of the lines before is at another place. -/
theorem session_inside {bufs : List Str} {a : Path × List Str} (h : a ∈ session bufs) :
    ∃ n < bufs.length, .first :: mainPath n <:+ a.1 := by
  induction bufs with
  | nil => simp [session] at h
  | cons buf bufs ih =>
    rcases Multiset.mem_add.mp h with h | h
    · exact ⟨bufs.length, by simp, lineLeaves_inside h⟩
    · obtain ⟨n, hn, hin⟩ := ih h
      exact ⟨n, by simp only [List.length_cons]; omega, hin⟩

theorem mainPath_next {m n : ℕ} (h : n < m) : .next :: mainPath n <:+ mainPath m := by
  refine ⟨List.replicate (m - (n + 1)) .next, ?_⟩
  rw [mainPath, mainPath, ← List.replicate_succ, List.replicate_append_replicate]
  congr 1
  omega

theorem session_nodup (bufs : List Str) : (places (session bufs)).Nodup := by
  induction bufs with
  | nil => simp [session, places]
  | cons buf bufs ih =>
    apply places_add_nodup (lineLeaves_nodup ..) ih
    intro a ha b hb heq
    obtain ⟨n, hn, hin⟩ := session_inside hb
    have hline := lineLeaves_inside ha
    rw [heq] at hline
    have hnext := ((mainPath_next hn).trans (List.suffix_cons ..)).trans hline
    exact beside (by simp : Turn.next ≠ .first) ⟨hnext, hin⟩

/-! Whole runs -/

theorem boot_main : Main boot := by
  constructor
  · simp [boot]
  · simp [boot, mainPath]

theorem boot_parts : boot.parts = 0 := by
  simp [State.parts, State.total, boot, Process.part, Process.program, Control.pending]

theorem run_main {es : List Event} (r : Run machine.Step (· = boot) es s) : Main s := by
  refine r.invariant ?_ ?_
  · rintro s rfl
    exact boot_main
  · intro s e t h hs
    exact (step_parts h hs).1

/-- Programs may get lost, and none comes up twice. -/
theorem run_parts {es : List Event} (r : Run machine.Step (· = boot) es s) :
    s.parts ≤ session s.lines := by
  induction r with
  | nil h =>
    subst h
    exact boot_parts.trans_le (Multiset.zero_le _)
  | @snoc es s e t r hs ih =>
    obtain ⟨-, lost, hchange, -⟩ := step_parts (run_main r) hs
    have hsum : session s.lines + (t.parts + lost) ≤ session s.lines + session t.lines :=
      calc session s.lines + (t.parts + lost) = s.parts + session t.lines := by
            rw [add_comm, hchange.sum]
        _ ≤ session s.lines + session t.lines := add_le_add_left ih _
    exact (Multiset.le_add_right _ _).trans (le_of_add_le_add_left hsum)

/-- The steps of a run in which runcmd() does its work. -/
def Works (s : State) (e : Event) : Prop := ¬ Fails s e

instance (s : State) (e : Event) : Decidable (Works s e) := inferInstanceAs (Decidable (¬ _))

theorem works_parts {es : List Event} (r : Run (Guarded machine.Step Works) (· = boot) es s) :
    s.parts = session s.lines := by
  induction r with
  | nil h =>
    subst h
    exact boot_parts
  | @snoc es s e t r hs ih =>
    obtain ⟨-, lost, hchange, hnone⟩ := step_parts (run_main r.unguarded) hs.2
    have hsum := hchange.sum
    rw [hnone hs.1, add_zero, ih, add_comm] at hsum
    exact add_left_cancel hsum

theorem programs_le (s : State) : s.programs ≤ s.parts := by
  simp only [State.programs, State.parts, State.total]
  apply Finset.sum_le_sum
  intro p _
  exact Multiset.le_add_left _ _

/-! The end of the work -/

/-- Nothing goes on unless somebody types or kills. -/
def Quiet (s : State) : Prop :=
  ∀ e, machine.enabled s e → e = .eof ∨ (∃ buf ok, e = .line buf ok) ∨ ∃ p, e = .kill p

theorem at_work (k : Control) : k = .prompt ∨ k.Steps ∨ k.Waiting ∨ k.Ends := by
  rcases k with _ | _ | _ | _ | _ | _ | _ <;> simp [Control.Steps, Control.Waiting, Control.Ends]
  next n => cases n <;> simp

/-- Then main() is at its prompt and no other process is left. -/
theorem quiet_alone (h : Jobs s) (hm : Main s) (hquiet : Quiet s) (hp : s.Alive p) :
    p = 0 ∧ (s.proc p).control = .prompt := by
  -- a process that waits has a child with a higher number
  induction hn : s.count - p using Nat.strong_induction_on generalizing p with
  | _ n ih =>
    rcases at_work (s.proc p).control with hc | hsteps | hwaits | hends
    · exact ⟨hm.only p hp.1 (by simp [hc, Control.InMain]), hc⟩
    · have := hquiet (.step p true) ⟨hp, hsteps⟩
      simp at this
    · obtain ⟨q, hq, hpar⟩ := h.has_child hp hwaits
      obtain ⟨hlt, -⟩ := h.waits.parent q p hq hpar
      cases hlife : (s.proc q).life with
      | alive =>
        have hlow : s.count - q < n := by
          have hlt' := hq.1
          omega
        obtain ⟨hzero, -⟩ := ih _ hlow ⟨hq.1, hlife⟩ rfl
        omega
      | zombie =>
        have := hquiet (.reap p q) ⟨hp, hwaits, hq.1, hlife, hpar⟩
        simp at this
      | gone => exact absurd hlife hq.2
    · have := hquiet (.finish p) ⟨hp, hends⟩
      simp at this

theorem quiet_programs (h : Jobs s) (hm : Main s) (hquiet : Quiet s) : s.parts = s.programs := by
  simp only [State.programs, State.parts, State.total]
  refine Finset.sum_congr rfl fun p hp => ?_
  simp only [Process.part]
  split
  · next hlife =>
    obtain ⟨-, hc⟩ := quiet_alone h hm hquiet ⟨Finset.mem_range.mp hp, hlife⟩
    simp [hc, Control.pending]
  · exact zero_add _

/-! The work that is left -/

def cmdWork : Cmd Str → ℕ
  | .execcmd _ => 1
  | .redircmd cmd _ _ _ => cmdWork cmd + 1
  | .pipecmd left right => cmdWork left + cmdWork right + 8
  | .listcmd left right => cmdWork left + cmdWork right + 4
  | .backcmd cmd => cmdWork cmd + 3

def Control.work : Control → ℕ
  | .parse buf => (tree buf).elim 0 cmdWork + 1
  | .runcmd cmd => cmdWork cmd
  | .join right => right.elim 0 cmdWork + 1
  | .fork2 right => cmdWork right + 5
  | .waits n => n
  | _ => 0

/-- The steps of a process, exit() and its burial among them. -/
def Process.work (a : Process) : ℕ :=
  match a.life with
  | .alive => a.control.work + 2
  | .zombie => 1
  | .gone => 0

def State.work (s : State) : ℕ := s.total Process.work

theorem work_alive (hp : s.Alive p) :
    s.work = (s.proc p).control.work + 2 + s.others Process.work p := by
  rw [State.work, total_eq _ hp.1]
  simp [Process.work, hp.2]

theorem advance_work (hp : s.Alive p) :
    (s.advance p x k).work = k.work + 2 + s.others Process.work p := by
  rw [State.work, advance_total hp.1]
  simp [Process.work, hp.2]

theorem exit_work (hp : s.Alive p) : (s.exit p).work < s.work := by
  have hexit : (s.exit p).work = 1 + s.others Process.work p := by
    rw [State.work, exit_total hp.1 fun a r => rfl]
    rfl
  rw [hexit, work_alive hp]
  omega

theorem fork_work (hp : s.Alive p) : (s.fork p turn c k).work =
    c.work + 2 + (k.work + 2 + s.others Process.work p) := by
  rw [State.work, fork_total hp.1]
  simp [Process.work, hp.2]

theorem bury_work (hq : q < s.count) (hlife : (s.proc q).life = .zombie) :
    (s.bury q).work < s.work := by
  rw [State.work, State.work, bury_total hq, total_eq _ hq]
  simp [Process.work, hlife]

theorem wake_work (hp : s.Alive p) (hw : (s.proc p).control.Waiting) :
    (s.wake p).work < s.work := by
  have hwork := work_alive hp
  cases hc : (s.proc p).control with
  | join right => cases right <;> simp [State.wake, hc, advance_work hp, hwork, Control.work]
  | waits n =>
    cases n with
    | zero => simp [hc, Control.Waiting] at hw
    | succ n => simp [State.wake, hc, advance_work hp, hwork, Control.work]
  | _ => simp [hc, Control.Waiting] at hw

theorem runcmd_work (hp : s.Alive p) {cmd : Cmd Str} (hc : (s.proc p).control = .runcmd cmd)
    (ok : Bool) : (s.runcmd p ok cmd).work < s.work := by
  have hwork := work_alive hp
  cases ok with
  | false => rcases cmd with ⟨_ | _⟩ | _ | _ | _ | _ <;> exact exit_work hp
  | true =>
    rcases cmd with ⟨_ | _⟩ | _ | _ | _ | _
    · exact exit_work hp
    all_goals
      simp [State.runcmd, advance_work hp, fork_work hp, hwork, hc, Control.work, cmdWork]
    all_goals omega

theorem step_work (hp : s.Alive p) (hc : (s.proc p).control.Steps) (ok : Bool) :
    (next s (.step p ok)).work < s.work := by
  have hwork := work_alive hp
  cases hk : (s.proc p).control with
  | parse buf =>
    simp only [next, hk]
    split
    · next cmd htree => simp [advance_work hp, hwork, hk, Control.work, htree]
    · exact exit_work hp
  | runcmd cmd =>
    simp only [next, hk]
    exact runcmd_work hp hk ok
  | fork2 right =>
    simp only [next, hk]
    split
    · simp only [fork_work hp, hwork, hk, Control.work]
      omega
    · exact exit_work hp
  | _ => simp [hk, Control.Steps] at hc

/-- Only a new line gives the shell work. -/
theorem event_work {e : Event} (h : Jobs s) (he : machine.Step s e t)
    (hline : ∀ buf ok, e ≠ .line buf ok) : t.work < s.work := by
  obtain ⟨he, rfl⟩ := he
  cases e with
  | line buf ok => exact absurd rfl (hline buf ok)
  | eof => exact exit_work he.1
  | step p ok => exact step_work he.1 he.2 ok
  | finish p => exact exit_work he.1
  | reap p q =>
    obtain ⟨hp, hw, hq, hlife, -⟩ := he
    have hne : p ≠ q := by
      rintro rfl
      simp [hp.2] at hlife
    have hsame : (s.bury q).proc p = s.proc p := State.bury_of_ne hne
    have hp' : (s.bury q).Alive p := by simpa [State.Alive, hsame] using hp
    exact (wake_work hp' (by rwa [hsame])).trans (bury_work hq hlife)
  | childless p =>
    obtain ⟨hp, hw, hnone⟩ := he
    obtain ⟨q, hq, hpar⟩ := h.has_child hp hw
    exact absurd (hnone q hq.1 hpar) hq.2
  | adopt q => exact bury_work he.1 he.2.1
  | kill p => exact exit_work he

theorem run_work {es fs : List Event} (h : Run machine.Step (· = boot) es s)
    (r : Run machine.Step (· = s) fs t) (hfs : ∀ e ∈ fs, ∀ buf ok, e ≠ .line buf ok) :
    fs.length + t.work ≤ s.work := by
  induction r with
  | nil heq => simp [heq]
  | @snoc fs u e v r hs ih =>
    have hu : Jobs u := by
      refine r.invariant ?_ fun _ _ _ hj hstep => hj.keep hstep
      rintro _ rfl
      exact Jobs.of_run h
    have hless := event_work hu hs (hfs e (by simp))
    have hle := ih fun e he => hfs e (by simp [he])
    simp only [List.length_append, List.length_singleton]
    omega

/-- In every run no program comes up twice, nor one that is not in a line. Without new lines a
run is at most as long as the work that was left; and once there is nothing to do in a run where
nothing failed, all programs of all lines have been run and only main() is there. -/
theorem programs_run_once {es : List Event} {s : State} (r : Run machine.Step (· = boot) es s) :
    s.programs ≤ session s.lines ∧ (places (session s.lines)).Nodup ∧
    (∀ fs t, Run machine.Step (· = s) fs t → (∀ e ∈ fs, ∀ buf ok, e ≠ .line buf ok) →
      fs.length + t.work ≤ s.work) ∧
    (Run (Guarded machine.Step Works) (· = boot) es s → Quiet s →
      s.programs = session s.lines ∧ ∀ p, s.Alive p → p = 0 ∧ (s.proc p).control = .prompt) := by
  have h := Jobs.of_run r
  have hm := run_main r
  refine ⟨(programs_le s).trans (run_parts r), session_nodup s.lines, ?_, ?_⟩
  · intro fs t hr hfs
    exact run_work r hr hfs
  · intro hworks hquiet
    refine ⟨?_, fun p hp => quiet_alone h hm hquiet hp⟩
    rw [← quiet_programs h hm hquiet, works_parts hworks]

theorem quiet_of_alone (hgone : ∀ p < s.count, p ≠ 0 → (s.proc p).life = .gone)
    (h0 : (s.proc 0).life = .alive) (hc : (s.proc 0).control = .prompt) : Quiet s := by
  have halive : ∀ p, s.Alive p → p = 0 := by
    intro p hp
    by_contra hne
    have := hgone p hp.1 hne
    simp [hp.2] at this
  have hzombie : ∀ q < s.count, (s.proc q).life ≠ .zombie := by
    intro q hq hlife
    rcases eq_or_ne q 0 with rfl | hne
    · simp [h0] at hlife
    · simp [hgone q hq hne] at hlife
  intro e he
  cases e with
  | line buf ok => exact Or.inr (Or.inl ⟨buf, ok, rfl⟩)
  | eof => exact Or.inl rfl
  | kill p => exact Or.inr (Or.inr ⟨p, rfl⟩)
  | step p ok =>
    obtain rfl := halive p he.1
    have hbusy := he.2
    simp [hc, Control.Steps] at hbusy
  | finish p =>
    obtain rfl := halive p he.1
    have hbusy := he.2
    simp [hc, Control.Ends] at hbusy
  | reap p q =>
    obtain rfl := halive p he.1
    have hbusy := he.2.1
    simp [hc, Control.Waiting] at hbusy
  | childless p =>
    obtain rfl := halive p he.1
    have hbusy := he.2.1
    simp [hc, Control.Waiting] at hbusy
  | adopt q => exact absurd he.2.1 (hzombie q he.1)

/-- "a|b;c" from its prompt to the next one. -/
def pipeline : List Event :=
  [.line [97, 124, 98, 59, 99] true, .step 1 true, .step 1 true, .step 2 true, .step 3 true,
    .step 2 true, .step 4 true, .finish 4, .reap 2 4, .finish 3, .reap 2 3, .finish 2, .reap 1 2,
    .step 1 true, .finish 1, .reap 0 1]

def afterPipeline : State := machine.exec boot pipeline

theorem programs_run_once_pipeline :
    afterPipeline.programs ≤ session afterPipeline.lines ∧
      (places (session afterPipeline.lines)).Nodup ∧
      (∀ fs t, Run machine.Step (· = afterPipeline) fs t →
        (∀ e ∈ fs, ∀ buf ok, e ≠ .line buf ok) → fs.length + t.work ≤ afterPipeline.work) ∧
      afterPipeline.programs = session afterPipeline.lines ∧
        ∀ p, afterPipeline.Alive p → p = 0 ∧ (afterPipeline.proc p).control = .prompt := by
  have r : Run machine.Step (· = boot) pipeline afterPipeline :=
    Machine.Valid.run (by decide +kernel)
  have hworks : Run (Guarded machine.Step Works) (· = boot) pipeline afterPipeline :=
    Machine.Valid.guarded_run (by decide +kernel)
  have hquiet : Quiet afterPipeline :=
    quiet_of_alone (by decide +kernel) (by decide +kernel) (by decide +kernel)
  obtain ⟨hle, hnodup, hwork, hend⟩ := programs_run_once r
  exact ⟨hle, hnodup, hwork, hend hworks hquiet⟩

example : session afterPipeline.lines =
    {([.left, .first, .first], [[97]]), ([.right, .first, .first], [[98]]),
      ([.next, .first], [[99]])} := by
  decide +kernel

end ShellJobs
