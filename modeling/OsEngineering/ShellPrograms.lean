import OsEngineering.ShellJobOrder
import Mathlib.Algebra.BigOperators.Group.Finset.Basic
import Mathlib.Algebra.Order.Group.Multiset
import Mathlib.Tactic.Abel

/-! Which programs the shell runs: those of its lines, each one once. -/
namespace ShellJobs

open ShParser TransitionSystem
open ShellCommands (Str)

variable {s t : State} {p q r : ℕ} {x y : Path} {turn : Turn} {c k : Control}

/-- The programs of a command, by their places. -/
def leaves : Cmd Str → Path → Multiset (Path × List Str)
  | .execcmd [], _ => 0
  | .execcmd (arg :: args), x => {(x, arg :: args)}
  | .redircmd cmd _ _ _, x => leaves cmd (.sub :: x)
  | .pipecmd left right, x => leaves left (.left :: x) + leaves right (.right :: x)
  | .listcmd left right, x => leaves left (.first :: x) + leaves right (.next :: x)
  | .backcmd cmd, x => leaves cmd (.back :: x)

def lineLeaves (buf : Str) (x : Path) : Multiset (Path × List Str) :=
  match tree buf with
  | some cmd => leaves cmd x
  | none => 0

/-- The place of main() after `n` lines. -/
def mainPath (n : ℕ) : Path := List.replicate n .next

/-- The programs of all lines. -/
def session : List Str → Multiset (Path × List Str)
  | [] => 0
  | buf :: bufs => lineLeaves buf (.first :: mainPath bufs.length) + session bufs

/-- The programs that a process has still to bring up. -/
def Control.pending (x : Path) : Control → Multiset (Path × List Str)
  | .parse buf => lineLeaves buf x
  | .runcmd cmd => leaves cmd x
  | .join (some right) => leaves right (.next :: x)
  | .fork2 right => leaves right (.right :: x)
  | _ => 0

/-- The program that a process runs, or has run. -/
def Process.program (a : Process) : Multiset (Path × List Str) :=
  match a.control with
  | .program argv => {(a.path, argv)}
  | _ => 0

def Process.part (a : Process) : Multiset (Path × List Str) :=
  (if a.life = .alive then a.control.pending a.path else 0) + a.program

/-! Sums over all processes -/

section Sums

variable {M : Type*} [AddCommMonoid M] (f : Process → M)

def State.total (s : State) : M := ∑ p ∈ Finset.range s.count, f (s.proc p)

/-- The sum over the others. -/
def State.others (s : State) (p : ℕ) : M := ∑ q ∈ (Finset.range s.count).erase p, f (s.proc q)

theorem total_eq (hp : p < s.count) : s.total f = f (s.proc p) + s.others f p :=
  (Finset.add_sum_erase _ _ (Finset.mem_range.mpr hp)).symm

variable {f}

theorem others_congr (hcount : t.count = s.count)
    (h : ∀ q, q ≠ p → f (t.proc q) = f (s.proc q)) : t.others f p = s.others f p := by
  simp only [State.others, hcount]
  exact Finset.sum_congr rfl fun q hq => h q (Finset.ne_of_mem_erase hq)

theorem advance_total (hp : p < s.count) : (s.advance p x k).total f =
    f { s.proc p with path := x, control := k } + s.others f p := by
  have hrest : (s.advance p x k).others f p = s.others f p :=
    others_congr rfl fun q hq => by rw [State.advance_of_ne hq]
  rw [total_eq f (s := s.advance p x k) hp, hrest, State.advance_self]

theorem exit_total (hp : p < s.count) (hf : ∀ a r, f { a with parent := r } = f a) :
    (s.exit p).total f = f { s.proc p with life := .zombie } + s.others f p := by
  have hrest : (s.exit p).others f p = s.others f p :=
    others_congr rfl fun q hq => by rw [State.exit_of_ne hq, hf]
  rw [total_eq f (s := s.exit p) hp, hrest, State.exit_self]

theorem bury_total (hq : q < s.count) :
    (s.bury q).total f = f { s.proc q with life := .gone } + s.others f q := by
  have hrest : (s.bury q).others f q = s.others f q :=
    others_congr rfl fun r hr => by rw [State.bury_of_ne hr]
  rw [total_eq f (s := s.bury q) hq, hrest, State.bury_self]

theorem fork_total (hp : p < s.count) : (s.fork p turn c k).total f =
    f ⟨some p, turn :: (s.proc p).path, turn :: (s.proc p).path, c, .alive⟩ +
      (f { s.proc p with control := k } + s.others f p) := by
  rw [State.total, State.fork_count, Finset.sum_range_succ, State.fork_child, add_comm]
  rw [← Finset.add_sum_erase _ _ (Finset.mem_range.mpr hp), State.fork_self hp]
  congr 2
  apply Finset.sum_congr rfl
  intro q hq
  obtain ⟨hne, hlt⟩ := Finset.mem_erase.mp hq
  rw [State.fork_of_ne hne (Finset.mem_range.mp hlt)]

end Sums

/-- What has been run. -/
def State.programs (s : State) : Multiset (Path × List Str) := s.total Process.program

def State.parts (s : State) : Multiset (Path × List Str) := s.total Process.part

theorem parts_alive (hp : s.Alive p) : s.parts =
    (s.proc p).control.pending (s.proc p).path + (s.proc p).program + s.others Process.part p := by
  rw [State.parts, total_eq _ hp.1]
  simp [Process.part, hp.2]

theorem advance_parts (hp : s.Alive p) : (s.advance p x k).parts =
    k.pending x + (match k with
      | .program argv => {(x, argv)}
      | _ => 0) + s.others Process.part p := by
  rw [State.parts, advance_total hp.1]
  simp [Process.part, Process.program, hp.2]

theorem exit_parts (hp : s.Alive p) :
    (s.exit p).parts = (s.proc p).program + s.others Process.part p := by
  rw [State.parts, exit_total hp.1 fun a r => by simp [Process.part, Process.program]]
  simp [Process.part, Process.program]

theorem fork_parts (hp : s.Alive p) (hc : ∀ argv, c ≠ .program argv)
    (hk : ∀ argv, k ≠ .program argv) : (s.fork p turn c k).parts =
      c.pending (turn :: (s.proc p).path) +
        (k.pending (s.proc p).path + s.others Process.part p) := by
  rw [State.parts, fork_total hp.1]
  simp only [Process.part, Process.program, hp.2, ↓reduceIte]
  cases c <;> cases k <;> simp_all

theorem bury_parts (hq : q < s.count) (hlife : (s.proc q).life = .zombie) :
    (s.bury q).parts = s.parts := by
  rw [State.parts, State.parts, bury_total hq, total_eq _ hq]
  simp [Process.part, Process.program, hlife]

def Control.InMain : Control → Bool
  | .prompt | .join none => true
  | _ => false

/-- main() is at its prompt, or it waits for the last line. -/
structure Main (s : State) : Prop where
  only : ∀ p < s.count, (s.proc p).control.InMain → p = 0
  at_line : ((s.proc 0).control = .prompt ∧ (s.proc 0).path = mainPath s.lines.length) ∨
    ((s.proc 0).control = .join none ∧ ∃ n, s.lines.length = n + 1 ∧ (s.proc 0).path = mainPath n)

/-- A call of runcmd() fails, or a process is killed before it is done. -/
def Fails (s : State) : Event → Prop
  | .step _ ok => ok = false
  | .kill p => (s.proc p).control.Ends = false
  | _ => False

instance : (s : State) → (e : Event) → Decidable (Fails s e)
  | _, .step _ ok => inferInstanceAs (Decidable (ok = false))
  | s, .kill p => inferInstanceAs (Decidable ((s.proc p).control.Ends = false))
  | _, .line _ _ | _, .eof | _, .finish _ | _, .reap _ _ | _, .childless _ | _, .adopt _ =>
    instDecidableFalse

/-- What a step does to the parts: `lost` is given up, and a new line is added. -/
structure Changes (s t : State) (lost : Multiset (Path × List Str)) : Prop where
  sum : t.parts + lost + session s.lines = s.parts + session t.lines

theorem Changes.of_eq (hparts : t.parts = s.parts) (hlines : t.lines = s.lines) :
    Changes s t 0 := by
  constructor
  rw [hparts, hlines, add_zero]

theorem exit_changes (hp : s.Alive p) :
    Changes s (s.exit p) ((s.proc p).control.pending (s.proc p).path) := by
  constructor
  rw [exit_parts hp, parts_alive hp, State.exit_lines]
  abel

theorem exit_ends (hp : s.Alive p) (h : (s.proc p).control.pending (s.proc p).path = 0) :
    Changes s (s.exit p) 0 := by
  simpa [h] using exit_changes hp

theorem runcmd_changes (hp : s.Alive p) {cmd : Cmd Str}
    (hc : (s.proc p).control = .runcmd cmd) (ok : Bool) :
    ∃ lost, Changes s (s.runcmd p ok cmd) lost ∧ (ok = true → lost = 0) := by
  have hpart : s.parts = leaves cmd (s.proc p).path + s.others Process.part p := by
    simp [parts_alive hp, Process.program, hc, Control.pending]
  cases ok with
  | false =>
    refine ⟨(s.proc p).control.pending (s.proc p).path, ?_, by simp⟩
    rcases cmd with ⟨_ | _⟩ | _ | _ | _ | _ <;> exact exit_changes hp
  | true =>
    refine ⟨0, ?_, fun _ => rfl⟩
    cases cmd with
    | execcmd argv =>
      cases argv with
      | nil =>
        apply exit_ends hp
        simp [hc, Control.pending, leaves]
      | cons arg args =>
        refine Changes.of_eq ?_ rfl
        simp [State.runcmd, advance_parts hp, hpart, Control.pending, leaves]
    | redircmd cmd file mode fd =>
      refine Changes.of_eq ?_ rfl
      simp [State.runcmd, advance_parts hp, hpart, Control.pending, leaves]
    | listcmd left right =>
      refine Changes.of_eq ?_ rfl
      simp [State.runcmd, fork_parts hp, hpart, Control.pending, leaves, add_assoc]
    | pipecmd left right =>
      refine Changes.of_eq ?_ rfl
      simp [State.runcmd, fork_parts hp, hpart, Control.pending, leaves, add_assoc]
    | backcmd cmd =>
      refine Changes.of_eq ?_ rfl
      simp [State.runcmd, fork_parts hp, hpart, Control.pending, leaves]

theorem step_changes (hp : s.Alive p) (ok : Bool) :
    ∃ lost, Changes s (next s (.step p ok)) lost ∧ (ok = true → lost = 0) := by
  have hpart := parts_alive hp
  simp only [next]
  split
  · next buf hc =>
    split
    · next cmd htree =>
      refine ⟨0, Changes.of_eq ?_ rfl, fun _ => rfl⟩
      simp [advance_parts hp, hpart, hc, Control.pending, Process.program, lineLeaves, htree]
    · next htree =>
      refine ⟨0, exit_ends hp ?_, fun _ => rfl⟩
      simp [hc, Control.pending, lineLeaves, htree]
  · next cmd hc => exact runcmd_changes hp hc ok
  · next right hc =>
    split
    · refine ⟨0, Changes.of_eq ?_ rfl, fun _ => rfl⟩
      simp [fork_parts hp, hpart, hc, Control.pending, Process.program]
    · next hfail => exact ⟨_, exit_changes hp, fun h => absurd h hfail⟩
  · exact ⟨0, Changes.of_eq rfl rfl, fun _ => rfl⟩

theorem pending_ends {k : Control} (h : k.Ends) : k.pending x = 0 := by
  cases k with
  | program argv => rfl
  | waits n => rfl
  | _ => simp [Control.Ends] at h

theorem wake_parts (hp : s.Alive p) : (s.wake p).parts = s.parts := by
  have hpart := parts_alive hp
  simp only [State.wake]
  split
  · next hc => simp [advance_parts hp, hpart, hc, Control.pending, Process.program]
  · next hc => simp [advance_parts hp, hpart, hc, Control.pending, Process.program]
  · next hc => simp [advance_parts hp, hpart, hc, Control.pending, Process.program]
  · rfl

theorem wake_lines (s : State) (p : ℕ) : (s.wake p).lines = s.lines := by
  simp only [State.wake]
  split <;> rfl

/-! main() -/

theorem Main.congr (h : Main s) (hlines : t.lines = s.lines)
    (hpath : (t.proc 0).path = (s.proc 0).path)
    (hcontrol : (t.proc 0).control = (s.proc 0).control)
    (hmain : ∀ p < t.count, (t.proc p).control.InMain → p < s.count ∧ (s.proc p).control.InMain) :
    Main t := by
  constructor
  · intro p hp hin
    obtain ⟨hlt, hin⟩ := hmain p hp hin
    exact h.only p hlt hin
  · rw [hlines, hpath, hcontrol]
    exact h.at_line

theorem Main.exit (h : Main s) (p : ℕ) : Main (s.exit p) := by
  refine h.congr rfl (s.exit_same p 0).2.1 (s.exit_same p 0).2.2 ?_
  intro q hq hin
  rw [(s.exit_same p q).2.2] at hin
  exact ⟨hq, hin⟩

/-- The others do not touch it. -/
theorem Main.advance (h : Main s) (hp : p ≠ 0) (hk : k.InMain = false) :
    Main (s.advance p x k) := by
  refine h.congr rfl (by rw [State.advance_of_ne hp.symm]) (by rw [State.advance_of_ne hp.symm]) ?_
  intro q hq hin
  rcases eq_or_ne q p with rfl | hne
  · simp [State.advance_self, hk] at hin
  · rw [State.advance_of_ne hne] at hin
    exact ⟨hq, hin⟩

theorem fork_in_main (hp : s.Alive p) (hc : c.InMain = false) (hq : q < (s.fork p turn c k).count)
    (hin : ((s.fork p turn c k).proc q).control.InMain) :
    (q = p ∧ k.InMain) ∨ (q ≠ p ∧ q < s.count ∧ (s.proc q).control.InMain) := by
  rw [State.fork_count] at hq
  rcases Nat.lt_succ_iff_lt_or_eq.mp hq with hlt | rfl
  · rcases eq_or_ne q p with rfl | hne
    · rw [State.fork_self hlt] at hin
      exact Or.inl ⟨rfl, hin⟩
    · rw [State.fork_of_ne hne hlt] at hin
      exact Or.inr ⟨hne, hlt, hin⟩
  · simp [State.fork_child, hc] at hin

theorem Main.fork (h : Main s) (hp : s.Alive p) (hne : p ≠ 0) (hc : c.InMain = false)
    (hk : k.InMain = false) : Main (s.fork p turn c k) := by
  have hzero : (s.fork p turn c k).proc 0 = s.proc 0 :=
    State.fork_of_ne hne.symm (Nat.zero_lt_of_lt hp.1)
  refine h.congr rfl (by rw [hzero]) (by rw [hzero]) ?_
  intro q hq hin
  rcases fork_in_main hp hc hq hin with ⟨-, hmain⟩ | ⟨-, hold⟩
  · simp [hk] at hmain
  · exact hold

theorem Main.bury (h : Main s) (q : ℕ) : Main (s.bury q) := by
  have hsame : ∀ r, ((s.bury q).proc r).path = (s.proc r).path ∧
      ((s.bury q).proc r).control = (s.proc r).control := by
    intro r
    rcases eq_or_ne r q with rfl | hne
    · simp [State.bury_self]
    · simp [State.bury_of_ne hne]
  refine h.congr rfl (hsame 0).1 (hsame 0).2 ?_
  intro r hr hin
  rw [(hsame r).2] at hin
  exact ⟨hr, hin⟩

theorem Main.wake (h : Main s) (hp : s.Alive p) : Main (s.wake p) := by
  rcases eq_or_ne p 0 with rfl | hne
  · rcases h.at_line with ⟨hc, -⟩ | ⟨hc, n, hn, hpath⟩
    · simpa [State.wake, hc] using h
    · simp only [State.wake, hc]
      constructor
      · intro q hq hin
        rcases eq_or_ne q 0 with rfl | hq0
        · rfl
        · rw [State.advance_of_ne hq0] at hin
          exact h.only q hq hin
      · simp [State.advance_self, hn, hpath, mainPath, List.replicate_succ]
  · simp only [State.wake]
    split
    · exact h.advance hne rfl
    · next hc =>
      have hin : (s.proc p).control.InMain := by simp [hc, Control.InMain]
      exact absurd (h.only p hp.1 hin) hne
    · exact h.advance hne rfl
    · exact h

theorem Main.not_steps (h : Main s) : (s.proc 0).control.Steps = false := by
  rcases h.at_line with ⟨hc, -⟩ | ⟨hc, -⟩ <;> simp [hc, Control.Steps]

theorem Main.runcmd (h : Main s) (hp : s.Alive p) (hne : p ≠ 0) (ok : Bool) (cmd : Cmd Str) :
    Main (s.runcmd p ok cmd) := by
  cases ok with
  | false => rcases cmd with ⟨_ | _⟩ | _ | _ | _ | _ <;> exact h.exit p
  | true =>
    rcases cmd with ⟨_ | _⟩ | _ | _ | _ | _
    · exact h.exit p
    · exact h.advance hne rfl
    · exact h.advance hne rfl
    · exact h.fork hp hne rfl rfl
    · exact h.fork hp hne rfl rfl
    · exact h.fork hp hne rfl rfl

theorem Main.step (h : Main s) (hp : s.Alive p) (hc : (s.proc p).control.Steps) (ok : Bool) :
    Main (next s (.step p ok)) := by
  have hne : p ≠ 0 := by
    rintro rfl
    simp [h.not_steps] at hc
  simp only [next]
  split
  · split
    · exact h.advance hne rfl
    · exact h.exit p
  · exact h.runcmd hp hne ok _
  · split
    · exact h.fork hp hne rfl rfl
    · exact h.exit p
  · exact h

theorem Main.prompt_path (h : Main s) (hc : (s.proc 0).control = .prompt) :
    (s.proc 0).path = mainPath s.lines.length := by
  rcases h.at_line with ⟨-, hpath⟩ | ⟨hjoin, -⟩
  · exact hpath
  · simp [hc] at hjoin

theorem Main.line (h : Main s) (hp : s.Alive 0) (hc : (s.proc 0).control = .prompt) (buf : Str)
    (ok : Bool) : Main (next s (.line buf ok)) := by
  simp only [next]
  split
  · exact h
  · split
    · constructor
      · intro q hq hin
        rcases fork_in_main hp rfl hq hin with ⟨hzero, -⟩ | ⟨-, hlt, hold⟩
        · exact hzero
        · exact h.only q hlt hold
      · right
        simp [State.fork_self hp.1, h.prompt_path hc]
    · exact h.exit 0

/-- The books are kept in each step, and something is lost only where something fails. -/
theorem step_parts {e : Event} (h : Main s) (he : machine.Step s e t) :
    Main t ∧ ∃ lost, Changes s t lost ∧ (¬ Fails s e → lost = 0) := by
  obtain ⟨he, rfl⟩ := he
  cases e with
  | line buf ok =>
    obtain ⟨hp, hc⟩ := he
    refine ⟨h.line hp hc buf ok, 0, ?_, fun _ => rfl⟩
    have hpath := h.prompt_path hc
    simp only [machine, next]
    split
    · exact Changes.of_eq rfl rfl
    · split
      · constructor
        have hfork : (s.fork 0 .first (.parse buf) (.join none)).parts =
            lineLeaves buf (.first :: mainPath s.lines.length) + s.others Process.part 0 := by
          rw [fork_parts hp (by simp) (by simp), hpath]
          simp [Control.pending]
        have hparts : s.parts = s.others Process.part 0 := by
          simp [parts_alive hp, hc, Control.pending, Process.program]
        change State.parts (s.fork 0 .first (.parse buf) (.join none)) + 0 + session s.lines =
          s.parts + session (buf :: s.lines)
        rw [hfork, hparts, session]
        abel
      · apply exit_ends hp
        simp [hc, Control.pending]
  | eof =>
    refine ⟨h.exit 0, 0, exit_ends he.1 ?_, fun _ => rfl⟩
    simp [he.2, Control.pending]
  | step p ok =>
    obtain ⟨lost, hchange, hlost⟩ := step_changes he.1 ok
    refine ⟨h.step he.1 he.2 ok, lost, hchange, ?_⟩
    simpa [Fails] using hlost
  | finish p =>
    refine ⟨h.exit p, 0, exit_ends he.1 ?_, fun _ => rfl⟩
    exact pending_ends he.2
  | kill p =>
    refine ⟨h.exit p, _, exit_changes he, ?_⟩
    intro hends
    apply pending_ends
    simpa [Fails] using hends
  | reap p q =>
    obtain ⟨hp, -, hq, hlife, -⟩ := he
    have hne : p ≠ q := by
      rintro rfl
      simp [hp.2] at hlife
    have hp' : (s.bury q).Alive p := by simpa [State.Alive, State.bury_of_ne hne] using hp
    refine ⟨(h.bury q).wake hp', 0, Changes.of_eq ?_ ?_, fun _ => rfl⟩
    · exact (wake_parts hp').trans (bury_parts hq hlife)
    · exact wake_lines _ p
  | childless p =>
    refine ⟨h.wake he.1, 0, ?_, fun _ => rfl⟩
    exact Changes.of_eq (wake_parts he.1) (wake_lines s p)
  | adopt q => exact ⟨h.bury q, 0, Changes.of_eq (bury_parts he.1 he.2.1) rfl, fun _ => rfl⟩

end ShellJobs
