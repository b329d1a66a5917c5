import OsEngineering.ShellJobWaits

/-! A list command waits for what it has started: nothing after a `;`, and no line after another,
begins before the programs in front of it have ended. -/
namespace ShellJobs

open ShParser TransitionSystem
open ShellCommands (Str)

variable {s t : State} {p q r : ℕ} {x y : Path} {turn : Turn} {k : Control}

structure Jobs (s : State) : Prop where
  places : Places s
  waits : Waits s

namespace Jobs

theorem exit (h : Jobs s) (hp : s.Alive p) : Jobs (s.exit p) :=
  ⟨h.places.exit p, h.waits.exit hp⟩

/-- A step within the command of a process. -/
theorem control (h : Jobs s) (hp : s.Alive p) (h0 : (s.proc p).control ≠ .waits 0)
    (hbegun : (s.proc p).control.begun = []) (howed : (s.proc p).control.owed = 0)
    (hk : k.owed = 0) : Jobs (s.advance p (s.proc p).path k) := by
  constructor
  · apply h.places.control hp
    simp [hbegun]
  · apply h.waits.advance hp _ h0 (Or.inl rfl)
    rw [hk, howed]

theorem fork (h : Jobs s) (hp : s.Alive p) (hturn : turn.Stays = false)
    (hnot : turn ∉ (s.proc p).control.begun)
    (hbegun : ∀ a, a = turn ∨ a ∈ (s.proc p).control.begun → a ∈ k.begun)
    (h0 : (s.proc p).control ≠ .waits 0)
    (hk : k.owed = (s.proc p).control.owed + if turn = .back then 0 else 1)
    (hback : turn = .back → k = .waits 0) {c : Control} (hc : c.owed = 0) :
    Jobs (s.fork p turn c k) :=
  ⟨h.places.fork hp hturn hnot hbegun c, h.waits.fork hp h0 hk hback hc⟩

theorem runcmd (h : Jobs s) (hp : s.Alive p) {cmd : Cmd Str}
    (hc : (s.proc p).control = .runcmd cmd) (ok : Bool) : Jobs (s.runcmd p ok cmd) := by
  have h0 : (s.proc p).control ≠ .waits 0 := by simp [hc]
  have hbegun : (s.proc p).control.begun = [] := by simp [hc, Control.begun]
  have howed : (s.proc p).control.owed = 0 := by simp [hc, Control.owed]
  cases ok with
  | false =>
    rcases cmd with ⟨_ | _⟩ | _ | _ | _ | _ <;> exact h.exit hp
  | true =>
    cases cmd with
    | execcmd argv =>
      cases argv with
      | nil => exact h.exit hp
      | cons arg args => exact h.control hp h0 hbegun howed rfl
    | redircmd cmd file mode fd =>
      refine ⟨h.places.advance hp rfl _, h.waits.advance hp ?_ h0 (Or.inr howed)⟩
      rw [howed]
      rfl
    | listcmd left right =>
      apply h.fork hp rfl <;> simp [hc, Control.begun, Control.owed]
    | pipecmd left right =>
      apply h.fork hp rfl <;> simp [hc, Control.begun, Control.owed]
    | backcmd cmd =>
      apply h.fork hp rfl <;> simp [hc, Control.begun, Control.owed]

theorem step (h : Jobs s) (hp : s.Alive p) (ok : Bool) : Jobs (next s (.step p ok)) := by
  simp only [next]
  split
  · next buf hc =>
    split
    · apply h.control hp <;> simp [hc, Control.begun, Control.owed]
    · exact h.exit hp
  · next cmd hc => exact h.runcmd hp hc ok
  · next right hc =>
    split
    · apply h.fork hp rfl <;> simp [hc, Control.begun, Control.owed]
    · exact h.exit hp
  · exact h

/-- wait() returns `q`. -/
theorem reap (h : Jobs s) (hp : s.Alive p) (hw : (s.proc p).control.Waiting) (hq : q < s.count)
    (hlife : (s.proc q).life = .zombie) (hpar : (s.proc q).parent = some p) :
    Jobs ((s.bury q).wake p) := by
  have hpq : p ≠ q := by
    rintro rfl
    simp [hp.2] at hlife
  have hsame : (s.bury q).proc p = s.proc p := State.bury_of_ne hpq
  have hp' : (s.bury q).Alive p := by simpa [State.Alive, hsame] using hp
  have hplaces := h.places.bury q
  cases hc : (s.proc p).control with
  | join right =>
    cases right with
    | some right =>
      simp only [State.wake, hsame, hc]
      refine ⟨?_, h.waits.reap hp hq hlife hpar (by simp [hc]) (by simp [hc, Control.owed])
        (Or.inr rfl)⟩
      rw [← hsame]
      exact hplaces.advance hp' rfl _
    | none =>
      simp only [State.wake, hsame, hc]
      refine ⟨?_, h.waits.reap hp hq hlife hpar (by simp [hc]) (by simp [hc, Control.owed])
        (Or.inr rfl)⟩
      rw [← hsame]
      exact hplaces.advance hp' rfl _
  | waits n =>
    cases n with
    | zero => simp [hc, Control.Waiting] at hw
    | succ n =>
      simp only [State.wake, hsame, hc]
      refine ⟨?_, h.waits.reap hp hq hlife hpar (by simp [hc]) (by simp [hc, Control.owed])
        (Or.inl rfl)⟩
      rw [← hsame]
      apply hplaces.control hp'
      simp [hsame, hc, Control.begun]
  | _ => simp [hc, Control.Waiting] at hw

theorem waiting_owed {k : Control} (h : k.Waiting) : 0 < k.owed := by
  cases k with
  | join right => exact Nat.one_pos
  | waits n =>
    cases n with
    | zero => simp [Control.Waiting] at h
    | succ n => exact Nat.succ_pos n
  | _ => simp [Control.Waiting] at h

/-- No wait() finds that there are no children. -/
theorem has_child (h : Jobs s) (hp : s.Alive p) (hw : (s.proc p).control.Waiting) :
    ∃ q, s.Unreaped q ∧ (s.proc q).parent = some p :=
  h.waits.exists_child hp (waiting_owed hw)

theorem line (h : Jobs s) (hp : s.Alive 0) (hc : (s.proc 0).control = .prompt) (buf : Str)
    (ok : Bool) : Jobs (next s (.line buf ok)) := by
  simp only [next]
  split
  · exact h
  · split
    · have hf : Jobs (s.fork 0 .first (.parse buf) (.join none)) := by
        apply h.fork hp rfl <;> simp [hc, Control.begun, Control.owed]
      exact ⟨⟨hf.places.path, hf.places.forked, hf.places.once, hf.places.begun⟩,
        ⟨hf.waits.owed, hf.waits.parent, hf.waits.held⟩⟩
    · exact h.exit hp

theorem keep {e : Event} (h : Jobs s) (he : machine.Step s e t) : Jobs t := by
  obtain ⟨he, rfl⟩ := he
  cases e with
  | line buf ok => exact h.line he.1 he.2 buf ok
  | eof => exact h.exit he.1
  | step p ok => exact h.step he.1 ok
  | finish p => exact h.exit he.1
  | reap p q =>
    obtain ⟨hp, hw, hq, hlife, hpar⟩ := he
    exact h.reap hp hw hq hlife hpar
  | childless p =>
    obtain ⟨hp, hw, hnone⟩ := he
    obtain ⟨q, hq, hpar⟩ := h.has_child hp hw
    exact absurd (hnone q hq.1 hpar) hq.2
  | adopt q => exact ⟨h.places.bury q, h.waits.adopt he.2.1 he.2.2⟩
  | kill p => exact h.exit he

theorem boot : Jobs boot := by
  have hzero : ∀ p, p < ShellJobs.boot.count → p = 0 := by simp [ShellJobs.boot]
  refine ⟨⟨?_, ?_, ?_, ?_⟩, ⟨?_, ?_, ?_⟩⟩
  · intro p hp
    exact ⟨[], by simp, by simp [ShellJobs.boot]⟩
  · simp [ShellJobs.boot]
  · intro p q x hp hq
    rw [hzero p hp.1, hzero q hq.1]
  · simp [ShellJobs.boot]
  · intro r hr
    rw [State.jobs, Finset.card_eq_zero.mpr (Finset.filter_eq_empty_iff.mpr _)]
    · rfl
    · simp [State.Job, ShellJobs.boot]
  · simp [ShellJobs.boot]
  · simp [ShellJobs.boot]

theorem of_run {es : List Event} (r : Run machine.Step (· = ShellJobs.boot) es s) : Jobs s :=
  r.invariant (fun _ h => h ▸ boot) fun _ _ _ h hs => h.keep hs

/-! The order. -/

/-- From a child in the foreground up to the list it is in: who has started the list still waits
for it, or somebody on the way has ended early. -/
theorem chain (h : Jobs s) {c π : Path} (hp : s.Unreaped p)
    (hpath : (s.proc p).path = π ++ .first :: c) (hfg : .back ∉ π) :
    (∃ r < s.count, (s.proc r).path = c) ∨
      ∃ r π', s.Early r ∧ (s.proc r).path = π' ++ .first :: c ∧ π' <:+ π ∧ π' ≠ π := by
  induction hn : π.length using Nat.strong_induction_on generalizing p π with
  | _ n ih =>
    obtain ⟨ts, hts, heq⟩ := h.places.path p hp.1
    rw [hpath] at heq
    -- the turns that p has made by itself are all inside of the list
    have hdown : ∃ π₁, π = ts ++ π₁ ∧ (s.proc p).origin = π₁ ++ .first :: c := by
      rcases List.append_eq_append_iff.mp heq with ⟨as, has, hrest⟩ | ⟨bs, hbs, hrest⟩
      · rcases as with _ | ⟨a, as⟩
        · refine ⟨[], by simpa using has.symm, by simpa using hrest.symm⟩
        · obtain ⟨ha, -⟩ := List.cons.inj hrest
          have hstay := hts a (by simp [has])
          rw [← ha] at hstay
          exact absurd hstay (by simp [Turn.Stays])
      · exact ⟨bs, hbs, hrest⟩
    obtain ⟨π₁, rfl, horigin⟩ := hdown
    rcases π₁ with _ | ⟨turn, π₂⟩
    · obtain ⟨r, hr, hx, -⟩ := h.waits.held p .first c hp horigin (by simp)
      exact Or.inl ⟨r, hr, hx⟩
    · have hne : turn ≠ .back := by
        rintro rfl
        simp at hfg
      have hlow : π₂ <:+ ts ++ turn :: π₂ := ⟨ts ++ [turn], by simp⟩
      have hlt : π₂.length < (ts ++ turn :: π₂).length := by
        simp only [List.length_append, List.length_cons]
        omega
      have hproper : ∀ π', π' <:+ π₂ → π' ≠ ts ++ turn :: π₂ := by
        rintro π' hsuf rfl
        have := hsuf.length_le
        omega
      obtain ⟨r, hr, hx, hheld⟩ := h.waits.held p turn (π₂ ++ .first :: c) hp horigin hne
      rcases hheld with ⟨hlive, -⟩ | hearly
      · have hfg' : .back ∉ π₂ := fun hmem => hfg (hlow.subset hmem)
        rw [hn] at hlt
        rcases ih _ hlt ⟨hr, by simp [hlive.2]⟩ hx hfg' rfl with hup | ⟨r', π', he, hx', hsuf, -⟩
        · exact Or.inl hup
        · exact Or.inr ⟨r', π', he, hx', hsuf.trans hlow, hproper π' hsuf⟩
      · exact Or.inr ⟨r, π₂, hearly, hx, hlow, hproper π₂ List.suffix_rfl⟩

/-- Who starts a list has it to itself. -/
theorem not_next (h : Jobs s) {c ρ : Path} (hr : r < s.count) (hc : (s.proc r).path = c)
    (hq : q < s.count) : (s.proc q).path ≠ ρ ++ .next :: c := by
  intro hpath
  have hup : Turn.next :: c <:+ (s.proc q).path := ⟨ρ, hpath.symm⟩
  obtain ⟨a, ha⟩ := h.places.visited hq hup
  rcases h.places.visits_cons ha with horigin | ⟨hlow, -⟩
  · have hforks := (h.places.forked a ha.1 .next c horigin).1
    simp [Turn.Stays] at hforks
  · have hsame : a = r := by
      apply h.places.once a r c hlow
      rw [← hc]
      exact h.places.visits_path hr
    subst hsame
    have hover := ha.2.2
    rw [hc] at hover
    exact cons_not_suffix _ _ hover

end Jobs

/-- In every run, whatever fails and whoever is killed: a wait() always has a child to wait for.
And where a process is still in the foreground of the left of a list, or of a line, no process
has got to the right of it or to the lines after, unless one between them has ended before its
own wait(). -/
theorem list_in_order {es : List Event} {s : State} (r : Run machine.Step (· = boot) es s) :
    (∀ p, s.Alive p → (s.proc p).control.Waiting →
      ∃ q, s.Unreaped q ∧ (s.proc q).parent = some p) ∧
    ∀ p q c π ρ, s.Alive p → (s.proc p).path = π ++ .first :: c → .back ∉ π →
      q < s.count → (s.proc q).path = ρ ++ .next :: c →
      ∃ a π', s.Early a ∧ (s.proc a).path = π' ++ .first :: c ∧ π' <:+ π ∧ π' ≠ π := by
  have h := Jobs.of_run r
  refine ⟨fun p hp hw => h.has_child hp hw, ?_⟩
  intro p q c π ρ hp hpath hfg hq hnext
  rcases h.chain ⟨hp.1, by simp [hp.2]⟩ hpath hfg with ⟨a, ha, hc⟩ | hearly
  · exact absurd hnext (h.not_next ha hc hq)
  · exact hearly

/-- The shell gets "a|b;c", and the process of the pipe is killed while both programs run. -/
def killedPipe : List Event :=
  [.line [97, 124, 98, 59, 99] true, .step 1 true, .step 1 true, .step 2 true, .step 3 true,
    .step 2 true, .step 4 true, .kill 2, .reap 1 2, .step 1 true]

theorem list_in_order_killed :
    (∀ p, (machine.exec boot killedPipe).Alive p →
      ((machine.exec boot killedPipe).proc p).control.Waiting →
        ∃ q, (machine.exec boot killedPipe).Unreaped q ∧
          ((machine.exec boot killedPipe).proc q).parent = some p) ∧
      ∃ a π', (machine.exec boot killedPipe).Early a ∧
        ((machine.exec boot killedPipe).proc a).path = π' ++ [.first, .first] ∧
          π' <:+ [.left] ∧ π' ≠ [.left] := by
  have r : Run machine.Step (· = boot) killedPipe (machine.exec boot killedPipe) :=
    Machine.Valid.run (by decide +kernel)
  refine ⟨(list_in_order r).1, ?_⟩
  exact (list_in_order r).2 3 1 [.first] [.left] [] (by decide +kernel) (by decide +kernel)
    (by decide) (by decide +kernel) (by decide +kernel)

end ShellJobs
