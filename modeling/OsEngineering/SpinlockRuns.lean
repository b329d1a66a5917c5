import OsEngineering.Spinlocks
import Mathlib.Data.List.Count

/-! What spin locks and pushcli() promise to code that keeps a discipline of its own: mutual
exclusion, no interrupts while a lock is held, and the interrupt flag as it was after that. -/
namespace SpinlockRuns

open TransitionSystem Spinlocks

variable {κ π L : Type} {ptable l : L} {cpu : Cpu} {a a' : Activation L} {x : Context L}

/-- How often pushcli() has been called without a popcli(). -/
def depth (a : Activation L) : ℕ :=
  a.sections.length + match a.point with
    | .readLocked .acquire _ | .readCpu .acquire _ => 2
    | .cli _ (.holding .acquire _) | .readLocked _ _ | .readCpu _ _ => 1
    | .xchg _ | .setCpu _ | .popcli => 1
    | _ => 0

/-- What the code has to do with the lock that it is about. -/
def Fits (ptable : L) (a : Activation L) : Prop :=
  match a.point with
  | .cli _ (.acquire l) | .cli _ (.holding .acquire l) | .readLocked .acquire l
  | .readCpu .acquire l | .xchg l | .setCpu l => .lock l ∉ a.sections
  | .cli _ (.holding .release l) | .readLocked .release l | .readCpu .release l
  | .clearCpu l | .unlock l => .lock l ∈ a.sections
  | .cli _ (.holding .sched l) | .readLocked .sched l | .readCpu .sched l =>
    l = ptable ∧ a.sections = [.lock ptable]
  | .swtch | .setIntena => a.sections = [.lock ptable]
  | .code | .popcli | .cli _ .code => True

/-- Code that an interrupt has come to. -/
structure Quiet (y : Activation L × Bool) : Prop where
  eflags : y.2 = true
  flag : y.1.flag = true
  sections : y.1.sections = []
  point : y.1.point = .code ∨ y.1.point = .cli true .code ∨ ∃ l, y.1.point = .cli true (.acquire l)

/-- The CPU runs `x`. -/
structure Runs [DecidableEq L] (ptable : L) (cpu : Cpu) (x : Context L) : Prop where
  fits : Fits ptable x.top
  single : ∀ l, x.top.sections.count (.lock l) ≤ 1
  ncli : cpu.ncli = depth x.top
  masked : 0 < depth x.top → cpu.FL_IF = false
  intena : 0 < depth x.top → x.top.point ≠ .setIntena → cpu.intena = x.top.flag
  saved : x.top.point = .setIntena → x.intena = some x.top.flag
  open_ : depth x.top = 0 → cpu.FL_IF = x.top.flag
  eflags : ∀ b f, x.top.point = .cli b f → b = cpu.FL_IF
  below : ∀ y ∈ x.below, Quiet y

/-- A thread that waits in swtch(). -/
structure Parked (ptable : L) (x : Context L) : Prop where
  point : x.top.point = .swtch
  sections : x.top.sections = [.lock ptable]
  saved : ∀ b, x.intena = some b → b = x.top.flag
  below : ∀ y ∈ x.below, Quiet y

/-- From the xchg that sets `locked` to the store that clears it. -/
def Holds (a : Activation L) (l : L) : Prop := .lock l ∈ a.sections ∨ a.point = .setCpu l

/-- The time in which `cpu` is set. -/
def Recorded (a : Activation L) (l : L) : Prop := .lock l ∈ a.sections ∧ a.point ≠ .unlock l

structure Owned (s : State κ π L) (l : L) (owner : Option κ) : Prop where
  locked : (s.locks l).locked = owner.isSome
  holds : ∀ c, Holds (s.top c) l ↔ owner = some c
  cpu : ∀ c, (s.locks l).cpu = some c ↔ Recorded (s.top c) l

structure Inv [DecidableEq L] (ptable : L) (s : State κ π L) : Prop where
  runs : ∀ c, Runs ptable (s.cpus c) (s.contexts (s.running c))
  parked : ∀ t, (∀ c, s.running c ≠ t) → Parked ptable (s.contexts t)
  once : ∀ c c', s.running c = s.running c' → c = c'
  home : ∀ c c', s.running c' = .scheduler c → c' = c
  plain : ∀ c, (s.contexts (.scheduler c)).intena = none
  owned : ∀ l, ∃ owner, Owned s l owner

variable {s t : State κ π L} {c c' : κ} {locks : L → Spinlock κ}

/-- The locks that others read and write are not those of `c`. -/
theorem Owned.sole {owner : Option κ} (h : Owned s l owner) (hc : Holds (s.top c) l)
    (hc' : Holds (s.top c') l) : c = c' :=
  Option.some.inj (((h.holds c).mp hc).symm.trans ((h.holds c').mp hc'))

theorem Recorded.holds (h : Recorded a l) : Holds a l := Or.inl h.1

theorem Inv.locked_of_holds [DecidableEq L] (h : Inv ptable s) (hc : Holds (s.top c) l) :
    (s.locks l).locked = true := by
  obtain ⟨owner, howner⟩ := h.owned l
  rw [howner.locked, (howner.holds c).mp hc]
  rfl

theorem Inv.not_holds [DecidableEq L] (h : Inv ptable s) (hl : (s.locks l).locked = false) (c : κ) :
    ¬ Holds (s.top c) l := by
  intro hc
  rw [h.locked_of_holds hc] at hl
  cases hl

theorem Inv.cpu_iff [DecidableEq L] (h : Inv ptable s) (c : κ) (l : L) :
    (s.locks l).cpu = some c ↔ Recorded (s.top c) l := by
  obtain ⟨owner, howner⟩ := h.owned l
  exact howner.cpu c

section Steps

variable [DecidableEq κ] [DecidableEq π] [DecidableEq L]

/-! A step changes one CPU, the context that runs on it, and one lock at most. -/

/-- `s` with what a step on `c` leaves. -/
def State.after (s : State κ π L) (c : κ) (cpu : Cpu) (x : Context L)
    (locks : L → Spinlock κ) : State κ π L :=
  { (s.setCpu c cpu).setContext c x with locks := locks }

omit [DecidableEq L] in
theorem top_after (hinj : ∀ c c', s.running c = s.running c' → c = c') (c' : κ) :
    (State.after s c cpu x locks).top c' = if c' = c then x.top else s.top c' := by
  simp only [State.after, State.top, State.setContext, State.setCpu]
  by_cases hc : c' = c
  · simp [hc]
  · rw [if_neg hc, Function.update_of_ne fun h => hc (hinj c' c h)]

omit [DecidableEq L] in
/-- A lock on which neither the step nor its code has any effect. -/
theorem Owned.keep {owner : Option κ} (h : Owned s l owner)
    (hinj : ∀ c c', s.running c = s.running c' → c = c') (hl : locks l = s.locks l)
    (hh : Holds x.top l ↔ Holds (s.top c) l) (hr : Recorded x.top l ↔ Recorded (s.top c) l) :
    Owned (State.after s c cpu x locks) l owner := by
  have hlock : (State.after s c cpu x locks).locks l = s.locks l := hl
  refine ⟨hlock ▸ h.locked, ?_, ?_⟩
  · intro c'
    rw [top_after hinj]
    by_cases hc : c' = c
    · simpa [hc, hh] using h.holds c
    · simpa [hc] using h.holds c'
  · intro c'
    rw [top_after hinj, hlock]
    by_cases hc : c' = c
    · simpa [hc, hr] using h.cpu c
    · simpa [hc] using h.cpu c'

theorem Inv.after (h : Inv ptable s) (hruns : Runs ptable cpu x)
    (hi : x.intena = (s.contexts (s.running c)).intena)
    (howned : ∀ l, ∃ owner, Owned (State.after s c cpu x locks) l owner) :
    Inv ptable (State.after s c cpu x locks) where
  runs := by
    intro c'
    by_cases hc : c' = c
    · subst hc
      simpa [State.after, State.setContext, State.setCpu] using hruns
    · have hne : s.running c' ≠ s.running c := fun heq => hc (h.once c' c heq)
      simpa [State.after, State.setContext, State.setCpu, hc, hne] using h.runs c'
  parked := by
    intro t ht
    have hne : t ≠ s.running c := fun heq => ht c heq.symm
    simpa [State.after, State.setContext, State.setCpu, hne] using h.parked t ht
  once := h.once
  home := h.home
  plain := by
    intro c'
    by_cases hc : .scheduler c' = s.running c
    · have hplain := h.plain c'
      rw [hc] at hplain
      simpa [State.after, State.setContext, State.setCpu, hc, hi] using hplain
    · simpa [State.after, State.setContext, State.setCpu, hc] using h.plain c'
  owned := howned

/-- Nothing changes about any lock. -/
theorem Inv.keep (h : Inv ptable s) (hruns : Runs ptable cpu x)
    (hi : x.intena = (s.contexts (s.running c)).intena)
    (hh : ∀ l, Holds x.top l ↔ Holds (s.top c) l)
    (hr : ∀ l, Recorded x.top l ↔ Recorded (s.top c) l) :
    Inv ptable (State.after s c cpu x s.locks) := by
  apply h.after hruns hi
  intro l
  obtain ⟨owner, howner⟩ := h.owned l
  exact ⟨owner, howner.keep h.once rfl (hh l) (hr l)⟩

/-! One instruction -/

/-- Inside of a section, or of the functions that enter and leave them. -/
theorem Runs.inside (hfits : Fits ptable a) (hsingle : ∀ l, a.sections.count (.lock l) ≤ 1)
    (hncli : cpu.ncli = depth a) (hpos : 0 < depth a) (hmask : cpu.FL_IF = false)
    (hintena : cpu.intena = a.flag) (hpoint : a.point ≠ .setIntena)
    (heflags : ∀ b f, a.point = .cli b f → b = false) (hbelow : ∀ y ∈ x.below, Quiet y) :
    Runs ptable cpu { x with top := a } where
  fits := hfits
  single := hsingle
  ncli := hncli
  masked _ := hmask
  intena _ _ := hintena
  saved h := absurd h hpoint
  open_ h := by
    have hdepth : depth a = 0 := h
    omega
  eflags b f h := (heflags b f h).trans hmask.symm
  below := hbelow

/-- popcli() of the last pushcli() that is open, or of another. -/
theorem popcli_run (hn : 0 < cpu.ncli) (hmask : cpu.FL_IF = false) :
    cpu.popcli = .ok ⟨decide (cpu.ncli = 1) && cpu.intena, cpu.ncli - 1, cpu.intena⟩ := by
  have hlow : ¬ cpu.ncli - 1 < 0 := by omega
  have hzero : cpu.ncli - 1 = 0 ↔ cpu.ncli = 1 := by omega
  simp only [Cpu.popcli, hmask, hlow, hzero, Bool.false_eq_true, if_false]

theorem popcli_nested (hn : 1 < cpu.ncli) (hmask : cpu.FL_IF = false) :
    cpu.popcli = .ok ⟨false, cpu.ncli - 1, cpu.intena⟩ := by
  have hone : cpu.ncli ≠ 1 := by omega
  simp [popcli_run (by omega) hmask, hone]

/-- The code is in holding() for `op`, and knows what it returns. -/
structure Holding (ptable : L) (a : Activation L) (op : Caller) (l : L) (r : Bool) : Prop where
  depth : depth a = a.sections.length + (if op = .acquire then 2 else 1)
  found : r = true ↔ .lock l ∈ a.sections
  acquire : op = .acquire → .lock l ∉ a.sections
  release : op = .release → .lock l ∈ a.sections
  sched : op = .sched → l = ptable ∧ a.sections = [.lock ptable]

/-- Where the caller of holding() goes on. -/
def onward (op : Caller) (l : L) : Point L :=
  match op with
  | .acquire => .xchg l
  | .release => .clearCpu l
  | .sched => .swtch

theorem held_run {op : Caller} {r : Bool} (h : Runs ptable cpu x) (ha : Holding ptable x.top op l r) :
    held cpu x.top op l r =
        .ok (⟨false, cpu.ncli - 1, cpu.intena⟩, { x.top with point := onward op l }) ∧
      Runs ptable ⟨false, cpu.ncli - 1, cpu.intena⟩
        { x with top := { x.top with point := onward op l } } := by
  have hdepth := ha.depth
  have hpos : 0 < depth x.top := by
    rw [hdepth]
    split
    · omega
    · omega
  have hpoint : x.top.point ≠ .setIntena := by
    intro hp
    simp only [depth, hp] at hdepth
    split at hdepth
    · omega
    · omega
  have hmask := h.masked hpos
  have hintena := h.intena hpos hpoint
  have hncli := h.ncli
  rw [hdepth] at hncli
  cases op with
  | acquire =>
    have hnot := ha.acquire rfl
    have hr : r = false := by simpa [hnot] using ha.found
    rw [if_pos rfl] at hncli
    have hpop : cpu.popcli = .ok ⟨false, cpu.ncli - 1, cpu.intena⟩ :=
      popcli_nested (by omega) hmask
    refine ⟨by simp [held, hpop, hr, onward, bind, Except.bind, pure, Except.pure], ?_⟩
    refine Runs.inside hnot h.single ?_ (Nat.succ_pos _) rfl hintena ?_ ?_ h.below
    · simp [depth, onward]
      omega
    · simp [onward]
    · simp [onward]
  | release =>
    have hin := ha.release rfl
    have hlen := List.length_pos_of_mem hin
    have hr : r = true := by simpa [hin] using ha.found
    rw [if_neg (by decide)] at hncli
    have hpop : cpu.popcli = .ok ⟨false, cpu.ncli - 1, cpu.intena⟩ :=
      popcli_nested (by omega) hmask
    refine ⟨by simp [held, hpop, hr, onward, bind, Except.bind, pure, Except.pure], ?_⟩
    refine Runs.inside hin h.single ?_ hlen rfl hintena ?_ ?_ h.below
    · simp [depth, onward]
      omega
    · simp [onward]
    · simp [onward]
  | sched =>
    obtain ⟨rfl, hsections⟩ := ha.sched rfl
    have hlen : x.top.sections.length = 1 := by simp [hsections]
    have hr : r = true := by simpa [hsections] using ha.found
    rw [if_neg (by decide)] at hncli
    have hpop : cpu.popcli = .ok ⟨false, cpu.ncli - 1, cpu.intena⟩ :=
      popcli_nested (by omega) hmask
    have hone : cpu.ncli - 1 = 1 := by omega
    refine ⟨by simp [held, hpop, hr, hone, onward, bind, Except.bind, pure, Except.pure], ?_⟩
    refine Runs.inside hsections h.single ?_ (by simp [depth, onward, hsections]) rfl hintena ?_ ?_ h.below
    · simp [depth, onward]
      omega
    · simp [onward]
    · simp [onward]

/-- What an instruction on `c` comes to. -/
def Goes (ptable : L) (s : State κ π L) (c : κ) : Prop :=
  ∃ cpu locks a, instruction c (s.cpus c) s.locks (s.top c) = .ok (cpu, locks, a) ∧
    Inv ptable (State.after s c cpu { s.contexts (s.running c) with top := a } locks)

theorem pushcli_intena {b : Bool} {f : Pusher L} (h : Runs ptable cpu x)
    (hp : x.top.point = .cli b f) : (cpu.pushcli b).intena = x.top.flag := by
  have hb := h.eflags b f hp
  have hncli := h.ncli
  simp only [Cpu.pushcli]
  by_cases hpos : 0 < depth x.top
  · have hne : cpu.ncli ≠ 0 := by omega
    rw [if_neg hne]
    exact h.intena hpos (by simp [hp])
  · have hzero : cpu.ncli = 0 := by omega
    rw [if_pos hzero, hb]
    exact h.open_ (by omega)

theorem goes_cli {b : Bool} {f : Pusher L} (h : Inv ptable s) (hp : (s.top c).point = .cli b f) :
    Goes ptable s c := by
  have hr := h.runs c
  have hintena := pushcli_intena hr hp
  have hfits : Fits ptable (s.top c) := hr.fits
  have hsingle : ∀ l, (s.top c).sections.count (.lock l) ≤ 1 := hr.single
  have hncli : ((s.cpus c).pushcli b).ncli = depth (s.top c) + 1 :=
    congrArg (· + 1) hr.ncli
  cases f with
  | code =>
    refine ⟨_, _, _, by rw [instruction, hp], h.keep ?_ (by rfl) ?_ ?_⟩
    · refine Runs.inside trivial ?_ ?_ (Nat.succ_pos _) rfl hintena ?_ ?_ hr.below
      · simpa using hsingle
      · simp [hncli, depth, hp]
      · simp
      · simp
    · simp [Holds, hp]
    · simp [Recorded, hp]
  | acquire l =>
    refine ⟨_, _, _, by rw [instruction, hp], h.keep ?_ (by rfl) ?_ ?_⟩
    · refine Runs.inside ?_ hsingle ?_ (Nat.succ_pos _) rfl hintena ?_ ?_ hr.below
      · simpa [Fits, hp] using hfits
      · simp [hncli, depth, hp]
      · simp
      · simp [Cpu.pushcli]
    · simp [Holds, hp]
    · simp [Recorded, hp]
  | holding op l =>
    refine ⟨_, _, _, by rw [instruction, hp], h.keep ?_ (by rfl) ?_ ?_⟩
    · refine Runs.inside ?_ hsingle ?_ ?_ rfl hintena ?_ ?_ hr.below
      · cases op <;> simpa [Fits, hp] using hfits
      · rw [hncli]
        cases op <;> simp [depth, hp]
        omega
      · cases op <;> simp [depth]
      · simp
      · simp
    · simp [Holds, hp]
    · simp [Recorded, hp]

theorem goes_held {op : Caller} {r : Bool} (h : Inv ptable s)
    (hp : (s.top c).point = .readLocked op l ∨ (s.top c).point = .readCpu op l)
    (hfound : r = true ↔ .lock l ∈ (s.top c).sections)
    (hrun : instruction c (s.cpus c) s.locks (s.top c) =
      (held (s.cpus c) (s.top c) op l r).map fun x => (x.1, s.locks, x.2)) :
    Goes ptable s c := by
  have hfits : Fits ptable (s.top c) := (h.runs c).fits
  have hholding : Holding ptable (s.top c) op l r := by
    refine ⟨?_, hfound, ?_, ?_, ?_⟩
    · rcases hp with hp | hp <;> cases op <;> simp [depth, hp]
    · rintro rfl
      rcases hp with hp | hp <;> simpa [Fits, hp] using hfits
    · rintro rfl
      rcases hp with hp | hp <;> simpa [Fits, hp] using hfits
    · rintro rfl
      rcases hp with hp | hp <;> simpa [Fits, hp] using hfits
  obtain ⟨hheld, hruns⟩ := held_run (h.runs c) hholding
  have heq : instruction c (s.cpus c) s.locks (s.top c) = .ok (⟨false, (s.cpus c).ncli - 1,
      (s.cpus c).intena⟩, s.locks, { s.top c with point := onward op l }) := by
    rw [hrun]
    exact congrArg (Except.map _) hheld
  refine ⟨_, _, _, heq, h.keep hruns rfl ?_ ?_⟩
  · intro l'
    rcases hp with hp | hp <;> cases op <;> simp [Holds, hp, onward]
  · intro l'
    rcases hp with hp | hp <;> cases op <;> simp [Recorded, hp, onward]

theorem goes_readLocked {op : Caller} (h : Inv ptable s)
    (hp : (s.top c).point = .readLocked op l) : Goes ptable s c := by
  have hr := h.runs c
  have hfits : Fits ptable (s.top c) := hr.fits
  cases hl : (s.locks l).locked with
  | false =>
    have hnot := h.not_holds hl c
    apply goes_held h (r := false) (Or.inl hp)
    · simpa using fun hin => hnot (Or.inl hin)
    · simp [instruction, hp, hl]
  | true =>
    have hpos : 0 < depth (s.top c) := by
      cases op <;> simp [depth, hp]
    refine ⟨_, _, _, by rw [instruction, hp]; exact if_pos hl, h.keep ?_ (by rfl) ?_ ?_⟩
    · have hsame : depth { s.top c with point := .readCpu op l } = depth (s.top c) := by
        cases op <;> simp [depth, hp]
      refine Runs.inside ?_ hr.single ?_ ?_ (hr.masked hpos) (hr.intena hpos ?_) ?_ ?_ hr.below
      · cases op <;> simpa [Fits, hp] using hfits
      · rw [hsame]
        exact hr.ncli
      · rwa [hsame]
      · change (s.top c).point ≠ _
        simp [hp]
      · simp
      · simp
    · simp [Holds, hp]
    · simp [Recorded, hp]

theorem goes_readCpu {op : Caller} (h : Inv ptable s)
    (hp : (s.top c).point = .readCpu op l) : Goes ptable s c := by
  apply goes_held h (r := decide ((s.locks l).cpu = some c)) (Or.inr hp)
  · rw [decide_eq_true_iff, h.cpu_iff]
    simp [Recorded, hp]
  · simp [instruction, hp]

theorem goes_xchg (h : Inv ptable s) (hp : (s.top c).point = .xchg l) : Goes ptable s c := by
  have hr := h.runs c
  have hfits : Fits ptable (s.top c) := hr.fits
  have hpos : 0 < depth (s.top c) := by simp [depth, hp]
  cases hl : (s.locks l).locked with
  | true =>
    have hsame : Function.update s.locks l { s.locks l with locked := true } = s.locks := by
      rw [← hl]
      exact Function.update_eq_self l s.locks
    refine ⟨_, _, _, by rw [instruction, hp], ?_⟩
    rw [hsame, if_pos hl]
    exact h.keep hr rfl (fun _ => Iff.rfl) fun _ => Iff.rfl
  | false =>
    have hnone := h.not_holds hl
    refine ⟨_, _, _, by rw [instruction, hp], ?_⟩
    rw [if_neg (by simp [hl])]
    refine h.after ?_ rfl ?_
    · refine Runs.inside ?_ hr.single ?_ (Nat.succ_pos _) (hr.masked hpos) (hr.intena hpos ?_) ?_ ?_
        hr.below
      · simpa [Fits, hp] using hfits
      · have hncli := hr.ncli
        change _ = ((depth (s.top c) : ℕ) : ℤ) at hncli
        simpa [depth, hp] using hncli
      · change (s.top c).point ≠ _
        simp [hp]
      · simp
      · simp
    · intro l'
      obtain ⟨owner, howner⟩ := h.owned l'
      by_cases hll : l' = l
      · subst hll
        refine ⟨some c, ?_, ?_, ?_⟩
        · simp [State.after]
        · intro c'
          rw [top_after h.once]
          by_cases hc : c' = c
          · simp [hc, Holds]
          · have hne : c ≠ c' := fun heq => hc heq.symm
            simp [hc, hne, hnone c']
        · intro c'
          have hcpu := howner.cpu c'
          have hfree : ¬ Recorded (s.top c') l' := fun hrec => hnone c' hrec.holds
          have hself : ¬ Recorded (s.top c) l' := fun hrec => hnone c hrec.holds
          rw [top_after h.once]
          by_cases hc : c' = c
          · subst hc
            simpa [State.after, Recorded, hp] using hcpu
          · simpa [State.after, hc] using hcpu
      · refine ⟨owner, howner.keep h.once (by simp [hll]) ?_ ?_⟩
        · have hne : l ≠ l' := fun heq => hll heq.symm
          simp [Holds, hp, hne]
        · simp [Recorded, hp]

/-- The holder of `l` stores to it. -/
theorem owned_after {o : Option κ} {v : Spinlock κ} (h : Inv ptable s)
    (hmine : Holds (s.top c) l) (hlocked : v.locked = o.isSome)
    (hholds : Holds x.top l ↔ o = some c) (ho : o = some c ∨ o = none)
    (hcpu : v.cpu = some c ↔ Recorded x.top l) (hother : ∀ c', v.cpu = some c' → c' = c)
    (hrest : ∀ l', l' ≠ l → (Holds x.top l' ↔ Holds (s.top c) l') ∧
      (Recorded x.top l' ↔ Recorded (s.top c) l')) (l' : L) :
    ∃ owner, Owned (State.after s c cpu x (Function.update s.locks l v)) l' owner := by
  obtain ⟨before, hbefore⟩ := h.owned l'
  by_cases hl : l' = l
  · subst hl
    have halone : ∀ c', c' ≠ c → ¬ Holds (s.top c') l' :=
      fun c' hc hheld => hc (hbefore.sole hheld hmine)
    refine ⟨o, ?_, ?_, ?_⟩
    · simpa [State.after] using hlocked
    · intro c'
      rw [top_after h.once]
      by_cases hc : c' = c
      · simpa [hc] using hholds
      · have hno : o ≠ some c' := by
          rcases ho with rfl | rfl
          · simpa using fun heq => hc heq.symm
          · simp
        simpa [hc, hno] using halone c' hc
    · intro c'
      rw [top_after h.once]
      by_cases hc : c' = c
      · simpa [State.after, hc] using hcpu
      · have hno : ¬ Recorded (s.top c') l' := fun hrec => halone c' hc hrec.holds
        simpa [State.after, hc, hno] using fun hv => hc (hother c' hv)
  · exact ⟨before, hbefore.keep h.once (by simp [hl]) (hrest l' hl).1 (hrest l' hl).2⟩

theorem goes_setCpu (h : Inv ptable s) (hp : (s.top c).point = .setCpu l) : Goes ptable s c := by
  have hr := h.runs c
  have hpos : 0 < depth (s.top c) := by simp [depth, hp]
  have hnot : .lock l ∉ (s.top c).sections := by
    have hfits : Fits ptable (s.top c) := hr.fits
    simpa [Fits, hp] using hfits
  have hmine : Holds (s.top c) l := Or.inr hp
  refine ⟨_, _, _, by rw [instruction, hp], ?_⟩
  refine h.after ?_ rfl (owned_after (o := some c) h hmine (h.locked_of_holds hmine) ?_ (Or.inl rfl) ?_
    ?_ ?_)
  · refine Runs.inside trivial ?_ ?_ (Nat.succ_pos _) (hr.masked hpos) (hr.intena hpos ?_) ?_ ?_
      hr.below
    · intro l'
      have hsingle : (s.top c).sections.count (.lock l') ≤ 1 := hr.single l'
      by_cases hl : l' = l
      · subst hl
        simp [List.count_eq_zero_of_not_mem hnot]
      · have hne : l ≠ l' := fun heq => hl heq.symm
        simpa [List.count_cons, hne] using hsingle
    · have hncli := hr.ncli
      change _ = ((depth (s.top c) : ℕ) : ℤ) at hncli
      simpa [depth, hp] using hncli
    · change (s.top c).point ≠ _
      simp [hp]
    · simp
    · simp
  · simp [Holds]
  · simp [Recorded]
  · simp
  · intro l' hl
    have hne : l ≠ l' := fun heq => hl heq.symm
    simp [Holds, Recorded, hp, hl, hne]

theorem goes_clearCpu (h : Inv ptable s) (hp : (s.top c).point = .clearCpu l) :
    Goes ptable s c := by
  have hr := h.runs c
  have hin : .lock l ∈ (s.top c).sections := by
    have hfits : Fits ptable (s.top c) := hr.fits
    simpa [Fits, hp] using hfits
  have hlen := List.length_pos_of_mem hin
  have hpos : 0 < depth (s.top c) := by simpa [depth, hp] using hlen
  have hmine : Holds (s.top c) l := Or.inl hin
  refine ⟨_, _, _, by rw [instruction, hp], ?_⟩
  refine h.after ?_ rfl (owned_after (o := some c) h hmine (h.locked_of_holds hmine) ?_ (Or.inl rfl) ?_
    ?_ ?_)
  · refine Runs.inside hin hr.single ?_ hlen (hr.masked hpos) (hr.intena hpos ?_) ?_ ?_ hr.below
    · have hncli := hr.ncli
      change _ = ((depth (s.top c) : ℕ) : ℤ) at hncli
      simpa [depth, hp] using hncli
    · change (s.top c).point ≠ _
      simp [hp]
    · simp
    · simp
  · simp [Holds, hin]
  · simp [Recorded]
  · simp
  · intro l' hl
    have hne : l ≠ l' := fun heq => hl heq.symm
    simp [Holds, Recorded, hp, hne]

theorem goes_unlock (h : Inv ptable s) (hp : (s.top c).point = .unlock l) : Goes ptable s c := by
  have hr := h.runs c
  have hin : .lock l ∈ (s.top c).sections := by
    have hfits : Fits ptable (s.top c) := hr.fits
    simpa [Fits, hp] using hfits
  have hlen := List.length_pos_of_mem hin
  have hpos : 0 < depth (s.top c) := by simpa [depth, hp] using hlen
  have hsingle : (s.top c).sections.count (.lock l) ≤ 1 := hr.single l
  have hgone : .lock l ∉ (s.top c).sections.erase (.lock l) := by
    apply List.count_eq_zero.mp
    rw [List.count_erase_self]
    omega
  refine ⟨_, _, _, by rw [instruction, hp], ?_⟩
  refine h.after ?_ rfl (owned_after (o := none) h (Or.inl hin) rfl ?_ (Or.inr rfl) ?_ ?_ ?_)
  · refine Runs.inside trivial ?_ ?_ (Nat.succ_pos _) (hr.masked hpos) (hr.intena hpos ?_) ?_ ?_
      hr.below
    · intro l'
      exact (List.Sublist.count_le _ List.erase_sublist).trans (hr.single l')
    · have hncli := hr.ncli
      change _ = ((depth (s.top c) : ℕ) : ℤ) at hncli
      rw [hncli]
      simp [depth, hp, List.length_erase_of_mem hin]
      omega
    · change (s.top c).point ≠ _
      simp [hp]
    · simp
    · simp
  · simp [Holds, hgone]
  · rw [h.cpu_iff]
    simp [Recorded, hp, hgone]
  · intro c' hv
    have hrec := (h.cpu_iff c' l).mp hv
    obtain ⟨owner, howner⟩ := h.owned l
    exact howner.sole hrec.holds (Or.inl hin)
  · intro l' hl
    have hmem : .lock l' ∈ (s.top c).sections.erase (.lock l) ↔ .lock l' ∈ (s.top c).sections :=
      List.mem_erase_of_ne (by simpa using hl)
    have hne : l ≠ l' := fun heq => hl heq.symm
    simp [Holds, Recorded, hp, hmem, hne]

/-- Code that has left the functions of spinlock.c. -/
theorem Runs.left (hr : Runs ptable cpu x) (hsingle : ∀ l, a.sections.count (.lock l) ≤ 1)
    (hpoint : a.point = .code) (hflag : a.flag = x.top.flag) (hpos : 0 < depth x.top)
    (hset : x.top.point ≠ .setIntena) (hlen : a.sections.length + 1 = depth x.top) :
    cpu.popcli = .ok ⟨decide (cpu.ncli = 1) && cpu.intena, cpu.ncli - 1, cpu.intena⟩ ∧
      Runs ptable ⟨decide (cpu.ncli = 1) && cpu.intena, cpu.ncli - 1, cpu.intena⟩
        { x with top := a } := by
  have hncli := hr.ncli
  have hintena := hr.intena hpos hset
  have hdepth : depth a = a.sections.length := by simp [depth, hpoint]
  refine ⟨popcli_run (by omega) (hr.masked hpos), ?_⟩
  constructor
  · simp [Fits, hpoint]
  · exact hsingle
  · change cpu.ncli - 1 = ((depth a : ℕ) : ℤ)
    omega
  · intro hmore
    change 0 < depth a at hmore
    have hne : cpu.ncli ≠ 1 := by omega
    simp [hne]
  · intro _ _
    exact hintena.trans hflag.symm
  · intro hp
    simp [hpoint] at hp
  · intro hzero
    change depth a = 0 at hzero
    have hone : cpu.ncli = 1 := by omega
    simp [hone, hintena, hflag]
  · intro b f hp
    simp [hpoint] at hp
  · exact hr.below

theorem goes_popcli (h : Inv ptable s) (hp : (s.top c).point = .popcli) : Goes ptable s c := by
  have hr := h.runs c
  have hpos : 0 < depth (s.top c) := by simp [depth, hp]
  obtain ⟨hrun, hruns⟩ := hr.left (a := { s.top c with point := .code }) hr.single rfl rfl hpos
    (by change (s.top c).point ≠ _; simp [hp])
    (by change _ = depth (s.top c); simp [depth, hp])
  refine ⟨_, _, _, by rw [instruction, hp]; exact congrArg (Except.map _) hrun,
    h.keep hruns rfl ?_ ?_⟩
  · simp [Holds, hp]
  · simp [Recorded, hp]

theorem goes (h : Inv ptable s) (hcode : (s.top c).point ≠ .code)
    (hswtch : (s.top c).point ≠ .swtch) (hset : (s.top c).point ≠ .setIntena) :
    Goes ptable s c := by
  cases hp : (s.top c).point with
  | code => exact absurd hp hcode
  | cli b f => exact goes_cli h hp
  | readLocked op l => exact goes_readLocked h hp
  | readCpu op l => exact goes_readCpu h hp
  | xchg l => exact goes_xchg h hp
  | setCpu l => exact goes_setCpu h hp
  | clearCpu l => exact goes_clearCpu h hp
  | unlock l => exact goes_unlock h hp
  | popcli => exact goes_popcli h hp
  | swtch => exact absurd hp hswtch
  | setIntena => exact absurd hp hset

/-! Calls from code -/

omit [DecidableEq L] in
theorem goto_eq (s : State κ π L) (c : κ) (p : Point L) : s.goto c p =
    State.after s c (s.cpus c) { s.contexts (s.running c) with top := { s.top c with point := p } }
      s.locks := by
  simp [State.goto, State.setTop, State.setContext, State.after, State.setCpu]

/-- pushcli() reads eflags. -/
theorem Runs.enter (hr : Runs ptable cpu x) (hp : x.top.point = .code) {f : Pusher L}
    (hfits : Fits ptable { x.top with point := .cli cpu.FL_IF f })
    (hdepth : depth { x.top with point := .cli cpu.FL_IF f } = x.top.sections.length) :
    Runs ptable cpu { x with top := { x.top with point := .cli cpu.FL_IF f } } := by
  have hold : depth x.top = x.top.sections.length := by simp [depth, hp]
  constructor
  · exact hfits
  · exact hr.single
  · rw [hdepth, ← hold]
    exact hr.ncli
  · rw [hdepth, ← hold]
    exact hr.masked
  · rw [hdepth, ← hold]
    exact fun hpos _ => hr.intena hpos (by simp [hp])
  · simp
  · rw [hdepth, ← hold]
    exact hr.open_
  · intro b f' heq
    simpa using (Point.cli.inj heq).1.symm
  · exact hr.below

theorem enter_inv (h : Inv ptable s) (hp : (s.top c).point = .code) {f : Pusher L}
    (hfits : Fits ptable { s.top c with point := .cli (s.cpus c).FL_IF f })
    (hdepth : depth { s.top c with point := .cli (s.cpus c).FL_IF f } = (s.top c).sections.length) :
    Inv ptable (s.goto c (.cli (s.cpus c).FL_IF f)) := by
  rw [goto_eq]
  refine h.keep ?_ rfl ?_ ?_
  · exact (h.runs c).enter hp hfits hdepth
  · simp [Holds, hp]
  · simp [Recorded, hp]

theorem popcli_inv (h : Inv ptable s) (hp : (s.top c).point = .code)
    (hin : .cli ∈ (s.top c).sections) : ∃ cpu, (s.cpus c).popcli = .ok cpu ∧
      Inv ptable ((s.setCpu c cpu).setTop c
        { s.top c with sections := (s.top c).sections.erase .cli }) := by
  have hr := h.runs c
  have hlen := List.length_pos_of_mem hin
  have hdepth : depth (s.top c) = (s.top c).sections.length := by simp [depth, hp]
  obtain ⟨hrun, hruns⟩ := hr.left
    (a := { s.top c with sections := (s.top c).sections.erase .cli })
    (fun l => (List.Sublist.count_le _ List.erase_sublist).trans (hr.single l)) hp rfl
    (hdepth ▸ hlen) (by change (s.top c).point ≠ _; simp [hp])
    (by
      change _ = depth (s.top c)
      rw [hdepth]
      simp [List.length_erase_of_mem hin]
      omega)
  refine ⟨_, hrun, ?_⟩
  have hmem : ∀ l, .lock l ∈ (s.top c).sections.erase .cli ↔ .lock l ∈ (s.top c).sections :=
    fun l => List.mem_erase_of_ne (by simp)
  exact h.keep hruns rfl (by simp [Holds, hmem]) (by simp [Recorded, hmem])

theorem sti_inv (h : Inv ptable s) (hp : (s.top c).point = .code)
    (hnil : (s.top c).sections = []) : Inv ptable ((s.setCpu c { s.cpus c with FL_IF := true }).setTop c
      { s.top c with flag := true }) := by
  have hr := h.runs c
  have hdepth : depth (s.top c) = 0 := by simp [depth, hp, hnil]
  have hzero : depth { s.top c with flag := true } = 0 := hdepth
  refine h.keep (x := { s.contexts (s.running c) with top := { s.top c with flag := true } }) ?_ rfl
    (fun _ => Iff.rfl) fun _ => Iff.rfl
  constructor
  · simp [Fits, hp]
  · exact hr.single
  · exact hr.ncli
  · simp [hzero]
  · simp [hzero]
  · simp [hp]
  · simp
  · simp [hp]
  · exact hr.below

/-! Switches -/

/-- swtch() to the thread `t`, which goes on as `z`, from one that waits as `y`. -/
theorem switch_inv (h : Inv ptable s) {t : Thread κ π} {y z : Context L} (hy : Parked ptable y)
    (hz : Runs ptable (s.cpus c) z) (ht : ∀ c, s.running c ≠ t)
    (hhome : ∀ c', t = .scheduler c' → c' = c)
    (hyi : ∀ c', s.running c = .scheduler c' → y.intena = none)
    (hzi : ∀ c', t = .scheduler c' → z.intena = none)
    (hh : ∀ l, Holds z.top l ↔ Holds (s.top c) l)
    (hr : ∀ l, Recorded z.top l ↔ Recorded (s.top c) l) : Inv ptable { s with
      running := Function.update s.running c t
      contexts := Function.update (Function.update s.contexts (s.running c) y) t z } := by
  have hother : ∀ {c'}, c' ≠ c → s.running c' ≠ s.running c := fun hc heq => hc (h.once _ _ heq)
  constructor
  · intro c'
    by_cases hc : c' = c
    · simpa [hc] using hz
    · simpa [hc, ht c', hother hc] using h.runs c'
  · intro u hu
    have hut : u ≠ t := by
      rintro rfl
      exact hu c (by simp)
    by_cases hold : u = s.running c
    · simpa [hold, (ht c)] using hy
    · have hidle : ∀ c', s.running c' ≠ u := by
        intro c' heq
        have hc : c' ≠ c := by
          rintro rfl
          exact hold heq.symm
        exact hu c' (by simpa [hc] using heq)
      simpa [hut, hold] using h.parked u hidle
  · intro c' c'' heq
    by_cases hc' : c' = c
    · by_cases hc'' : c'' = c
      · rw [hc', hc'']
      · simp only [hc', hc'', Function.update_self, ne_eq, not_false_eq_true,
          Function.update_of_ne] at heq
        exact absurd heq.symm (ht c'')
    · by_cases hc'' : c'' = c
      · simp only [hc', hc'', Function.update_self, ne_eq, not_false_eq_true,
          Function.update_of_ne] at heq
        exact absurd heq (ht c')
      · simp only [hc', hc'', ne_eq, not_false_eq_true, Function.update_of_ne] at heq
        exact h.once _ _ heq
  · intro c' c'' heq
    by_cases hc : c'' = c
    · simp only [hc, Function.update_self] at heq
      rw [hc, hhome c' heq]
    · simp only [hc, ne_eq, not_false_eq_true, Function.update_of_ne] at heq
      exact h.home _ _ heq
  · intro c'
    by_cases hnew : .scheduler c' = t
    · simpa [hnew] using hzi c' hnew.symm
    · by_cases hold : .scheduler c' = s.running c
      · simpa [hold, ht c] using hyi c' hold.symm
      · simpa [hnew, hold] using h.plain c'
  · intro l
    obtain ⟨o, ho⟩ := h.owned l
    refine ⟨o, ho.locked, ?_, ?_⟩
    · intro c'
      by_cases hc : c' = c
      · simpa [State.top, hc] using (hh l).trans (ho.holds c)
      · simpa [State.top, hc, ht c', hother hc] using ho.holds c'
    · intro c'
      by_cases hc : c' = c
      · simpa [State.top, hc] using (ho.cpu c).trans (hr l).symm
      · simpa [State.top, hc, ht c', hother hc] using ho.cpu c'

/-- The thread takes over ptable.lock, and the CPU with it. -/
theorem Parked.runs (h : Parked ptable x) (hncli : cpu.ncli = 1) (hmask : cpu.FL_IF = false) :
    Runs ptable cpu (arrive cpu x) := by
  have hone : ∀ l, [Section.lock ptable].count (.lock l) ≤ 1 := fun l =>
    List.count_le_length
  unfold arrive
  cases hi : x.intena with
  | some b =>
    constructor
    · simpa [Fits] using h.sections
    · simpa [h.sections] using hone
    · simpa [depth, h.sections] using hncli
    · exact fun _ => hmask
    · simp
    · simp [h.saved b hi]
    · simp [depth, h.sections]
    · simp
    · exact h.below
  | none =>
    constructor
    · simp [Fits]
    · simpa [h.sections] using hone
    · simpa [depth, h.sections] using hncli
    · exact fun _ => hmask
    · simp
    · simp
    · simp [depth, h.sections]
    · simp
    · exact h.below

/-- In a section that is that of ptable.lock alone. -/
theorem Runs.alone (hr : Runs ptable cpu x) (hp : x.top.point = .code ∨ x.top.point = .swtch)
    (hsections : x.top.sections = [.lock ptable]) :
    cpu.ncli = 1 ∧ cpu.FL_IF = false ∧ cpu.intena = x.top.flag := by
  have hdepth : depth x.top = 1 := by
    rcases hp with hp | hp <;> simp [depth, hp, hsections]
  have hncli := hr.ncli
  have hpos : 0 < depth x.top := by omega
  refine ⟨by omega, hr.masked hpos, hr.intena hpos ?_⟩
  rcases hp with hp | hp <;> simp [hp]

omit [DecidableEq L] in
theorem arrive_sections (cpu : Cpu) (x : Context L) (l : L) :
    (Holds (arrive cpu x).top l ↔ .lock l ∈ x.top.sections) ∧
      (Recorded (arrive cpu x).top l ↔ .lock l ∈ x.top.sections) := by
  unfold arrive
  cases x.intena with
  | some b => simp [Holds, Recorded]
  | none => simp [Holds, Recorded]

omit [DecidableEq L] in
theorem arrive_intena (cpu : Cpu) (x : Context L) : (arrive cpu x).intena = x.intena := by
  unfold arrive
  cases h : x.intena with
  | some b => rfl
  | none => rfl

theorem toScheduler_inv (h : Inv ptable s) (hp : (s.top c).point = .swtch)
    (hc : s.running c ≠ .scheduler c) : Inv ptable (next ptable s (.toScheduler c)) := by
  have hr := h.runs c
  have hsections : (s.top c).sections = [.lock ptable] := by
    have hfits : Fits ptable (s.top c) := hr.fits
    simpa [Fits, hp] using hfits
  obtain ⟨hncli, hmask, hintena⟩ := hr.alone (Or.inr hp) hsections
  have hidle : ∀ c', s.running c' ≠ .scheduler c := by
    intro c' heq
    have hcc := h.home c c' heq
    exact hc (hcc ▸ heq)
  have hpark := h.parked (.scheduler c) hidle
  have hnew := switch_inv h (c := c) (t := .scheduler c)
    (y := { s.contexts (s.running c) with intena := some (s.cpus c).intena })
    (z := arrive (s.cpus c) (s.contexts (.scheduler c))) ?_ (hpark.runs hncli hmask) hidle
    (fun c' heq => (Thread.scheduler.inj heq).symm) ?_ ?_ ?_ ?_
  · have hne : Thread.scheduler c ≠ s.running c := fun heq => hc heq.symm
    simpa [next, State.setContext, State.switch, hne] using hnew
  · refine ⟨hp, hsections, ?_, hr.below⟩
    intro b hb
    rw [← Option.some.inj hb]
    exact hintena
  · intro c' heq
    exact absurd (heq.trans (congrArg _ (h.home c' c heq).symm)) hc
  · intro c' heq
    rw [arrive_intena]
    exact h.plain c
  · intro l
    rw [(arrive_sections _ _ l).1, hpark.sections]
    simp [Holds, hp, hsections]
  · intro l
    rw [(arrive_sections _ _ l).2, hpark.sections]
    simp [Recorded, hp, hsections]

theorem toProcess_inv {p : π} (h : Inv ptable s) (hp : (s.top c).point = .code)
    (hc : s.running c = .scheduler c) (hidle : ∀ c', s.running c' ≠ .process p)
    (hsections : (s.top c).sections = [.lock ptable]) :
    Inv ptable (next ptable s (.toProcess c p)) := by
  have hr := h.runs c
  have hnone : (s.contexts (s.running c)).intena = none := by
    rw [hc]
    exact h.plain c
  obtain ⟨hncli, hmask, -⟩ := hr.alone (Or.inl hp) hsections
  have hpark := h.parked (.process p) hidle
  have hnew := switch_inv h (c := c) (t := .process p)
    (y := { s.contexts (s.running c) with top := { s.top c with point := .swtch } })
    (z := arrive (s.cpus c) (s.contexts (.process p))) ?_ (hpark.runs hncli hmask) hidle ?_ ?_ ?_ ?_ ?_
  · have hne : Thread.process p ≠ s.running c := fun heq => hidle c heq.symm
    simpa [next, State.goto, State.setTop, State.setContext, State.switch, hne] using hnew
  · refine ⟨rfl, hsections, ?_, hr.below⟩
    intro b hb
    rw [hnone] at hb
    cases hb
  · rintro c' ⟨⟩
  · exact fun _ _ => hnone
  · rintro c' ⟨⟩
  · intro l
    rw [(arrive_sections _ _ l).1, hpark.sections]
    simp [Holds, hp, hsections]
  · intro l
    rw [(arrive_sections _ _ l).2, hpark.sections]
    simp [Recorded, hp, hsections]

theorem restore_inv (h : Inv ptable s) (hp : (s.top c).point = .setIntena) :
    Inv ptable (next ptable s (.restore c)) := by
  have hr := h.runs c
  have hsaved : (s.contexts (s.running c)).intena = some (s.top c).flag := hr.saved hp
  have hsections : (s.top c).sections = [.lock ptable] := by
    have hfits : Fits ptable (s.top c) := hr.fits
    simpa [Fits, hp] using hfits
  have hdepth : depth (s.top c) = 1 := by simp [depth, hp, hsections]
  have hpos : 0 < depth (s.top c) := by omega
  have hnext : next ptable s (.restore c) =
      (s.setCpu c { s.cpus c with intena := (s.top c).flag }).goto c .code := by
    simp only [next, hsaved]
  rw [hnext]
  refine h.keep (x := { s.contexts (s.running c) with top := { s.top c with point := .code } })
    ?_ rfl ?_ ?_
  · refine Runs.inside trivial hr.single ?_ ?_ (hr.masked hpos) rfl ?_ ?_ hr.below
    · have hncli := hr.ncli
      change _ = ((depth (s.top c) : ℕ) : ℤ) at hncli
      simpa [depth, hsections, hp] using hncli
    · simp [depth, hsections]
    · simp
    · simp
  · simp [Holds, hp]
  · simp [Recorded, hp]

/-! Interrupts -/

/-- An interrupt comes to code outside of sections, or to pushcli() before it has cleared the
flag. -/
theorem Runs.quiet (hr : Runs ptable cpu x) (hif : cpu.FL_IF = true) :
    depth x.top = 0 ∧ Quiet (x.top, cpu.FL_IF) := by
  have hdepth : depth x.top = 0 := by
    by_contra hne
    have hmask := hr.masked (Nat.pos_of_ne_zero hne)
    simp [hif] at hmask
  have hnil : x.top.sections = [] := by
    apply List.eq_nil_of_length_eq_zero
    unfold depth at hdepth
    omega
  have hfits := hr.fits
  have heflags := hr.eflags
  refine ⟨hdepth, hif, (hr.open_ hdepth).symm.trans hif, hnil, ?_⟩
  cases hp : x.top.point with
  | code => exact Or.inl rfl
  | cli b f =>
    have hb := heflags b f hp
    rw [hif] at hb
    cases f with
    | code => simp [hb]
    | acquire l => simp [hb]
    | holding op l => cases op <;> simp [Fits, depth, hp, hnil] at hfits hdepth
  | readLocked op l => cases op <;> simp [depth, hp] at hdepth
  | readCpu op l => cases op <;> simp [depth, hp] at hdepth
  | xchg l => simp [depth, hp] at hdepth
  | setCpu l => simp [depth, hp] at hdepth
  | clearCpu l => simp [Fits, hp, hnil] at hfits
  | unlock l => simp [Fits, hp, hnil] at hfits
  | popcli => simp [depth, hp] at hdepth
  | swtch => simp [Fits, hp, hnil] at hfits
  | setIntena => simp [Fits, hp, hnil] at hfits

omit [DecidableEq L] in
theorem Quiet.no_lock {y : Activation L × Bool} (h : Quiet y) (l : L) :
    ¬ Holds y.1 l ∧ ¬ Recorded y.1 l := by
  rcases h.point with hp | hp | ⟨l', hp⟩ <;> simp [Holds, Recorded, h.sections, hp]

theorem interrupt_inv (h : Inv ptable s) (hif : (s.cpus c).FL_IF = true) :
    Inv ptable (next ptable s (.interrupt c)) := by
  have hr := h.runs c
  obtain ⟨hdepth, hquiet⟩ := hr.quiet hif
  have hncli : (s.cpus c).ncli = 0 := by
    rw [hr.ncli, hdepth]
    rfl
  refine h.keep (x := ⟨⟨.code, [], false⟩, (s.top c, (s.cpus c).FL_IF) ::
    (s.contexts (s.running c)).below, (s.contexts (s.running c)).intena⟩) ?_ rfl ?_ ?_
  · constructor
    · simp [Fits]
    · simp
    · simpa [depth] using hncli
    · simp [depth]
    · simp [depth]
    · simp
    · simp
    · simp
    · intro y hy
      rcases List.mem_cons.mp hy with rfl | hy
      · exact hquiet
      · exact hr.below y hy
  · intro l
    exact iff_of_false (by simp [Holds]) (hquiet.no_lock l).1
  · intro l
    exact iff_of_false (by simp [Recorded]) (hquiet.no_lock l).2

theorem iret_inv (h : Inv ptable s) (hp : (s.top c).point = .code)
    (hnil : (s.top c).sections = []) (hbelow : (s.contexts (s.running c)).below ≠ []) :
    Inv ptable (next ptable s (.iret c)) := by
  have hr := h.runs c
  have hdepth : depth (s.top c) = 0 := by simp [depth, hp, hnil]
  have hncli : (s.cpus c).ncli = 0 := by
    rw [hr.ncli]
    exact congrArg Nat.cast hdepth
  cases hb : (s.contexts (s.running c)).below with
  | nil => exact absurd hb hbelow
  | cons y below =>
    obtain ⟨a, eflags⟩ := y
    have hquiet : Quiet (a, eflags) := hr.below _ (by simp [hb])
    have hsections : a.sections = [] := hquiet.sections
    have hpoint : a.point = .code ∨ a.point = .cli true .code ∨
      ∃ l, a.point = .cli true (.acquire l) := hquiet.point
    have hflags : eflags = true := hquiet.eflags
    have hzero : depth a = 0 := by
      rcases hpoint with hq | hq | ⟨l, hq⟩ <;> simp [depth, hsections, hq]
    have hnext : next ptable s (.iret c) = (s.setCpu c { s.cpus c with FL_IF := eflags }).setContext c
        { s.contexts (s.running c) with top := a, below := below } := by
      simp only [next, hb]
    rw [hnext]
    refine h.keep (x := { s.contexts (s.running c) with top := a, below := below }) ?_ rfl ?_ ?_
    · constructor
      · rcases hpoint with hq | hq | ⟨l, hq⟩ <;> simp [Fits, hsections, hq]
      · simp [hsections]
      · simpa [hzero] using hncli
      · simp [hzero]
      · simp [hzero]
      · rcases hpoint with hq | hq | ⟨l, hq⟩ <;> simp [hq]
      · exact fun _ => hflags.trans hquiet.flag.symm
      · rcases hpoint with hq | hq | ⟨l, hq⟩ <;> simp [hq, hflags]
      · exact fun y hy => hr.below y (by simp [hb, hy])
    · intro l
      exact iff_of_false (hquiet.no_lock l).1 (by simp [Holds, hp, hnil])
    · intro l
      exact iff_of_false (hquiet.no_lock l).2 (by simp [Recorded, hnil])

/-! Runs -/

/-- The discipline of kernel code, about its own sections only: they are left as they were
entered, a lock is not acquired twice, and a switch happens under ptable.lock alone. -/
def Disciplined (ptable : L) (s : State κ π L) : Event κ π L → Prop
  | .popcli c => .cli ∈ (s.top c).sections
  | .acquire c l => .lock l ∉ (s.top c).sections
  | .release c l => .lock l ∈ (s.top c).sections
  | .sti c | .iret c => (s.top c).sections = []
  | .sched c | .toProcess c _ => (s.top c).sections = [.lock ptable]
  | _ => True

theorem step_inv {e : Event κ π L} (h : Inv ptable s) (hn : s.halted = none)
    (hd : Disciplined ptable s e) (he : Enabled s e) :
    Inv ptable (next ptable s e) ∧ (next ptable s e).halted = none := by
  obtain ⟨-, he⟩ := he
  cases e with
  | pushcli c =>
    exact ⟨enter_inv h he (by simp [Fits]) (by simp [depth]), hn⟩
  | popcli c =>
    obtain ⟨cpu, hrun, hinv⟩ := popcli_inv h he hd
    simp only [next, hrun]
    exact ⟨hinv, hn⟩
  | acquire c l =>
    have hout : .lock l ∉ (s.top c).sections := hd
    exact ⟨enter_inv h he (by simpa [Fits] using hout) (by simp [depth]), hn⟩
  | release c l =>
    have hin : .lock l ∈ (s.top c).sections := hd
    exact ⟨enter_inv h he (by simpa [Fits] using hin) (by simp [depth]), hn⟩
  | sti c => exact ⟨sti_inv h he hd, hn⟩
  | instruction c =>
    obtain ⟨hcode, hswtch, hset⟩ := he
    obtain ⟨cpu, locks, a, hrun, hinv⟩ := goes h hcode hswtch hset
    simp only [next, hrun]
    exact ⟨hinv, hn⟩
  | sched c =>
    have honly : (s.top c).sections = [.lock ptable] := hd
    exact ⟨enter_inv h he.1 (by simpa [Fits] using honly) (by simp [depth]), hn⟩
  | toScheduler c => exact ⟨toScheduler_inv h he.1 he.2, hn⟩
  | toProcess c p => exact ⟨toProcess_inv h he.1 he.2.1 he.2.2.2 hd, hn⟩
  | restore c =>
    refine ⟨restore_inv h he, ?_⟩
    simp only [next, (h.runs c).saved he]
    exact hn
  | interrupt c => exact ⟨interrupt_inv h he, hn⟩
  | iret c =>
    refine ⟨iret_inv h he.1 hd he.2, ?_⟩
    cases hb : (s.contexts (s.running c)).below with
    | nil => exact absurd hb he.2
    | cons y below =>
      simp only [next, hb]
      exact hn

omit [DecidableEq κ] [DecidableEq π] in
theorem boot_inv : Inv ptable (boot ptable : State κ π L) where
  runs := by
    intro c
    constructor <;> simp [boot, Fits, depth]
  parked := by
    intro t ht
    cases t with
    | scheduler c => exact absurd rfl (ht c)
    | process p => constructor <;> simp [boot]
  once := fun c c' h => Thread.scheduler.inj h
  home := fun c c' h => Thread.scheduler.inj h
  plain := fun c => rfl
  owned := by
    intro l
    refine ⟨none, rfl, ?_, ?_⟩
    · simp [boot, State.top, Holds]
    · simp [boot, State.top, Recorded]

/-- What holds between any two instructions. -/
structure Sound (s : State κ π L) : Prop where
  calm : s.halted = none
  exclusive : ∀ l c c', .lock l ∈ (s.top c).sections → .lock l ∈ (s.top c').sections → c = c'
  held : ∀ l, (s.locks l).locked = true →
    ∃ c, .lock l ∈ (s.top c).sections ∨ (s.top c).point = .setCpu l
  waits : ∀ l c, (s.top c).point = .xchg l → .lock l ∉ (s.top c).sections
  masked : ∀ c, (s.top c).sections ≠ [] → (s.cpus c).FL_IF = false
  restored : ∀ c, (s.top c).point = .code → (s.top c).sections = [] →
    (s.cpus c).FL_IF = (s.top c).flag
  interrupted : ∀ c, ∀ y ∈ (s.contexts (s.running c)).below, y.1.sections = []

omit [DecidableEq κ] [DecidableEq π] in
theorem Inv.sound (h : Inv ptable s) (hn : s.halted = none) : Sound s where
  calm := hn
  exclusive := by
    intro l c c' hc hc'
    obtain ⟨o, ho⟩ := h.owned l
    exact ho.sole (Or.inl hc) (Or.inl hc')
  held := by
    intro l hl
    obtain ⟨o, ho⟩ := h.owned l
    rw [ho.locked] at hl
    obtain ⟨c, rfl⟩ := Option.isSome_iff_exists.mp hl
    exact ⟨c, (ho.holds c).mpr rfl⟩
  waits := by
    intro l c hp
    have hfits : Fits ptable (s.top c) := (h.runs c).fits
    simpa [Fits, hp] using hfits
  masked := by
    intro c hne
    apply (h.runs c).masked
    have hlen := List.length_pos_iff.mpr hne
    exact Nat.add_pos_left hlen _
  restored := by
    intro c hp hnil
    apply (h.runs c).open_
    change depth (s.top c) = 0
    simp [depth, hp, hnil]
  interrupted := fun c y hy => ((h.runs c).below y hy).sections

/-- Code that leaves its own sections as it entered them excludes all others from them. -/
theorem spinlocks_sound {es : List (Event κ π L)}
    (r : Run (Guarded (machine ptable).Step (Disciplined ptable)) (· = boot ptable) es s) :
    Sound s := by
  have hinv : Inv ptable s ∧ s.halted = none := by
    refine r.invariant (I := fun s => Inv ptable s ∧ s.halted = none) ?_ ?_
    · intro s hs
      rw [hs]
      exact ⟨boot_inv, rfl⟩
    · rintro s e t ⟨h, hn⟩ ⟨hd, he, rfl⟩
      exact step_inv h hn hd he
  exact hinv.1.sound hinv.2

end Steps

instance [DecidableEq L] (s : State κ π L) (e : Event κ π L) : Decidable (Disciplined ptable s e) := by
  cases e <;> unfold Disciplined <;> infer_instance

/-- The process runs on the first CPU, and an interrupt there takes a lock that the second one
waits for. -/
def contended : List (Event (Fin 2) Unit (Fin 2)) :=
  [.sti p0, .acquire p0 p0] ++ List.replicate 5 (.instruction p0) ++
    [.toProcess p0 (), .release p0 p0] ++ List.replicate 6 (.instruction p0) ++
    [.interrupt p0, .acquire p0 p1] ++ List.replicate 5 (.instruction p0) ++
    [.acquire p1 p1] ++ List.replicate 5 (.instruction p1)

def afterContended : State (Fin 2) Unit (Fin 2) := (machine p0).exec (boot p0) contended

theorem spinlocks_sound_contended : Sound afterContended ∧
    .lock p1 ∈ (afterContended.top p0).sections ∧ (afterContended.top p1).point = .xchg p1 := by
  have r : Run (Guarded (machine p0).Step (Disciplined p0)) (· = boot p0) contended
      afterContended :=
    Machine.Valid.guarded_run (by decide +kernel)
  exact ⟨spinlocks_sound r, by decide +kernel, by decide +kernel⟩

end SpinlockRuns
