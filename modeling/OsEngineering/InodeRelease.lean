import OsEngineering.BlockOwnership

/-! Concurrent iput() calls on one inode without links. Each call looks at the reference count
in one critical section and gives its own reference back in another. -/
namespace InodeRelease

open ByteBlock FaultState TransitionSystem BlockAllocation BlockSlots BlockOwnership

inductive Phase where
  | waiting
  | tested
  | finished
  deriving DecidableEq, Repr

/-- Process `p` is one of the `n` holders of a reference to the inode. -/
inductive Event (n : ℕ) where
  /-- The section under ip->lock. -/
  | underLock (p : Fin n)
  /-- The decrement under icache.lock. -/
  | decrement (p : Fin n)
  deriving DecidableEq, Repr

structure State (n : ℕ) where
  fs : Fs
  ref : ℤ
  phase : Fin n → Phase
  halted : Option Fault

section Iput

variable (sb : Superblock) (i : ℕ) {n : ℕ}

def next (s : State n) : Event n → State n
  | .underLock p =>
    match iputSection sb i s.ref s.fs with
    | .ok (_, fs) => { s with fs := fs, phase := Function.update s.phase p .tested }
    | .error e => { s with halted := some e }
  | .decrement p =>
    { s with ref := s.ref - 1, phase := Function.update s.phase p .finished }

def Enabled (s : State n) : Event n → Prop
  | .underLock p => s.halted = none ∧ s.phase p = .waiting
  | .decrement p => s.halted = none ∧ s.phase p = .tested

def machine : Machine (State n) (Event n) where
  enabled := Enabled
  next := next sb i

instance (s : State n) (e : Event n) : Decidable ((machine sb i).enabled s e) :=
  match e with
  | .underLock _ => inferInstanceAs (Decidable (_ ∧ _))
  | .decrement _ => inferInstanceAs (Decidable (_ ∧ _))

/-- Type 0 on disk, and the bits of all blocks it had in `before` clear. -/
def Released (before after : Fs) : Prop :=
  (dinode sb after i).type = 0 ∧ ∀ x b, x.inum = i → Ref sb before x b →
    bit (after.disk (b / BPB + sb.bmapstart)) (b % BPB) = false

end Iput

/-- No process has begun, and no one else holds a reference. -/
def start (n : ℕ) (fs : Fs) : State n := ⟨fs, n, fun _ => .waiting, none⟩

def Event.isDecrement {n : ℕ} : Event n → Bool
  | .underLock _ => false
  | .decrement _ => true

def decrements {n : ℕ} (es : List (Event n)) : ℕ := es.countP Event.isDecrement

/-- Some process comes to its section after the decrements of all the others. -/
def LastAlone {n : ℕ} (es : List (Event n)) : Prop :=
  ∃ fs p gs, es = fs ++ .underLock p :: gs ∧ decrements fs + 1 = n

variable {sb : Superblock} {i n : ℕ} {fs₀ : Fs} {ip : Inode}

theorem not_lastAlone_nil : ¬ LastAlone ([] : List (Event n)) := by
  rintro ⟨fs, p, gs, h, -⟩
  simp at h

theorem lastAlone_snoc (es : List (Event n)) (e : Event n) :
    LastAlone (es ++ [e]) ↔
      LastAlone es ∨ (∃ p, e = .underLock p) ∧ decrements es + 1 = n := by
  constructor
  · rintro ⟨fs, p, gs, h, hn⟩
    rcases List.eq_nil_or_concat gs with rfl | ⟨gs, g, rfl⟩
    · obtain ⟨rfl, he⟩ := List.append_inj' h rfl
      cases he
      exact Or.inr ⟨⟨p, rfl⟩, hn⟩
    · rw [List.concat_eq_append, ← List.cons_append, ← List.append_assoc] at h
      obtain ⟨rfl, -⟩ := List.append_inj' h rfl
      exact Or.inl ⟨fs, p, gs, rfl, hn⟩
  · rintro (⟨fs, p, gs, rfl, hn⟩ | ⟨⟨p, rfl⟩, hn⟩)
    · exact ⟨fs, p, gs ++ [e], by simp, hn⟩
    · exact ⟨es, p, [], rfl, hn⟩

theorem freed_released (h : Consistent sb fs₀) {t : Fs} (hf : Freed sb i fs₀ t) :
    Released sb i fs₀ t := by
  refine ⟨hf.type, ?_⟩
  intro x b hx hb
  obtain ⟨hlow, hlt⟩ := h.owned.data x b hb
  by_contra hbit
  rcases (hf.cleared.consistent.owned.bitmap b hlt).mp (by simpa using hbit) with hlo | ⟨y, hy⟩
  · omega
  · by_cases hyi : y.inum = i
    · exact not_ref_of_slot (hf.cleared.gone y hyi) b hy
    · -- a slot of another inode has kept its block, which was `i`'s
      have hold : Ref sb fs₀ y b := by
        rw [Ref, ← hf.cleared.kept y hyi]
        exact hy
      rw [h.owned.unique y x b hold hb] at hyi
      exact hyi hx

/-- What the events so far have done. -/
structure Progress (sb : Superblock) (i : ℕ) (fs₀ : Fs) (es : List (Event n)) (s : State n) :
    Prop where
  running : s.halted = none
  ref : s.ref = n - decrements es
  untouched : ¬ LastAlone es → s.fs = fs₀
  freed : LastAlone es → Released sb i fs₀ s.fs ∧ s.fs.icache i = none

theorem section_untouched {s : State n} (hc : s.fs.icache i = some ip) (hr : s.ref ≠ 1) :
    iputSection sb i s.ref s.fs = .ok ((), s.fs) := by
  rw [iputSection, run_bind (get_run _), hc]
  dsimp only
  rw [if_neg fun h => hr h.2]
  rfl

theorem section_uncached {s : State n} (hc : s.fs.icache i = none) :
    iputSection sb i s.ref s.fs = .ok ((), s.fs) := by
  rw [iputSection, run_bind (get_run _), hc]
  rfl

theorem section_frees (h : Consistent sb fs₀) (hi : i < sb.ninodes)
    (hc : fs₀.icache i = some ip) (hlink : ip.nlink = 0) :
    ∃ t, iputSection sb i 1 fs₀ = .ok ((), t) ∧ Freed sb i fs₀ t := by
  have hfree : wp (free sb i) (fun _ t => Freed sb i fs₀ t) (fun _ => False) fs₀ :=
    free_wp h hi ⟨ip, hc⟩
  have hrun : iputSection sb i 1 fs₀ = free sb i fs₀ := by
    rw [iputSection, run_bind (get_run _), hc]
    dsimp only
    rw [if_pos ⟨hlink, rfl⟩]
  rw [hrun]
  cases hf : free sb i fs₀ with
  | error e => exact (wp_error hfree hf).elim
  | ok p =>
    have := wp_ok hfree hf
    exact ⟨p.2, rfl, this⟩

theorem step_progress (h : Consistent sb fs₀) (hi : i < sb.ninodes)
    (hc : fs₀.icache i = some ip) (hlink : ip.nlink = 0) {es : List (Event n)}
    {s t : State n} {e : Event n} (hp : Progress sb i fs₀ es s)
    (hs : (machine sb i).Step s e t) : Progress sb i fs₀ (es ++ [e]) t := by
  obtain ⟨hen, rfl⟩ := hs
  have hone : s.ref = 1 ↔ decrements es + 1 = n := by
    rw [hp.ref]
    omega
  change Progress sb i fs₀ (es ++ [e]) (next sb i s e)
  cases e with
  | decrement p =>
    have hlast : LastAlone (es ++ [.decrement p]) ↔ LastAlone es := by
      rw [lastAlone_snoc]
      constructor
      · rintro (hl | ⟨⟨q, hq⟩, -⟩)
        · exact hl
        · cases hq
      · exact Or.inl
    refine ⟨hp.running, ?_, ?_, ?_⟩
    · have hcount : decrements (es ++ [.decrement p]) = decrements es + 1 := by
        simp [decrements, Event.isDecrement]
      change s.ref - 1 = _
      rw [hcount, hp.ref]
      omega
    · rw [hlast]
      exact hp.untouched
    · rw [hlast]
      exact hp.freed
  | underLock p =>
    have hcount : decrements (es ++ [.underLock p]) = decrements es := by
      simp [decrements, Event.isDecrement]
    have hlast : LastAlone (es ++ [.underLock p]) ↔ LastAlone es ∨ s.ref = 1 := by
      rw [lastAlone_snoc, hone]
      exact or_congr_right (and_iff_right ⟨p, rfl⟩)
    by_cases hbefore : LastAlone es
    · obtain ⟨hrel, hnone⟩ := hp.freed hbefore
      unfold next
      rw [section_uncached hnone]
      refine ⟨hp.running, ?_, ?_, fun _ => ⟨hrel, hnone⟩⟩
      · rw [hcount]
        exact hp.ref
      · intro hn
        exact absurd (hlast.mpr (Or.inl hbefore)) hn
    · have hfs := hp.untouched hbefore
      by_cases hr : s.ref = 1
      · obtain ⟨u, hu, hfreed⟩ := section_frees h hi hc hlink
        have hsec : iputSection sb i s.ref s.fs = .ok ((), u) := by rw [hr, hfs, hu]
        unfold next
        rw [hsec]
        refine ⟨hp.running, ?_, ?_, fun _ => ⟨freed_released h hfreed, hfreed.uncached⟩⟩
        · rw [hcount]
          exact hp.ref
        · intro hn
          exact absurd (hlast.mpr (Or.inr hr)) hn
      · have hcs : s.fs.icache i = some ip := by rw [hfs, hc]
        unfold next
        rw [section_untouched hcs hr]
        refine ⟨hp.running, ?_, fun _ => hfs, ?_⟩
        · rw [hcount]
          exact hp.ref
        · intro hl
          exact absurd (hlast.mp hl) (not_or.mpr ⟨hbefore, hr⟩)

theorem run_progress (h : Consistent sb fs₀) (hi : i < sb.ninodes)
    (hc : fs₀.icache i = some ip) (hlink : ip.nlink = 0) {es : List (Event n)} {s : State n}
    (r : Run (machine sb i).Step (· = start n fs₀) es s) : Progress sb i fs₀ es s := by
  induction r with
  | nil hs =>
    subst hs
    refine ⟨rfl, ?_, fun _ => rfl, fun hl => absurd hl not_lastAlone_nil⟩
    exact (Int.sub_zero _).symm
  | snoc _ hs ih => exact step_progress h hi hc hlink ih hs

/-- When no reference is left, the inode and its blocks have been released exactly if one
process came to its section alone. -/
theorem released_iff_lastAlone (h : Consistent sb fs₀) (hi : i < sb.ninodes)
    (hc : fs₀.icache i = some ip) (hlink : ip.nlink = 0)
    (htype : (dinode sb fs₀ i).type ≠ 0) {es : List (Event n)} {s : State n}
    (r : Run (machine sb i).Step (· = start n fs₀) es s) :
    s.ref = 0 → (Released sb i fs₀ s.fs ↔ LastAlone es) := by
  intro _
  have hp := run_progress h hi hc hlink r
  constructor
  · rintro ⟨hz, -⟩
    by_contra hl
    rw [hp.untouched hl] at hz
    exact htype hz
  · intro hl
    exact (hp.freed hl).1

/-- Two processes one after the other. -/
def inTurn : List (Event 2) := [.underLock p0, .decrement p0, .underLock p1, .decrement p1]

theorem released_in_turn :
    Released smallDisk 1 smallFs ((machine smallDisk 1).exec (start 2 smallFs) inTurn).fs := by
  have hrun : Run (machine smallDisk 1).Step (· = start 2 smallFs) inTurn
      ((machine smallDisk 1).exec (start 2 smallFs) inTurn) :=
    Machine.Valid.run (by decide +kernel)
  refine (released_iff_lastAlone smallFs_consistent (by decide) rfl rfl (by decide +kernel)
    hrun (by decide +kernel)).mpr ?_
  exact ⟨[.underLock 0, .decrement 0], 1, [.decrement 1], rfl, rfl⟩

/-- Two processes that both look before either gives its reference back. -/
def overlapping : List (Event 2) := [.underLock p0, .underLock p1, .decrement p0, .decrement p1]

theorem overlapping_never_released :
    Consistent smallDisk smallFs ∧ smallFs.icache 1 = some orphan ∧ orphan.nlink = 0 ∧
      ∃ s, Run (machine smallDisk 1).Step (· = start 2 smallFs) overlapping s ∧ s.ref = 0 ∧
        (dinode smallDisk s.fs 1).type ≠ 0 ∧
        bit (s.fs.disk (59 / BPB + smallDisk.bmapstart)) (59 % BPB) = true :=
  ⟨smallFs_consistent, rfl, rfl, _, Machine.Valid.run (by decide +kernel), by decide +kernel,
    by decide +kernel, by decide +kernel⟩

end InodeRelease
