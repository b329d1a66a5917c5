import OsEngineering.FileCalls

/-! Reference counts of open files and the pages of pipes over any sequence of calls. -/
namespace PipeLifetime

open FaultState FiniteTally KernelParams TransitionSystem FileTable FileReferences FileCalls

variable {pool : List Page} {s : Kernel} {p : ProcNo}

theorem setMemory_run (s : Kernel) (free others : List Page) :
    setMemory free others s = .ok (0, { s with free := free, others := others }) := rfl

theorem sound_trade (k : Sound pool [] s) {free others : List Page} (h : Traded s free others) :
    Sound pool [] { s with free := free, others := others } :=
  ⟨⟨k.counted.refs, k.counted.blank, k.counted.closed⟩, k.pages.trade h⟩

/-- Every call keeps the counts and gives no page of a pipe to anything else. -/
theorem call_wp (k : Sound pool [] s) {h : Option String} {c : Call}
    (he : Enabled ⟨s, h⟩ p c) :
    wp (c.run p) (fun _ t => Sound pool [] t ∧ ∀ q ∈ t.others, q ∈ s.free ++ s.others)
      Impossible s := by
  obtain ⟨-, hlive, he⟩ := he
  have hlive' : (s.procs p).state = .live := hlive
  have hp : Running s p := by
    rw [Running, hlive']
    exact ⟨by rintro ⟨⟩, by rintro ⟨⟩⟩
  have hsub : ∀ {t : Kernel}, t.others = s.others → ∀ q ∈ t.others, q ∈ s.free ++ s.others := by
    intro t ht q hq
    exact List.mem_append_right _ (ht ▸ hq)
  have htrade : ∀ {free others : List Page}, Traded s free others →
      ∀ q ∈ others, q ∈ s.free ++ s.others :=
    fun ht q hq => ht.mem_iff.mp (List.mem_append_right _ hq)
  cases c with
  | «open» ip r w => exact wp_mono (sysOpen_wp k hp ip r w) fun _ t ht => ⟨ht.1, hsub ht.2⟩
  | pipe arg => exact wp_mono (sysPipe_wp k hp arg) fun _ t ht => ⟨ht.1, hsub ht.2.1⟩
  | dup fd => exact wp_mono (sysDup_wp k hp fd) fun _ t ht => ⟨ht.1, hsub ht.2⟩
  | close fd => exact wp_mono (sysClose_wp k fd) fun _ t ht => ⟨ht.1, hsub ht.2⟩
  | fork granted free others =>
    have ht : Traded s free others := he
    refine wp_bind_run (setMemory_run s free others) ?_
    refine wp_mono (fork_wp (sound_trade k ht) granted) fun _ t hk => ⟨hk.1, ?_⟩
    rw [hk.2]
    exact htrade ht
  | exit => exact wp_mono (exit_wp k) fun _ t ht => ⟨ht.1, hsub ht.2⟩
  | wait zombie free others =>
    obtain ⟨hz, ht⟩ : (s.procs zombie).state = .zombie ∧ Traded s free others := he
    refine wp_bind_run (setMemory_run s free others) (wp_bind_run (modify_run ..)
      (wp_pure ⟨sound_setState (sound_trade k ht) fun _ => ?_, htrade ht⟩))
    exact k.counted.closed zombie (Or.inr hz)
  | memory free others =>
    have ht : Traded s free others := he
    exact wp_of_run (setMemory_run s free others) ⟨sound_trade k ht, htrade ht⟩

/-- A descriptor of some process is an end of the pipe in `q`. -/
def Used (s : Kernel) (q : Page) : Prop :=
  ∃ p fd f readable writable, (s.procs p).ofile fd = some f ∧
    (s.files f).type = .pipe q readable writable

theorem used_iff_open (k : Sound pool [] s) (q : Page) : Used s q ↔ PipeOpen s q := by
  constructor
  · rintro ⟨p, fd, f, r, w, -, ht⟩
    exact ⟨w, f, r, ht⟩
  · rintro ⟨w, f, r, ht⟩
    have hne : (s.files f).ref ≠ 0 := by
      intro hz
      rw [k.counted.blank f hz] at ht
      exact absurd ht nofun
    rw [k.counted.refs f] at hne
    have htally : tally (slots s) f ≠ 0 := by
      intro hz
      rw [hz] at hne
      exact hne rfl
    obtain ⟨⟨p, fd⟩, hfd⟩ := exists_of_tally htally
    exact ⟨p, fd, f, r, w, hfd, ht⟩

/-- Between calls. `freed` is about a pipe that was in use before the call `e`. -/
structure Balanced (s : State) : Prop where
  running : s.halted = none
  refs : ∀ f, (s.kernel.files f).ref = tally (slots s.kernel) f
  blank : ∀ f, (s.kernel.files f).ref = 0 → (s.kernel.files f).type = .none
  unused : ∀ p, (s.kernel.procs p).state = .unused → ∀ fd, (s.kernel.procs p).ofile fd = none
  once : s.kernel.free.Nodup
  kept : ∀ q, Used s.kernel q → q ∉ s.kernel.free
  freed : ∀ e t, machine.Step s e t → ∀ q, Used s.kernel q →
    (q ∈ t.kernel.free ↔ ¬ Used t.kernel q)
  failing : ∀ p arg t, (s.kernel.procs p).state = .live → sysPipe p arg s.kernel = .ok (-1, t) →
    t.procs = s.kernel.procs ∧ t.files = s.kernel.files ∧ t.free = s.kernel.free

theorem step_sound {s t : State} {e : Event} (k : Sound pool [] s.kernel)
    (hs : machine.Step s e t) : Sound pool [] t.kernel ∧ t.halted = none ∧
      ∀ q ∈ t.kernel.others, q ∈ s.kernel.free ++ s.kernel.others := by
  obtain ⟨he, rfl⟩ := hs
  have hw := call_wp (h := s.halted) k he
  change Sound pool [] (next s e).kernel ∧ (next s e).halted = none ∧
    ∀ q ∈ (next s e).kernel.others, q ∈ s.kernel.free ++ s.kernel.others
  simp only [next]
  cases hr : e.call.run e.p s.kernel with
  | error msg => exact (wp_error hw hr).elim
  | ok x =>
    obtain ⟨hk, ho⟩ := wp_ok hw hr
    exact ⟨hk, he.1, ho⟩

theorem initial_sound (initproc : ProcNo) (pipes : Page → Pipe) (m : Memory) :
    Sound (m.free ++ m.others) [] (initial initproc pipes m).kernel := by
  have hend : ∀ q, ¬ PipeOpen (initial initproc pipes m).kernel q := by
    rintro q ⟨w, f, r, h⟩
    exact absurd h nofun
  refine ⟨⟨fun f => ?_, fun _ _ => rfl, fun _ _ _ => rfl⟩, ?_⟩
  · simp [initial, slots, tally]
  · refine ⟨?_, fun q hq => absurd hq (hend q), m.nodup, fun q hq => absurd hq (hend q), ?_⟩
    · rintro q w f g ⟨r, h⟩
      exact absurd h nofun
    · exact fun q => (or_iff_left (hend q)).symm

theorem run_sound {initproc : ProcNo} {pipes : Page → Pipe} {m : Memory} {es : List Event}
    {s : State} (r : Reaches initproc pipes m es s) :
    Sound (m.free ++ m.others) [] s.kernel ∧ s.halted = none := by
  refine r.invariant (I := fun s => Sound (m.free ++ m.others) [] s.kernel ∧ s.halted = none) ?_ ?_
  · rintro s rfl
    exact ⟨initial_sound initproc pipes m, rfl⟩
  · rintro s e t ⟨k, -⟩ hs
    obtain ⟨hk, hh, -⟩ := step_sound k hs
    exact ⟨hk, hh⟩

theorem files_balanced {initproc : ProcNo} {pipes : Page → Pipe} {m : Memory} {es : List Event}
    {s : State} (r : Reaches initproc pipes m es s) : Balanced s := by
  obtain ⟨k, hrun⟩ := run_sound r
  constructor
  · exact hrun
  · intro f
    exact (k.counted.refs f).trans (Int.add_zero _)
  · exact k.counted.blank
  · exact fun p hp => k.counted.closed p (Or.inl hp)
  · exact (List.nodup_append.mp k.pages.nodup).1
  · intro q hq hin
    exact k.pages.apart q ((used_iff_open k q).mp hq) (List.mem_append_left _ hin)
  · intro e t hs q hq
    obtain ⟨hk, -, ho⟩ := step_sound k hs
    have hopen := (used_iff_open k q).mp hq
    rw [used_iff_open hk]
    constructor
    · intro hin ho'
      exact hk.pages.apart q ho' (List.mem_append_left _ hin)
    · intro hno
      -- no other user of pages has taken it
      have hpool := (hk.pages.pool q).mp ((k.pages.pool q).mpr (Or.inr hopen))
      rcases hpool with hin | hin
      · rcases List.mem_append.mp hin with hin | hin
        · exact hin
        · exact absurd (ho q hin) (k.pages.apart q hopen)
      · exact absurd hin hno
  · intro p arg t hp ht
    have hlive : Running s.kernel p := by
      rw [Running, hp]
      exact ⟨by rintro ⟨⟩, by rintro ⟨⟩⟩
    exact (wp_ok (sysPipe_wp k hlive arg) ht).2.2 rfl

def firstProc : ProcNo := ⟨0, NPROC_pos⟩
def secondProc : ProcNo := ⟨1, one_lt_NPROC⟩

def threePages : Memory := ⟨[7, 8, 9], [], by decide⟩

/-- A pipe shared by fork(); the last of its descriptors goes with exit(). -/
def sharedPipe : List Event :=
  [⟨firstProc, .pipe true⟩, ⟨firstProc, .fork true [8] [9]⟩, ⟨firstProc, .close 0⟩,
   ⟨secondProc, .close 1⟩, ⟨firstProc, .close 1⟩, ⟨secondProc, .exit⟩,
   ⟨firstProc, .wait secondProc [7, 8, 9] []⟩]

theorem files_balanced_shared :
    Balanced (machine.exec (initial firstProc (fun _ => ⟨false, false⟩) threePages) sharedPipe) ∧
      (machine.exec (initial firstProc (fun _ => ⟨false, false⟩) threePages)
        (sharedPipe.take 5)).kernel.free = [8] ∧
      (machine.exec (initial firstProc (fun _ => ⟨false, false⟩) threePages)
        (sharedPipe.take 6)).kernel.free = [7, 8] :=
  ⟨files_balanced (Machine.Valid.run (by decide +kernel)), by decide +kernel, by decide +kernel⟩

end PipeLifetime
