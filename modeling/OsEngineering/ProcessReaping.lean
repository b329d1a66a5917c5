import OsEngineering.ExitWait

/-! The ledger of processes: every birth exits once, is reaped once, and gives its kernel
stack and page directory back when it is reaped. -/
namespace ProcessReaping

open KernelParams TransitionSystem ProcessTable ProcessFamilies ExitWait

/-- A process fork() has completed. -/
def Grown (st : ProcState) : Prop := Live st ∨ st = .zombie

structure Ledger (s : State) : Prop where
  fresh : ∀ i, (s.proc i).state ≠ .unused → (s.proc i).birth < s.births
  distinct : ∀ i j, (s.proc i).state ≠ .unused → (s.proc j).state ≠ .unused →
    (s.proc i).birth = (s.proc j).birth → i = j
  exited_lt : ∀ k ∈ s.exited, k < s.births
  exited_iff : ∀ i, (s.proc i).state ≠ .unused →
    ((s.proc i).birth ∈ s.exited ↔ (s.proc i).state = .zombie)
  reaped_exited : ∀ k ∈ s.reaped, k ∈ s.exited
  reaped_nodup : s.reaped.Nodup
  unreaped : ∀ i, (s.proc i).state ≠ .unused → (s.proc i).birth ∉ s.reaped
  pgdirs : s.freedPgdirs = s.reaped
  stacks_nodup : s.freedStacks.Nodup
  stacks_lt : ∀ k ∈ s.freedStacks, k < s.births
  stack_kept : ∀ i, (s.proc i).state ≠ .unused → (s.proc i).birth ∉ s.freedStacks
  stacks_iff : ∀ k ∈ s.exited, (k ∈ s.freedStacks ↔ k ∈ s.reaped)
  pages : ∀ i, Grown (s.proc i).state →
    (s.proc i).kstack = some (s.proc i).birth ∧ (s.proc i).pgdir = some (s.proc i).birth
  stack_point : ∀ p np f, s.control p = .fork np f → f ≠ .kalloc →
    (s.proc np).kstack = some (s.proc np).birth
  pgdir_point : ∀ p np f, s.control p = .fork np f → f = .setParent ∨ f = .setRunnable →
    (s.proc np).pgdir = some (s.proc np).birth

/-! Steps that neither make, end nor free a process. -/

structure SamePages (x y : Proc) : Prop where
  birth : y.birth = x.birth
  kstack : y.kstack = x.kstack
  pgdir : y.pgdir = x.pgdir
  unused : y.state = .unused ↔ x.state = .unused
  zombie : y.state = .zombie ↔ x.state = .zombie
  grown : Grown y.state → Grown x.state

theorem SamePages.refl (x : Proc) : SamePages x x := ⟨rfl, rfl, rfl, .rfl, .rfl, id⟩

structure Keeps (s t : State) : Prop where
  proc : ∀ i, SamePages (s.proc i) (t.proc i)
  control : ∀ p np f, t.control p = .fork np f → s.control p = .fork np f
  births : t.births = s.births
  exited : t.exited = s.exited
  reaped : t.reaped = s.reaped
  freedStacks : t.freedStacks = s.freedStacks
  freedPgdirs : t.freedPgdirs = s.freedPgdirs

theorem Keeps.refl (s : State) : Keeps s s :=
  ⟨fun _ => .refl _, fun _ _ _ h => h, rfl, rfl, rfl, rfl, rfl⟩

theorem SamePages.trans {x y z : Proc} (h : SamePages x y) (k : SamePages y z) :
    SamePages x z where
  birth := k.birth.trans h.birth
  kstack := k.kstack.trans h.kstack
  pgdir := k.pgdir.trans h.pgdir
  unused := k.unused.trans h.unused
  zombie := k.zombie.trans h.zombie
  grown := h.grown ∘ k.grown

theorem Keeps.trans {s t u : State} (h : Keeps s t) (k : Keeps t u) : Keeps s u where
  proc := fun i => (h.proc i).trans (k.proc i)
  control := fun p np f hp => h.control p np f (k.control p np f hp)
  births := k.births.trans h.births
  exited := k.exited.trans h.exited
  reaped := k.reaped.trans h.reaped
  freedStacks := k.freedStacks.trans h.freedStacks
  freedPgdirs := k.freedPgdirs.trans h.freedPgdirs

theorem Ledger.keep {s t : State} (h : Ledger s) (k : Keeps s t) : Ledger t where
  fresh := by
    intro i hi
    rw [(k.proc i).birth, k.births]
    exact h.fresh i (mt (k.proc i).unused.mpr hi)
  distinct := by
    intro i j hi hj hb
    rw [(k.proc i).birth, (k.proc j).birth] at hb
    exact h.distinct i j (mt (k.proc i).unused.mpr hi) (mt (k.proc j).unused.mpr hj) hb
  exited_lt := by
    rw [k.exited, k.births]
    exact h.exited_lt
  exited_iff := by
    intro i hi
    rw [(k.proc i).birth, k.exited, (k.proc i).zombie]
    exact h.exited_iff i (mt (k.proc i).unused.mpr hi)
  reaped_exited := by
    rw [k.exited, k.reaped]
    exact h.reaped_exited
  reaped_nodup := by
    rw [k.reaped]
    exact h.reaped_nodup
  unreaped := by
    intro i hi
    rw [(k.proc i).birth, k.reaped]
    exact h.unreaped i (mt (k.proc i).unused.mpr hi)
  pgdirs := by
    rw [k.freedPgdirs, k.reaped]
    exact h.pgdirs
  stacks_nodup := by
    rw [k.freedStacks]
    exact h.stacks_nodup
  stacks_lt := by
    rw [k.freedStacks, k.births]
    exact h.stacks_lt
  stack_kept := by
    intro i hi
    rw [(k.proc i).birth, k.freedStacks]
    exact h.stack_kept i (mt (k.proc i).unused.mpr hi)
  stacks_iff := by
    rw [k.exited, k.freedStacks, k.reaped]
    exact h.stacks_iff
  pages := by
    intro i hi
    rw [(k.proc i).kstack, (k.proc i).pgdir, (k.proc i).birth]
    exact h.pages i ((k.proc i).grown hi)
  stack_point := by
    intro p np f hp hf
    rw [(k.proc np).kstack, (k.proc np).birth]
    exact h.stack_point p np f (k.control p np f hp) hf
  pgdir_point := by
    intro p np f hp hf
    rw [(k.proc np).pgdir, (k.proc np).birth]
    exact h.pgdir_point p np f (k.control p np f hp) hf

theorem move_user_keeps (s : State) (p : Slot) : Keeps s (s.move p .user) where
  proc := fun _ => .refl _
  control := by
    intro q np f hq
    by_cases hqp : q = p
    · subst hqp
      rw [move_self] at hq
      exact absurd hq nofun
    · rwa [move_of_ne s _ hqp] at hq
  births := rfl
  exited := rfl
  reaped := rfl
  freedStacks := rfl
  freedPgdirs := rfl

theorem finish_keeps (s : State) (p : Slot) (r : Pid) : Keeps s (s.finish p r) :=
  (move_user_keeps s p).trans ⟨fun _ => .refl _, fun _ _ _ h => h, rfl, rfl, rfl, rfl, rfl⟩

theorem setProc_keeps (s : State) (i : Slot) {x : Proc} (hx : SamePages (s.proc i) x) :
    Keeps s (s.setProc i x) where
  proc := by
    intro j
    by_cases hj : j = i
    · subst hj
      rw [setProc_self]
      exact hx
    · rw [setProc_of_ne s x hj]
      exact .refl _
  control := fun _ _ _ h => h
  births := rfl
  exited := rfl
  reaped := rfl
  freedStacks := rfl
  freedPgdirs := rfl

/-- Between live states the pages stay. -/
theorem samePages_live {x y : Proc} (hx : Live x.state) (hy : Live y.state)
    (hb : y.birth = x.birth) (hk : y.kstack = x.kstack) (hg : y.pgdir = x.pgdir) :
    SamePages x y where
  birth := hb
  kstack := hk
  pgdir := hg
  unused := iff_of_false (fun h => not_live_unused (h ▸ hy)) fun h => not_live_unused (h ▸ hx)
  zombie := iff_of_false (fun h => not_live_zombie (h ▸ hy)) fun h => not_live_zombie (h ▸ hx)
  grown := fun _ => Or.inl hx

theorem wakeup1_keeps (s : State) (chan : Option Chan) : Keeps s (wakeup1 s chan) where
  proc := by
    intro i
    change SamePages (s.proc i) (wake chan (s.proc i))
    unfold wake
    split
    · next h => exact samePages_live (Or.inl h.1) (Or.inr (Or.inl rfl)) rfl rfl rfl
    · exact .refl _
  control := fun _ _ _ h => h
  births := rfl
  exited := rfl
  reaped := rfl
  freedStacks := rfl
  freedPgdirs := rfl

theorem adopt_keeps (p : Slot) (s : State) (i : Slot) : Keeps s (adopt p s i) := by
  have hset : Keeps s (s.setProc i { s.proc i with parent := some initproc }) :=
    setProc_keeps s i ⟨rfl, rfl, rfl, .rfl, .rfl, id⟩
  unfold adopt
  split
  · dsimp only
    split
    · exact hset.trans (wakeup1_keeps _ _)
    · exact hset
  · exact .refl s

theorem adopt_fold_keeps (p : Slot) (l : List Slot) (s : State) :
    Keeps s (l.foldl (adopt p) s) := by
  induction l generalizing s with
  | nil => exact .refl s
  | cons i l ih => exact (adopt_keeps p s i).trans (ih _)

theorem sleep_in_wait_keeps {s : State} {p : Slot} (hp : Live (s.proc p).state) :
    Keeps s ((s.setProc p
      { s.proc p with chan := some (.proc p), state := .sleeping }).move p .wait) where
  proc := (setProc_keeps s p
    (x := { s.proc p with chan := some (.proc p), state := .sleeping })
    (samePages_live hp (Or.inl rfl) rfl rfl rfl)).proc
  control := by
    intro q np f hq
    by_cases hqp : q = p
    · subst hqp
      rw [move_self] at hq
      exact absurd hq nofun
    · rwa [move_of_ne _ _ hqp] at hq
  births := rfl
  exited := rfl
  reaped := rfl
  freedStacks := rfl
  freedPgdirs := rfl

/-! Slots that are given back. -/

theorem Ledger.drop {s : State} (h : Ledger s) {i : Slot} {x : Proc} (hx : x.state = .unused)
    (hn : NotForked s i) : Ledger (s.setProc i x) := by
  have hused : ∀ {j}, ((s.setProc i x).proc j).state ≠ .unused →
      (s.setProc i x).proc j = s.proc j ∧ (s.proc j).state ≠ .unused := by
    intro j hj
    have hji : j ≠ i := by
      rintro rfl
      rw [setProc_self] at hj
      exact hj hx
    rw [setProc_of_ne s x hji] at hj ⊢
    exact ⟨rfl, hj⟩
  have hnp : ∀ {p np f}, s.control p = .fork np f → (s.setProc i x).proc np = s.proc np := by
    intro p np f hp
    rw [setProc_of_ne]
    rintro rfl
    exact hn p f hp
  constructor
  · intro j hj
    obtain ⟨he, hs⟩ := hused hj
    rw [he]
    exact h.fresh j hs
  · intro j k hj hk hb
    obtain ⟨hej, hsj⟩ := hused hj
    obtain ⟨hek, hsk⟩ := hused hk
    rw [hej, hek] at hb
    exact h.distinct j k hsj hsk hb
  · exact h.exited_lt
  · intro j hj
    obtain ⟨he, hs⟩ := hused hj
    rw [he]
    exact h.exited_iff j hs
  · exact h.reaped_exited
  · exact h.reaped_nodup
  · intro j hj
    obtain ⟨he, hs⟩ := hused hj
    rw [he]
    exact h.unreaped j hs
  · exact h.pgdirs
  · exact h.stacks_nodup
  · exact h.stacks_lt
  · intro j hj
    obtain ⟨he, hs⟩ := hused hj
    rw [he]
    exact h.stack_kept j hs
  · exact h.stacks_iff
  · intro j hj
    have hju : ((s.setProc i x).proc j).state ≠ .unused := by
      intro hu
      rw [hu] at hj
      rcases hj with hj | hj
      · exact not_live_unused hj
      · exact absurd hj nofun
    obtain ⟨he, -⟩ := hused hju
    rw [he] at hj ⊢
    exact h.pages j hj
  · intro p np f hp hf
    rw [hnp hp]
    exact h.stack_point p np f hp hf
  · intro p np f hp hf
    rw [hnp hp]
    exact h.pgdir_point p np f hp hf

/-- No slot in use has the birth `b`. -/
def Absent (s : State) (b : ℕ) : Prop := ∀ i, (s.proc i).state ≠ .unused → (s.proc i).birth ≠ b

theorem absent_drop {s : State} (h : Ledger s) {i : Slot} {x : Proc}
    (hi : (s.proc i).state ≠ .unused) (hx : x.state = .unused) :
    Absent (s.setProc i x) (s.proc i).birth := by
  intro j hj hb
  have hji : j ≠ i := by
    rintro rfl
    rw [setProc_self] at hj
    exact hj hx
  rw [setProc_of_ne s x hji] at hj hb
  exact hji (h.distinct j i hj hi hb)

/-- The stack of a fork() that failed is freed. -/
theorem Ledger.free_unborn {s : State} (h : Ledger s) {b : ℕ} (ha : Absent s b)
    (hlt : b < s.births) (hf : b ∉ s.freedStacks) (he : b ∉ s.exited) :
    Ledger { s with freedStacks := s.freedStacks ++ [b] } where
  fresh := h.fresh
  distinct := h.distinct
  exited_lt := h.exited_lt
  exited_iff := h.exited_iff
  reaped_exited := h.reaped_exited
  reaped_nodup := h.reaped_nodup
  unreaped := h.unreaped
  pgdirs := h.pgdirs
  stacks_nodup := by
    rw [List.nodup_append]
    refine ⟨h.stacks_nodup, List.nodup_singleton b, ?_⟩
    intro k hk c hc
    rw [List.mem_singleton] at hc
    rintro rfl
    exact hf (hc ▸ hk)
  stacks_lt := by
    intro k hk
    rcases List.mem_append.mp hk with hk | hk
    · exact h.stacks_lt k hk
    · rw [List.mem_singleton.mp hk]
      exact hlt
  stack_kept := by
    intro i hi hk
    rcases List.mem_append.mp hk with hk | hk
    · exact h.stack_kept i hi hk
    · exact ha i hi (List.mem_singleton.mp hk)
  stacks_iff := by
    intro k hk
    rw [← h.stacks_iff k hk, List.mem_append, List.mem_singleton, or_iff_left]
    rintro rfl
    exact he hk
  pages := h.pages
  stack_point := h.stack_point
  pgdir_point := h.pgdir_point

theorem Ledger.record_reaped {s : State} (h : Ledger s) {b : ℕ} (ha : Absent s b)
    (he : b ∈ s.exited) (hr : b ∉ s.reaped) :
    Ledger { s with
      freedStacks := s.freedStacks ++ [b]
      freedPgdirs := s.freedPgdirs ++ [b]
      reaped := s.reaped ++ [b] } where
  fresh := h.fresh
  distinct := h.distinct
  exited_lt := h.exited_lt
  exited_iff := h.exited_iff
  reaped_exited := by
    intro k hk
    rcases List.mem_append.mp hk with hk | hk
    · exact h.reaped_exited k hk
    · rw [List.mem_singleton.mp hk]
      exact he
  reaped_nodup := by
    rw [List.nodup_append]
    refine ⟨h.reaped_nodup, List.nodup_singleton b, ?_⟩
    intro k hk c hc
    rw [List.mem_singleton] at hc
    rintro rfl
    exact hr (hc ▸ hk)
  unreaped := by
    intro i hi hk
    rcases List.mem_append.mp hk with hk | hk
    · exact h.unreaped i hi hk
    · exact ha i hi (List.mem_singleton.mp hk)
  pgdirs := by rw [h.pgdirs]
  stacks_nodup := by
    rw [List.nodup_append]
    refine ⟨h.stacks_nodup, List.nodup_singleton b, ?_⟩
    intro k hk c hc
    rw [List.mem_singleton] at hc
    rintro rfl
    exact hr ((h.stacks_iff b he).mp (hc ▸ hk))
  stacks_lt := by
    intro k hk
    rcases List.mem_append.mp hk with hk | hk
    · exact h.stacks_lt k hk
    · rw [List.mem_singleton.mp hk]
      exact h.exited_lt b he
  stack_kept := by
    intro i hi hk
    rcases List.mem_append.mp hk with hk | hk
    · exact h.stack_kept i hi hk
    · exact ha i hi (List.mem_singleton.mp hk)
  stacks_iff := by
    intro k hk
    rw [List.mem_append, List.mem_append, h.stacks_iff k hk]
  pages := h.pages
  stack_point := h.stack_point
  pgdir_point := h.pgdir_point

/-! Slots that are taken and filled. -/

/-- allocproc() gives the next birth to an unused slot. -/
theorem Ledger.take {s : State} (h : Ledger s) (k : Family s) {p np : Slot} {x : Proc}
    (hnp : (s.proc np).state = .unused) (hx : x.state = .embryo) (hb : x.birth = s.births) :
    Ledger { (s.setProc np x).move p (.fork np .kalloc) with births := s.births + 1 } := by
  have hother : ∀ {j}, j ≠ np → (s.setProc np x).proc j = s.proc j :=
    fun hj => setProc_of_ne s x hj
  have hself : (s.setProc np x).proc np = x := setProc_self ..
  have hold : ∀ {j}, ((s.setProc np x).proc j).state ≠ .unused →
      j = np ∨ (j ≠ np ∧ (s.proc j).state ≠ .unused) := by
    intro j hj
    by_cases hjn : j = np
    · exact Or.inl hjn
    · rw [hother hjn] at hj
      exact Or.inr ⟨hjn, hj⟩
  have hctl : ∀ q i f, ((s.setProc np x).move p (.fork np .kalloc)).control q = .fork i f →
      f ≠ .kalloc → s.control q = .fork i f ∧ i ≠ np := by
    intro q i f hq hf
    by_cases hqp : q = p
    · subst hqp
      rw [move_self] at hq
      injection hq with _ h2
      exact absurd h2.symm hf
    · rw [move_of_ne _ _ hqp] at hq
      refine ⟨hq, ?_⟩
      rintro rfl
      have he := k.embryo q i f hq
      rw [hnp] at he
      exact absurd he nofun
  have hreaped : ∀ b ∈ s.reaped, b < s.births := fun b hb => h.exited_lt b (h.reaped_exited b hb)
  constructor
  · intro j hj
    rcases hold hj with rfl | ⟨hjn, hj⟩
    · change ((s.setProc j x).proc j).birth < s.births + 1
      rw [hself, hb]
      exact Nat.lt_succ_self _
    · change ((s.setProc np x).proc j).birth < s.births + 1
      rw [hother hjn]
      exact Nat.lt_succ_of_lt (h.fresh j hj)
  · intro i j hi hj hij
    change ((s.setProc np x).proc i).birth = ((s.setProc np x).proc j).birth at hij
    rcases hold hi with rfl | ⟨hin, hiu⟩
    · rcases hold hj with rfl | ⟨hjn, hju⟩
      · rfl
      · rw [hself, hother hjn, hb] at hij
        exact absurd (h.fresh j hju) (hij ▸ lt_irrefl _)
    · rcases hold hj with rfl | ⟨hjn, hju⟩
      · rw [hself, hother hin, hb] at hij
        exact absurd (h.fresh i hiu) (hij ▸ lt_irrefl _)
      · rw [hother hin, hother hjn] at hij
        exact h.distinct i j hiu hju hij
  · exact fun b hb => Nat.lt_succ_of_lt (h.exited_lt b hb)
  · intro j hj
    change ((s.setProc np x).proc j).birth ∈ s.exited ↔ ((s.setProc np x).proc j).state = .zombie
    rcases hold hj with rfl | ⟨hjn, hj⟩
    · rw [hself, hb, hx]
      exact iff_of_false (fun he => lt_irrefl _ (h.exited_lt _ he)) nofun
    · rw [hother hjn]
      exact h.exited_iff j hj
  · exact h.reaped_exited
  · exact h.reaped_nodup
  · intro j hj
    change ((s.setProc np x).proc j).birth ∉ s.reaped
    rcases hold hj with rfl | ⟨hjn, hj⟩
    · rw [hself, hb]
      exact fun he => lt_irrefl _ (hreaped _ he)
    · rw [hother hjn]
      exact h.unreaped j hj
  · exact h.pgdirs
  · exact h.stacks_nodup
  · exact fun b hb => Nat.lt_succ_of_lt (h.stacks_lt b hb)
  · intro j hj
    change ((s.setProc np x).proc j).birth ∉ s.freedStacks
    rcases hold hj with rfl | ⟨hjn, hj⟩
    · rw [hself, hb]
      exact fun he => lt_irrefl _ (h.stacks_lt _ he)
    · rw [hother hjn]
      exact h.stack_kept j hj
  · exact h.stacks_iff
  · intro j hj
    change Grown ((s.setProc np x).proc j).state at hj
    change ((s.setProc np x).proc j).kstack = some ((s.setProc np x).proc j).birth ∧
      ((s.setProc np x).proc j).pgdir = some ((s.setProc np x).proc j).birth
    have hjn : j ≠ np := by
      rintro rfl
      rw [hself, hx] at hj
      rcases hj with hj | hj
      · exact not_live_embryo hj
      · exact absurd hj nofun
    rw [hother hjn] at hj ⊢
    exact h.pages j hj
  · intro q i f hq hf
    obtain ⟨hq, hi⟩ := hctl q i f hq hf
    change ((s.setProc np x).proc i).kstack = some ((s.setProc np x).proc i).birth
    rw [hother hi]
    exact h.stack_point q i f hq hf
  · intro q i f hq hf
    have hne : f ≠ .kalloc := by
      rintro rfl
      rcases hf with hf | hf <;> exact absurd hf nofun
    obtain ⟨hq, hi⟩ := hctl q i f hq hne
    change ((s.setProc np x).proc i).pgdir = some ((s.setProc np x).proc i).birth
    rw [hother hi]
    exact h.pgdir_point q i f hq hf

/-- fork() of `p` fills its slot. -/
theorem Ledger.fill {s : State} (h : Ledger s) {p np : Slot} {f : ForkPoint} {x : Proc}
    (hnp : (s.proc np).state = .embryo) (hx : x.state = .embryo)
    (hb : x.birth = (s.proc np).birth) (honly : ∀ q g, s.control q = .fork np g → q = p)
    (hk : f ≠ .kalloc → x.kstack = some x.birth)
    (hg : f = .setParent ∨ f = .setRunnable → x.pgdir = some x.birth) :
    Ledger ((s.setProc np x).move p (.fork np f)) := by
  have hother : ∀ {j}, j ≠ np → (s.setProc np x).proc j = s.proc j :=
    fun hj => setProc_of_ne s x hj
  have hself : (s.setProc np x).proc np = x := setProc_self ..
  have hsame : ∀ j, ((s.setProc np x).proc j).birth = (s.proc j).birth ∧
      ((s.setProc np x).proc j).state = (s.proc j).state := by
    intro j
    by_cases hj : j = np
    · subst hj
      rw [hself, hx, hnp]
      exact ⟨hb, rfl⟩
    · rw [hother hj]
      exact ⟨rfl, rfl⟩
  have hctl : ∀ q i g, ((s.setProc np x).move p (.fork np f)).control q = .fork i g →
      (i = np ∧ g = f) ∨ (i ≠ np ∧ s.control q = .fork i g) := by
    intro q i g hq
    by_cases hqp : q = p
    · subst hqp
      rw [move_self] at hq
      injection hq with h1 h2
      exact Or.inl ⟨h1.symm, h2.symm⟩
    · rw [move_of_ne _ _ hqp] at hq
      refine Or.inr ⟨?_, hq⟩
      rintro rfl
      exact hqp (honly q g hq)
  constructor
  · intro j hj
    rw [move_proc, (hsame j).2] at hj
    rw [move_proc, (hsame j).1]
    exact h.fresh j hj
  · intro i j hi hj hij
    rw [move_proc, (hsame i).2] at hi
    rw [move_proc, (hsame j).2] at hj
    rw [move_proc, (hsame i).1, (hsame j).1] at hij
    exact h.distinct i j hi hj hij
  · exact h.exited_lt
  · intro j hj
    rw [move_proc, (hsame j).2] at hj
    rw [move_proc, (hsame j).1, (hsame j).2]
    exact h.exited_iff j hj
  · exact h.reaped_exited
  · exact h.reaped_nodup
  · intro j hj
    rw [move_proc, (hsame j).2] at hj
    rw [move_proc, (hsame j).1]
    exact h.unreaped j hj
  · exact h.pgdirs
  · exact h.stacks_nodup
  · exact h.stacks_lt
  · intro j hj
    rw [move_proc, (hsame j).2] at hj
    rw [move_proc, (hsame j).1]
    exact h.stack_kept j hj
  · exact h.stacks_iff
  · intro j hj
    rw [move_proc] at hj ⊢
    have hjn : j ≠ np := by
      rintro rfl
      rw [hself, hx] at hj
      rcases hj with hj | hj
      · exact not_live_embryo hj
      · exact absurd hj nofun
    rw [hother hjn] at hj ⊢
    exact h.pages j hj
  · intro q i g hq hne
    rw [move_proc]
    rcases hctl q i g hq with ⟨rfl, rfl⟩ | ⟨hi, hq⟩
    · rw [hself]
      exact hk hne
    · rw [hother hi]
      exact h.stack_point q i g hq hne
  · intro q i g hq hpt
    rw [move_proc]
    rcases hctl q i g hq with ⟨rfl, rfl⟩ | ⟨hi, hq⟩
    · rw [hself]
      exact hg hpt
    · rw [hother hi]
      exact h.pgdir_point q i g hq hpt

theorem Ledger.grow {s : State} (h : Ledger s) {np : Slot} (hnp : (s.proc np).state = .embryo)
    (hk : (s.proc np).kstack = some (s.proc np).birth)
    (hg : (s.proc np).pgdir = some (s.proc np).birth) : Ledger (s.setState np .runnable) := by
  have hother : ∀ {j}, j ≠ np → (s.setState np .runnable).proc j = s.proc j :=
    fun hj => setProc_of_ne s _ hj
  have hself : (s.setState np .runnable).proc np = { s.proc np with state := .runnable } :=
    setProc_self ..
  have hpages : ∀ j, ((s.setState np .runnable).proc j).birth = (s.proc j).birth ∧
      ((s.setState np .runnable).proc j).kstack = (s.proc j).kstack ∧
      ((s.setState np .runnable).proc j).pgdir = (s.proc j).pgdir := by
    intro j
    by_cases hj : j = np
    · subst hj
      rw [hself]
      exact ⟨rfl, rfl, rfl⟩
    · rw [hother hj]
      exact ⟨rfl, rfl, rfl⟩
  have hused : ∀ {j}, ((s.setState np .runnable).proc j).state ≠ .unused →
      (s.proc j).state ≠ .unused := by
    intro j hj
    by_cases hjn : j = np
    · rw [hjn, hnp]
      nofun
    · rwa [hother hjn] at hj
  constructor
  · intro j hj
    rw [(hpages j).1]
    exact h.fresh j (hused hj)
  · intro i j hi hj hij
    rw [(hpages i).1, (hpages j).1] at hij
    exact h.distinct i j (hused hi) (hused hj) hij
  · exact h.exited_lt
  · intro j hj
    rw [(hpages j).1]
    refine (h.exited_iff j (hused hj)).trans ?_
    by_cases hjn : j = np
    · subst hjn
      rw [hself, hnp]
      exact iff_of_false nofun nofun
    · rw [hother hjn]
  · exact h.reaped_exited
  · exact h.reaped_nodup
  · intro j hj
    rw [(hpages j).1]
    exact h.unreaped j (hused hj)
  · exact h.pgdirs
  · exact h.stacks_nodup
  · exact h.stacks_lt
  · intro j hj
    rw [(hpages j).1]
    exact h.stack_kept j (hused hj)
  · exact h.stacks_iff
  · intro j hj
    rw [(hpages j).1, (hpages j).2.1, (hpages j).2.2]
    by_cases hjn : j = np
    · exact hjn ▸ ⟨hk, hg⟩
    · rw [hother hjn] at hj
      exact h.pages j hj
  · intro q i g hq hne
    rw [(hpages i).1, (hpages i).2.1]
    exact h.stack_point q i g hq hne
  · intro q i g hq hpt
    rw [(hpages i).1, (hpages i).2.2]
    exact h.pgdir_point q i g hq hpt

/-! exit(). -/

theorem Ledger.die {s : State} (h : Ledger s) {p : Slot} (hp : Live (s.proc p).state) :
    Ledger { s.setState p .zombie with exited := s.exited ++ [(s.proc p).birth] } := by
  have hpu : (s.proc p).state ≠ .unused := fun hu => not_live_unused (hu ▸ hp)
  have hother : ∀ {j}, j ≠ p → (s.setState p .zombie).proc j = s.proc j :=
    fun hj => setProc_of_ne s _ hj
  have hself : (s.setState p .zombie).proc p = { s.proc p with state := .zombie } :=
    setProc_self ..
  have hpages : ∀ j, ((s.setState p .zombie).proc j).birth = (s.proc j).birth ∧
      ((s.setState p .zombie).proc j).kstack = (s.proc j).kstack ∧
      ((s.setState p .zombie).proc j).pgdir = (s.proc j).pgdir := by
    intro j
    by_cases hj : j = p
    · subst hj
      rw [hself]
      exact ⟨rfl, rfl, rfl⟩
    · rw [hother hj]
      exact ⟨rfl, rfl, rfl⟩
  have hused : ∀ {j}, ((s.setState p .zombie).proc j).state ≠ .unused →
      (s.proc j).state ≠ .unused := by
    intro j hj
    by_cases hjp : j = p
    · exact hjp ▸ hpu
    · rwa [hother hjp] at hj
  constructor
  · intro j hj
    change ((s.setState p .zombie).proc j).birth < s.births
    rw [(hpages j).1]
    exact h.fresh j (hused hj)
  · intro i j hi hj hij
    change ((s.setState p .zombie).proc i).birth = ((s.setState p .zombie).proc j).birth at hij
    rw [(hpages i).1, (hpages j).1] at hij
    exact h.distinct i j (hused hi) (hused hj) hij
  · intro k hk
    rcases List.mem_append.mp hk with hk | hk
    · exact h.exited_lt k hk
    · rw [List.mem_singleton.mp hk]
      exact h.fresh p hpu
  · intro j hj
    change ((s.setState p .zombie).proc j).birth ∈ s.exited ++ [(s.proc p).birth] ↔
      ((s.setState p .zombie).proc j).state = .zombie
    rw [(hpages j).1, List.mem_append, List.mem_singleton]
    by_cases hjp : j = p
    · subst hjp
      rw [hself]
      exact iff_of_true (Or.inr rfl) rfl
    · rw [hother hjp, h.exited_iff j (hused hj), or_iff_left]
      exact fun hb => hjp (h.distinct j p (hused hj) hpu hb)
  · exact fun k hk => List.mem_append_left _ (h.reaped_exited k hk)
  · exact h.reaped_nodup
  · intro j hj
    change ((s.setState p .zombie).proc j).birth ∉ s.reaped
    rw [(hpages j).1]
    exact h.unreaped j (hused hj)
  · exact h.pgdirs
  · exact h.stacks_nodup
  · exact h.stacks_lt
  · intro j hj
    change ((s.setState p .zombie).proc j).birth ∉ s.freedStacks
    rw [(hpages j).1]
    exact h.stack_kept j (hused hj)
  · intro k hk
    rcases List.mem_append.mp hk with hk | hk
    · exact h.stacks_iff k hk
    · rw [List.mem_singleton.mp hk]
      exact iff_of_false (h.stack_kept p hpu) (h.unreaped p hpu)
  · intro j hj
    change ((s.setState p .zombie).proc j).kstack = some ((s.setState p .zombie).proc j).birth ∧
      ((s.setState p .zombie).proc j).pgdir = some ((s.setState p .zombie).proc j).birth
    rw [(hpages j).1, (hpages j).2.1, (hpages j).2.2]
    by_cases hjp : j = p
    · exact hjp ▸ h.pages p (Or.inl hp)
    · change Grown ((s.setState p .zombie).proc j).state at hj
      rw [hother hjp] at hj
      exact h.pages j hj
  · intro q i g hq hne
    change ((s.setState p .zombie).proc i).kstack = some ((s.setState p .zombie).proc i).birth
    rw [(hpages i).1, (hpages i).2.1]
    exact h.stack_point q i g hq hne
  · intro q i g hq hpt
    change ((s.setState p .zombie).proc i).pgdir = some ((s.setState p .zombie).proc i).birth
    rw [(hpages i).1, (hpages i).2.2]
    exact h.pgdir_point q i g hq hpt

theorem exit_ledger {s : State} (h : Ledger s) (k : Family s) {p : Slot}
    (hp : (s.proc p).state = .running) (hc : s.control p = .user) (hi : p ≠ initproc) :
    Ledger (exit s p) := by
  have hk : Keeps s (abandon (wakeup1 s ((s.proc p).parent.map .proc)) p) :=
    (wakeup1_keeps s _).trans (adopt_fold_keeps p (List.finRange NPROC) _)
  exact (h.keep hk).die (exit_leaving k hp hc hi).1.live

/-! wait(). -/

theorem reap_ledger {s : State} (h : Ledger s) (k : Family s) {i : Slot}
    (hi : (s.proc i).state = .zombie) : Ledger (reap s i) := by
  have hu : (s.proc i).state ≠ .unused := by
    rw [hi]
    nofun
  obtain ⟨hstack, hpgdir⟩ := h.pages i (Or.inr hi)
  have hd := h.drop (i := i) (x := { s.proc i with
    kstack := none, pid := 0, parent := none, killed := false, state := .unused })
    rfl (notForked_of_zombie k hi)
  have hr := hd.record_reaped (absent_drop h hu rfl) ((h.exited_iff i hu).mpr hi) (h.unreaped i hu)
  have he : reap s i = { s.setProc i { s.proc i with
      kstack := none, pid := 0, parent := none, killed := false, state := .unused } with
      freedStacks := s.freedStacks ++ [(s.proc i).birth]
      freedPgdirs := s.freedPgdirs ++ [(s.proc i).birth]
      reaped := s.reaped ++ [(s.proc i).birth] } := by
    simp [reap, freeStack, State.setProc, hstack, hpgdir]
  rw [he]
  exact hr

theorem wait_ledger {s : State} (h : Ledger s) (k : Family s) {p : Slot}
    (hp : Live (s.proc p).state) : Ledger (wait s p) := by
  unfold wait
  split
  · next i hi =>
    have hz : (s.proc i).parent = some p ∧ (s.proc i).state = .zombie := by
      simpa using scan_some hi
    exact (reap_ledger h k hz.2).keep (finish_keeps _ p _)
  · split
    · exact h.keep (finish_keeps s p _)
    · exact h.keep (sleep_in_wait_keeps hp)

/-! fork(). -/

theorem allocproc_ledger {s : State} (h : Ledger s) (k : Family s) (p : Slot) :
    Ledger (allocproc s p) := by
  unfold allocproc
  split
  · exact h.keep (finish_keeps s p _)
  · next np hnp =>
    have hu : (s.proc np).state = .unused := by simpa using scan_some hnp
    refine (h.take k hu (p := p)
      (x := { s.proc np with state := .embryo, pid := s.nextpid, birth := s.births })
      rfl rfl).keep ?_
    exact ⟨fun _ => .refl _, fun _ _ _ hq => hq, rfl, rfl, rfl, rfl, rfl⟩

theorem notForked_move {s : State} (k : Family s) {p np : Slot} {f : ForkPoint}
    (hc : s.control p = .fork np f) : NotForked (s.move p .user) np := by
  intro q g hq
  by_cases hqp : q = p
  · subst hqp
    rw [move_self] at hq
    exact absurd hq nofun
  · rw [move_of_ne _ _ hqp] at hq
    exact hqp (k.forker q p np g f hq hc)

theorem allocKstack_ledger {s : State} (h : Ledger s) (k : Family s) {p np : Slot} (ok : Bool)
    (hc : s.control p = .fork np .kalloc) : Ledger (allocKstack s p np ok) := by
  cases ok with
  | false =>
    have hd := (h.keep (move_user_keeps s p)).drop (i := np)
      (x := { s.proc np with kstack := none, state := .unused }) rfl (notForked_move k hc)
    exact hd.keep ⟨fun _ => .refl _, fun _ _ _ hq => hq, rfl, rfl, rfl, rfl, rfl⟩
  | true =>
    have he := k.embryo p np _ hc
    refine h.fill he he rfl (fun q g hq => k.forker q p np g _ hq hc) (fun _ => rfl) ?_
    rintro (hf | hf) <;> exact absurd hf nofun

theorem copyPgdir_ledger {s : State} (h : Ledger s) (k : Family s) {p np : Slot} (ok : Bool)
    (hc : s.control p = .fork np .copyuvm) : Ledger (copyPgdir s p np ok) := by
  have he := k.embryo p np _ hc
  have hstack := h.stack_point p np _ hc nofun
  cases ok with
  | false =>
    have hu : (s.proc np).state ≠ .unused := by
      rw [he]
      nofun
    have hm := h.keep (move_user_keeps s p)
    have hd := hm.drop (i := np)
      (x := { s.proc np with pgdir := none, kstack := none, state := .unused }) rfl
      (notForked_move k hc)
    have hx : (s.proc np).birth ∉ s.exited := by
      rw [h.exited_iff np hu, he]
      nofun
    have hf := hd.free_unborn (absent_drop hm hu rfl) (h.fresh np hu) (h.stack_kept np hu) hx
    refine hf.keep ⟨fun i => ?_, fun _ _ _ hq => hq, rfl, rfl, rfl, ?_, rfl⟩
    · have hp : (copyPgdir s p np false).proc i = ((s.move p .user).setProc np
          { s.proc np with pgdir := none, kstack := none, state := .unused }).proc i := by
        simp [copyPgdir, freeStack, State.setState, State.setProc, State.finish, State.move]
      rw [hp]
      exact .refl _
    · simp [copyPgdir, freeStack, State.setState, State.setProc, State.finish, State.move, hstack]
  | true =>
    exact h.fill he he rfl (fun q g hq => k.forker q p np g _ hq hc) (fun _ => hstack)
      (fun _ => rfl)

theorem setParent_ledger {s : State} (h : Ledger s) (k : Family s) {p np : Slot}
    (hc : s.control p = .fork np .setParent) : Ledger (setParent s p np) := by
  have he := k.embryo p np _ hc
  have hstack := h.stack_point p np _ hc nofun
  have hpgdir := h.pgdir_point p np _ hc (Or.inl rfl)
  exact h.fill he he rfl (fun q g hq => k.forker q p np g _ hq hc) (fun _ => hstack)
    (fun _ => hpgdir)

theorem setRunnable_ledger {s : State} (h : Ledger s) (k : Family s) {p np : Slot}
    (hc : s.control p = .fork np .setRunnable) : Ledger (setRunnable s p np) :=
  (h.grow (k.embryo p np _ hc) (h.stack_point p np _ hc nofun)
    (h.pgdir_point p np _ hc (Or.inr rfl))).keep (finish_keeps _ p _)

/-! Every step, and every run. -/

theorem hit_keeps (s : State) (i : Slot) : Keeps s (s.setProc i (hit (s.proc i))) := by
  refine setProc_keeps s i ?_
  by_cases hs : (s.proc i).state = .sleeping
  · refine samePages_live (Or.inl hs) ?_ rfl rfl rfl
    exact Or.inr (Or.inl (by simp [hit, hs]))
  · have hst : (hit (s.proc i)).state = (s.proc i).state := by simp [hit, hs]
    refine ⟨rfl, rfl, rfl, ?_, ?_, ?_⟩
    · rw [hst]
    · rw [hst]
    · rw [hst]
      exact id

theorem kill_ledger {s : State} (h : Ledger s) (p : Slot) (pid : Pid) :
    Ledger (kill s p pid) := by
  unfold kill
  dsimp only
  split
  · next i _ =>
    refine (h.keep (hit_keeps s i)).keep ?_
    exact ⟨fun _ => .refl _, (finish_keeps _ p 0).control, rfl, rfl, rfl, rfl, rfl⟩
  · exact h.keep ⟨fun _ => .refl _, (finish_keeps _ p (-1)).control, rfl, rfl, rfl, rfl, rfl⟩

theorem schedule_ledger {s : State} (h : Ledger s) (k : Family s) {p : Slot}
    (hp : (s.proc p).state = .runnable) : Ledger (schedule s p) := by
  have hl : Live (s.proc p).state := Or.inr (Or.inl hp)
  have hk : Family (s.setProc p { s.proc p with state := .running, chan := none }) :=
    k.stir (setProc_stirs s p rfl (Or.inr ⟨hl, running_live rfl, nofun⟩))
  have hs : Ledger (s.setProc p { s.proc p with state := .running, chan := none }) :=
    h.keep (setProc_keeps s p (samePages_live hl (running_live rfl) rfl rfl rfl))
  unfold schedule
  dsimp only
  split
  · refine wait_ledger hs hk ?_
    rw [setProc_self]
    exact running_live rfl
  · exact hs

theorem step_ledger {s t : State} {e : Event} (h : Ledger s) (k : Family s)
    (hs : machine.Step s e t) : Ledger t := by
  obtain ⟨he, rfl⟩ := hs
  cases e with
  | allocproc p => exact allocproc_ledger h k p
  | kalloc p np ok => exact allocKstack_ledger h k ok he.2
  | copyuvm p np ok => exact copyPgdir_ledger h k ok he.2
  | setParent p np => exact setParent_ledger h k he.2
  | setRunnable p np => exact setRunnable_ledger h k he.2
  | exit p => exact exit_ledger h k he.1 he.2.1 he.2.2
  | wait p => exact wait_ledger h k (running_live he.1)
  | kill p pid => exact kill_ledger h p pid
  | schedule p => exact schedule_ledger h k he
  | yield p =>
    exact h.keep (setProc_keeps s p
      (samePages_live (running_live he) (Or.inr (Or.inl rfl)) rfl rfl rfl))
  | sleep p addr =>
    exact h.keep (setProc_keeps s p
      (samePages_live (running_live he.1) (Or.inl rfl) rfl rfl rfl))
  | wakeup addr => exact h.keep (wakeup1_keeps s _)

theorem boot_ledger : Ledger boot where
  fresh := by
    intro i hi
    by_cases h : i = initproc
    · simp [boot, h]
    · simp [boot, h] at hi
  distinct := by
    intro i j hi hj _
    by_cases h : i = initproc
    · by_cases k : j = initproc
      · rw [h, k]
      · simp [boot, k] at hj
    · simp [boot, h] at hi
  exited_lt _ hk := absurd hk List.not_mem_nil
  exited_iff := by
    intro i _
    refine iff_of_false List.not_mem_nil ?_
    simp only [boot]
    split <;> rintro ⟨⟩
  reaped_exited _ hk := absurd hk List.not_mem_nil
  reaped_nodup := List.nodup_nil
  unreaped _ _ := List.not_mem_nil
  pgdirs := rfl
  stacks_nodup := List.nodup_nil
  stacks_lt _ hk := absurd hk List.not_mem_nil
  stack_kept _ _ := List.not_mem_nil
  stacks_iff _ hk := absurd hk List.not_mem_nil
  pages := by
    intro i hi
    by_cases h : i = initproc
    · simp [boot, h]
    · rcases hi with hi | hi
      · simp [boot, h, Live] at hi
      · simp [boot, h] at hi
  stack_point := by rintro p np f ⟨⟩
  pgdir_point := by rintro p np f ⟨⟩

theorem reaches_sound {es : List Event} {s : State} (r : Reaches es s) : Family s ∧ Ledger s := by
  refine r.invariant (I := fun s => Family s ∧ Ledger s) ?_ ?_
  · rintro _ rfl
    exact ⟨boot_family, boot_ledger⟩
  · intro s e t h hs
    exact ⟨step_family h.1 hs, step_ledger h.2 h.1 hs⟩

/-- What holds of exit() and wait() whenever ptable.lock is free. -/
structure ExitWaitProtocol (s : State) : Prop where
  live_parent : ∀ i, Grown (s.proc i).state → i ≠ initproc →
    ∃ q, (s.proc i).parent = some q ∧ (s.proc q).state ≠ .unused ∧ (s.proc q).state ≠ .zombie
  no_lost_exit : ∀ p, AsleepInWait s p → ∀ c, (s.proc c).parent = some p →
    (s.proc c).state ≠ .zombie
  zombie_exited : ∀ i, (s.proc i).state = .zombie → (s.proc i).birth ∈ s.exited
  own_pages : ∀ i, Grown (s.proc i).state →
    (s.proc i).kstack = some (s.proc i).birth ∧ (s.proc i).pgdir = some (s.proc i).birth
  reaped_once : s.reaped.Nodup ∧ ∀ k ∈ s.reaped, k ∈ s.exited
  freed_once : ∀ k ∈ s.exited,
    s.freedStacks.count k = s.reaped.count k ∧ s.freedPgdirs.count k = s.reaped.count k

theorem exit_wait_protocol {es : List Event} {s : State} (r : Reaches es s) :
    ExitWaitProtocol s := by
  obtain ⟨k, h⟩ := reaches_sound r
  constructor
  · intro i hi hne
    obtain ⟨q, hq⟩ := Option.ne_none_iff_exists'.mp (k.has_parent i hi hne)
    have hl := k.parent_live i q hq
    exact ⟨q, hq, fun hu => not_live_unused (hu ▸ hl), fun hz => not_live_zombie (hz ▸ hl)⟩
  · exact k.no_zombie
  · intro i hi
    exact (h.exited_iff i (by rw [hi]; nofun)).mpr hi
  · exact h.pages
  · exact ⟨h.reaped_nodup, h.reaped_exited⟩
  · intro b hb
    refine ⟨?_, by rw [h.pgdirs]⟩
    by_cases hr : b ∈ s.reaped
    · rw [List.count_eq_one_of_mem h.stacks_nodup ((h.stacks_iff b hb).mpr hr),
        List.count_eq_one_of_mem h.reaped_nodup hr]
    · rw [List.count_eq_zero_of_not_mem (mt (h.stacks_iff b hb).mp hr),
        List.count_eq_zero_of_not_mem hr]

/-- init waits for its child, which exits. -/
def waitThenExit : List Event :=
  [.schedule 0, .allocproc 0, .kalloc 0 1 true, .copyuvm 0 1 true, .setParent 0 1,
   .setRunnable 0 1, .wait 0, .schedule 1, .exit 1, .schedule 0]

theorem exit_wait_protocol_child :
    ExitWaitProtocol (machine.exec boot waitThenExit) ∧
      (machine.exec boot waitThenExit).reaped = [1] ∧
      (machine.exec boot waitThenExit).ret 0 = 2 :=
  ⟨exit_wait_protocol (Machine.Valid.run (by decide +kernel)), by decide +kernel,
    by decide +kernel⟩

end ProcessReaping
