import OsEngineering.TransactionRules
import Mathlib.Algebra.Order.BigOperators.Group.Finset

/-! Whole runs: each operation keeps the counts of the open files and the inodes without holes,
what its process knows stays true, and so does what the others know. -/
namespace TransactionRuns

open InodeHoles KernelParams FiniteTally OperationTrees TransitionSystem TransactionCode
open TransactionRules

structure Sound (s : Shared) : Prop where
  counts : Counts (fun f => (s.files f).ref) s.held
  free : ∀ f, (s.files f).ref = 0 → (s.files f).type = .none
  holeFree : ∀ ip, HoleFree (s.inode ip)
  outstanding : s.outstanding = ∑ p, s.trans p
  nonneg : ∀ p, 0 ≤ s.trans p
  dead : ∀ p, s.procs p ≠ .live → ∀ x, s.held (p, x) = none

def HandIs (s : Shared) (p : ProcNo) (x : Fin 2) : Hand → Prop
  | .empty => s.held (p, .inr x) = none
  | .fresh => ∃ f, s.held (p, .inr x) = some f ∧ s.files f = ⟨1, .none⟩
  | .old => ∃ f, s.held (p, .inr x) = some f

/-- What the process knows is so. -/
structure Describes (s : Shared) (p : ProcNo) (l : Known) : Prop where
  trans : s.trans p = if l.trans = true then 1 else 0
  alive : l.alive = true → s.procs p = .live
  hand : ∀ x, HandIs s p x (l.hand x)
  fds : ∀ fd b, l.fds fd = some b → (s.held (p, .inl fd)).isSome = b

/-- What an operation of `p` leaves to the others. -/
structure Local (s t : Shared) (p : ProcNo) : Prop where
  trans : ∀ q, q ≠ p → t.trans q = s.trans q
  procs : ∀ q, q ≠ p → s.procs q ≠ .unused → t.procs q = s.procs q
  hand : ∀ q x, q ≠ p → t.held (q, .inr x) = s.held (q, .inr x)
  fds : ∀ q fd, q ≠ p → s.procs q ≠ .unused → t.held (q, .inl fd) = s.held (q, .inl fd)
  files : ∀ f, t.files f = s.files f ∨ (∃ x, s.held (p, x) = some f) ∨ (s.files f).ref = 0

variable {s t : Shared} {p q : ProcNo} {x : Place} {f : FileNo} {l : Known}

/-! What is known stays so. -/

theorem HandIs.frame (k : Sound s) {x : Fin 2} {h : Hand} (hd : HandIs s q x h)
    (hheld : t.held (q, .inr x) = s.held (q, .inr x))
    (hfiles : ∀ f, t.files f = s.files f ∨ (∃ z, z ≠ (q, .inr x) ∧ s.held z = some f) ∨
      (s.files f).ref = 0) : HandIs t q x h := by
  cases h with
  | empty => exact hheld.trans hd
  | old =>
    obtain ⟨f, hf⟩ := hd
    exact ⟨f, hheld.trans hf⟩
  | fresh =>
    obtain ⟨f, hf, hnew⟩ := hd
    refine ⟨f, hheld.trans hf, ?_⟩
    rcases hfiles f with hsame | ⟨z, hz, hheldz⟩ | hzero
    · exact hsame.trans hnew
    · exact absurd (k.counts.sole hf hheldz (by rw [hnew])) hz
    · rw [hnew] at hzero
      cases hzero

/-- An operation of another process. -/
theorem Describes.frame (k : Sound s) (c : Local s t p) (hq : q ≠ p)
    (hu : s.procs q ≠ .unused) (d : Describes s q l) : Describes t q l where
  trans := (c.trans q hq).trans d.trans
  alive h := (c.procs q hq hu).trans (d.alive h)
  hand x := by
    refine (d.hand x).frame k (c.hand q x hq) fun f => ?_
    rcases c.files f with h | ⟨x, h⟩ | h
    · exact Or.inl h
    · exact Or.inr (Or.inl ⟨(p, x), fun heq => hq (congrArg Prod.fst heq).symm, h⟩)
    · exact Or.inr (Or.inr h)
  fds fd b h := by
    rw [c.fds q fd hq hu]
    exact d.fds fd b h

theorem Describes.held (d : Describes s p l) (hx : l.Has x) : ∃ f, s.held (p, x) = some f := by
  cases x with
  | inl fd => exact Option.isSome_iff_exists.mp (d.fds fd true hx)
  | inr x =>
    have hd := d.hand x
    simp only [Known.Has] at hx
    cases hh : l.hand x with
    | empty => exact absurd hh hx
    | old =>
      rw [hh] at hd
      exact hd
    | fresh =>
      rw [hh] at hd
      obtain ⟨f, hf, -⟩ := hd
      exact ⟨f, hf⟩

/-! Open files. -/

theorem ref_update (files : FileNo → File) (f : FileNo) (y : File) :
    (fun g => (Function.update files f y g).ref) =
      Function.update (fun g => (files g).ref) f y.ref := by
  funext g
  by_cases hg : g = f
  · rw [hg, Function.update_self, Function.update_self]
  · rw [Function.update_of_ne hg, Function.update_of_ne hg]

theorem Sound.ref_nonneg (k : Sound s) (f : FileNo) : 0 ≤ (s.files f).ref := by
  have hc := k.counts f
  simp only at hc
  omega

/-- A change of one struct file and of what is held, with the counts kept. -/
theorem Sound.change (k : Sound s) {y : File} {held : ProcNo × Place → Option FileNo}
    (hc : Counts (Function.update (fun g => (s.files g).ref) f y.ref) held)
    (hfree : y.ref = 0 → y.type = .none)
    (hdead : ∀ p, s.procs p ≠ .live → ∀ x, held (p, x) = none) :
    Sound { s with files := Function.update s.files f y, held := held } where
  counts := by
    simp only [ref_update]
    exact hc
  free g hg := by
    by_cases hgf : g = f
    · simp only [hgf, Function.update_self] at hg ⊢
      exact hfree hg
    · simp only [Function.update_of_ne hgf] at hg ⊢
      exact k.free g hg
  holeFree := k.holeFree
  outstanding := k.outstanding
  nonneg := k.nonneg
  dead := hdead

/-- One more reference to a file. -/
def takeRef (s : Shared) (f : FileNo) (p : ProcNo) (x : Place) : Shared :=
  (s.setFile f ⟨(s.files f).ref + 1, (s.files f).type⟩).setHeld p x (some f)

theorem takeRef_sound (k : Sound s) (hp : s.procs p = .live) (hx : s.held (p, x) = none) :
    Sound (takeRef s f p x) := by
  refine k.change (k.counts.take hx) (fun hzero => ?_) fun q hq y => ?_
  · have hpos := k.ref_nonneg f
    simp only at hzero
    omega
  · have hne : (q, y) ≠ (p, x) := by
      rintro heq
      cases heq
      exact hq hp
    exact (Function.update_of_ne hne _ _).trans (k.dead q hq y)

theorem giveRef_sound (k : Sound s) {y : FileType} (hx : s.held (p, x) = some f)
    (hy : (s.files f).ref - 1 = 0 → y = .none) :
    Sound ((s.setFile f ⟨(s.files f).ref - 1, y⟩).setHeld p x none) := by
  refine k.change (k.counts.give hx) hy fun q hq y => ?_
  by_cases heq : (q, y) = (p, x)
  · rw [heq, Function.update_self]
  · exact (Function.update_of_ne heq _ _).trans (k.dead q hq y)

theorem setType_sound (k : Sound s) {y : FileType} (hx : s.held (p, x) = some f) :
    Sound (s.setFile f ⟨(s.files f).ref, y⟩) := by
  refine k.change ?_ (fun hzero => ?_) k.dead
  · rw [Function.update_eq_self]
    exact k.counts
  · have hpos := k.counts.pos hx
    simp only at hzero hpos
    omega

theorem held_ne {y : Place} (h : (q, y) ≠ (p, x)) (s : Shared) (g : Option FileNo) :
    (s.setHeld p x g).held (q, y) = s.held (q, y) :=
  Function.update_of_ne h _ _

theorem held_other (h : q ≠ p) (s : Shared) (g : Option FileNo) (y : Place) :
    (s.setHeld p x g).held (q, y) = s.held (q, y) :=
  held_ne (fun heq => h (congrArg Prod.fst heq)) s g

theorem held_self (s : Shared) (g : Option FileNo) : (s.setHeld p x g).held (p, x) = g :=
  Function.update_self _ _ _

theorem files_other {g : FileNo} (h : g ≠ f) (s : Shared) (y : File) :
    (s.setFile f y).files g = s.files g :=
  Function.update_of_ne h _ _

/-- A change of one struct file that `p` has or that is free, and of what `p` has. -/
theorem local_setFile (hf : (∃ x, s.held (p, x) = some f) ∨ (s.files f).ref = 0) (y : File)
    (g : Option FileNo) : Local s ((s.setFile f y).setHeld p x g) p where
  trans _ _ := rfl
  procs _ _ _ := rfl
  hand _ _ hq := held_other hq _ g _
  fds _ _ hq _ := held_other hq _ g _
  files f' := by
    by_cases hff : f' = f
    · exact Or.inr (hff ▸ hf)
    · exact Or.inl (files_other hff s y)

/-! The operations. -/

structure Steps (s t : Shared) (p : ProcNo) (m : Known) : Prop where
  sound : Sound t
  others : Local s t p
  describes : Describes t p m
  there : t.procs p ≠ .unused

theorem Local.refl (s : Shared) (p : ProcNo) : Local s s p :=
  ⟨fun _ _ => rfl, fun _ _ _ => rfl, fun _ _ _ => rfl, fun _ _ _ _ => rfl, fun _ => Or.inl rfl⟩

theorem Steps.refl (k : Sound s) (d : Describes s p l) (hp : s.procs p ≠ .unused) :
    Steps s s p l :=
  ⟨k, .refl s p, d, hp⟩

/-- The number of open transactions changes with that of `p`. -/
theorem trans_steps (k : Sound s) (d : Describes s p l) (hp : s.procs p ≠ .unused) {c : ℤ}
    {b : Bool} (hc : s.trans p + c = if b = true then 1 else 0) :
    Steps s { s with
      outstanding := s.outstanding + c
      trans := Function.update s.trans p (s.trans p + c) } p { l with trans := b } where
  sound :=
    { counts := k.counts
      free := k.free
      holeFree := k.holeFree
      outstanding := by
        have hsum := sum_change (Finset.mem_univ p) (f := s.trans)
          (g := Function.update s.trans p (s.trans p + c))
          fun q _ hq => Function.update_of_ne hq _ _
        rw [Function.update_self, ← k.outstanding] at hsum
        simp only
        omega
      nonneg := by
        intro q
        by_cases hq : q = p
        · simp only [hq, Function.update_self, hc]
          split <;> decide
        · simp only [Function.update_of_ne hq]
          exact k.nonneg q
      dead := k.dead }
  others :=
    { trans := fun q hq => Function.update_of_ne hq _ _
      procs := fun _ _ _ => rfl
      hand := fun _ _ _ => rfl
      fds := fun _ _ _ _ => rfl
      files := fun _ => Or.inl rfl }
  describes :=
    { trans := (Function.update_self _ _ _).trans hc
      alive := d.alive
      hand := d.hand
      fds := d.fds }
  there := hp

theorem inode_steps (k : Sound s) (d : Describes s p l) (hp : s.procs p ≠ .unused) {ip logs : ℕ}
    {o : InodeOp} {y : Inode} {r : ℤ} (ho : o.run (s.inode ip) = .ok (y, logs, r)) :
    Steps s { s with inode := Function.update s.inode ip y } p l where
  sound :=
    { counts := k.counts
      free := k.free
      holeFree := by
        intro ip'
        by_cases hip : ip' = ip
        · simp only [hip, Function.update_self]
          exact InodeOp.run_holeFree (k.holeFree ip) ho
        · simp only [Function.update_of_ne hip]
          exact k.holeFree ip'
      outstanding := k.outstanding
      nonneg := k.nonneg
      dead := k.dead }
  others := ⟨fun _ _ => rfl, fun _ _ _ => rfl, fun _ _ _ => rfl, fun _ _ _ _ => rfl,
    fun _ => Or.inl rfl⟩
  describes := ⟨d.trans, d.alive, d.hand, d.fds⟩
  there := hp

/-- readi() of an inode without holes allocates nothing. -/
theorem readi_logs (k : Sound s) {ip off n logs : ℕ} {y : Inode} {r : ℤ}
    (ho : (InodeOp.readi off n).run (s.inode ip) = .ok (y, logs, r)) : logs = 0 := by
  obtain ⟨r', hread⟩ := readi_holeFree (k.holeFree ip) (uint off) (uint n)
  cases hread.symm.trans ho
  rfl

theorem inr_ne {x y : Fin 2} (h : y ≠ x) : ((p, .inr y) : ProcNo × Place) ≠ (p, .inr x) := by
  rintro heq
  cases heq
  exact h rfl

theorem inl_ne {x y : Fd} (h : y ≠ x) : ((p, .inl y) : ProcNo × Place) ≠ (p, .inl x) := by
  rintro heq
  cases heq
  exact h rfl

theorem inl_ne_inr (p : ProcNo) (fd : Fd) (x : Fin 2) :
    ((p, .inl fd) : ProcNo × Place) ≠ (p, .inr x) := nofun

theorem freeFile_some (h : freeFile s = some f) : (s.files f).ref = 0 := by
  simpa using List.find?_some h

theorem filealloc_steps (k : Sound s) (d : Describes s p l) (hp : s.procs p ≠ .unused) {x : Fin 2}
    (ha : l.alive = true) (hx : l.hand x = .empty) {b : Bool} (h : s.filealloc p x = (b, t)) :
    Steps s t p (learn l (.filealloc x) b) := by
  have hempty := d.hand x
  rw [hx] at hempty
  simp only [Shared.filealloc] at h
  split at h
  · cases h
    exact .refl k d hp
  · rename_i f hf
    have hzero := freeFile_some hf
    have htake : (s.setFile f ⟨1, (s.files f).type⟩).setHeld p (.inr x) (some f) =
        takeRef s f p (.inr x) := by
      simp only [takeRef, hzero, zero_add]
    cases h
    refine ⟨htake ▸ takeRef_sound k (d.alive ha) hempty, local_setFile (Or.inr hzero) _ _, ?_, hp⟩
    refine ⟨d.trans, d.alive, fun y => ?_, fun fd b hb => ?_⟩
    · by_cases hy : y = x
      · rw [hy, learn, if_pos rfl, setHand_self]
        refine ⟨f, held_self _ _, ?_⟩
        rw [← k.free f hzero]
        exact Function.update_self _ _ _
      · rw [learn, if_pos rfl, setHand_other hy]
        refine (d.hand y).frame k (held_ne (inr_ne hy) _ _) fun g => ?_
        by_cases hg : g = f
        · exact Or.inr (Or.inr (hg ▸ hzero))
        · exact Or.inl (files_other hg _ _)
    · rw [held_ne (inl_ne_inr p fd x)]
      exact d.fds fd b hb

/-- What `p` has at `x` is given up, or gets a type. -/
theorem hand_frame (k : Sound s) (hx : s.held (p, x) = some f) {y : File} {g : Option FileNo}
    {z : Fin 2} {h : Hand} (hz : Sum.inr z ≠ x) (hd : HandIs s p z h) :
    HandIs ((s.setFile f y).setHeld p x g) p z h := by
  have hne : ((p, .inr z) : ProcNo × Place) ≠ (p, x) := fun heq => hz (congrArg Prod.snd heq)
  refine hd.frame k (held_ne hne _ g) fun f' => ?_
  by_cases hff : f' = f
  · exact Or.inr (Or.inl ⟨(p, x), hne.symm, hff ▸ hx⟩)
  · exact Or.inl (files_other hff s y)

theorem drop_describes (k : Sound s) (d : Describes s p l) (hx : s.held (p, x) = some f)
    (y : File) : Describes ((s.setFile f y).setHeld p x none) p (l.drop x) := by
  cases x with
  | inl fd =>
    refine ⟨d.trans, d.alive, fun z => hand_frame k hx nofun (d.hand z), fun fd' b hb => ?_⟩
    by_cases hfd : fd' = fd
    · rw [hfd] at hb ⊢
      rw [Known.drop, setFd_self] at hb
      cases hb
      rw [held_self]
      rfl
    · rw [held_ne (inl_ne hfd)]
      exact d.fds fd' b ((Function.update_of_ne hfd _ _).symm.trans hb)
  | inr x =>
    refine ⟨d.trans, d.alive, fun z => ?_, fun fd b hb => ?_⟩
    · by_cases hz : z = x
      · rw [hz, Known.drop, setHand_self]
        exact held_self _ _
      · rw [Known.drop, setHand_other hz]
        exact hand_frame k hx (fun heq => hz (Sum.inr.inj heq)) (d.hand z)
    · rw [held_ne (inl_ne_inr p fd x)]
      exact d.fds fd b hb

theorem learn_fileclose (l : Known) (x : Place) (y : FileType) :
    learn l (.fileclose x) y = l.drop x := by
  cases x <;> rfl

theorem fileclose_steps (k : Sound s) (d : Describes s p l) (hp : s.procs p ≠ .unused)
    (hx : l.Has x) {y : FileType} (h : s.fileclose p x = .ok (y, t)) :
    Fact l (.fileclose x) y ∧ Steps s t p (learn l (.fileclose x) y) := by
  obtain ⟨f, hf⟩ := d.held hx
  have hpos := k.counts.pos hf
  rw [learn_fileclose]
  simp only [Shared.fileclose, hf] at h
  split at h
  · cases h
  split at h
  · rename_i hmore
    cases h
    refine ⟨?_, giveRef_sound k hf (fun hz => ?_), local_setFile (Or.inl ⟨x, hf⟩) _ _,
      drop_describes k d hf _, hp⟩
    · cases x with
      | inl fd => trivial
      | inr x => exact fun _ => rfl
    · omega
  · rename_i hlast
    have hone : (s.files f).ref - 1 = 0 := by omega
    cases h
    refine ⟨?_, ?_, local_setFile (Or.inl ⟨x, hf⟩) _ _, drop_describes k d hf _, hp⟩
    · cases x with
      | inl fd => trivial
      | inr x =>
        intro hfresh
        have hd := d.hand x
        rw [hfresh] at hd
        obtain ⟨f', hf', hnew⟩ := hd
        rw [hf] at hf'
        cases hf'
        rw [hnew]
    · rw [← hone]
      exact giveRef_sound k hf fun _ => rfl

theorem freeFd_some {fd : Fd} (h : freeFd s p = some fd) : s.held (p, .inl fd) = none := by
  simpa using List.find?_some h

theorem fdalloc_steps (k : Sound s) (d : Describes s p l) (hp : s.procs p ≠ .unused) {x : Fin 2}
    (hx : l.Has (.inr x)) {r : Option Fd} (h : s.fdalloc p x = (r, t)) :
    Steps s t p (learn l (.fdalloc x) r) := by
  obtain ⟨f, hf⟩ := d.held hx
  simp only [Shared.fdalloc] at h
  split at h
  · cases h
    exact .refl k d hp
  · rename_i fd hfd
    have hfree := freeFd_some hfd
    rw [hf] at h
    cases h
    have hmoved : ∀ q y, (q, y) ≠ (p, .inl fd) → (q, y) ≠ (p, .inr x) →
        ((s.setHeld p (.inl fd) (some f)).setHeld p (.inr x) none).held (q, y) =
          s.held (q, y) := by
      intro q y h1 h2
      rw [held_ne h2, held_ne h1]
    have hother : ∀ q y, q ≠ p →
        ((s.setHeld p (.inl fd) (some f)).setHeld p (.inr x) none).held (q, y) =
          s.held (q, y) := by
      intro q y hq
      rw [held_other hq, held_other hq]
    refine ⟨⟨k.counts.move hf hfree, k.free, k.holeFree, k.outstanding, k.nonneg, fun q hq y => ?_⟩,
      ⟨fun _ _ => rfl, fun _ _ _ => rfl, fun q y hq => hother q _ hq,
        fun q y hq _ => hother q _ hq, fun _ => Or.inl rfl⟩,
      ⟨d.trans, d.alive, fun z => ?_, fun fd' b hb => ?_⟩, hp⟩
    · have hne : q ≠ p := by
        rintro rfl
        rw [k.dead q hq] at hf
        cases hf
      rw [hother q y hne]
      exact k.dead q hq y
    · by_cases hz : z = x
      · rw [hz, learn, setFd_hand, setHand_self]
        exact held_self _ _
      · rw [learn, setFd_hand, setHand_other hz]
        exact (d.hand z).frame k (hmoved p _ (inl_ne_inr p fd z).symm (inr_ne hz)) fun _ => Or.inl rfl
    · by_cases hfd' : fd' = fd
      · rw [hfd'] at hb ⊢
        rw [learn, setFd_self] at hb
        cases hb
        rw [held_ne (inl_ne_inr p fd x), held_self]
        rfl
      · rw [hmoved p _ (inl_ne hfd') (inl_ne_inr p fd' x)]
        exact d.fds fd' b ((Function.update_of_ne hfd' _ _).symm.trans hb)

theorem setType_steps (k : Sound s) (d : Describes s p l) (hp : s.procs p ≠ .unused)
    (hx : l.Has x) {y : FileType} (h : s.setType p x y = .ok t) :
    Steps s t p (learn l (.setType x y) ()) := by
  obtain ⟨f, hf⟩ := d.held hx
  simp only [Shared.setType, hf] at h
  cases h
  have hfiles : ∀ g, (s.setFile f ⟨(s.files f).ref, y⟩).files g = s.files g ∨
      (∃ x, s.held (p, x) = some g) ∨ (s.files g).ref = 0 := by
    intro g
    by_cases hg : g = f
    · exact Or.inr (Or.inl ⟨x, hg ▸ hf⟩)
    · exact Or.inl (files_other hg s _)
  have hframe : ∀ z h, Sum.inr z ≠ x → HandIs s p z h →
      HandIs (s.setFile f ⟨(s.files f).ref, y⟩) p z h := by
    intro z h hz hd
    refine hd.frame k rfl fun g => ?_
    by_cases hg : g = f
    · exact Or.inr (Or.inl ⟨(p, x), fun heq => hz (congrArg Prod.snd heq).symm, hg ▸ hf⟩)
    · exact Or.inl (files_other hg s _)
  refine ⟨setType_sound k hf, ⟨fun _ _ => rfl, fun _ _ _ => rfl, fun _ _ _ => rfl,
    fun _ _ _ _ => rfl, hfiles⟩, ?_, hp⟩
  cases x with
  | inl fd => exact ⟨d.trans, d.alive, fun z => hframe z _ nofun (d.hand z), d.fds⟩
  | inr x =>
    refine ⟨d.trans, d.alive, fun z => ?_, d.fds⟩
    by_cases hz : z = x
    · rw [hz, learn, setHand_self]
      exact ⟨f, hf⟩
    · rw [learn, setHand_other hz]
      exact hframe z _ (fun heq => hz (Sum.inr.inj heq)) (d.hand z)

theorem ofile_steps (k : Sound s) (d : Describes s p l) (hp : s.procs p ≠ .unused) (fd : Fd) :
    Steps s s p (learn l (.ofile fd) (s.ofile p fd)) := by
  refine ⟨k, .refl s p, ⟨d.trans, d.alive, d.hand, fun fd' b hb => ?_⟩, hp⟩
  by_cases hfd : fd' = fd
  · rw [hfd] at hb ⊢
    rw [learn, setFd_self, Shared.ofile, Option.isSome_map] at hb
    exact Option.some.inj hb
  · exact d.fds fd' b ((Function.update_of_ne hfd _ _).symm.trans hb)

theorem filedup_ok {y : Place} (h : s.filedup f q y = .ok t) : t = takeRef s f q y := by
  simp only [Shared.filedup] at h
  split at h
  · cases h
  · cases h
    rfl

/-- One more reference to a file that `p` has at `x` leaves what is known of it. -/
theorem takeRef_hand (k : Sound s) (hx : s.held (p, x) = some f) {y : Place} {z : Fin 2}
    {h : Hand} (hz : Sum.inr z ≠ x) (hne : ((p, .inr z) : ProcNo × Place) ≠ (q, y))
    (hd : HandIs s p z h) : HandIs (takeRef s f q y) p z h := by
  refine hd.frame k (held_ne hne _ _) fun g => ?_
  by_cases hg : g = f
  · exact Or.inr (Or.inl ⟨(p, x), fun heq => hz (congrArg Prod.snd heq).symm, hg ▸ hx⟩)
  · exact Or.inl (files_other hg s _)

theorem dup_steps (k : Sound s) (d : Describes s p l) (hp : s.procs p ≠ .unused) {fd : Fd}
    (hx : l.Has (.inl fd)) {r : Option Fd} (h : s.dup p fd = .ok (r, t)) :
    Steps s t p (learn l (.dup fd) r) := by
  obtain ⟨f, hf⟩ := d.held hx
  have hlive : s.procs p = .live := by
    by_contra hdead
    rw [k.dead p hdead] at hf
    cases hf
  simp only [Shared.dup, hf] at h
  split at h
  · cases h
    exact .refl k d hp
  · rename_i new hnew
    have hfree := freeFd_some hnew
    cases hd : s.filedup f p (.inl new) with
    | error msg =>
      rw [hd] at h
      cases h
    | ok t' =>
      rw [hd] at h
      cases h
      cases filedup_ok hd
      refine ⟨takeRef_sound k hlive hfree, local_setFile (Or.inl ⟨_, hf⟩) _ _,
        ⟨d.trans, d.alive, fun z => ?_, fun fd' b hb => ?_⟩, hp⟩
      · exact takeRef_hand k hf nofun (inl_ne_inr p new z).symm (d.hand z)
      · by_cases hfd : fd' = new
        · rw [hfd] at hb ⊢
          rw [learn, setFd_self] at hb
          cases hb
          rw [takeRef, held_self]
          rfl
        · rw [takeRef, held_ne (inl_ne hfd)]
          exact d.fds fd' b ((Function.update_of_ne hfd _ _).symm.trans hb)

/-- What the loop of fork() keeps for `p` and its child `np`. -/
structure Copying (s t : Shared) (p np : ProcNo) : Prop where
  sound : Sound t
  held : ∀ q x, q ≠ np → t.held (q, x) = s.held (q, x)
  hand : ∀ x, t.held (np, .inr x) = s.held (np, .inr x)
  trans : t.trans = s.trans
  procs : t.procs = s.procs
  files : ∀ f, t.files f = s.files f ∨ ∃ fd, s.held (p, .inl fd) = some f
  hands : ∀ z h, HandIs s p z h → HandIs t p z h

theorem dupAll_copying {np : ProcNo} (hne : p ≠ np) {fds : List Fd} (hfds : fds.Nodup)
    (k : Sound s) (hlive : s.procs np = .live)
    (hempty : ∀ fd ∈ fds, s.held (np, .inl fd) = none) (h : dupAll p np fds s = .ok t) :
    Copying s t p np := by
  induction fds generalizing s with
  | nil =>
    cases h
    exact ⟨k, fun _ _ _ => rfl, fun _ => rfl, rfl, rfl, fun _ => Or.inl rfl, fun _ _ hd => hd⟩
  | cons fd fds ih =>
    obtain ⟨hnot, hfds⟩ := List.nodup_cons.mp hfds
    rw [dupAll] at h
    cases hf : s.held (p, .inl fd) with
    | none =>
      rw [hf] at h
      exact ih hfds k hlive (fun fd' hfd' => hempty fd' (List.mem_cons_of_mem _ hfd')) h
    | some f =>
      rw [hf] at h
      cases hd : s.filedup f np (.inl fd) with
      | error msg =>
        simp only [hd] at h
        cases h
      | ok t' =>
        simp only [hd] at h
        cases filedup_ok hd
        have hone := takeRef_sound (f := f) k hlive (hempty fd List.mem_cons_self)
        have hother : ∀ q x, q ≠ np →
            (takeRef s f np (.inl fd)).held (q, x) = s.held (q, x) :=
          fun q x hq => held_other hq _ _ x
        have hrest : ∀ fd' ∈ fds, (takeRef s f np (.inl fd)).held (np, .inl fd') = none := by
          intro fd' hfd'
          have hne' : fd' ≠ fd := by
            rintro rfl
            exact hnot hfd'
          rw [takeRef, held_ne (inl_ne hne')]
          exact hempty fd' (List.mem_cons_of_mem _ hfd')
        have c := ih hfds hone hlive hrest h
        refine ⟨c.sound, fun q x hq => (c.held q x hq).trans (hother q x hq), fun x => ?_, c.trans,
          c.procs, fun g => ?_, fun z h hd => c.hands z h ?_⟩
        · rw [c.hand x, takeRef, held_ne (inl_ne_inr np fd x).symm]
          rfl
        · rcases c.files g with hg | ⟨fd', hfd'⟩
          · by_cases hgf : g = f
            · exact Or.inr ⟨fd, hgf ▸ hf⟩
            · exact Or.inl (hg.trans (files_other hgf s _))
          · exact Or.inr ⟨fd', (hother p _ hne).symm.trans hfd'⟩
        · exact takeRef_hand k hf nofun (fun heq => hne (congrArg Prod.fst heq)) hd

theorem unusedProc_some (h : unusedProc s = some q) : s.procs q = .unused := by
  simpa using List.find?_some h

theorem fork_steps (k : Sound s) (d : Describes s p l) (hp : s.procs p ≠ .unused) {b : Bool}
    (h : s.fork p = .ok (b, t)) : Steps s t p l := by
  simp only [Shared.fork] at h
  split at h
  · cases h
    exact .refl k d hp
  · rename_i np hnp
    have hunused := unusedProc_some hnp
    have hne : p ≠ np := by
      rintro rfl
      exact hp hunused
    have hnone : ∀ x, s.held (np, x) = none := k.dead np (by rw [hunused]; nofun)
    generalize hs : ({ s with procs := Function.update s.procs np .live } : Shared) = s1 at h
    have hprocs : ∀ q, q ≠ np → s1.procs q = s.procs q := by
      rw [← hs]
      exact fun q hq => Function.update_of_ne hq _ _
    have hlive : s1.procs np = .live := by
      rw [← hs]
      exact Function.update_self _ _ _
    have k1 : Sound s1 := by
      rw [← hs]
      refine ⟨k.counts, k.free, k.holeFree, k.outstanding, k.nonneg, fun q hq x => ?_⟩
      by_cases hqn : q = np
      · rw [hqn]
        exact hnone x
      · simp only [Function.update_of_ne hqn] at hq
        exact k.dead q hq x
    have d1 : Describes s1 p l := by
      refine ⟨hs ▸ d.trans, fun ha => (hprocs p hne).trans (d.alive ha), fun z => ?_, hs ▸ d.fds⟩
      rw [← hs]
      exact (d.hand z).frame k rfl fun _ => Or.inl rfl
    cases hall : dupAll p np (List.finRange NOFILE) s1 with
    | error msg =>
      rw [hall] at h
      cases h
    | ok t' =>
      rw [hall] at h
      cases h
      have hempty : ∀ fd ∈ List.finRange NOFILE, s1.held (np, .inl fd) = none := by
        intro fd _
        rw [← hs]
        exact hnone _
      have c := dupAll_copying hne (List.nodup_finRange _) k1 hlive hempty hall
      have hheld : s1.held = s.held := by rw [← hs]
      have htrans : s1.trans = s.trans := by rw [← hs]
      have hfiles : s1.files = s.files := by rw [← hs]
      refine ⟨c.sound, ⟨fun q _ => ?_, fun q _ hq => ?_, fun q x _ => ?_, fun q fd _ hq => ?_,
        fun f => ?_⟩, ⟨?_, fun ha => ?_, fun z => c.hands z _ (d1.hand z), fun fd b hb => ?_⟩, ?_⟩
      · rw [c.trans, htrans]
      · have hqn : q ≠ np := by
          rintro rfl
          exact hq hunused
        rw [c.procs]
        exact hprocs q hqn
      · rw [← hheld]
        by_cases hqn : q = np
        · rw [hqn]
          exact c.hand x
        · exact c.held q _ hqn
      · have hqn : q ≠ np := by
          rintro rfl
          exact hq hunused
        rw [← hheld]
        exact c.held q _ hqn
      · rcases c.files f with hf | ⟨fd, hfd⟩
        · exact Or.inl (hf.trans (by rw [hfiles]))
        · exact Or.inr (Or.inl ⟨_, hheld ▸ hfd⟩)
      · rw [c.trans]
        exact d1.trans
      · rw [c.procs]
        exact d1.alive ha
      · rw [c.held p _ hne]
        exact d1.fds fd b hb
      · rw [c.procs, hprocs p hne]
        exact hp

theorem exit_steps (k : Sound s) (d : Describes s p l) (hn : Need l .exit) :
    Steps s { s with procs := Function.update s.procs p .zombie } p (learn l .exit ()) where
  sound :=
    { counts := k.counts
      free := k.free
      holeFree := k.holeFree
      outstanding := k.outstanding
      nonneg := k.nonneg
      dead := by
        intro q hq x
        by_cases hqp : q = p
        · rw [hqp]
          cases x with
          | inl fd =>
            have hclosed := d.fds fd false (hn.2.2 fd)
            simpa using hclosed
          | inr x =>
            have hd := d.hand x
            rw [hn.2.1 x] at hd
            exact hd
        · simp only [Function.update_of_ne hqp] at hq
          exact k.dead q hq x }
  others :=
    { trans := fun _ _ => rfl
      procs := fun q hq _ => Function.update_of_ne hq _ _
      hand := fun _ _ _ => rfl
      fds := fun _ _ _ _ => rfl
      files := fun _ => Or.inl rfl }
  describes := ⟨d.trans, nofun, d.hand, d.fds⟩
  there := by
    simp only [Function.update_self]
    nofun

/-- What an operation does where it is allowed. -/
theorem perform_ok (k : Sound s) (d : Describes s p l) (hp : s.procs p ≠ .unused) {o : Op}
    (hn : Need l o) {n : ℕ} {r : Answer o} (h : perform s p n o = .ok (r, t)) :
    Fact l o r ∧ Steps s t p (learn l o r) := by
  cases o with
  | ask condition | choose value | iput ip | size ip =>
    cases h
    exact ⟨trivial, .refl k d hp⟩
  | panic msg => cases h
  | beginOp =>
    cases h
    have ht := d.trans
    rw [hn] at ht
    exact ⟨trivial, trans_steps k d hp (b := true) (by rw [ht]; rfl)⟩
  | endOp =>
    cases h
    have ht := d.trans
    rw [hn] at ht
    exact ⟨trivial, trans_steps k d hp (b := false) (c := -1) (by rw [ht]; rfl)⟩
  | logWrite =>
    simp only [perform] at h
    split at h
    · cases h
    · cases h
      exact ⟨trivial, .refl k d hp⟩
  | inode ip o =>
    cases ho : o.run (s.inode ip) with
    | error msg =>
      simp only [perform, ho] at h
      cases h
    | ok a =>
      obtain ⟨y, logs, r⟩ := a
      simp only [perform, ho] at h
      cases h
      refine ⟨?_, inode_steps k d hp ho⟩
      cases o with
      | readi off n => exact readi_logs k ho
      | writei off n => trivial
      | itrunc => trivial
      | ialloc => trivial
  | filealloc x =>
    have h' : s.filealloc p x = (r, t) := Except.ok.inj h
    exact ⟨trivial, filealloc_steps k d hp hn.1 hn.2 h'⟩
  | fileclose x => exact fileclose_steps k d hp hn h
  | fdalloc x =>
    have h' : s.fdalloc p x = (r, t) := Except.ok.inj h
    exact ⟨trivial, fdalloc_steps k d hp hn h'⟩
  | setType x y =>
    cases hy : s.setType p x y with
    | error msg =>
      simp only [perform, hy] at h
      cases h
    | ok t' =>
      simp only [perform, hy] at h
      cases h
      exact ⟨trivial, setType_steps k d hp hn hy⟩
  | ofile fd =>
    cases h
    exact ⟨trivial, ofile_steps k d hp fd⟩
  | dup fd => exact ⟨trivial, dup_steps k d hp hn h⟩
  | fork => exact ⟨trivial, fork_steps k d hp h⟩
  | exit =>
    cases h
    exact ⟨trivial, exit_steps k d hn⟩

theorem filedup_error {y : Place} {msg : String} (h : s.filedup f q y = .error msg) :
    msg ≠ outside := by
  simp only [Shared.filedup] at h
  split at h
  · cases h
    decide
  · cases h

theorem dupAll_error {np : ProcNo} {fds : List Fd} {msg : String}
    (h : dupAll p np fds s = .error msg) : msg ≠ outside := by
  induction fds generalizing s with
  | nil => cases h
  | cons fd fds ih =>
    rw [dupAll] at h
    split at h
    · exact ih h
    · rename_i f _
      cases hd : s.filedup f np (.inl fd) with
      | error msg' =>
        rw [hd] at h
        cases h
        exact filedup_error hd
      | ok t =>
        rw [hd] at h
        exact ih h

/-- No panic of an allowed operation is that of log_write(). -/
theorem perform_error (k : Sound s) (d : Describes s p l) {o : Op} (hn : Need l o) {n : ℕ}
    {msg : String} (h : perform s p n o = .error msg) : msg ≠ outside := by
  cases o with
  | ask condition | choose value | iput ip | size ip | beginOp | endOp | filealloc x | fdalloc x
  | ofile fd | exit => cases h
  | panic msg' =>
    cases h
    exact hn
  | logWrite =>
    have ht := d.trans
    rw [hn, if_pos rfl] at ht
    have hle := Finset.single_le_sum (fun q _ => k.nonneg q) (Finset.mem_univ p)
    rw [ht, ← k.outstanding] at hle
    simp only [perform] at h
    split at h
    · omega
    · cases h
  | inode ip o =>
    cases ho : o.run (s.inode ip) with
    | error msg' =>
      simp only [perform, ho] at h
      cases h
      rw [InodeOp.run_error ho]
      decide
    | ok a =>
      simp only [perform, ho] at h
      cases h
  | fileclose x =>
    simp only [perform, Shared.fileclose] at h
    split at h
    · cases h
      decide
    · split at h
      · cases h
        decide
      · split at h
        · cases h
        · cases h
  | setType x y =>
    simp only [perform, Shared.setType] at h
    split at h
    · cases h
      decide
    · cases h
  | dup fd =>
    simp only [perform, Shared.dup] at h
    split at h
    · cases h
      decide
    · split at h
      · cases h
      · rename_i f _ _ new _
        cases hd : s.filedup f p (.inl new) with
        | error msg' =>
          rw [hd] at h
          cases h
          exact filedup_error hd
        | ok t =>
          rw [hd] at h
          cases h
  | fork =>
    simp only [perform, Shared.fork] at h
    split at h
    · cases h
    · rename_i np _
      generalize ({ s with procs := Function.update s.procs np .live } : Shared) = s1 at h
      cases hd : dupAll p np (List.finRange NOFILE) s1 with
      | error msg' =>
        rw [hd] at h
        cases h
        exact dupAll_error hd
      | ok t =>
        rw [hd] at h
        cases h

/-! The machine. -/

/-- Before a call. -/
def nothing : Known := ⟨false, true, fun _ => .empty, fun _ => none⟩

structure Good (s : State) : Prop where
  sound : Sound s.shared
  idle : ∀ p, s.code p = none →
    s.shared.trans p = 0 ∧ ∀ x, s.shared.held (p, .inr x) = none
  busy : ∀ p c, s.code p = some c → s.shared.procs p ≠ .unused ∧
    ∃ l, Describes s.shared p l ∧ wp discipline c Ended l
  halted : s.halted ≠ some outside

theorem initial_good (image : Image) : Good (initial image) where
  sound :=
    { counts := by
        intro f
        simp [initial, tally]
      free := fun _ _ => rfl
      holeFree := image.holeFree
      outstanding := by simp [initial]
      nonneg := fun _ => le_refl _
      dead := fun _ _ _ => rfl }
  idle _ _ := ⟨rfl, fun _ => rfl⟩
  busy _ _ h := by cases h
  halted := nofun

theorem call_good {s : State} (k : Good s) {p : ProcNo} (hp : s.code p = none)
    (hlive : s.shared.procs p = .live) (c : Syscall) :
    Good { s with code := Function.update s.code p (some (syscall c)) } where
  sound := k.sound
  idle q hq := by
    have hqp : q ≠ p := by
      rintro rfl
      simp only [Function.update_self] at hq
      cases hq
    exact k.idle q ((Function.update_of_ne hqp _ _).symm.trans hq)
  busy q c' hq := by
    by_cases hqp : q = p
    · simp only [hqp, Function.update_self] at hq
      cases hq
      obtain ⟨htrans, hhands⟩ := k.idle p hp
      have hd : Describes s.shared p nothing := ⟨htrans, fun _ => hlive, hhands, nofun⟩
      rw [hqp]
      refine ⟨?_, nothing, hd, syscall_ends c ⟨rfl, rfl, fun _ => rfl⟩⟩
      rw [hlive]
      nofun
    · exact k.busy q c' ((Function.update_of_ne hqp _ _).symm.trans hq)
  halted := k.halted

theorem stepCode_good {s : State} (k : Good s) {p : ProcNo} {c : Code ℤ} (hp : s.code p = some c)
    (n : ℕ) : Good (stepCode s p n c) := by
  obtain ⟨hthere, l, d, hwp⟩ := k.busy p c hp
  cases c with
  | done a =>
    refine ⟨k.sound, fun q hq => ?_, fun q c' hq => ?_, k.halted⟩
    · by_cases hqp : q = p
      · have ht := d.trans
        rw [hwp.1] at ht
        rw [hqp]
        refine ⟨ht, fun x => ?_⟩
        have hd := d.hand x
        rw [hwp.2 x] at hd
        exact hd
      · exact k.idle q ((Function.update_of_ne hqp _ _).symm.trans hq)
    · have hqp : q ≠ p := by
        rintro rfl
        simp only [stepCode, Function.update_self] at hq
        cases hq
      exact k.busy q c' ((Function.update_of_ne hqp _ _).symm.trans hq)
  | step o f =>
    simp only [stepCode]
    split
    · rename_i r t hr
      obtain ⟨hfact, st⟩ := perform_ok k.sound d hthere hwp.1 hr
      refine ⟨st.sound, fun q hq => ?_, fun q c' hq => ?_, k.halted⟩
      · have hqp : q ≠ p := by
          rintro rfl
          simp only [Function.update_self] at hq
          cases hq
        obtain ⟨htrans, hhands⟩ := k.idle q ((Function.update_of_ne hqp _ _).symm.trans hq)
        exact ⟨(st.others.trans q hqp).trans htrans,
          fun x => (st.others.hand q x hqp).trans (hhands x)⟩
      · by_cases hqp : q = p
        · simp only [hqp, Function.update_self] at hq
          cases hq
          rw [hqp]
          exact ⟨st.there, _, st.describes, hwp.2 r _ ⟨hfact, rfl⟩⟩
        · obtain ⟨hq', l', d', hwp'⟩ :=
            k.busy q c' ((Function.update_of_ne hqp _ _).symm.trans hq)
          refine ⟨?_, l', d'.frame k.sound st.others hqp hq', hwp'⟩
          rw [st.others.procs q hqp hq']
          exact hq'
    · rename_i msg hmsg
      refine ⟨k.sound, k.idle, k.busy, fun heq => ?_⟩
      exact perform_error k.sound d hwp.1 hmsg (Option.some.inj heq)

theorem reap_good {s : State} (k : Good s) {p : ProcNo} (hp : s.code p = none)
    (hz : s.shared.procs p = .zombie) :
    Good { s with
      shared := { s.shared with procs := Function.update s.shared.procs p .unused } } where
  sound :=
    { counts := k.sound.counts
      free := k.sound.free
      holeFree := k.sound.holeFree
      outstanding := k.sound.outstanding
      nonneg := k.sound.nonneg
      dead := by
        intro q hq x
        by_cases hqp : q = p
        · rw [hqp]
          exact k.sound.dead p (by rw [hz]; nofun) x
        · simp only [Function.update_of_ne hqp] at hq
          exact k.sound.dead q hq x }
  idle := k.idle
  busy q c hq := by
    have hqp : q ≠ p := by
      rintro rfl
      rw [hp] at hq
      cases hq
    obtain ⟨hthere, l, d, hwp⟩ := k.busy q c hq
    have hprocs : Function.update s.shared.procs p .unused q = s.shared.procs q :=
      Function.update_of_ne hqp _ _
    refine ⟨fun h => hthere (hprocs.symm.trans h), l, ⟨d.trans, ?_, fun x => ?_, d.fds⟩, hwp⟩
    · exact fun ha => hprocs.trans (d.alive ha)
    · exact (d.hand x).frame k.sound rfl fun _ => Or.inl rfl
  halted := k.halted

theorem next_good {s : State} {e : Event} (k : Good s) (he : Enabled s e) : Good (next s e) := by
  obtain ⟨-, he⟩ := he
  cases e with
  | call p c => exact call_good k (Option.isNone_iff_eq_none.mp he.1) he.2 c
  | step p n =>
    obtain ⟨c, hc⟩ := Option.isSome_iff_exists.mp he
    simp only [next, hc]
    exact stepCode_good k hc n
  | reap p => exact reap_good k (Option.isNone_iff_eq_none.mp he.1) he.2

/-- What the next operation of a process needs of its transaction: none at begin_op() and at
the return, one at end_op(), log_write() and iput(). -/
def Bracketed (trans : ℤ) : Option (Code ℤ) → Prop
  | none | some (.done _) | some (.step .beginOp _) => trans = 0
  | some (.step .endOp _) | some (.step .logWrite _) | some (.step (.iput _) _) => trans = 1
  | some (.step _ _) => trans = 0 ∨ trans = 1

/-- In every state that is reached each process has made as many calls of end_op() as of
begin_op() wherever it is in no call, has not begun a call or is about to return, and one less
at most in between; and no log_write() is outside of a transaction. -/
theorem transaction_discipline (image : Image) {es : List Event} {s : State}
    (r : Run machine.Step (· = initial image) es s) :
    s.halted ≠ some "log_write outside of trans" ∧
      ∀ p, Bracketed (s.shared.trans p) (s.code p) := by
  have k : Good s := by
    refine r.invariant (I := Good) ?_ ?_
    · rintro - rfl
      exact initial_good image
    · rintro s e - k ⟨he, rfl⟩
      exact next_good k he
  refine ⟨k.halted, fun p => ?_⟩
  cases hp : s.code p with
  | none => exact (k.idle p hp).1
  | some c =>
    obtain ⟨-, l, d, hwp⟩ := k.busy p c hp
    have ht := d.trans
    cases c with
    | done a =>
      rw [hwp.1] at ht
      exact ht
    | step o f =>
      have hn : Need l o := hwp.1
      have hor : s.shared.trans p = 0 ∨ s.shared.trans p = 1 := by
        rw [ht]
        split
        · exact Or.inr rfl
        · exact Or.inl rfl
      cases o with
      | beginOp =>
        rw [hn] at ht
        exact ht
      | endOp | logWrite | iput ip =>
        rw [hn] at ht
        exact ht
      | _ => exact hor

abbrev p0 : ProcNo := ⟨0, NPROC_pos⟩
abbrev p1 : ProcNo := ⟨1, one_lt_NPROC⟩

/-- The root directory has one block. -/
def oneBlock : Image where
  inode ip := if ip = 1 then ⟨BSIZE, fun k => k = 0, fun _ => false⟩ else InodeHoles.empty
  holeFree ip := by
    split
    · intro bn hb
      have hzero : bn = 0 := by
        simp only [BSIZE] at hb
        omega
      rw [hzero]
      decide
    · exact empty_holeFree

def steps (p : ProcNo) (answers : List ℕ) : List Event := answers.map (.step p)

/-- open("/f"), fork() and write(0, p, 600) up to its third call of log_write(); then the child
calls exit() up to its iput(). -/
def twoTransactions : List Event :=
  [.call p0 .openFile] ++
  steps p0 [0, 0, 0, 1, 1, 0, 0, 0, 0, 0, 0, 0, 0, 0, 1, 2, 0, 0, 0, 0, 0, 0, 0, 0, 0, 0, 0, 0, 0] ++
  [.call p0 .fork] ++ steps p0 [0, 0, 0, 0] ++
  [.call p0 (.write 0 600)] ++ steps p0 (List.replicate 11 0) ++
  [.call p1 .exit] ++ steps p1 (List.replicate 19 0 ++ [1])

theorem transaction_discipline_two :
    ((machine.exec (initial oneBlock) twoTransactions).halted ≠
        some "log_write outside of trans" ∧
      ∀ p, Bracketed ((machine.exec (initial oneBlock) twoTransactions).shared.trans p)
        ((machine.exec (initial oneBlock) twoTransactions).code p)) ∧
    (machine.exec (initial oneBlock) twoTransactions).shared.outstanding = 2 ∧
    (machine.exec (initial oneBlock) twoTransactions).halted = none := by
  refine ⟨transaction_discipline oneBlock (Machine.Valid.run ?_), ?_⟩
  · decide +kernel
  · decide +kernel

end TransactionRuns
