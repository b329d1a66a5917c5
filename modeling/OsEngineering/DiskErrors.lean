import OsEngineering.BufferRuns
import OsEngineering.IdeQueue

/-! The buffer cache over a disk whose commands may fail. -/
set_option linter.unusedSectionVars false

namespace DiskErrors

open KernelParams TransitionSystem BufferCoherence BufferRuns
open BufferCache (Buf BufNo Dev NBUF Use put)
open IdeQueue (Answer)

/-- `given` is history: the newest contents given to a block since it was last read from the
disk. -/
structure State (η D : Type*) where
  cache : BufferCache.State η D
  given : Dev → BlockNo → Option D

variable {η D : Type*}

def initial (zero : D) (disk : Dev → BlockNo → D) : State η D :=
  ⟨BufferCache.initial zero disk, fun _ _ => none⟩

/-- An event of the cache, and how the disk ends the command if it is the end of one. -/
abbrev Event (η D : Type*) := BufferCache.Event η D × Answer D

/-- ideintr() for the buffer `b`: with an error nothing is read, and a sector may be left with
anything, but the flags are set as ever. -/
def ideintr (s : State η D) (b : BufNo) (a : Answer D) : State η D :=
  let x := s.cache.buf b
  let y := { x with valid := true, dirty := false }
  if x.dirty = true then
    { s with cache := { s.cache.setBuf b y with
        disk := put s.cache.disk x.dev x.blockno (if a.error = true then a.garbage else x.data) } }
  else if a.error = true then { s with cache := s.cache.setBuf b y }
  else
    { s with
      cache := s.cache.setBuf b { y with data := s.cache.disk x.dev x.blockno }
      given := put s.given x.dev x.blockno none }

variable [DecidableEq η]

def State.setUse (s : State η D) (h : η) (u : Use) : State η D :=
  { s with cache := s.cache.setUse h u }

def next (s : State η D) : Event η D → State η D
  | (.readDone h dev blockno b, a) | (.writeDone h dev blockno b, a) =>
    (ideintr s b a).setUse h (.holding dev blockno b false)
  | (.modify h dev blockno b u d, _) =>
    ⟨BufferCache.next s.cache (.modify h dev blockno b u d), put s.given dev blockno (some d)⟩
  | (.logWrite h dev blockno b u, _) =>
    ⟨BufferCache.next s.cache (.logWrite h dev blockno b u),
      put s.given dev blockno (some (s.cache.buf b).data)⟩
  | (.bwrite h dev blockno b u, _) =>
    ⟨BufferCache.next s.cache (.bwrite h dev blockno b u),
      put s.given dev blockno (some (s.cache.buf b).data)⟩
  | (e, _) => { s with cache := BufferCache.next s.cache e }

def machine : Machine (State η D) (Event η D) where
  enabled s e := BufferCache.Enabled s.cache e.1
  next := next

/-- No read ends with an error. -/
def ReadsSucceed (_ : State η D) : Event η D → Prop
  | (.readDone _ _ _ _, a) => a.error = false
  | _ => True

/-- The newest contents given to the block, or else what the disk has of it. -/
def newest (s : State η D) (dev : Dev) (blockno : BlockNo) : D :=
  (s.given dev blockno).getD (s.cache.disk dev blockno)

/-- bread() returns to a handle by making it `holding`. -/
structure Truthful (s : State η D) : Prop where
  valid : ∀ b, (s.cache.buf b).valid = true →
    (s.cache.buf b).data = newest s (s.cache.buf b).dev (s.cache.buf b).blockno
  held : ∀ h dev blockno b u, s.cache.use h = .holding dev blockno b u →
    Holds s.cache b dev blockno ∧ (s.cache.buf b).valid = true ∧
      (s.cache.buf b).data = newest s dev blockno

/-! A cache over an imaginary disk that has what is newest. -/

def ghost (s : State η D) : BufferCache.State η D :=
  { s.cache with disk := newest s, content := newest s }

structure Sound [Fintype η] (s : State η D) : Prop where
  cache : Cache (ghost s)
  dirty : ∀ b, (s.cache.buf b).dirty = true →
    (s.given (s.cache.buf b).dev (s.cache.buf b).blockno).isSome = true

section Ghosts

variable [Fintype η]

theorem Sound.truthful {s : State η D} (k : Sound s) : Truthful s where
  valid b hv := k.cache.contents.data b _ _ ⟨rfl, rfl⟩ hv
  held h dev blockno b u hw := by
    have hb := k.cache.contents.given h dev blockno b (Or.inr (Or.inr (Or.inl ⟨u, hw⟩)))
    have hlk : locked (s.cache.use h) = some b := locked_of_eq hw rfl
    have hv := k.cache.contents.held h b hlk (by
      intro v n hr
      exact absurd (hw.symm.trans hr) nofun)
    exact ⟨hb, hv, k.cache.contents.data b dev blockno hb hv⟩

/-- The disk of a cache may catch up. -/
theorem cache_settle {g : BufferCache.State η D} (k : Cache g) :
    Cache { g with disk := g.content } := by
  obtain ⟨h1, h2, h3, h4⟩ := k
  exact ⟨h1, h2, h3, ⟨h4.1, h4.2, h4.3, h4.4, h4.5, h4.6, h4.7, fun _ _ _ => rfl⟩⟩

/-- A block that no valid buffer has may be anything. -/
theorem cache_put {g : BufferCache.State η D} (k : Cache g) (dev : Dev) (blockno : BlockNo)
    (hb : ∀ b, Holds g b dev blockno → (g.buf b).valid = false) (d : D) :
    Cache { g with
      disk := put g.disk dev blockno d
      content := put g.content dev blockno d } := by
  obtain ⟨h1, h2, h3, h4⟩ := k
  refine ⟨h1, h2, h3, ⟨h4.1, h4.2, h4.3, h4.4, h4.5, h4.6, ?_, ?_⟩⟩
  · intro b v n hh hv
    have hne : ¬ (v = dev ∧ n = blockno) := by
      rintro ⟨rfl, rfl⟩
      exact absurd ((hb b hh).symm.trans hv) nofun
    exact (h4.7 b v n hh hv).trans (if_neg hne).symm
  · intro v n hc
    by_cases hvn : v = dev ∧ n = blockno
    · exact (if_pos hvn).trans (if_pos hvn).symm
    · exact (if_neg hvn).trans ((h4.8 v n hc).trans (if_neg hvn).symm)

/-! Each event. -/

variable {s t : State η D} {h : η} {dev : Dev} {blockno : BlockNo} {b : BufNo}

theorem ghost_eq {c : BufferCache.State η D} (hd : c.disk = s.cache.disk) :
    ghost ⟨c, s.given⟩ = { c with disk := newest s, content := newest s } := by
  have hn : newest ⟨c, s.given⟩ = newest s := by
    funext v n
    simp only [newest, hd]
  rw [ghost, hn]

theorem ghost_put {c : BufferCache.State η D} (hd : c.disk = s.cache.disk) (d : D) :
    ghost ⟨c, put s.given dev blockno (some d)⟩ = { c with
      disk := put (newest s) dev blockno d
      content := put (newest s) dev blockno d } := by
  have hn : newest ⟨c, put s.given dev blockno (some d)⟩ = put (newest s) dev blockno d := by
    funext v n
    simp only [newest, put, hd]
    split <;> rfl
  rw [ghost, hn]

theorem ghost_load {c : BufferCache.State η D} (hd : c.disk = s.cache.disk) :
    ghost ⟨c, put s.given dev blockno none⟩ = { c with
      disk := put (newest s) dev blockno (s.cache.disk dev blockno)
      content := put (newest s) dev blockno (s.cache.disk dev blockno) } := by
  have hn : newest ⟨c, put s.given dev blockno none⟩ =
      put (newest s) dev blockno (s.cache.disk dev blockno) := by
    funext v n
    simp only [newest, put, hd]
    split
    · rename_i hvn
      rw [hvn.1, hvn.2]
      rfl
    · rfl
  rw [ghost, hn]

/-- A buffer changes and no block loses what it was given. -/
theorem dirty_update {x : Buf D}
    (k : ∀ b, (s.cache.buf b).dirty = true →
      (s.given (s.cache.buf b).dev (s.cache.buf b).blockno).isSome = true)
    (hbuf : t.cache.buf = Function.update s.cache.buf b x)
    (hx : x.dirty = true → (t.given x.dev x.blockno).isSome = true)
    (hgiven : ∀ v n, (s.given v n).isSome = true → (t.given v n).isSome = true) (c : BufNo)
    (hc : (t.cache.buf c).dirty = true) :
    (t.given (t.cache.buf c).dev (t.cache.buf c).blockno).isSome = true := by
  rw [hbuf] at hc ⊢
  by_cases hcb : c = b
  · rw [hcb, Function.update_self] at hc ⊢
    exact hx hc
  · rw [Function.update_of_ne hcb] at hc ⊢
    exact hgiven _ _ (k c hc)

theorem given_put (given : Dev → BlockNo → Option D) (dev : Dev) (blockno : BlockNo) (d : D)
    (v : Dev) (n : BlockNo) (hg : (given v n).isSome = true) :
    (put given dev blockno (some d) v n).isSome = true := by
  simp only [put]
  split
  · rfl
  · exact hg

theorem bget_fields (s : BufferCache.State η D) (h : η) (dev : Dev) (blockno : BlockNo) :
    (BufferCache.bget s h dev blockno).disk = s.disk ∧
      ((BufferCache.bget s h dev blockno).buf = s.buf ∨ ∃ b x,
        (BufferCache.bget s h dev blockno).buf = Function.update s.buf b x ∧
        (x.dirty = true → (s.buf b).dirty = true ∧ x.dev = (s.buf b).dev ∧
          x.blockno = (s.buf b).blockno)) := by
  simp only [BufferCache.bget]
  cases BufferCache.cached s dev blockno with
  | some b => exact ⟨rfl, Or.inr ⟨b, _, rfl, fun hd => ⟨hd, rfl, rfl⟩⟩⟩
  | none =>
    cases BufferCache.unused s with
    | some b => exact ⟨rfl, Or.inr ⟨b, _, rfl, fun hd => by cases hd⟩⟩
    | none => exact ⟨rfl, Or.inl rfl⟩

theorem bget_ghost (s : State η D) (h : η) (dev : Dev) (blockno : BlockNo) :
    BufferCache.bget (ghost s) h dev blockno =
      { BufferCache.bget s.cache h dev blockno with disk := newest s, content := newest s } := by
  have hcached : BufferCache.cached (ghost s) dev blockno = BufferCache.cached s.cache dev blockno :=
    rfl
  have hunused : BufferCache.unused (ghost s) = BufferCache.unused s.cache := rfl
  simp only [BufferCache.bget, hcached, hunused]
  cases BufferCache.cached s.cache dev blockno with
  | some b => rfl
  | none => cases BufferCache.unused s.cache <;> rfl

theorem brelse_ghost (s : State η D) (h : η) (b : BufNo) :
    BufferCache.brelse (ghost s) h b =
      { BufferCache.brelse s.cache h b with disk := newest s, content := newest s } := by
  have href : ((ghost s).setBuf b { (ghost s).buf b with
      refcnt := ((ghost s).buf b).refcnt - 1 }).buf b = (s.cache.setBuf b { s.cache.buf b with
      refcnt := (s.cache.buf b).refcnt - 1 }).buf b := rfl
  simp only [BufferCache.brelse, href]
  split <;> rfl

theorem bget_sound (k : Sound s) (hidle : s.cache.use h = .idle) :
    Sound { s with cache := BufferCache.bget s.cache h dev blockno } := by
  obtain ⟨hdisk, hbuf⟩ := bget_fields s.cache h dev blockno
  refine ⟨?_, ?_⟩
  · rw [ghost_eq hdisk, ← bget_ghost]
    exact bget_cache k.cache hidle
  · rcases hbuf with hbuf | ⟨b, x, hbuf, hx⟩
    · intro c hc
      rw [hbuf] at hc ⊢
      exact k.dirty c hc
    · refine dirty_update k.dirty hbuf ?_ fun _ _ hg => hg
      intro hd
      obtain ⟨hd, hv, hn⟩ := hx hd
      rw [hv, hn]
      exact k.dirty b hd

/-- The holder gives new contents to the block. -/
theorem give_sound (k : Sound s) {e : BufferCache.Event η D} (he : BufferCache.Enabled s.cache e)
    {d : D} {x : Buf D}
    (hbuf : (BufferCache.next s.cache e).buf = Function.update s.cache.buf b x)
    (hx : x.dev = dev ∧ x.blockno = blockno)
    (hdisk : (BufferCache.next s.cache e).disk = s.cache.disk)
    (hghost : { BufferCache.next (ghost s) e with
        disk := (BufferCache.next (ghost s) e).content } =
      { BufferCache.next s.cache e with
        disk := put (newest s) dev blockno d
        content := put (newest s) dev blockno d }) :
    Sound ⟨BufferCache.next s.cache e, put s.given dev blockno (some d)⟩ := by
  refine ⟨?_, ?_⟩
  · have hc : Cache (BufferCache.next (ghost s) e) := next_cache k.cache he
    rw [ghost_put hdisk, ← hghost]
    exact cache_settle hc
  · refine dirty_update k.dirty hbuf ?_ (given_put s.given dev blockno d)
    intro _
    rw [hx.1, hx.2]
    simp only [put, and_self, if_true, Option.isSome_some]

/-- Contents given again are not new. -/
theorem put_newest (k : Sound s) {u : Bool} (hw : s.cache.use h = .holding dev blockno b u) :
    put (newest s) dev blockno (s.cache.buf b).data = newest s := by
  obtain ⟨-, -, hdata⟩ := k.truthful.held h dev blockno b u hw
  funext v n
  simp only [put]
  split
  · rename_i hvn
    rw [hvn.1, hvn.2, hdata]
  · rfl

theorem ordinary_sound (k : Sound s) {e : BufferCache.Event η D}
    (he : BufferCache.Enabled s.cache e) {x : Buf D}
    (hbuf : (BufferCache.next s.cache e).buf = Function.update s.cache.buf b x)
    (hx : x.dirty = (s.cache.buf b).dirty ∧ x.dev = (s.cache.buf b).dev ∧
      x.blockno = (s.cache.buf b).blockno)
    (hdisk : (BufferCache.next s.cache e).disk = s.cache.disk)
    (hghost : BufferCache.next (ghost s) e =
      { BufferCache.next s.cache e with disk := newest s, content := newest s }) :
    Sound { s with cache := BufferCache.next s.cache e } := by
  refine ⟨?_, ?_⟩
  · have hc : Cache (BufferCache.next (ghost s) e) := next_cache k.cache he
    rw [ghost_eq hdisk, ← hghost]
    exact hc
  · refine dirty_update k.dirty hbuf ?_ fun _ _ hg => hg
    intro hd
    rw [hx.2.1, hx.2.2]
    exact k.dirty b (hx.1.symm.trans hd)

theorem readDone_sound (k : Sound s) (he : BufferCache.Enabled s.cache (.readDone h dev blockno b))
    {a : Answer D} (ha : a.error = false) :
    Sound ((ideintr s b a).setUse h (.holding dev blockno b false)) := by
  have hw : s.cache.use h = .reading dev blockno b := he.2
  have hon : on (s.cache.use h) = some b := by
    rw [hw]
    rfl
  obtain ⟨rfl, rfl⟩ := k.cache.contents.given h dev blockno b (Or.inr (Or.inl hw))
  obtain ⟨hv, hd⟩ := k.cache.contents.reading h _ _ b hw
  have halone : ∀ c, c ≠ b → Holds s.cache c ((ghost s).buf b).dev ((ghost s).buf b).blockno →
      (s.cache.buf c).valid = false ∧ (s.cache.buf c).dirty = false := by
    intro c hcb hc
    have hfresh := k.cache.ring.alone hon c _ _ hcb ⟨rfl, rfl⟩ hc
    exact ⟨hfresh.1, hfresh.2.1⟩
  have ht : ideintr s b a = ⟨s.cache.setBuf b { s.cache.buf b with
      valid := true
      dirty := false
      data := s.cache.disk (s.cache.buf b).dev (s.cache.buf b).blockno },
      put s.given (s.cache.buf b).dev (s.cache.buf b).blockno none⟩ := by
    have hdirty : (s.cache.buf b).dirty = false := hd
    simp only [ideintr, ha, hdirty, Bool.false_eq_true, if_false]
  rw [ht]
  refine ⟨?_, ?_⟩
  · have hinvalid : ∀ c, Holds (ghost s) c ((ghost s).buf b).dev ((ghost s).buf b).blockno →
        ((ghost s).buf c).valid = false := by
      intro c hc
      by_cases hcb : c = b
      · rw [hcb]
        exact hv
      · exact (halone c hcb hc).1
    have hcache := cache_put k.cache _ _ hinvalid
      (s.cache.disk (s.cache.buf b).dev (s.cache.buf b).blockno)
    have hnext := next_cache hcache (e := .readDone h _ _ b) he
    have hd' : ((ghost s).buf b).dirty = false := hd
    have hself : ∀ f : Dev → BlockNo → D, ∀ v n d, put f v n d v n = d :=
      fun f v n d => if_pos ⟨rfl, rfl⟩
    simp only [BufferCache.next, BufferCache.ideintr, hd', Bool.false_eq_true, if_false,
      hself] at hnext
    change Cache (ghost ⟨(s.cache.setBuf b _).setUse h _, put s.given _ _ none⟩)
    rw [ghost_load (show ((s.cache.setBuf b _).setUse h _).disk = s.cache.disk from rfl)]
    exact hnext
  · intro c hc
    have hcb : c ≠ b := by
      rintro rfl
      simp only [State.setUse, BufferCache.State.setUse, BufferCache.State.setBuf,
        Function.update_self] at hc
      cases hc
    simp only [State.setUse, BufferCache.State.setUse, BufferCache.State.setBuf,
      Function.update_of_ne hcb] at hc ⊢
    have hne : ¬ ((s.cache.buf c).dev = (s.cache.buf b).dev ∧
        (s.cache.buf c).blockno = (s.cache.buf b).blockno) := by
      intro hblock
      cases (halone c hcb hblock).2.symm.trans hc
    rw [put, if_neg hne]
    exact k.dirty c hc

theorem writeDone_sound (k : Sound s)
    (he : BufferCache.Enabled s.cache (.writeDone h dev blockno b)) (a : Answer D) :
    Sound ((ideintr s b a).setUse h (.holding dev blockno b false)) := by
  have hw : s.cache.use h = .writing dev blockno b := he.2
  have hd : (s.cache.buf b).dirty = true := k.cache.contents.writing h dev blockno b hw
  have hgiven := k.dirty b hd
  have hnewest : newest (ideintr s b a) = newest s := by
    funext v n
    simp only [ideintr, hd, if_true, newest, put]
    split
    · rename_i hvn
      obtain ⟨d, hsome⟩ := Option.isSome_iff_exists.mp hgiven
      rw [hvn.1, hvn.2, hsome]
      rfl
    · rfl
  have hcache : Cache (BufferCache.next (ghost s) (.writeDone h dev blockno b)) :=
    next_cache k.cache he
  refine ⟨?_, ?_⟩
  · have hghost : ghost ((ideintr s b a).setUse h (.holding dev blockno b false)) =
        { BufferCache.next (ghost s) (.writeDone h dev blockno b) with
          disk := (BufferCache.next (ghost s) (.writeDone h dev blockno b)).content } := by
      have hd' : ((ghost s).buf b).dirty = true := hd
      have hn : newest ((ideintr s b a).setUse h (.holding dev blockno b false)) = newest s :=
        hnewest
      rw [ghost, hn]
      simp only [BufferCache.next, BufferCache.ideintr, hd', if_true, ideintr, hd]
      rfl
    rw [hghost]
    exact cache_settle hcache
  · refine dirty_update (b := b) (x := { s.cache.buf b with valid := true, dirty := false }) k.dirty
      ?_ (by rintro ⟨⟩) ?_
    · simp only [ideintr, hd, if_true]
      rfl
    · simp only [ideintr, hd, if_true]
      exact fun _ _ hg => hg

theorem next_sound (k : Sound s) {e : Event η D} (he : machine.enabled s e)
    (hok : ReadsSucceed s e) : Sound (machine.next s e) := by
  obtain ⟨e, a⟩ := e
  replace he : BufferCache.Enabled s.cache e := he
  cases e with
  | bget h dev blockno => exact bget_sound k he.2
  | acquiresleep h dev blockno b =>
    exact ordinary_sound k he (Function.update_eq_self b s.cache.buf).symm ⟨rfl, rfl, rfl⟩ rfl rfl
  | readDone h dev blockno b => exact readDone_sound k he hok
  | modify h dev blockno b u d =>
    have hw : s.cache.use h = .holding dev blockno b u := he.2
    have hb := (k.truthful.held h dev blockno b u hw).1
    exact give_sound (d := d) k he rfl hb rfl rfl
  | logWrite h dev blockno b u =>
    have hw : s.cache.use h = .holding dev blockno b u := he.2
    have hb := (k.truthful.held h dev blockno b u hw).1
    refine give_sound (d := (s.cache.buf b).data) k he rfl hb rfl ?_
    rw [put_newest k hw]
    rfl
  | bwrite h dev blockno b u =>
    have hw : s.cache.use h = .holding dev blockno b u := he.2
    have hb := (k.truthful.held h dev blockno b u hw).1
    refine give_sound (d := (s.cache.buf b).data) k he rfl hb rfl ?_
    rw [put_newest k hw]
    rfl
  | writeDone h dev blockno b => exact writeDone_sound k he a
  | releasesleep h dev blockno b =>
    exact ordinary_sound k he (Function.update_eq_self b s.cache.buf).symm ⟨rfl, rfl, rfl⟩ rfl rfl
  | brelse h b =>
    obtain ⟨hbuf, -, -, hdisk, -⟩ := brelse_fields s.cache h b
    exact ordinary_sound k he hbuf ⟨rfl, rfl, rfl⟩ hdisk (brelse_ghost s h b)

/-! Whole runs. -/

theorem initial_sound (zero : D) (disk : Dev → BlockNo → D) :
    Sound (initial zero disk : State η D) where
  cache := initial_cache zero disk
  dirty _ hd := absurd hd nofun

theorem truthful_without_read_errors {zero : D} {disk : Dev → BlockNo → D}
    {es : List (Event η D)} {s : State η D}
    (r : Run (Guarded machine.Step ReadsSucceed) (· = initial zero disk) es s) : Truthful s := by
  refine (r.invariant (I := Sound) ?_ ?_).truthful
  · rintro s rfl
    exact initial_sound zero disk
  · rintro s e t k ⟨hok, he, rfl⟩
    exact next_sound k he hok

end Ghosts

instance (s : State η D) (e : Event η D) : Decidable (machine.enabled s e) :=
  inferInstanceAs (Decidable (BufferCache.Enabled s.cache e.1))

instance (s : State η D) : (e : Event η D) → Decidable (ReadsSucceed s e)
  | (e, a) => by
    induction e using BufferCache.Event.casesOn <;> unfold ReadsSucceed <;> infer_instance

def fine : Answer ℕ := ⟨false, 0⟩

def broken : Answer ℕ := ⟨true, 0⟩

/-- Block 5 is read and changed, and the command to write it fails. -/
def lostWrite : List (Event (Fin 1) ℕ) :=
  [(.bget 0 1 5, fine), (.acquiresleep 0 1 5 tail, fine), (.readDone 0 1 5 tail, fine),
   (.modify 0 1 5 tail false 9, fine), (.bwrite 0 1 5 tail true, fine),
   (.writeDone 0 1 5 tail, broken)]

theorem truthful_lostWrite :
    Truthful (machine.exec (initial 0 fun _ n => n.toNat) lostWrite) ∧
      ((machine.exec (initial 0 fun _ n => n.toNat) lostWrite).cache.buf tail).data = 9 ∧
      (machine.exec (initial 0 fun _ n => n.toNat) lostWrite).cache.disk 1 5 = 0 := by
  refine ⟨truthful_without_read_errors (Machine.Valid.guarded_run ?_), ?_, ?_⟩
  · decide +kernel
  · decide +kernel
  · decide +kernel

/-- Block 5 is read into the buffer at the end of the list, the other buffers are taken, and the
command to read block 6 into the same buffer fails. -/
def failedRead : List (Event (Fin 30) ℕ) :=
  [(.bget 0 1 5, fine), (.acquiresleep 0 1 5 tail, fine), (.readDone 0 1 5 tail, fine),
   (.releasesleep 0 1 5 tail, fine), (.brelse 0 tail, fine)] ++
  (List.finRange 29).map (fun i => (.bget i.succ 1 (BitVec.ofNat 32 (100 + i)), fine)) ++
  [(.bget 0 1 6, fine), (.acquiresleep 0 1 6 tail, fine), (.readDone 0 1 6 tail, broken)]

/-- The buffer of block 6 is marked valid with the data of block 5. -/
theorem failedRead_stale :
    Run machine.Step (· = initial 0 fun _ n => n.toNat) failedRead
        (machine.exec (initial 0 fun _ n => n.toNat) failedRead) ∧
      ((machine.exec (initial 0 fun _ n => n.toNat) failedRead).cache.buf tail).data = 5 ∧
      newest (machine.exec (initial 0 fun _ n => n.toNat) failedRead) 1 6 = 6 ∧
      ¬ Truthful (machine.exec (initial 0 fun _ n => n.toNat) failedRead) := by
  have huse : (machine.exec (initial 0 fun _ n => n.toNat) failedRead).cache.use 0 =
      .holding 1 6 tail false := by decide +kernel
  have hdata : ((machine.exec (initial 0 fun _ n => n.toNat) failedRead).cache.buf tail).data = 5 :=
    by decide +kernel
  have hnewest : newest (machine.exec (initial 0 fun _ n => n.toNat) failedRead) 1 6 = 6 := by
    decide +kernel
  refine ⟨Machine.Valid.run (by decide +kernel), hdata, hnewest, ?_⟩
  intro htrue
  obtain ⟨-, -, heq⟩ := htrue.held 0 1 6 tail false huse
  rw [hdata, hnewest] at heq
  exact absurd heq (by decide)

end DiskErrors
