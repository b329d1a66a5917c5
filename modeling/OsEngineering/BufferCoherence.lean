import OsEngineering.BufferCache
import Mathlib.Data.Fintype.Card

/-! Representation and coherence of the buffer cache, whatever its callers do. -/
set_option linter.unusedSectionVars false

namespace BufferCoherence

open CircularList FiniteTally KernelParams TransitionSystem BufferCache

/-- The buffer a handle counts a reference of. -/
def on : Use → Option BufNo
  | .idle => none
  | .waiting _ _ b | .reading _ _ b | .holding _ _ b _ | .writing _ _ b | .releasing b => some b

/-- The buffer a handle has locked. -/
def locked : Use → Option BufNo
  | .reading _ _ b | .holding _ _ b _ | .writing _ _ b => some b
  | _ => none

/-- The handle was given `b` for the block. -/
def Given (u : Use) (dev : Dev) (blockno : BlockNo) (b : BufNo) : Prop :=
  u = .waiting dev blockno b ∨ u = .reading dev blockno b ∨
    (∃ m, u = .holding dev blockno b m) ∨ u = .writing dev blockno b

variable {η D : Type*}

def Holds (s : State η D) (b : BufNo) (dev : Dev) (blockno : BlockNo) : Prop :=
  (s.buf b).dev = dev ∧ (s.buf b).blockno = blockno

/-- Block 0 of device 0, which every buffer claims to hold at first. -/
def Unset (dev : Dev) (blockno : BlockNo) : Prop := dev = 0 ∧ blockno = 0

/-- Nothing was read into the buffer and nobody refers to it. -/
def Fresh (s : State η D) (b : BufNo) : Prop :=
  (s.buf b).valid = false ∧ (s.buf b).dirty = false ∧ ∀ h, on (s.use h) ≠ some b

/-- Of two buffers of one block the one bget() finds later is fresh. -/
def Ahead (s : State η D) (b c : BufNo) : Prop :=
  ∀ dev blockno, Holds s b dev blockno → Holds s c dev blockno → Fresh s c

def Alone (s : State η D) (b : BufNo) : Prop :=
  ∀ c dev blockno, c ≠ b → Holds s b dev blockno → Holds s c dev blockno → Fresh s c

/-- The list through head has every buffer once. -/
def Ring (s : State η D) : Prop :=
  ∃ l, Linked s.links l ∧ (∀ b, b ∈ l) ∧ l.Pairwise (Ahead s)

def Refs [Fintype η] (s : State η D) : Prop :=
  ∀ b, (s.buf b).refcnt = tally (fun h => on (s.use h)) b

def Locks (s : State η D) : Prop := ∀ h b, locked (s.use h) = some b ↔ s.lock b = some h

/-- No buffer of the block is ahead of the disk. -/
def Clean (s : State η D) (dev : Dev) (blockno : BlockNo) : Prop :=
  ∀ b, Holds s b dev blockno →
    (s.buf b).dirty = false ∧ ∀ h, s.use h ≠ .holding dev blockno b true

structure Contents (s : State η D) : Prop where
  unique : ∀ b c dev blockno, Holds s b dev blockno → Holds s c dev blockno →
    ¬ Unset dev blockno → b = c
  given : ∀ h dev blockno b, Given (s.use h) dev blockno b → Holds s b dev blockno
  reading : ∀ h dev blockno b, s.use h = .reading dev blockno b →
    (s.buf b).valid = false ∧ (s.buf b).dirty = false
  held : ∀ h b, locked (s.use h) = some b → (∀ dev blockno, s.use h ≠ .reading dev blockno b) →
    (s.buf b).valid = true
  writing : ∀ h dev blockno b, s.use h = .writing dev blockno b → (s.buf b).dirty = true
  dirty_valid : ∀ b, (s.buf b).dirty = true → (s.buf b).valid = true
  data : ∀ b dev blockno, Holds s b dev blockno → (s.buf b).valid = true →
    (s.buf b).data = s.content dev blockno
  disk : ∀ dev blockno, Clean s dev blockno → s.disk dev blockno = s.content dev blockno

theorem Given.on {u : Use} {dev : Dev} {blockno : BlockNo} {b : BufNo}
    (h : Given u dev blockno b) : on u = some b := by
  rcases h with rfl | rfl | ⟨m, rfl⟩ | rfl <;> rfl

theorem on_of_locked {u : Use} {b : BufNo} (h : locked u = some b) : on u = some b := by
  cases u <;> simp_all [locked, on]

theorem length_of_nodup {l : List BufNo} (h : l.Nodup) : l.length < NBUF + 1 := by
  have hle := h.length_le_card
  rw [Fintype.card_fin] at hle
  omega

/-! Finding a buffer. -/

/-- bget() finds the first buffer of the block, so the others are fresh. -/
theorem cached_some {s : State η D} {dev : Dev} {blockno : BlockNo} {b : BufNo} (h : Ring s)
    (hb : cached s dev blockno = some b) :
    Holds s b dev blockno ∧ ∃ l r, Linked s.links (l ++ b :: r) ∧ (∀ c, c ∈ l ++ b :: r) ∧
      (l ++ b :: r).Pairwise (Ahead s) ∧ ∀ c ∈ l, ¬ Holds s c dev blockno := by
  obtain ⟨l, hl, hall, hord⟩ := h
  rw [cached, hl.scan_next _ (length_of_nodup hl.nodup), List.find?_eq_some_iff_append] at hb
  obtain ⟨hb, m, r, rfl, hm⟩ := hb
  refine ⟨by simpa [Holds] using hb, m, r, hl, hall, hord, ?_⟩
  intro c hc hh
  simpa [hh.1, hh.2] using hm c hc

theorem cached_none {s : State η D} {dev : Dev} {blockno : BlockNo} (h : Ring s)
    (hb : cached s dev blockno = none) (b : BufNo) : ¬ Holds s b dev blockno := by
  obtain ⟨l, hl, hall, -⟩ := h
  rw [cached, hl.scan_next _ (length_of_nodup hl.nodup)] at hb
  have hnot := List.find?_eq_none.mp hb b (hall b)
  simpa [Holds] using hnot

theorem unused_some {s : State η D} {b : BufNo} (h : Ring s) (hb : unused s = some b) :
    (s.buf b).refcnt = 0 ∧ (s.buf b).dirty = false := by
  obtain ⟨l, hl, -⟩ := h
  rw [unused, hl.scan_prev _ (length_of_nodup hl.nodup)] at hb
  simpa using List.find?_some hb

/-! The list. -/

/-- A buffer in use is ahead of the others of its block. -/
theorem Ring.alone {s : State η D} (h : Ring s) {g : η} {b : BufNo}
    (hb : on (s.use g) = some b) : Alone s b := by
  obtain ⟨l, -, hall, hord⟩ := h
  intro c dev blockno hcb hhb hhc
  obtain ⟨m, r, rfl⟩ := List.append_of_mem (hall b)
  obtain ⟨-, hr, hm⟩ := List.pairwise_append.mp hord
  rcases List.mem_append.mp (hall c) with hc | hc
  · have hfresh := hm c hc b List.mem_cons_self dev blockno hhc hhb
    exact absurd hb (hfresh.2.2 g)
  · rcases List.mem_cons.mp hc with rfl | hc
    · exact absurd rfl hcb
    · exact (List.pairwise_cons.mp hr).1 c hc dev blockno hhb hhc

theorem Ring.keep {s t : State η D} (h : Ring s) (hl : t.links = s.links)
    (ha : ∀ b c, b ≠ c → Ahead s b c → Ahead t b c) : Ring t := by
  obtain ⟨l, hlinked, hall, hord⟩ := h
  refine ⟨l, hl ▸ hlinked, hall, ?_⟩
  exact (hord.and hlinked.nodup).imp fun hbc => ha _ _ hbc.2 hbc.1

/-- brelse() puts the buffer it used in front. -/
theorem Ring.moved {s t : State η D} (h : Ring s) {b : BufNo} (ha : Alone s b)
    (hl : t.links = (s.links.unlink b).pushFront b)
    (hfront : ∀ c, c ≠ b → Alone s b → Ahead t b c)
    (hrest : ∀ c d, c ≠ b → d ≠ b → Ahead s c d → Ahead t c d) : Ring t := by
  obtain ⟨l, hlinked, hall, hord⟩ := h
  obtain ⟨m, r, rfl⟩ := List.append_of_mem (hall b)
  obtain ⟨hb, hnd⟩ := List.nodup_cons.mp (List.nodup_middle.mp hlinked.nodup)
  have hne : ∀ c ∈ m ++ r, c ≠ b := fun c hc heq => hb (heq ▸ hc)
  refine ⟨b :: (m ++ r), hl ▸ linked_pushFront (linked_unlink hlinked) hb, ?_, ?_⟩
  · intro c
    have hc := hall c
    simp only [List.mem_append, List.mem_cons] at hc ⊢
    rcases hc with hc | rfl | hc
    · exact Or.inr (Or.inl hc)
    · exact Or.inl rfl
    · exact Or.inr (Or.inr hc)
  · refine List.pairwise_cons.mpr ⟨fun c hc => hfront c (hne c hc) ha, ?_⟩
    have hsub : List.Sublist (m ++ r) (m ++ b :: r) :=
      List.Sublist.append_left (List.sublist_cons_self b r) m
    refine (hord.sublist hsub).imp_of_mem ?_
    intro c d hc hd
    exact hrest c d (hne c hc) (hne d hd)

theorem linked_fold (bs : List BufNo) {k : Links BufNo} {l : List BufNo} (h : Linked k l)
    (hnd : bs.Nodup) (hdis : ∀ b ∈ bs, b ∉ l) :
    ∃ m, Linked (bs.foldl Links.pushFront k) m ∧ ∀ b, b ∈ m ↔ b ∈ bs ∨ b ∈ l := by
  induction bs generalizing k l with
  | nil => exact ⟨l, h, by simp⟩
  | cons b bs ih =>
    obtain ⟨hb, hbs⟩ := List.nodup_cons.mp hnd
    have hdis' : ∀ c ∈ bs, c ∉ b :: l := by
      intro c hc hmem
      rcases List.mem_cons.mp hmem with rfl | hmem
      · exact hb hc
      · exact hdis c (List.mem_cons_of_mem b hc) hmem
    obtain ⟨m, hm, hmem⟩ := ih (linked_pushFront h (hdis b List.mem_cons_self)) hbs hdis'
    refine ⟨m, hm, ?_⟩
    intro c
    rw [hmem, List.mem_cons, List.mem_cons]
    exact or_left_comm.trans or_assoc.symm

theorem initial_ring (zero : D) (disk : Dev → BlockNo → D) :
    Ring (initial zero disk : State η D) := by
  have hnil : Linked (⟨fun _ => none, fun _ => none⟩ : Links BufNo) [] :=
    ⟨⟨rfl, rfl⟩, List.nodup_nil⟩
  obtain ⟨l, hl, hmem⟩ := linked_fold (List.finRange NBUF) hnil (List.nodup_finRange NBUF)
    (fun _ _ => List.not_mem_nil)
  refine ⟨l, hl, fun b => (hmem b).mpr (Or.inl (List.mem_finRange b)), ?_⟩
  exact List.pairwise_of_forall fun b c _ _ _ _ => ⟨rfl, rfl, fun h => nofun⟩

/-! References and locks. -/

section Handles

variable [DecidableEq η]

@[simp] theorem setUse_self (s : State η D) (h : η) (u : Use) : (s.setUse h u).use h = u :=
  Function.update_self ..
theorem setUse_of_ne (s : State η D) {h g : η} (u : Use) (hg : g ≠ h) :
    (s.setUse h u).use g = s.use g := Function.update_of_ne hg ..
@[simp] theorem setBuf_self (s : State η D) (b : BufNo) (x : Buf D) : (s.setBuf b x).buf b = x :=
  Function.update_self ..
theorem setBuf_of_ne (s : State η D) {b c : BufNo} (x : Buf D) (hc : c ≠ b) :
    (s.setBuf b x).buf c = s.buf c := Function.update_of_ne hc ..

theorem locks_setUse {s : State η D} (h : Locks s) (g : η) (u : Use)
    (hu : locked u = locked (s.use g)) : Locks (s.setUse g u) := by
  intro f b
  by_cases hf : f = g
  · subst hf
    rw [setUse_self, hu]
    exact h f b
  · rw [setUse_of_ne s u hf]
    exact h f b

variable [Fintype η]

theorem tally_setUse (s : State η D) (h : η) (u : Use) (b : BufNo) :
    tally (fun g => on ((s.setUse h u).use g)) b + (if on (s.use h) = some b then 1 else 0) =
      tally (fun g => on (s.use g)) b + if on u = some b then 1 else 0 := by
  have hf : (fun g => on ((s.setUse h u).use g)) =
      Function.update (fun g => on (s.use g)) h (on u) := by
    funext g
    by_cases hg : g = h
    · subst hg
      rw [setUse_self, Function.update_self]
    · rw [setUse_of_ne s u hg, Function.update_of_ne hg]
  rw [hf]
  exact tally_update (fun g => on (s.use g)) h (on u) b

theorem not_on_of_unused {s : State η D} (h : Refs s) {b : BufNo} (hb : (s.buf b).refcnt = 0)
    (g : η) : on (s.use g) ≠ some b := by
  intro hg
  have hpos := tally_pos (f := fun g => on (s.use g)) hg
  rw [← h b, hb] at hpos
  exact absurd hpos (lt_irrefl 0)

end Handles

/-! Contents, where a handle and its buffer change. -/

section Changes

variable [DecidableEq η]

/-- What the new content `x` of the buffer `b` and the new use `u` of its holder owe. -/
structure Change (s t : State η D) (h : η) (b : BufNo) (x : Buf D) (u : Use) : Prop where
  buf : t.buf = Function.update s.buf b x
  use : t.use = Function.update s.use h u
  dev : x.dev = (s.buf b).dev
  blockno : x.blockno = (s.buf b).blockno
  before : ∀ c, on (s.use h) = some c → c = b
  given : ∀ dev blockno c, Given u dev blockno c → c = b ∧ Holds s b dev blockno
  reading : ∀ dev blockno c, u = .reading dev blockno c → x.valid = false ∧ x.dirty = false
  held : ∀ c, locked u = some c → (∀ dev blockno, u ≠ .reading dev blockno c) → x.valid = true
  writing : ∀ dev blockno c, u = .writing dev blockno c → x.dirty = true
  others : (x.valid = (s.buf b).valid ∧ x.dirty = (s.buf b).dirty) ∨
    ∀ g, g ≠ h → locked (s.use g) ≠ some b
  dirty_valid : x.dirty = true → x.valid = true
  elsewhere : ∀ dev blockno, ¬ Holds s b dev blockno →
    t.content dev blockno = s.content dev blockno ∧ t.disk dev blockno = s.disk dev blockno
  data : ∀ dev blockno, Holds s b dev blockno → x.valid = true →
    x.data = t.content dev blockno
  disk : ∀ dev blockno, Holds s b dev blockno → Clean t dev blockno →
    t.disk dev blockno = t.content dev blockno
  alone : Alone s b

theorem Contents.change {s t : State η D} {h : η} {b : BufNo} {x : Buf D} {u : Use}
    (k : Contents s) (c : Change s t h b x u) : Contents t := by
  have hbuf : ∀ {d}, d ≠ b → t.buf d = s.buf d := by
    intro d hd
    rw [c.buf, Function.update_of_ne hd]
  have hself : t.buf b = x := by rw [c.buf, Function.update_self]
  have huse : ∀ {g}, g ≠ h → t.use g = s.use g := by
    intro g hg
    rw [c.use, Function.update_of_ne hg]
  have hown : t.use h = u := by rw [c.use, Function.update_self]
  have hholds : ∀ d dev blockno, Holds t d dev blockno ↔ Holds s d dev blockno := by
    intro d dev blockno
    by_cases hd : d = b
    · subst hd
      rw [Holds, Holds, hself, c.dev, c.blockno]
    · rw [Holds, Holds, hbuf hd]
  -- other users of `b` see the flags they saw before, or there are none that could
  have hflags : ∀ {g d}, g ≠ h → locked (s.use g) = some d →
      (t.buf d).valid = (s.buf d).valid ∧ (t.buf d).dirty = (s.buf d).dirty := by
    intro g d hg hl
    by_cases hd : d = b
    · subst hd
      rw [hself]
      rcases c.others with ho | ho
      · exact ho
      · exact absurd hl (ho g hg)
    · rw [hbuf hd]
      exact ⟨rfl, rfl⟩
  constructor
  · intro d e dev blockno hd he hne
    exact k.unique d e dev blockno ((hholds _ _ _).mp hd) ((hholds _ _ _).mp he) hne
  · intro g dev blockno d hg
    rw [hholds]
    by_cases hgh : g = h
    · rw [hgh, hown] at hg
      obtain ⟨rfl, hh⟩ := c.given dev blockno d hg
      exact hh
    · rw [huse hgh] at hg
      exact k.given g dev blockno d hg
  · intro g dev blockno d hg
    by_cases hgh : g = h
    · rw [hgh, hown] at hg
      obtain ⟨rfl, -⟩ := c.given dev blockno d (Or.inr (Or.inl hg))
      rw [hself]
      exact c.reading dev blockno d hg
    · rw [huse hgh] at hg
      obtain ⟨hv, hd⟩ := hflags hgh (by rw [hg]; rfl)
      rw [hv, hd]
      exact k.reading g dev blockno d hg
  · intro g d hg hnr
    by_cases hgh : g = h
    · rw [hgh, hown] at hg hnr
      have hdb : d = b := by
        cases hu : u with
        | holding v n e m =>
          rw [hu] at hg
          have hde : e = d := Option.some.inj hg
          exact hde ▸ (c.given v n e (Or.inr (Or.inr (Or.inl ⟨m, hu⟩)))).1
        | writing v n e =>
          rw [hu] at hg
          have hde : e = d := Option.some.inj hg
          exact hde ▸ (c.given v n e (Or.inr (Or.inr (Or.inr hu)))).1
        | reading v n e =>
          rw [hu] at hg
          have hde : e = d := Option.some.inj hg
          exact hde ▸ (c.given v n e (Or.inr (Or.inl hu))).1
        | _ =>
          rw [hu] at hg
          exact absurd hg nofun
      rw [hdb, hself]
      exact c.held d hg hnr
    · rw [huse hgh] at hg hnr
      rw [(hflags hgh hg).1]
      exact k.held g d hg hnr
  · intro g dev blockno d hg
    by_cases hgh : g = h
    · rw [hgh, hown] at hg
      obtain ⟨rfl, -⟩ := c.given dev blockno d (Or.inr (Or.inr (Or.inr hg)))
      rw [hself]
      exact c.writing dev blockno d hg
    · rw [huse hgh] at hg
      rw [(hflags hgh (by rw [hg]; rfl)).2]
      exact k.writing g dev blockno d hg
  · intro d hd
    by_cases hdb : d = b
    · rw [hdb, hself] at hd ⊢
      exact c.dirty_valid hd
    · rw [hbuf hdb] at hd ⊢
      exact k.dirty_valid d hd
  · intro d dev blockno hd hv
    rw [hholds] at hd
    by_cases hdb : d = b
    · rw [hdb, hself] at hv ⊢
      exact c.data dev blockno (hdb ▸ hd) hv
    · rw [hbuf hdb] at hv ⊢
      have hnb : ¬ Holds s b dev blockno := by
        intro hb
        have hfresh := c.alone d dev blockno hdb hb hd
        rw [hfresh.1] at hv
        exact absurd hv nofun
      rw [(c.elsewhere dev blockno hnb).1]
      exact k.data d dev blockno hd hv
  · intro dev blockno hclean
    by_cases hb : Holds s b dev blockno
    · exact c.disk dev blockno hb hclean
    · obtain ⟨hc, hd⟩ := c.elsewhere dev blockno hb
      rw [hc, hd]
      refine k.disk dev blockno ?_
      intro d hds
      have hdb : d ≠ b := by
        rintro rfl
        exact hb hds
      obtain ⟨hdirty, hno⟩ := hclean d ((hholds _ _ _).mpr hds)
      rw [hbuf hdb] at hdirty
      refine ⟨hdirty, fun g hg => ?_⟩
      by_cases hgh : g = h
      · rw [hgh] at hg
        exact hdb (c.before d (by rw [hg]; rfl))
      · exact hno g ((huse hgh).trans hg)

end Changes

end BufferCoherence
