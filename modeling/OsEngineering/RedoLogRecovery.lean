import OsEngineering.RedoLogCrash

/-! The crash condition of log.c: at every block write the header on disk, the log blocks it
counts and the home blocks it does not name determine a home state, and recovery keeps it. -/
namespace RedoLogRecovery

open KernelParams RedoLog ByteBlock CrashHoare RedoLogCrash

variable (start : BlockNo) (size : ℤ) (reclaim : Mem → BlockNo → Bool)

structure HeadOk (lh : LogHeader) : Prop where
  short : lh.n ≤ LOGSIZE
  room : ∀ i < lh.n, (i : ℤ) + 1 < size
  nodup : lh.blocks.Nodup
  home : ∀ b ∈ lh.blocks, ¬ InLog start size b

/-- The home state the disk stands for: logged blocks are in the log, others at home. -/
structure Recoverable (H : Home) (d : Disk) : Prop where
  head : HeadOk start size (decodeHead (d.blocks start))
  logged : ∀ i < (decodeHead (d.blocks start)).n,
    d.blocks (logBlock start i) = H ((decodeHead (d.blocks start)).block i)
  home : ∀ b, ¬ InLog start size b → b ∉ (decodeHead (d.blocks start)).blocks →
    d.blocks b = H b

def Coherent (m : Mem) (d : Disk) : Prop :=
  ∀ b buf, m.cache b = some buf → buf.dirty = false → buf.data = d.blocks b

/-- Between transactions. -/
structure Ready (H : Home) (k : ℕ) (m : Mem) (d : Disk) : Prop where
  params : m.log.start = start ∧ m.log.size = size ∧ m.log.outstanding = 0
  empty : m.log.lh.n = 0
  coherent : Coherent m d
  clean : ∀ b buf, m.cache b = some buf → buf.dirty = false
  head : (decodeHead (d.blocks start)).n = 0
  home : ∀ b, ¬ InLog start size b → d.blocks b = H b
  count : commits start d = k

/-- Inside a transaction: `H` is on disk, `H'` is what bread() shows. -/
structure Pending (o : ℤ) (H H' : Home) (k : ℕ) (m : Mem) (d : Disk) : Prop where
  params : m.log.start = start ∧ m.log.size = size ∧ m.log.outstanding = o
  ok : HeadOk start size m.log.lh
  coherent : Coherent m d
  dirty : ∀ b buf, m.cache b = some buf → buf.dirty = true →
    b ∈ m.log.lh.blocks ∧ buf.data = H' b
  pinned : ∀ b ∈ m.log.lh.blocks, ∃ buf, m.cache b = some buf ∧ buf.dirty = true
  same : ∀ b, ¬ InLog start size b → b ∉ m.log.lh.blocks → H' b = H b
  head : (decodeHead (d.blocks start)).n = 0
  home : ∀ b, ¬ InLog start size b → d.blocks b = H b
  count : commits start d = k

/-- Inside install_trans(), before the round of index `i`. -/
structure Installing (i : ℕ) (H : Home) (k : ℕ) (m : Mem) (d : Disk) : Prop where
  params : m.log.start = start ∧ m.log.size = size ∧ m.log.outstanding = 0
  ok : HeadOk start size m.log.lh
  coherent : Coherent m d
  dirty : ∀ b buf, m.cache b = some buf → buf.dirty = true →
    ∃ t, i ≤ t ∧ t < m.log.lh.n ∧ m.log.lh.block t = b
  headN : (decodeHead (d.blocks start)).n = m.log.lh.n
  headBlock : ∀ t < m.log.lh.n, (decodeHead (d.blocks start)).block t = m.log.lh.block t
  logged : ∀ t < m.log.lh.n, d.blocks (logBlock start t) = H (m.log.lh.block t)
  installed : ∀ t < m.log.lh.n, t < i → d.blocks (m.log.lh.block t) = H (m.log.lh.block t)
  home : ∀ b, ¬ InLog start size b → b ∉ m.log.lh.blocks → d.blocks b = H b
  count : commits start d = k

variable {start size}

theorem blocks_congr {lh lh' : LogHeader} (hn : lh.n = lh'.n)
    (hb : ∀ t < lh'.n, lh.block t = lh'.block t) : lh.blocks = lh'.blocks := by
  unfold LogHeader.blocks
  rw [hn]
  exact List.map_congr_left fun t ht => hb t (List.mem_range.mp ht)

theorem HeadOk.congr {lh lh' : LogHeader} (h : HeadOk start size lh') (hn : lh.n = lh'.n)
    (hb : ∀ t < lh'.n, lh.block t = lh'.block t) : HeadOk start size lh := by
  have hbl := blocks_congr hn hb
  exact ⟨hn ▸ h.short, hn ▸ h.room, hbl ▸ h.nodup, hbl ▸ h.home⟩

theorem HeadOk.empty {lh : LogHeader} (h : lh.n = 0) : HeadOk start size lh where
  short := by omega
  room := by omega
  nodup := by simp [blocks_zero lh h]
  home := by simp [blocks_zero lh h]

theorem HeadOk.mem {lh : LogHeader} {t : ℕ} (ht : t < lh.n) : lh.block t ∈ lh.blocks :=
  mem_blocks.mpr ⟨t, ht, rfl⟩

theorem HeadOk.inj {lh : LogHeader} (h : HeadOk start size lh) {s t : ℕ} (hs : s < lh.n)
    (ht : t < lh.n) (he : lh.block s = lh.block t) : s = t :=
  List.inj_on_of_nodup_map h.nodup (List.mem_range.mpr hs) (List.mem_range.mpr ht) he

theorem HeadOk.lt {lh : LogHeader} (h : HeadOk start size lh) {t : ℕ} (ht : t < lh.n) :
    t < LOGSIZE := ht.trans_le h.short

theorem Recoverable.of_empty {H : Home} {d : Disk} (hn : (decodeHead (d.blocks start)).n = 0)
    (hh : ∀ b, ¬ InLog start size b → d.blocks b = H b) : Recoverable start size H d where
  head := .empty hn
  logged := by omega
  home := fun b hb _ => hh b hb

theorem Pending.recoverable {o : ℤ} {H H' : Home} {k : ℕ} {m : Mem} {d : Disk}
    (h : Pending start size o H H' k m d) : Recoverable start size H d := .of_empty h.head h.home

theorem Installing.recoverable {i : ℕ} {H : Home} {k : ℕ} {m : Mem} {d : Disk}
    (h : Installing start size i H k m d) : Recoverable start size H d where
  head := h.ok.congr h.headN h.headBlock
  logged := by
    rw [h.headN]
    intro t ht
    rw [h.headBlock t ht]
    exact h.logged t ht
  home := by
    rw [blocks_congr h.headN h.headBlock]
    exact h.home

/-! Reading a block: memory keeps its dirty buffers and gains only what is on disk. -/

structure Refreshed (d : Disk) (m m' : Mem) : Prop where
  log : m'.log = m.log
  old : ∀ b buf, m'.cache b = some buf → m.cache b = some buf ∨ buf = ⟨d.blocks b, false⟩
  keep : ∀ b buf, m.cache b = some buf → buf.dirty = true → m'.cache b = some buf

def Viewed (m : Mem) (d : Disk) (b : BlockNo) (v : DiskBlock) : Prop :=
  (∃ buf, m.cache b = some buf ∧ v = buf.data) ∨
    (v = d.blocks b ∧ ∀ buf, m.cache b = some buf → buf.dirty = false)

theorem recycle_refreshed (m : Mem) (d : Disk) (gone : BlockNo → Bool) :
    Refreshed d m (m.recycle gone) where
  log := rfl
  old := by
    intro b buf hb
    left
    simp only [Mem.recycle, Option.filter_eq_some_iff] at hb
    exact hb.1
  keep := by
    intro b buf hb hd
    simp [Mem.recycle, Option.filter_eq_some_iff, hb, hd]

variable {P : Mem → Disk → Prop} {C : Disk → Prop} {reclaim}

theorem triple_bread {b : BlockNo} {Q : DiskBlock → Mem → Disk → Prop}
    (h : ∀ m d m' v, P m d → Refreshed d m m' → Viewed m d b v → C d ∧ Q v m' d) :
    Triple P (bread reclaim b) Q C := by
  refine triple_step fun m d hP => ?_
  have hr := recycle_refreshed m d (reclaim m)
  simp only
  cases hc : (m.recycle (reclaim m)).cache b with
  | some buf =>
    refine h m d _ _ hP hr (Or.inl ⟨buf, ?_, rfl⟩)
    simp only [Mem.recycle, Option.filter_eq_some_iff] at hc
    exact hc.1
  | none =>
    refine h m d _ _ hP ⟨rfl, ?_, ?_⟩ (Or.inr ⟨rfl, ?_⟩)
    · intro c buf hcb
      by_cases hcb' : c = b
      · subst hcb'
        exact Or.inr (by simpa [Mem.hold] using hcb.symm)
      · exact hr.old c buf (by simpa [Mem.hold, hcb'] using hcb)
    · intro c buf hcb hd
      have hcb' : c ≠ b := by
        rintro rfl
        rw [hr.keep c buf hcb hd] at hc
        cases hc
      simpa [Mem.hold, hcb'] using hr.keep c buf hcb hd
    · intro buf hb
      by_contra hd
      rw [hr.keep b buf hb (by simpa using hd)] at hc
      cases hc

theorem triple_bwrite {b : BlockNo} {v : DiskBlock} {Q : Unit → Mem → Disk → Prop}
    (h : ∀ m d, P m d → C d ∧ C (d.put b v) ∧ Q () (m.hold b ⟨v, false⟩) (d.put b v)) :
    Triple P (bwrite b v) Q C := triple_write h

theorem Coherent.refresh {m m' : Mem} {d : Disk} (h : Coherent m d) (r : Refreshed d m m') :
    Coherent m' d := by
  intro b buf hb hd
  rcases r.old b buf hb with hb | rfl
  · exact h b buf hb hd
  · rfl

theorem Coherent.write {m : Mem} {d : Disk} (h : Coherent m d) (b : BlockNo)
    (v : DiskBlock) : Coherent (m.hold b ⟨v, false⟩) (d.put b v) := by
  intro c buf hc hd
  by_cases hcb : c = b
  · subst hcb
    have : buf = ⟨v, false⟩ := by simpa [Mem.hold] using hc.symm
    simp [this]
  · rw [put_ne d v hcb]
    exact h c buf (by simpa [Mem.hold, hcb] using hc) hd

theorem Coherent.viewed {m : Mem} {d : Disk} (h : Coherent m d) {b : BlockNo} {v : DiskBlock}
    (hv : Viewed m d b v) (hc : ∀ buf, m.cache b = some buf → buf.dirty = false) :
    v = d.blocks b := by
  rcases hv with ⟨buf, hb, rfl⟩ | ⟨hv, -⟩
  · exact h b buf hb (hc buf hb)
  · exact hv

theorem Pending.refresh {o : ℤ} {H H' : Home} {k : ℕ} {m m' : Mem} {d : Disk}
    (h : Pending start size o H H' k m d) (r : Refreshed d m m') :
    Pending start size o H H' k m' d where
  params := by rw [r.log]; exact h.params
  ok := by rw [r.log]; exact h.ok
  coherent := h.coherent.refresh r
  dirty := by
    intro b buf hb hd
    rw [r.log]
    rcases r.old b buf hb with hb | rfl
    · exact h.dirty b buf hb hd
    · cases hd
  pinned := by
    intro b hb
    rw [r.log] at hb
    obtain ⟨buf, hc, hd⟩ := h.pinned b hb
    exact ⟨buf, r.keep b buf hc hd, hd⟩
  same := by rw [r.log]; exact h.same
  head := h.head
  home := h.home
  count := h.count

theorem Installing.refresh {i : ℕ} {H : Home} {k : ℕ} {m m' : Mem} {d : Disk}
    (h : Installing start size i H k m d) (r : Refreshed d m m') :
    Installing start size i H k m' d where
  params := by rw [r.log]; exact h.params
  ok := by rw [r.log]; exact h.ok
  coherent := h.coherent.refresh r
  dirty := by
    intro b buf hb hd
    rw [r.log]
    rcases r.old b buf hb with hb | rfl
    · exact h.dirty b buf hb hd
    · cases hd
  headN := by rw [r.log]; exact h.headN
  headBlock := by rw [r.log]; exact h.headBlock
  logged := by rw [r.log]; exact h.logged
  installed := by rw [r.log]; exact h.installed
  home := by rw [r.log]; exact h.home
  count := h.count

/-! Updates: bread() and log_write(). -/

theorem Pending.view {o : ℤ} {H H' : Home} {k : ℕ} {m : Mem} {d : Disk}
    (h : Pending start size o H H' k m d) {b : BlockNo} {v : DiskBlock}
    (hb : ¬ InLog start size b) (hv : Viewed m d b v) : v = H' b := by
  by_cases hl : b ∈ m.log.lh.blocks
  · obtain ⟨buf, hc, hd⟩ := h.pinned b hl
    rcases hv with ⟨buf', hc', rfl⟩ | ⟨-, hcl⟩
    · obtain rfl : buf = buf' := Option.some.inj (hc.symm.trans hc')
      exact (h.dirty b buf hc hd).2
    · exact absurd (hcl buf hc) (by simp [hd])
  · have hcl : ∀ buf, m.cache b = some buf → buf.dirty = false := by
      intro buf hc
      by_contra hd
      exact hl (h.dirty b buf hc (by simpa using hd)).1
    rw [h.coherent.viewed hv hcl, h.home b hb, h.same b hb hl]

theorem HeadOk.record {lh : LogHeader} (h : HeadOk start size lh) {b : BlockNo}
    (hb : ¬ InLog start size b) (hfit : ¬ (LOGSIZE ≤ lh.n ∨ size - 1 ≤ lh.n)) :
    HeadOk start size (lh.record b) := by
  have hle : (lh.record b).n ≤ lh.n + 1 := by
    unfold LogHeader.record
    split <;> simp
  constructor
  · omega
  · intro i hi
    by_cases hn : i < lh.n
    · exact h.room i hn
    · omega
  · exact nodup_record h.nodup
  · intro c hc
    rcases mem_blocks_record.mp hc with rfl | hc
    · exact hb
    · exact h.home c hc

theorem Pending.logWrite {H H' : Home} {k : ℕ} {m : Mem} {d : Disk}
    (h : Pending start size 1 H H' k m d) {b : BlockNo} (v : DiskBlock)
    (hb : ¬ InLog start size b) (hfit : ¬ m.log.tooBig) :
    Pending start size 1 H (Function.update H' b v) k
      ({ m with log := { m.log with lh := m.log.lh.record b } }.hold b ⟨v, true⟩) d where
  params := h.params
  ok := h.ok.record hb (by rw [← h.params.2.1]; exact hfit)
  coherent := by
    intro c buf hc hd
    by_cases hcb : c = b
    · subst hcb
      have : buf = ⟨v, true⟩ := by simpa [Mem.hold] using hc.symm
      simp [this] at hd
    · exact h.coherent c buf (by simpa [Mem.hold, hcb] using hc) hd
  dirty := by
    intro c buf hc hd
    refine ⟨?_, ?_⟩
    · refine mem_blocks_record.mpr ?_
      by_cases hcb : c = b
      · exact Or.inl hcb
      · exact Or.inr (h.dirty c buf (by simpa [Mem.hold, hcb] using hc) hd).1
    · by_cases hcb : c = b
      · subst hcb
        have : buf = ⟨v, true⟩ := by simpa [Mem.hold] using hc.symm
        simp [this]
      · simpa [hcb] using (h.dirty c buf (by simpa [Mem.hold, hcb] using hc) hd).2
  pinned := by
    intro c hc
    by_cases hcb : c = b
    · subst hcb
      exact ⟨⟨v, true⟩, by simp [Mem.hold], rfl⟩
    · obtain ⟨buf, hbuf, hd⟩ := h.pinned c ((mem_blocks_record.mp hc).resolve_left hcb)
      exact ⟨buf, by simpa [Mem.hold, hcb] using hbuf, hd⟩
  same := by
    intro c hc hl
    have hn : c ≠ b ∧ c ∉ m.log.lh.blocks := by
      constructor
      · rintro rfl
        exact hl (mem_blocks_record.mpr (Or.inl rfl))
      · exact fun hm => hl (mem_blocks_record.mpr (Or.inr hm))
    rw [Function.update_of_ne hn.1]
    exact h.same c hc hn.2
  head := h.head
  home := h.home
  count := h.count

/-- The durable state still stands for `H` and `k` commits. -/
def Stands (start : BlockNo) (size : ℤ) (H : Home) (k : ℕ) (d : Disk) : Prop :=
  commits start d = k ∧ Recoverable start size H d

theorem Pending.stands {o : ℤ} {H H' : Home} {k : ℕ} {m : Mem} {d : Disk}
    (h : Pending start size o H H' k m d) : Stands start size H k d :=
  ⟨h.count, h.recoverable⟩

theorem Installing.stands {i : ℕ} {H : Home} {k : ℕ} {m : Mem} {d : Disk}
    (h : Installing start size i H k m d) : Stands start size H k d :=
  ⟨h.count, h.recoverable⟩

theorem record_pos (lh : LogHeader) (b : BlockNo) : 0 < (lh.record b).n := by
  rw [← blocks_length]
  exact List.length_pos_of_mem (mem_blocks_record.mpr (Or.inl rfl))

theorem triple_update {H H' : Home} {k : ℕ} {u : Update}
    (hu : ¬ InLog start size u.blockno) :
    Triple (Pending start size 1 H H' k) (update reclaim u)
      (fun _ m d => Pending start size 1 H (applyUpdate H' u) k m d ∧ 0 < m.log.lh.n)
      (Stands start size H k) := by
  refine triple_bind (R := fun v m d => v = H' u.blockno ∧ Pending start size 1 H H' k m d)
    ?_ fun v => ?_
  · exact triple_bread fun m d m' v hP hr hv =>
      ⟨hP.stands, hP.view hu hv, hP.refresh hr⟩
  · refine triple_get fun m₀ => ?_
    split
    · exact triple_panic fun m d hP => hP.2.2.stands
    next hfit =>
    split
    · exact triple_panic fun m d hP => hP.2.2.stands
    · refine triple_step fun m d hP => ?_
      obtain ⟨rfl, rfl, hP⟩ := hP
      exact ⟨hP.stands, hP.logWrite _ hu hfit, record_pos _ _⟩

theorem triple_updates {H H' : Home} {k : ℕ} {us : List Update} {g : Prop}
    (hus : ∀ u ∈ us, ¬ InLog start size u.blockno) :
    Triple (fun m d => Pending start size 1 H H' k m d ∧ (g ↔ 0 < m.log.lh.n))
      (Code.each (update reclaim) us)
      (fun _ m d => Pending start size 1 H (applyTransaction H' us) k m d ∧
        (g ∨ us ≠ [] ↔ 0 < m.log.lh.n)) (Stands start size H k) := by
  induction us generalizing H' g with
  | nil =>
    exact triple_ret fun m d hP => ⟨hP.1.stands, hP.1, by simpa using hP.2⟩
  | cons u us ih =>
    have hrest : ∀ w ∈ us, ¬ InLog start size w.blockno :=
      fun w hw => hus w (List.mem_cons_of_mem u hw)
    refine triple_bind (triple_conseq (triple_update (hus u List.mem_cons_self))
      (fun _ _ h => h.1) (fun _ _ _ h => h) fun _ h => h) fun _ => ?_
    exact triple_conseq (ih (g := True) hrest) (fun m d h => ⟨h.1, iff_of_true trivial h.2⟩)
      (fun _ m d h => ⟨h.1, by simpa using h.2⟩) fun _ h => h

/-! commit(): the copies in the log, the header, the home blocks, the empty header. -/

theorem Pending.write_log {H H' : Home} {k : ℕ} {m : Mem} {d : Disk}
    (h : Pending start size 0 H H' k m d) {t : ℕ} (ht : t < m.log.lh.n) (v : DiskBlock) :
    Pending start size 0 H H' k (m.hold (logBlock start t) ⟨v, false⟩)
      (d.put (logBlock start t) v) := by
  have hstart : logBlock start t ≠ start := logBlock_ne_start start (h.ok.lt ht)
  have hhome : ∀ b, ¬ InLog start size b → b ≠ logBlock start t := fun b hb =>
    ne_logBlock_of_home hb (h.ok.room t ht)
  have hcache : ∀ b, b ∈ m.log.lh.blocks → b ≠ logBlock start t := fun b hb =>
    hhome b (h.ok.home b hb)
  exact {
    params := h.params
    ok := h.ok
    coherent := h.coherent.write _ v
    dirty := by
      intro b buf hb hd
      by_cases hbt : b = logBlock start t
      · subst hbt
        have : buf = ⟨v, false⟩ := by simpa [Mem.hold] using hb.symm
        simp [this] at hd
      · exact h.dirty b buf (by simpa [Mem.hold, hbt] using hb) hd
    pinned := by
      intro b hb
      obtain ⟨buf, hc, hd⟩ := h.pinned b hb
      exact ⟨buf, by simpa [Mem.hold, hcache b hb] using hc, hd⟩
    same := h.same
    head := by rw [put_ne d v hstart.symm]; exact h.head
    home := fun b hb => by rw [put_ne d v (hhome b hb)]; exact h.home b hb
    count := (commits_put_ne d v hstart).trans h.count }

/-- What write_log() has copied before the round of index `i`. -/
def Copied (start : BlockNo) (lh : LogHeader) (H' : Home) (i : ℕ) (m : Mem) (d : Disk) :
    Prop :=
  m.log.lh = lh ∧ ∀ t < i, d.blocks (logBlock start t) = H' (lh.block t)

theorem triple_writeLog {H : Home} (H' : Home) {k : ℕ} (lh : LogHeader) :
    Triple (fun m d => Pending start size 0 H H' k m d ∧ m.log.lh = lh) (writeLog reclaim)
      (fun _ m d => Pending start size 0 H H' k m d ∧ Copied start lh H' lh.n m d)
      (Stands start size H k) := by
  refine triple_get fun m₀ => ?_
  refine triple_assume (φ := m₀.log.start = start ∧ m₀.log.lh = lh)
    (fun m d h => ⟨h.1 ▸ h.2.1.params.1, h.1 ▸ h.2.2⟩) fun ⟨hs, hlh₀⟩ => ?_
  rw [hs, hlh₀]
  refine triple_conseq (triple_loop (k := lh.n) (C := Stands start size H k)
    (I := fun i m d => Pending start size 0 H H' k m d ∧ Copied start lh H' i m d)
    (fun m d h => h.1.stands) ?_) ?_ ?_ fun _ h => h
  · intro i _ hi
    rw [Nat.zero_add] at hi
    refine triple_bind
      (R := fun _ m d => Pending start size 0 H H' k m d ∧ Copied start lh H' i m d)
      ?_ fun _ => ?_
    · exact triple_bread fun m d m' v hP hr _ =>
        ⟨hP.1.stands, hP.1.refresh hr, by rw [Copied, hr.log]; exact hP.2⟩
    refine triple_bind
      (R := fun v m d => v = H' (lh.block i) ∧ Pending start size 0 H H' k m d ∧
        Copied start lh H' i m d) ?_ fun v => ?_
    · refine triple_bread fun m d m' v hP hr hv => ?_
      have hmem : lh.block i ∈ m.log.lh.blocks := by
        rw [hP.2.1]
        exact HeadOk.mem hi
      exact ⟨hP.1.stands, hP.1.view (hP.1.ok.home _ hmem) hv, hP.1.refresh hr,
        by rw [Copied, hr.log]; exact hP.2⟩
    · refine triple_bwrite fun m d hP => ?_
      obtain ⟨rfl, hP, hlh, hc⟩ := hP
      have hn : i < m.log.lh.n := by rwa [hlh]
      have hP' := hP.write_log hn (H' (lh.block i))
      refine ⟨hP.stands, hP'.stands, hP', hlh, fun t ht => ?_⟩
      by_cases hti : t = i
      · subst hti; exact put_self _ _ _
      · rw [put_ne _ _ fun e => hti (logBlock_inj (hP.ok.lt (by omega)) (hP.ok.lt hn) e)]
        exact hc t (by omega)
  · rintro m d ⟨rfl, h, hlh⟩
    exact ⟨h, hlh, by omega⟩
  · intro _ m d h
    rwa [Nat.zero_add] at h

/-- The commit point. -/
theorem Pending.write_head {H H' : Home} {k : ℕ} {m : Mem} {d : Disk}
    (h : Pending start size 0 H H' k m d) (hn : 0 < m.log.lh.n)
    (hc : Copied start m.log.lh H' m.log.lh.n m d) (old : DiskBlock) :
    Installing start size 0 H' (k + 1) (m.hold start ⟨encodeHead m.log.lh old, false⟩)
      (d.put start (encodeHead m.log.lh old)) where
  params := h.params
  ok := h.ok
  coherent := h.coherent.write _ _
  dirty := by
    intro b buf hb hd
    by_cases hbs : b = start
    · subst hbs
      have : buf = ⟨encodeHead m.log.lh old, false⟩ := by simpa [Mem.hold] using hb.symm
      simp [this] at hd
    · obtain ⟨t, ht, hbt⟩ :=
        mem_blocks.mp (h.dirty b buf (by simpa [Mem.hold, hbs] using hb) hd).1
      exact ⟨t, Nat.zero_le t, ht, hbt⟩
  headN := by rw [put_self]; exact decode_encode_n h.ok.short old
  headBlock := by
    intro t ht
    rw [put_self]
    exact decode_encode_block h.ok.short old ht
  logged := by
    intro t ht
    rw [put_ne _ _ (logBlock_ne_start start (h.ok.lt ht))]
    exact hc.2 t ht
  installed := by omega
  home := by
    intro b hb hl
    rw [put_ne _ _ (ne_start_of_home hb), h.home b hb]
    exact (h.same b hb hl).symm
  count := by
    rw [commits_put_head, decode_encode_n h.ok.short old, if_pos hn, h.count]

theorem triple_writeHead_commit {H H' : Home} {k : ℕ} {lh : LogHeader} (hn : 0 < lh.n) :
    Triple (fun m d => Pending start size 0 H H' k m d ∧ Copied start lh H' lh.n m d)
      (writeHead reclaim) (fun _ => Installing start size 0 H' (k + 1))
      (fun d => Stands start size H k d ∨ Stands start size H' (k + 1) d) := by
  refine triple_get fun m₀ => ?_
  refine triple_assume (φ := m₀.log.start = start ∧ m₀.log.lh = lh)
    (fun m d h => ⟨h.1 ▸ h.2.1.params.1, h.1 ▸ h.2.2.1⟩) fun ⟨hs, hlh₀⟩ => ?_
  rw [hs, hlh₀]
  refine triple_bind
    (R := fun _ m d => Pending start size 0 H H' k m d ∧ Copied start lh H' lh.n m d)
    ?_ fun old => ?_
  · refine triple_bread fun m d m' v hP hr _ => ?_
    exact ⟨Or.inl hP.2.1.stands, hP.2.1.refresh hr, by rw [Copied, hr.log]; exact hP.2.2⟩
  · refine triple_bwrite fun m d hP => ?_
    obtain ⟨hP, rfl, hc⟩ := hP
    have := hP.write_head hn ⟨rfl, hc⟩ old
    exact ⟨Or.inl hP.stands, Or.inr this.stands, this⟩

/-! install_trans(), shared by commit() and recovery. -/

theorem Installing.view {i : ℕ} {H : Home} {k : ℕ} {m : Mem} {d : Disk}
    (h : Installing start size i H k m d) {t : ℕ} (ht : t < m.log.lh.n) {v : DiskBlock}
    (hv : Viewed m d (logBlock start t) v) : v = H (m.log.lh.block t) := by
  rw [← h.logged t ht]
  refine h.coherent.viewed hv fun buf hb => ?_
  by_contra hd
  obtain ⟨u, -, hu, hbu⟩ := h.dirty _ buf hb (by simpa using hd)
  exact ne_logBlock_of_home (h.ok.home _ (HeadOk.mem hu)) (h.ok.room t ht) hbu

theorem Installing.install_block {i : ℕ} {H : Home} {k : ℕ} {m : Mem} {d : Disk}
    (h : Installing start size i H k m d) (hi : i < m.log.lh.n) :
    Installing start size (i + 1) H k
      (m.hold (m.log.lh.block i) ⟨H (m.log.lh.block i), false⟩)
      (d.put (m.log.lh.block i) (H (m.log.lh.block i))) := by
  have hhome := h.ok.home _ (HeadOk.mem hi)
  have hstart := ne_start_of_home hhome
  exact {
    params := h.params
    ok := h.ok
    coherent := h.coherent.write _ _
    dirty := by
      intro b buf hb hd
      by_cases hbi : b = m.log.lh.block i
      · subst hbi
        have : buf = ⟨H (m.log.lh.block i), false⟩ := by simpa [Mem.hold] using hb.symm
        simp [this] at hd
      · obtain ⟨t, hit, ht, hbt⟩ := h.dirty b buf (by simpa [Mem.hold, hbi] using hb) hd
        have : t ≠ i := fun e => hbi (by rw [← hbt, e])
        exact ⟨t, by omega, ht, hbt⟩
    headN := by rw [put_ne _ _ hstart.symm]; exact h.headN
    headBlock := by rw [put_ne _ _ hstart.symm]; exact h.headBlock
    logged := by
      intro t ht
      rw [put_ne _ _ (ne_logBlock_of_home hhome (h.ok.room t ht)).symm]
      exact h.logged t ht
    installed := by
      intro t ht hti
      by_cases he : t = i
      · subst he; exact put_self _ _ _
      · have hne : m.log.lh.block t ≠ m.log.lh.block i := fun e => he (h.ok.inj ht hi e)
        exact (put_ne _ _ hne).trans (h.installed t ht (by omega))
    home := by
      intro b hb hl
      have hne : b ≠ m.log.lh.block i := fun e => hl (e ▸ HeadOk.mem hi)
      rw [put_ne _ _ hne]
      exact h.home b hb hl
    count := (commits_put_ne d _ hstart).trans h.count }

theorem triple_installTrans {H : Home} {k : ℕ} :
    Triple (Installing start size 0 H k) (installTrans reclaim)
      (fun _ m d => Installing start size m.log.lh.n H k m d) (Stands start size H k) := by
  refine triple_get fun m₀ => ?_
  refine triple_assume (φ := m₀.log.start = start) (fun m d h => h.1 ▸ h.2.params.1) fun hs => ?_
  refine triple_conseq (triple_loop (k := m₀.log.lh.n) (C := Stands start size H k)
    (I := fun i m d => Installing start size i H k m d ∧ m.log.lh = m₀.log.lh)
    (fun m d h => h.1.stands) ?_) ?_ ?_ fun _ h => h
  · intro i _ hi
    rw [Nat.zero_add] at hi
    refine triple_bind (R := fun v m d => v = H (m₀.log.lh.block i) ∧
      Installing start size i H k m d ∧ m.log.lh = m₀.log.lh) ?_ fun v => ?_
    · refine triple_bread fun m d m' v hP hr hv => ?_
      obtain ⟨hP, hlh⟩ := hP
      rw [hs] at hv
      refine ⟨hP.stands, ?_, hP.refresh hr, by rw [hr.log]; exact hlh⟩
      rw [← hlh]
      exact hP.view (by rwa [hlh]) hv
    refine triple_bind (R := fun _ m d => v = H (m₀.log.lh.block i) ∧
      Installing start size i H k m d ∧ m.log.lh = m₀.log.lh) ?_ fun _ => ?_
    · exact triple_bread fun m d m' _ hP hr _ =>
        ⟨hP.2.1.stands, hP.1, hP.2.1.refresh hr, by rw [hr.log]; exact hP.2.2⟩
    · refine triple_bwrite fun m d hP => ?_
      obtain ⟨rfl, hP, hlh⟩ := hP
      have := hP.install_block (i := i) (by rwa [hlh])
      rw [hlh] at this
      exact ⟨hP.stands, this.stands, this, hlh⟩
  · rintro m d ⟨rfl, h⟩
    exact ⟨h, rfl⟩
  · rintro _ m d ⟨h, hlh⟩
    rwa [Nat.zero_add, ← hlh] at h

/-! The empty header. -/

/-- All blocks are home and the header in memory is empty again. -/
structure Erasing (start : BlockNo) (size : ℤ) (H : Home) (k : ℕ) (m : Mem) (d : Disk) :
    Prop where
  params : m.log.start = start ∧ m.log.size = size ∧ m.log.outstanding = 0
  empty : m.log.lh.n = 0
  coherent : Coherent m d
  clean : ∀ b buf, m.cache b = some buf → buf.dirty = false
  home : ∀ b, ¬ InLog start size b → d.blocks b = H b
  stands : Stands start size H k d

theorem Installing.erasing {H : Home} {k : ℕ} {m : Mem} {d : Disk}
    (h : Installing start size m.log.lh.n H k m d) :
    Erasing start size H k
      { m with log := { m.log with lh := { m.log.lh with n := 0 } } } d where
  params := h.params
  empty := rfl
  coherent := h.coherent
  clean := by
    intro b buf hb
    by_contra hd
    obtain ⟨t, ht, hlt, -⟩ := h.dirty b buf hb (by simpa using hd)
    omega
  home := by
    intro b hb
    by_cases hl : b ∈ m.log.lh.blocks
    · obtain ⟨t, ht, rfl⟩ := mem_blocks.mp hl
      exact h.installed t ht ht
    · exact h.home b hb hl
  stands := h.stands

theorem Erasing.write_head {H : Home} {k : ℕ} {m : Mem} {d : Disk}
    (h : Erasing start size H k m d) (old : DiskBlock) :
    Ready start size H k (m.hold start ⟨encodeHead m.log.lh old, false⟩)
      (d.put start (encodeHead m.log.lh old)) := by
  have hshort : m.log.lh.n ≤ LOGSIZE := by rw [h.empty]; exact Nat.zero_le _
  exact {
    params := h.params
    empty := h.empty
    coherent := h.coherent.write _ _
    clean := by
      intro b buf hb
      by_cases hbs : b = start
      · subst hbs
        have : buf = ⟨encodeHead m.log.lh old, false⟩ := by simpa [Mem.hold] using hb.symm
        simp [this]
      · exact h.clean b buf (by simpa [Mem.hold, hbs] using hb)
    head := by rw [put_self, decode_encode_n hshort, h.empty]
    home := fun b hb => by rw [put_ne _ _ (ne_start_of_home hb)]; exact h.home b hb
    count := by
      rw [commits_put_head, decode_encode_n hshort, h.empty, if_neg (by omega)]
      exact h.stands.1 }

theorem Ready.stands {H : Home} {k : ℕ} {m : Mem} {d : Disk}
    (h : Ready start size H k m d) : Stands start size H k d :=
  ⟨h.count, .of_empty h.head h.home⟩

theorem triple_erase {H : Home} {k : ℕ} :
    Triple (fun m d => Installing start size m.log.lh.n H k m d)
      (clearHead >>= fun _ => writeHead reclaim)
      (fun _ => Ready start size H k) (Stands start size H k) := by
  refine triple_bind (R := fun _ => Erasing start size H k) ?_ fun _ => ?_
  · exact triple_step fun m d h => ⟨h.stands, h.erasing⟩
  refine triple_get fun m₀ => ?_
  refine triple_assume (φ := m₀.log.start = start) (fun m d h => h.1 ▸ h.2.params.1) fun hs => ?_
  refine triple_bind (R := fun _ m d => m.log = m₀.log ∧ Erasing start size H k m d) ?_
    fun old => ?_
  · refine triple_bread fun m d m' v hP hr _ => ?_
    obtain ⟨rfl, hP⟩ := hP
    refine ⟨hP.stands, hr.log, by rw [hr.log]; exact hP.params, by rw [hr.log]; exact hP.empty,
      hP.coherent.refresh hr, ?_, hP.home, hP.stands⟩
    intro b buf hb
    rcases hr.old b buf hb with hb | rfl
    · exact hP.clean b buf hb
    · rfl
  · refine triple_bwrite fun m d hP => ?_
    obtain ⟨hlog, hP⟩ := hP
    have := hP.write_head old
    rw [← hlog, hP.params.1]
    exact ⟨hP.stands, this.stands, this⟩

/-! Whole transactions. -/

/-- With nothing logged, commit() writes nothing and the two home states agree. -/
theorem Pending.ready_of_empty {H H' : Home} {k : ℕ} {m : Mem} {d : Disk}
    (h : Pending start size 0 H H' k m d) (hn : m.log.lh.n = 0) :
    Ready start size H' k m d where
  params := h.params
  empty := hn
  coherent := h.coherent
  clean := by
    intro b buf hb
    by_contra hd
    have hl := (h.dirty b buf hb (by simpa using hd)).1
    simp [blocks_zero _ hn] at hl
  head := h.head
  home := by
    intro b hb
    rw [h.home b hb, h.same b hb (by simp [blocks_zero _ hn])]
  count := h.count

/-- Only a commit with something logged passes the commit point. -/
theorem triple_commit {H H' : Home} {k : ℕ} {busy : Prop} [Decidable busy] :
    Triple (fun m d => Pending start size 0 H H' k m d ∧ (busy ↔ 0 < m.log.lh.n))
      (commit reclaim) (fun _ => Ready start size H' (k + if busy then 1 else 0))
      (fun d => Stands start size H k d ∨ Stands start size H' (k + if busy then 1 else 0) d) := by
  refine triple_get fun m₀ => ?_
  split
  next hn =>
    refine triple_assume (φ := busy) (fun m d h => h.2.2.mpr (h.1 ▸ hn)) fun hb => ?_
    rw [if_pos hb]
    refine triple_bind (triple_conseq (triple_writeLog H' m₀.log.lh) ?_ (fun _ _ _ h => h)
      fun _ h => Or.inl h) fun _ => ?_
    · rintro m d ⟨rfl, h, -⟩
      exact ⟨h, rfl⟩
    refine triple_bind (triple_writeHead_commit hn) fun _ => ?_
    refine triple_bind (triple_conseq triple_installTrans (fun _ _ h => h) (fun _ _ _ h => h)
      fun _ h => Or.inr h) fun _ => ?_
    exact triple_conseq triple_erase (fun _ _ h => h) (fun _ _ _ h => h) fun _ h => Or.inr h
  next hn =>
    refine triple_ret ?_
    rintro m d ⟨rfl, h, hb⟩
    rw [if_neg (mt hb.mp hn)]
    exact ⟨Or.inl h.stands, h.ready_of_empty (by omega)⟩

theorem Ready.begin {H : Home} {k : ℕ} {m : Mem} {d : Disk} (h : Ready start size H k m d) :
    Pending start size 1 H H k
      { m with log := { m.log with outstanding := m.log.outstanding + 1 } } d where
  params := ⟨h.params.1, h.params.2.1, by simp [h.params.2.2]⟩
  ok := .empty h.empty
  coherent := h.coherent
  dirty := by
    intro b buf hb hd
    rw [h.clean b buf hb] at hd
    cases hd
  pinned := by simp [blocks_zero _ h.empty]
  same := fun _ _ _ => rfl
  head := h.head
  home := h.home
  count := h.count

theorem Pending.finish {H H' : Home} {k : ℕ} {m : Mem} {d : Disk}
    (h : Pending start size 1 H H' k m d) :
    Pending start size 0 H H' k
      { m with log := { m.log with outstanding := m.log.outstanding + -1 } } d :=
  { h with params := ⟨h.params.1, h.params.2.1, by simp [h.params.2.2]⟩ }

/-- The commits a list of transactions makes: one for each that updates something. -/
def commitsOf (ts : List (List Update)) : ℕ := (nonempty ts).length

theorem triple_transaction (reclaim : Mem → BlockNo → Bool) (H : Home) (k : ℕ) {us : List Update}
    (hus : ∀ u ∈ us, ¬ InLog start size u.blockno) :
    Triple (Ready start size H k) (transaction reclaim us)
      (fun _ => Ready start size (applyTransaction H us) (k + commitsOf [us]))
      (fun d => Stands start size H k d ∨
        Stands start size (applyTransaction H us) (k + commitsOf [us]) d) := by
  refine triple_bind (R := fun _ m d => Pending start size 1 H H k m d ∧
    (False ↔ 0 < m.log.lh.n)) ?_ fun _ => ?_
  · refine triple_step fun m d h => ⟨Or.inl h.stands, h.begin, ?_⟩
    simp [h.empty]
  refine triple_bind (triple_conseq (triple_updates hus) (fun _ _ h => h) (fun _ _ _ h => h)
    fun _ h => Or.inl h) fun _ => ?_
  refine triple_bind (R := fun _ m d => Pending start size 0 H (applyTransaction H us) k m d ∧
    (us ≠ [] ↔ 0 < m.log.lh.n)) ?_ fun _ => ?_
  · refine triple_step fun m d h => ⟨Or.inl h.1.stands, h.1.finish, ?_⟩
    simpa using h.2
  · have hcount : commitsOf [us] = if us ≠ [] then 1 else 0 := by
      cases us <;> simp [commitsOf, nonempty]
    rw [hcount]
    exact triple_commit

/-- Some number of whole transactions is what the disk stands for. -/
def StandsAfter (start : BlockNo) (size : ℤ) (H : Home) (k : ℕ) (ts : List (List Update))
    (d : Disk) : Prop :=
  ∃ j ≤ ts.length, Stands start size (applyTransactions H (ts.take j))
    (k + commitsOf (ts.take j)) d

theorem triple_transactions {H : Home} {k : ℕ} {ts : List (List Update)}
    (hts : ∀ us ∈ ts, ∀ u ∈ us, ¬ InLog start size u.blockno) :
    Triple (Ready start size H k) (transactions reclaim ts)
      (fun _ => Ready start size (applyTransactions H ts) (k + commitsOf ts))
      (StandsAfter start size H k ts) := by
  induction ts generalizing H k with
  | nil => exact triple_ret fun m d h => ⟨⟨0, Nat.le_refl 0, h.stands⟩, h⟩
  | cons us ts ih =>
    have hcount : ∀ j, commitsOf [us] + commitsOf (ts.take j) =
        commitsOf ((us :: ts).take (j + 1)) := fun j => by
      cases us <;> simp [commitsOf, nonempty, Nat.add_comm]
    have hfirst := triple_transaction reclaim H k (hts us List.mem_cons_self)
    have hrest := ih (H := applyTransaction H us) (k := k + commitsOf [us])
      fun vs hvs => hts vs (List.mem_cons_of_mem us hvs)
    refine triple_bind (triple_conseq hfirst (fun _ _ h => h) (fun _ _ _ h => h) ?_)
      fun _ => triple_conseq hrest (fun _ _ h => h) ?_ ?_
    · rintro d (h | h)
      · exact ⟨0, Nat.zero_le _, h⟩
      · exact ⟨1, by simp, h⟩
    · intro _ m d h
      have := hcount ts.length
      rw [List.take_length, List.take_of_length_le (by simp)] at this
      rwa [Nat.add_assoc, this] at h
    · rintro d ⟨j, hj, h⟩
      rw [Nat.add_assoc, hcount j] at h
      exact ⟨j + 1, by simpa using hj, h⟩

/-! recover_from_log(). -/

theorem Stands.load {H : Home} {k : ℕ} {m : Mem} {d : Disk} (h : Stands start size H k d)
    (hlog : m.log = (boot start size).log) (hco : Coherent m d)
    (hclean : ∀ b buf, m.cache b = some buf → buf.dirty = false) :
    Installing start size 0 H k
      { m with log := { m.log with lh := loadHead m.log.lh (decodeHead (d.blocks start)) } } d := by
  have hblock : ∀ t < (decodeHead (d.blocks start)).n,
      (loadHead m.log.lh (decodeHead (d.blocks start))).block t =
        (decodeHead (d.blocks start)).block t := fun t ht => if_pos ht
  have hblocks : (loadHead m.log.lh (decodeHead (d.blocks start))).blocks =
      (decodeHead (d.blocks start)).blocks := blocks_congr rfl hblock
  exact {
    params := by simp [hlog, boot]
    ok := h.2.head.congr rfl hblock
    coherent := hco
    dirty := by
      intro b buf hb hd
      rw [hclean b buf hb] at hd
      cases hd
    headN := rfl
    headBlock := fun t ht => (hblock t ht).symm
    logged := by
      intro t ht
      rw [show _ = _ from hblock t ht]
      exact h.2.logged t ht
    installed := by omega
    home := by
      intro b hb hl
      exact h.2.home b hb (hblocks ▸ hl)
    count := h.1 }

theorem triple_readHead {H : Home} {k : ℕ} :
    Triple (fun m d => m = boot start size ∧ Stands start size H k d) (readHead reclaim)
      (fun _ => Installing start size 0 H k) (Stands start size H k) := by
  refine triple_get fun m₀ => ?_
  refine triple_assume (φ := m₀ = boot start size) (fun m d h => h.1 ▸ h.2.1) fun hm₀ => ?_
  subst hm₀
  refine triple_bind (R := fun v m d => v = d.blocks start ∧ m.log = (boot start size).log ∧
    Coherent m d ∧ (∀ b buf, m.cache b = some buf → buf.dirty = false) ∧
    Stands start size H k d) ?_ fun v => ?_
  · refine triple_bread fun m d m' v hP hr hv => ?_
    obtain ⟨rfl, -, hst⟩ := hP
    have hnone : ∀ b buf, m'.cache b = some buf → buf = ⟨d.blocks b, false⟩ := by
      intro b buf hb
      simpa [boot] using hr.old b buf hb
    refine ⟨hst, ?_, hr.log, ?_, ?_, hst⟩
    · simpa [Viewed, boot] using hv
    · intro b buf hb _
      rw [hnone b buf hb]
    · intro b buf hb
      rw [hnone b buf hb]
  · refine triple_step fun m d hP => ?_
    obtain ⟨rfl, hlog, hco, hclean, hst⟩ := hP
    exact ⟨hst, hst.load hlog hco hclean⟩

theorem triple_recoverFromLog {H : Home} {k : ℕ} :
    Triple (fun m d => m = boot start size ∧ Stands start size H k d) (recoverFromLog reclaim)
      (fun _ => Ready start size H k) (Stands start size H k) :=
  triple_bind triple_readHead fun _ => triple_bind triple_installTrans fun _ => triple_erase

theorem total_bread (b : BlockNo) : Total (bread reclaim b) := total_step _

theorem total_installTrans : Total (installTrans reclaim) :=
  total_bind (total_step _) fun m => total_loop (fun _ => total_bind (total_bread _)
    fun _ => total_bind (total_bread _) fun _ => total_write _ _) 0 m.log.lh.n

theorem total_writeHead : Total (writeHead reclaim) :=
  total_bind (total_step _) fun _ => total_bind (total_bread _) fun _ => total_write _ _

theorem total_recoverFromLog (reclaim : Mem → BlockNo → Bool) : Total (recoverFromLog reclaim) :=
  total_bind (total_bind (total_step _) fun _ => total_bind (total_bread _)
    fun _ => total_step _) fun _ =>
  total_bind total_installTrans fun _ => total_bind (total_step _) fun _ => total_writeHead

/-! Whole sessions. -/

theorem applyTransactions_nonempty (H : Home) (ts : List (List Update)) :
    applyTransactions H (nonempty ts) = applyTransactions H ts := by
  induction ts generalizing H with
  | nil => rfl
  | cons us ts ih =>
    cases us with
    | nil => exact ih H
    | cons u us => exact ih (applyTransaction H (u :: us))

theorem nonempty_take (ts : List (List Update)) (j : ℕ) :
    nonempty (ts.take j) = (nonempty ts).take (commitsOf (ts.take j)) := by
  refine (List.prefix_iff_eq_take.mp ?_)
  exact (List.take_prefix j ts).filter _

/-- Up to the next reboot the disk stands for the commits it has seen. -/
theorem StandsAfter.stands {H : Home} {ts : List (List Update)} {d : Disk}
    (h : StandsAfter start size H 0 ts d) :
    commits start d ≤ (nonempty ts).length ∧
      Stands start size (applyTransactions H ((nonempty ts).take (commits start d)))
        (commits start d) d := by
  obtain ⟨j, -, h⟩ := h
  rw [Nat.zero_add] at h
  rw [h.1]
  refine ⟨?_, ?_⟩
  · exact ((List.take_sublist j ts).filter _).length_le
  · rw [← nonempty_take, applyTransactions_nonempty]
    exact h

theorem triple_session (reclaim : Mem → BlockNo → Bool) {H : Home} {ts : List (List Update)}
    (hts : ∀ us ∈ ts, ∀ u ∈ us, ¬ InLog start size u.blockno) :
    Triple (fun m d => m = boot start size ∧ Stands start size H 0 d) (session reclaim ts)
      (fun _ _ _ => True) (StandsAfter start size H 0 ts) := by
  refine triple_bind (triple_conseq triple_recoverFromLog (fun _ _ h => h) (fun _ _ _ h => h)
    fun d h => ⟨0, Nat.zero_le _, h⟩) fun _ => ?_
  exact triple_conseq (triple_transactions hts) (fun _ _ h => h) (fun _ _ _ _ => trivial)
    fun _ h => h

theorem crash_atomic (start : BlockNo) (size : ℤ) (reclaim : Mem → BlockNo → Bool)
    (ts : List (List Update)) (d₀ : Disk)
    (hhome : ∀ us ∈ ts, ∀ u ∈ us, ¬ InLog start size u.blockno)
    (hhead : (decodeHead (d₀.blocks start)).n = 0) (hnew : d₀.written = [])
    (x : Disk) (hx : x ∈ (session reclaim ts (boot start size) d₀).crash) :
    commits start x ≤ (nonempty ts).length ∧
    (∃ y, Recovers (boot start size) (recoverFromLog reclaim) x y) ∧
    ∀ y, Recovers (boot start size) (recoverFromLog reclaim) x y →
      (decodeHead (y.blocks start)).n = 0 ∧ commits start y = commits start x ∧
      ∀ b, ¬ InLog start size b →
        y.blocks b =
          applyTransactions d₀.blocks ((nonempty ts).take (commits start x)) b := by
  have hinit : Stands start size d₀.blocks 0 d₀ :=
    ⟨by simp [commits, hnew], .of_empty hhead fun _ _ => rfl⟩
  obtain ⟨hle, hstands⟩ :=
    ((triple_session reclaim hhome _ d₀ ⟨rfl, hinit⟩).1 x hx).stands
  refine ⟨hle, ?_, fun y hy => ?_⟩
  · obtain ⟨a, ha⟩ := total_recoverFromLog reclaim (boot start size) x
    exact ⟨_, .complete ha⟩
  · obtain ⟨_, m, hready⟩ := hy.sound triple_recoverFromLog hstands
    exact ⟨hready.head, hready.count, hready.home⟩

/-- One transaction on block 100, power lost after the last write. -/
theorem crash_atomic_one_block :
    let us : List (List Update) := [[⟨100, fun v => setByte v 0 7⟩]]
    let d₀ : Disk := ⟨fun _ => zeros, []⟩
    let x := (session (fun _ _ => false) us (boot 2 30) d₀).disk
    let y := (recoverFromLog (fun _ _ => false) (boot 2 30) x).disk
    commits 2 x = 1 ∧ y.blocks 100 = setByte zeros 0 7 := by
  intro us d₀ x y
  have hcount : commits 2 x = 1 := by decide +kernel
  have hout : ¬ InLog 2 30 100 := by
    rintro (h | ⟨i, hi, h⟩)
    · cases h
    · unfold logBlock at h
      bv_omega
  have hhome : ∀ t ∈ us, ∀ u ∈ t, ¬ InLog 2 30 u.blockno := by
    simpa [us] using hout
  obtain ⟨-, -, h⟩ := crash_atomic 2 30 (fun _ _ => false) us d₀ hhome (by decide +kernel) rfl
    x List.mem_cons_self
  have hy : Recovers (boot 2 30) (recoverFromLog fun _ _ => false) x y :=
    .complete (a := ()) (total_recoverFromLog _ _ _).choose_spec
  refine ⟨hcount, ?_⟩
  rw [(h y hy).2.2 100 hout, hcount]
  rfl

end RedoLogRecovery
