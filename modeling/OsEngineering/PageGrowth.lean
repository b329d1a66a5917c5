import OsEngineering.KernelMap

/-! allocuvm(): all the new pages, or the old ones and every frame back. -/
namespace PageGrowth

open ByteBlock FaultState FramedTriples PageTables PageTableMappings PageFrames PageClearing
open PageMapping KernelMap
open PageTableFaults (indices mem_indices)

variable {img : KernelImage} {d₀ d e : PageDir} {oldsz newsz a : Word} {s₀ s t u : Kmem}
  {f : Frame} {n k : ℕ}

/-! The user pages in the books. -/

def entry (d : PageDir) (i j : Index) : Word :=
  match d.pde i with
  | none => 0
  | some t => t.pte j

theorem entry_pte (d : PageDir) (b : Word) : entry d (PDX b) (PTX b) = d.pte b := by
  rw [entry, PageDir.pte]
  cases d.pde (PDX b) with
  | none => rfl
  | some t => rfl

def userFrames (d : PageDir) : Multiset Frame :=
  ∑ i : Index, if i < 512 then ∑ j, mapped (entry d i j) else 0

theorem frames_split (d : PageDir) :
    frames d = {d.frame} + tables d indices + userFrames d := by
  have huniv : (Finset.univ : Finset Index) = indices.toFinset := by
    apply Finset.ext
    intro i
    exact iff_of_true (Finset.mem_univ i) (List.mem_toFinset.mpr (mem_indices i))
  have htables : tables d indices = ∑ i, tables d [i] := by
    rw [huniv, List.sum_toFinset _ nodup_indices]
    simp only [tables, List.map_cons, List.map_nil, List.sum_singleton]
  have hentry : ∀ i, entryFrames i (d.pde i) = tables d [i] +
      if i < 512 then ∑ j, mapped (entry d i j) else 0 := by
    intro i
    cases hd : d.pde i with
    | none =>
      have hzero : ∑ _j : Index, mapped 0 = 0 := Finset.sum_eq_zero fun _ _ => rfl
      simp only [entryFrames, tables, List.map_cons, List.map_nil, List.sum_singleton, entry, hd,
        hzero, ite_self, add_zero]
    | some tab =>
      simp only [entryFrames, tables, List.map_cons, List.map_nil, List.sum_singleton, entry, hd]
  rw [frames, htables, userFrames, add_assoc, ← Finset.sum_add_distrib]
  simp only [hentry]

theorem userFrames_congr (h : ∀ b, b < KERNBASE → mapped (e.pte b) = mapped (d.pte b)) :
    userFrames e = userFrames d := by
  apply Finset.sum_congr rfl
  intro i _
  by_cases hi : i < 512
  · rw [if_pos hi, if_pos hi]
    apply Finset.sum_congr rfl
    intro j _
    obtain ⟨b, rfl, rfl⟩ := address_of i j
    rw [entry_pte, entry_pte, h b ((user_iff b).mp hi)]
  · rw [if_neg hi, if_neg hi]

/-! The loop. -/

/-- The pages from the old size on up to page `n` are new; `x` is in no page table. -/
structure Growing (d₀ : PageDir) (oldsz : Word) (s₀ : Kmem) (x : Multiset Frame) (d : PageDir)
    (s : Kmem) (n : ℕ) : Prop where
  books : (s.freelist : Multiset Frame) + (frames d + x) = s₀.freelist + frames d₀
  free : s.freelist ⊆ s₀.freelist
  mem : ∀ f ∉ s₀.freelist, s.mem f = s₀.mem f
  frame : d.frame = d₀.frame
  tables : ∀ i, (d₀.pde i).isSome → (d.pde i).map PageTable.frame = (d₀.pde i).map PageTable.frame
  kept : ∀ b, ¬ (pages oldsz ≤ page b ∧ page b < n) → d.pte b = d₀.pte b
  entry : ∀ b, pages oldsz ≤ page b → page b < n →
    d.pte b = V2P (frameOf d b) ||| (PTE_W ||| PTE_U) ||| PTE_P
  zero : ∀ b, pages oldsz ≤ page b → page b < n → s.mem (frameOf d b) = zeros
  fresh : ∀ b, pages oldsz ≤ page b → page b < n → frameOf d b ∈ s₀.freelist
  distinct : ∀ a b, pages oldsz ≤ page a → page a < n → pages oldsz ≤ page b → page b < n →
    frameOf d a = frameOf d b → page a = page b

theorem growing_fresh (hnodup : s₀.freelist.Nodup) (hfree : ∀ g, Holds d₀ g → g ∉ s₀.freelist)
    (h : Growing d₀ oldsz s₀ 0 d s n) (hf : f ∈ s.freelist) : ¬ Holds d f := by
  intro hheld
  have hmine := h.free hf
  have hcount := congrArg (Multiset.count f) h.books
  rw [add_zero, Multiset.count_add, Multiset.count_add] at hcount
  have hin : 1 ≤ (frames d).count f := Multiset.one_le_count_iff_mem.mpr (mem_of_holds hheld)
  have hout : (frames d₀).count f = 0 := by
    rw [Multiset.count_eq_zero, mem_frames]
    exact fun hold => hfree f hold hmine
  have hone : (s₀.freelist : Multiset Frame).count f ≤ 1 :=
    Multiset.nodup_iff_count_le_one.mp (Multiset.coe_nodup.mpr hnodup) f
  have hlist : 1 ≤ (s.freelist : Multiset Frame).count f :=
    Multiset.one_le_count_iff_mem.mpr (Multiset.mem_coe.mpr hf)
  omega

/-- The books of the free list and of the directory as allocuvm() found them. -/
abbrev supply (d₀ : PageDir) (s₀ : Kmem) : Supply := ⟨s₀.freelist + frames d₀, False⟩

theorem tables_trans (htables : ∀ i, (d₀.pde i).isSome →
    (d.pde i).map PageTable.frame = (d₀.pde i).map PageTable.frame)
    (hnext : ∀ i, (d.pde i).isSome →
      (e.pde i).map PageTable.frame = (d.pde i).map PageTable.frame)
    (i : Index) (hi : (d₀.pde i).isSome) :
    (e.pde i).map PageTable.frame = (d₀.pde i).map PageTable.frame := by
  have hsome : (d.pde i).isSome := by
    have hmap := congrArg Option.isSome (htables i hi)
    rw [Option.isSome_map, Option.isSome_map] at hmap
    exact hmap.trans hi
  exact (hnext i hsome).trans (htables i hi)

theorem growing_apart (hnodup : s₀.freelist.Nodup) (hfree : ∀ g, Holds d₀ g → g ∉ s₀.freelist)
    (hlow : a < KERNBASE) (h : Growing d₀ oldsz s₀ 0 d s (page a)) (hf : f ∈ s.freelist)
    (b : Word) (hlo : pages oldsz ≤ page b) (hhi : page b < page a) : frameOf d b ≠ f := by
  intro heq
  have hbl : b < KERNBASE := by
    have hbase : KERNBASE.toNat = 2147483648 := rfl
    rw [BitVec.lt_def] at hlow ⊢
    simp only [page] at hhi
    omega
  have hpres : d.present b := by
    rw [PageDir.present, h.entry b hlo hhi]
    exact set_P _ _
  exact growing_fresh hnodup hfree h hf (Or.inr (Or.inr ⟨b, hbl, hpres, heq⟩))

/-- One more page. -/
theorem growing_step (hnodup : s₀.freelist.Nodup) (hfree : ∀ g, Holds d₀ g → g ∉ s₀.freelist)
    (hlow : a < KERNBASE) (hle : pages oldsz ≤ page a)
    (h : Growing d₀ oldsz s₀ 0 d s (page a))
    (hp : Placed (supply d₀ s₀) d e a (PTE_W ||| PTE_U) f zeros s t true) :
    Growing d₀ oldsz s₀ 0 e t (page a + 1) := by
  have hmine := h.free hp.mine
  have hbooks := hp.books
  rw [if_pos rfl] at hbooks
  have hself : ∀ b, page b = page a → frameOf e b = f := by
    intro b hb
    rw [frameOf, hp.entry rfl b hb]
    exact entry_frame f flags_user
  have hsame : ∀ b, page b ≠ page a → frameOf e b = frameOf d b := by
    intro b hb
    rw [frameOf, frameOf, hp.other b hb]
  have hne := growing_apart hnodup hfree hlow h hp.mine
  refine ⟨hbooks.total, fun g hg => h.free (hp.free hg), fun g hg => ?_, hp.frame.trans h.frame,
    tables_trans h.tables hp.tables, fun b hb => ?_, fun b hlo hhi => ?_, fun b hlo hhi => ?_,
    fun b hlo hhi => ?_, fun b c hblo hbhi hclo hchi heq => ?_⟩
  · have hgf : g ≠ f := by
      rintro rfl
      exact hg hmine
    rw [hp.mem g hgf, h.mem g hg]
  · rw [hp.other b (by omega), h.kept b (by omega)]
  · by_cases hb : page b = page a
    · rw [hself b hb, hp.entry rfl b hb]
    · rw [hp.other b hb, hsame b hb, h.entry b hlo (by omega)]
  · by_cases hb : page b = page a
    · rw [hself b hb, hp.filled]
    · rw [hsame b hb, hp.mem _ (hne b hlo (by omega)), h.zero b hlo (by omega)]
  · by_cases hb : page b = page a
    · rw [hself b hb]
      exact hmine
    · rw [hsame b hb]
      exact h.fresh b hlo (by omega)
  · by_cases hb : page b = page a
    · by_cases hc : page c = page a
      · omega
      · rw [hself b hb, hsame c hc] at heq
        exact absurd heq.symm (hne c hclo (by omega))
    · by_cases hc : page c = page a
      · rw [hself c hc, hsame b hb] at heq
        exact absurd heq (hne b hblo (by omega))
      · rw [hsame b hb, hsame c hc] at heq
        exact h.distinct b c hblo (by omega) hclo (by omega) heq

/-- No page table for one more page: its frame stays outside. -/
theorem growing_failed (hnodup : s₀.freelist.Nodup)
    (hfree : ∀ g, Holds d₀ g → g ∉ s₀.freelist) (hlow : a < KERNBASE)
    (h : Growing d₀ oldsz s₀ 0 d s (page a))
    (hp : Placed (supply d₀ s₀) d e a (PTE_W ||| PTE_U) f zeros s t false) :
    Growing d₀ oldsz s₀ {f} e t (page a) := by
  have hmine := h.free hp.mine
  have hbooks := hp.books
  rw [if_neg Bool.false_ne_true] at hbooks
  have hpte := hp.failed rfl
  have hsame : ∀ b, frameOf e b = frameOf d b := by
    intro b
    rw [frameOf, frameOf, hpte]
  have hne := growing_apart hnodup hfree hlow h hp.mine
  refine ⟨hbooks.total, fun g hg => h.free (hp.free hg), fun g hg => ?_, hp.frame.trans h.frame,
    tables_trans h.tables hp.tables, fun b hb => ?_, fun b hlo hhi => ?_, fun b hlo hhi => ?_,
    fun b hlo hhi => ?_, fun b c hblo hbhi hclo hchi heq => ?_⟩
  · have hgf : g ≠ f := by
      rintro rfl
      exact hg hmine
    rw [hp.mem g hgf, h.mem g hg]
  · rw [hpte, h.kept b hb]
  · rw [hpte, hsame, h.entry b hlo hhi]
  · rw [hsame, hp.mem _ (hne b hlo hhi), h.zero b hlo hhi]
  · rw [hsame]
    exact h.fresh b hlo hhi
  · rw [hsame, hsame] at heq
    exact h.distinct b c hblo hbhi hclo hchi heq

/-! The way back. -/

/-- The new pages are gone again. -/
structure Shrunk (d₀ : PageDir) (oldsz newsz : Word) (s₀ : Kmem) (x : Multiset Frame)
    (d : PageDir) (t : Kmem) : Prop where
  books : (t.freelist : Multiset Frame) + (frames d + x) = s₀.freelist + frames d₀
  mem : ∀ f ∉ s₀.freelist, t.mem f = s₀.mem f
  frame : d.frame = d₀.frame
  tables : ∀ i, (d₀.pde i).isSome → (d.pde i).map PageTable.frame = (d₀.pde i).map PageTable.frame
  kept : ∀ b, ¬ (pages oldsz ≤ page b ∧ page b < pages newsz) → d.pte b = d₀.pte b
  gone : ∀ b, pages oldsz ≤ page b → page b < pages newsz → ¬ d.present b

theorem rollback_run {x : Multiset Frame} (hu : ∀ f ∈ s₀.freelist, Usable img f)
    (hnew : newsz < KERNBASE) (hlt : oldsz < newsz) (hn : n ≤ pages newsz)
    (habsent : ∀ b, b < KERNBASE → pages oldsz ≤ page b → ¬ d₀.present b)
    (h : Growing d₀ oldsz s₀ x d s n) :
    ∃ e r t, deallocuvm img d newsz oldsz s = .ok ((e, r), t) ∧
      Shrunk d₀ oldsz newsz s₀ x e t := by
  have hnewle := BitVec.le_of_lt hnew
  have hrange : ∀ b, InRange oldsz newsz b ↔ pages oldsz ≤ page b ∧ page b < pages newsz :=
    inRange_iff (BitVec.le_of_lt (below_kernbase hlt hnewle))
  have hnewer : ∀ b, InRange oldsz newsz b → d.present b → frameOf d b ∈ s₀.freelist := by
    intro b hb hpres
    obtain ⟨hlo, hhi⟩ := (hrange b).mp hb
    by_cases hin : page b < n
    · exact h.fresh b hlo hin
    · rw [PageDir.present, h.kept b (by omega)] at hpres
      exact absurd hpres (habsent b (inRange_low hnewle hlt hb) hlo)
  obtain ⟨e, hdone, hc⟩ := deallocuvm_run hnewle hlt
    (fun b hb hpres => hu _ (hnewer b hb hpres)) s
  refine ⟨e, oldsz, _, hdone, ?_, fun f hf => ?_, hc.frame.trans h.frame, fun i hi => ?_,
    fun b hb => ?_, fun b hlo hhi hpres => ?_⟩
  · have hbooks : Books (supply d₀ s₀) (frames d + x) s := ⟨h.books, by rintro ⟨⟩⟩
    exact (deallocuvm_spec hnewle oldsz x s (e, oldsz) _ hbooks hdone).total
  · have hout : f ∉ (mappedFrames d (pages newsz - pages oldsz) (pages oldsz)).reverse := by
      rw [mem_freed hnewle hlt]
      rintro ⟨b, hb, hpres, rfl⟩
      exact hf (hnewer b hb hpres)
    rw [release_mem hout, h.mem f hf]
  · rw [hc.tables, h.tables i hi]
  · rw [hc.kept b fun hin => hb ((hrange b).mp hin.1), h.kept b (by omega)]
  · have hin := (hrange b).mpr ⟨hlo, hhi⟩
    by_cases hold : d.present b
    · rw [PageDir.present, hc.gone b hin hold] at hpres
      exact hpres rfl
    · rw [PageDir.present, hc.kept b fun hboth => hold hboth.2] at hpres
      exact hold hpres

theorem shrunk_kfree (hf : Usable img f) (hmine : f ∈ s₀.freelist)
    (h : Shrunk d₀ oldsz newsz s₀ {f} d t) :
    Shrunk d₀ oldsz newsz s₀ 0 d (release [f] t) :=
  { h with
    books := by
      have hbooks : Books (supply d₀ s₀) ({f} + frames d) t :=
        ⟨by rw [add_comm {f} (frames d)]; exact h.books, nofun⟩
      have htotal := (kfree_spec f (frames d) t () _ hbooks (kfree_run hf t)).total
      rw [zero_add] at htotal
      rw [add_zero]
      exact htotal
    mem := by
      intro g hg
      have hgf : g ∉ [f] := by
        rw [List.mem_singleton]
        rintro rfl
        exact hg hmine
      rw [release_mem hgf, h.mem g hg] }

/-! allocuvm(). -/

/-- The user memory has grown to `newsz`: the pages of InRange oldsz newsz are new. -/
structure Grown (d : PageDir) (oldsz newsz : Word) (s : Kmem) (d' : PageDir) (t : Kmem) : Prop where
  exact : Exact d' (up newsz.toNat)
  old : ∀ b, ¬ InRange oldsz newsz b → d'.pte b = d.pte b
  memory : ∀ f ∉ s.freelist, t.mem f = s.mem f
  access : ∀ b, InRange oldsz newsz b → writable d' b ∧ user d' b
  zero : ∀ b, InRange oldsz newsz b → t.mem (frameOf d' b) = zeros
  fresh : ∀ b, InRange oldsz newsz b → frameOf d' b ∈ s.freelist
  distinct : ∀ a b, InRange oldsz newsz a → InRange oldsz newsz b →
    frameOf d' a = frameOf d' b → page a = page b

/-- No user page and no frame of the old ones has changed, and the frames that did not become page
tables are free again. -/
structure RolledBack (d : PageDir) (oldsz : Word) (s : Kmem) (d' : PageDir) (t : Kmem) :
    Prop where
  exact : Exact d' (up oldsz.toNat)
  old : ∀ b, d.present b → d'.pte b = d.pte b
  memory : ∀ f ∉ s.freelist, t.mem f = s.mem f
  linked : ∀ i, (d.pde i).isSome → (d'.pde i).map PageTable.frame = (d.pde i).map PageTable.frame
  free : (t.freelist : Multiset Frame) + tables d' indices = s.freelist + tables d indices

theorem exact_page {b : Word} {sz : Word} (h : Exact d (up sz.toNat)) (hb : b < KERNBASE) :
    d.present b ↔ page b < pages sz := by
  rw [h b hb]
  simp only [up, page, pages]
  omega

theorem shrunk_rolledBack (hold : Exact d₀ (up oldsz.toNat)) (hnew : newsz < KERNBASE)
    (h : Shrunk d₀ oldsz newsz s₀ 0 d t) : RolledBack d₀ oldsz s₀ d t := by
  have hbase : KERNBASE.toNat = 2147483648 := rfl
  have hpages := pages_le (BitVec.le_of_lt hnew)
  have hpresent : ∀ b, b < KERNBASE → (d.present b ↔ page b < pages oldsz) := by
    intro b hb
    by_cases hin : pages oldsz ≤ page b ∧ page b < pages newsz
    · exact iff_of_false (h.gone b hin.1 hin.2) (by omega)
    · rw [PageDir.present, h.kept b hin, ← exact_page hold hb]
      exact Iff.rfl
  have hsame : ∀ b, d₀.present b → d.pte b = d₀.pte b := by
    intro b hpres
    apply h.kept
    rintro ⟨hlo, hhi⟩
    have hb : b < KERNBASE := by
      simp only [page] at hhi
      rw [BitVec.lt_def]
      omega
    rw [exact_page hold hb] at hpres
    omega
  refine ⟨fun b hb => ?_, hsame, h.mem, h.tables, ?_⟩
  · rw [hpresent b hb]
    simp only [up, page, pages]
    omega
  · have huser : userFrames d = userFrames d₀ := by
      apply userFrames_congr
      intro b hb
      by_cases hpres : d₀.present b
      · rw [hsame b hpres]
      · have hno : ¬ d.present b := by
          rw [hpresent b hb, ← exact_page hold hb]
          exact hpres
        rw [mapped_absent hno, mapped_absent hpres]
    have hbooks := h.books
    rw [add_zero, frames_split d, frames_split d₀, huser, h.frame] at hbooks
    apply add_right_cancel (b := {d₀.frame} + userFrames d₀)
    calc (t.freelist : Multiset Frame) + tables d indices + ({d₀.frame} + userFrames d₀)
        = t.freelist + ({d₀.frame} + tables d indices + userFrames d₀) := by abel
      _ = s₀.freelist + ({d₀.frame} + tables d₀ indices + userFrames d₀) := hbooks
      _ = s₀.freelist + tables d₀ indices + ({d₀.frame} + userFrames d₀) := by abel

theorem growing_grown (hold : Exact d₀ (up oldsz.toNat)) (holdsz : oldsz < KERNBASE)
    (hle : pages oldsz ≤ pages newsz) (h : Growing d₀ oldsz s₀ 0 d s (pages newsz)) :
    Grown d₀ oldsz newsz s₀ d s := by
  have hrange : ∀ b, InRange oldsz newsz b ↔ pages oldsz ≤ page b ∧ page b < pages newsz :=
    inRange_iff (BitVec.le_of_lt holdsz)
  have hflag : ∀ b, InRange oldsz newsz b → ∀ m, m &&& 0xFFF = m →
      d.pte b &&& m = (PTE_W ||| PTE_U ||| PTE_P) &&& m := by
    intro b hb m hm
    obtain ⟨hlo, hhi⟩ := (hrange b).mp hb
    rw [h.entry b hlo hhi]
    exact entry_flag (V2P_mod _) hm
  refine ⟨fun b hb => ?_, fun b hb => ?_, h.mem, fun b hb => ⟨?_, ?_⟩, fun b hb => ?_,
    fun b hb => ?_, fun a b ha hb => ?_⟩
  · have hup : b.toNat < up newsz.toNat ↔ page b < pages newsz := by
      simp only [up, page, pages]
      omega
    rw [hup]
    by_cases hin : pages oldsz ≤ page b ∧ page b < pages newsz
    · rw [PageDir.present, h.entry b hin.1 hin.2]
      exact iff_of_true (set_P _ _) hin.2
    · rw [PageDir.present, h.kept b hin]
      have hpres := exact_page hold hb
      rw [PageDir.present] at hpres
      rw [hpres]
      omega
  · exact h.kept b fun hin => hb ((hrange b).mpr hin)
  · rw [writable, hflag b hb PTE_W (by decide)]
    decide
  · rw [user, hflag b hb PTE_U (by decide)]
    decide
  · obtain ⟨hlo, hhi⟩ := (hrange b).mp hb
    exact h.zero b hlo hhi
  · obtain ⟨hlo, hhi⟩ := (hrange b).mp hb
    exact h.fresh b hlo hhi
  · obtain ⟨halo, hahi⟩ := (hrange a).mp ha
    obtain ⟨hblo, hbhi⟩ := (hrange b).mp hb
    exact h.distinct a b halo hahi hblo hbhi

theorem allocFrom_run (hu : ∀ f ∈ s₀.freelist, Usable img f) (hnodup : s₀.freelist.Nodup)
    (hfree : ∀ g, Holds d₀ g → g ∉ s₀.freelist) (hold : Exact d₀ (up oldsz.toNat))
    (hnew : newsz < KERNBASE) (ha : a.toNat % 4096 = 0) (hlo : pages oldsz ≤ page a)
    (hhi : page a ≤ pages newsz) (hk : pages newsz ≤ page a + k)
    (h : Growing d₀ oldsz s₀ 0 d s (page a)) :
    ∃ e r t, allocFrom img oldsz newsz k d a s = .ok ((e, r), t) ∧
      (r = newsz ∧ Growing d₀ oldsz s₀ 0 e t (pages newsz) ∨
        r = 0 ∧ Shrunk d₀ oldsz newsz s₀ 0 e t) := by
  have hdone : ∀ {a : Word} {d : PageDir} {s : Kmem}, a.toNat % 4096 = 0 → page a ≤ pages newsz →
      Growing d₀ oldsz s₀ 0 d s (page a) → ¬ a < newsz →
      Growing d₀ oldsz s₀ 0 d s (pages newsz) := by
    intro a d s ha hhi h hlt
    rw [page_lt ha] at hlt
    have heq : page a = pages newsz := by omega
    rw [← heq]
    exact h
  have habsent : ∀ b, b < KERNBASE → pages oldsz ≤ page b → ¬ d₀.present b := by
    intro b hb hle
    rw [exact_page hold hb]
    omega
  induction k generalizing d a s with
  | zero =>
    have hlt : ¬ a < newsz := by
      rw [page_lt ha]
      omega
    rw [allocFrom, if_neg hlt]
    exact ⟨d, newsz, s, rfl, Or.inl ⟨rfl, hdone ha hhi h hlt⟩⟩
  | succ k ih =>
    rw [allocFrom]
    by_cases hlt : a < newsz
    · have hlow := below_kernbase hlt (BitVec.le_of_lt hnew)
      have hpage := (page_lt ha).mp hlt
      obtain ⟨hmod, hnext⟩ := page_next ha hlow
      have hgrow : oldsz < newsz := by
        rw [BitVec.lt_def]
        simp only [pages] at hlo hpage
        omega
      rw [if_pos hlt]
      obtain ⟨r, u, halloc, hmem, hlist⟩ := kalloc_run s
      cases r with
      | none =>
        have hsame : s.freelist = u.freelist := hlist
        have hstay : Growing d₀ oldsz s₀ 0 d u (page a) :=
          { h with
            books := hsame ▸ h.books
            free := hsame ▸ h.free
            mem := fun g hg => by rw [hmem, h.mem g hg]
            zero := fun b hb hb' => by rw [hmem, h.zero b hb hb'] }
        obtain ⟨e, r, t, hrun, hback⟩ := rollback_run hu hnew hgrow hhi habsent hstay
        exact ⟨e, 0, t, (run_bind halloc).trans (run_bind hrun), Or.inr ⟨rfl, hback⟩⟩
      | some f =>
        have hbooks : Books (supply d₀ s₀) (frames d) s := by
          refine ⟨?_, by rintro ⟨⟩⟩
          have htotal := h.books
          rw [add_zero] at htotal
          exact htotal
        have hno : ¬ d.present a := by
          rw [PageDir.present, h.kept a (by omega)]
          exact habsent a hlow hlo
        obtain ⟨w, e, ok, v, hfill, hmap, hplaced⟩ :=
          place_run flags_user ha hlow hno hbooks halloc zeros
        have hmine := h.free hplaced.mine
        cases ok with
        | true =>
          have hgood := growing_step hnodup hfree hlow hlo h hplaced
          rw [← hnext] at hgood
          obtain ⟨e', r, t, hrun, hr⟩ := ih hmod (by omega) (by omega) (by omega) hgood
          exact ⟨e', r, t, (run_bind halloc).trans ((run_bind hfill).trans
            ((run_bind hmap).trans hrun)), hr⟩
        | false =>
          have hbad := growing_failed hnodup hfree hlow h hplaced
          obtain ⟨e', r, t, hrun, hback⟩ := rollback_run hu hnew hgrow hhi habsent hbad
          have hfreed := kfree_run (hu f hmine) t
          refine ⟨e', 0, release [f] t, ?_, Or.inr ⟨rfl, shrunk_kfree (hu f hmine) hmine hback⟩⟩
          exact (run_bind halloc).trans ((run_bind hfill).trans ((run_bind hmap).trans
            ((run_bind hrun).trans (run_bind hfreed))))
    · rw [if_neg hlt]
      exact ⟨d, newsz, s, rfl, Or.inl ⟨rfl, hdone ha hhi h hlt⟩⟩

theorem allocuvm_run (hsz : oldsz < KERNBASE) (hold : Exact d₀ (up oldsz.toNat))
    (hu : ∀ f ∈ s₀.freelist, Usable img f) (hnodup : s₀.freelist.Nodup)
    (hfree : ∀ f, Holds d₀ f → f ∉ s₀.freelist) (hge : oldsz ≤ newsz) (hnew : newsz < KERNBASE) :
    ∃ d r t, allocuvm img d₀ oldsz newsz s₀ = .ok ((d, r), t) ∧
      (r = newsz ∧ Grown d₀ oldsz newsz s₀ d t ∨ r = 0 ∧ RolledBack d₀ oldsz s₀ d t) := by
  have hpage : page (PGROUNDUP oldsz) = pages oldsz := by
    rw [BitVec.lt_def] at hsz
    rw [page, PGROUNDUP_toNat (Nat.le_of_lt hsz), up, pages]
    omega
  have hfew : pages oldsz ≤ pages newsz := pages_mono hge
  have hbound : pages newsz ≤ page (PGROUNDUP oldsz) + bound := by
    have hle := pages_le (BitVec.le_of_lt hnew)
    have hlarge : 2 ^ 19 ≤ bound := by decide
    exact (hle.trans hlarge).trans (Nat.le_add_left _ _)
  have hstart : Growing d₀ oldsz s₀ 0 d₀ s₀ (page (PGROUNDUP oldsz)) := by
    have hnone : ∀ b : Word, pages oldsz ≤ page b → ¬ page b < page (PGROUNDUP oldsz) := by
      intro b hlo
      omega
    exact ⟨by rw [add_zero], fun _ => id, fun _ _ => rfl, rfl, fun _ _ => rfl, fun _ _ => rfl,
      fun b hlo hhi => absurd hhi (hnone b hlo), fun b hlo hhi => absurd hhi (hnone b hlo),
      fun b hlo hhi => absurd hhi (hnone b hlo), fun a _ halo hahi => absurd hahi (hnone a halo)⟩
  obtain ⟨e, r, t, hrun, hr⟩ := allocFrom_run hu hnodup hfree hold hnew (PGROUNDUP_mod oldsz)
    (Nat.le_of_eq hpage.symm) (hpage ▸ hfew) hbound hstart
  refine ⟨e, r, t, ?_, ?_⟩
  · rw [allocuvm, if_neg (BitVec.not_le.mpr hnew), if_neg (BitVec.not_lt.mpr hge)]
    exact hrun
  · rcases hr with ⟨hr, hgrown⟩ | ⟨hr, hback⟩
    · exact Or.inl ⟨hr, growing_grown hold hsz hfew hgrown⟩
    · exact Or.inr ⟨hr, shrunk_rolledBack hold hnew hback⟩

/-- allocuvm() runs to its end for every pattern of kalloc() failures, with all the new pages or
with what it found. -/
theorem allocuvm_exact (img : KernelImage) {d : PageDir} {oldsz : Word} (newsz : Word)
    (hsz : oldsz < KERNBASE) (hold : Exact d (up oldsz.toNat)) (s : Kmem)
    (hu : ∀ f ∈ s.freelist, Usable img f) (hnodup : s.freelist.Nodup)
    (hfree : ∀ f, Holds d f → f ∉ s.freelist) :
    ∃ d' r t, allocuvm img d oldsz newsz s = .ok ((d', r), t) ∧
      (KERNBASE ≤ newsz → r = 0 ∧ d' = d ∧ t = s) ∧
      (newsz < oldsz → r = oldsz ∧ d' = d ∧ t = s) ∧
      (oldsz ≤ newsz → newsz < KERNBASE →
        r = newsz ∧ Grown d oldsz newsz s d' t ∨ r = 0 ∧ RolledBack d oldsz s d' t) := by
  by_cases hhigh : KERNBASE ≤ newsz
  · refine ⟨d, 0, s, ?_, fun _ => ⟨rfl, rfl, rfl⟩, fun hlt => ?_, fun _ hnew => ?_⟩
    · rw [allocuvm, if_pos hhigh]
      rfl
    · rw [BitVec.le_def] at hhigh
      rw [BitVec.lt_def] at hlt hsz
      omega
    · exact absurd hhigh (BitVec.not_le.mpr hnew)
  · by_cases hlt : newsz < oldsz
    · refine ⟨d, oldsz, s, ?_, fun h => absurd h hhigh, fun _ => ⟨rfl, rfl, rfl⟩,
        fun h => absurd h (BitVec.not_le.mpr hlt)⟩
      rw [allocuvm, if_neg hhigh, if_pos hlt]
      rfl
    · obtain ⟨d', r, t, hrun, hr⟩ := allocuvm_run hsz hold hu hnodup hfree (BitVec.not_lt.mp hlt)
        (BitVec.not_le.mp hhigh)
      exact ⟨d', r, t, hrun, fun h => absurd h hhigh, fun h => absurd h hlt, fun _ _ => hr⟩

theorem allocuvm_exact_twoPages :
    ∃ d' r t, allocuvm smallKernel twoPages 8192 20000 ⟨[0x500, 0x501], [], fun _ => zeros⟩ =
        .ok ((d', r), t) ∧
      (KERNBASE ≤ (20000 : Word) → r = 0 ∧ d' = twoPages ∧
        t = ⟨[0x500, 0x501], [], fun _ => zeros⟩) ∧
      ((20000 : Word) < 8192 → r = 8192 ∧ d' = twoPages ∧
        t = ⟨[0x500, 0x501], [], fun _ => zeros⟩) ∧
      ((8192 : Word) ≤ 20000 → 20000 < KERNBASE →
        r = 20000 ∧ Grown twoPages 8192 20000 ⟨[0x500, 0x501], [], fun _ => zeros⟩ d' t ∨
          r = 0 ∧ RolledBack twoPages 8192 ⟨[0x500, 0x501], [], fun _ => zeros⟩ d' t) := by
  exact allocuvm_exact smallKernel 20000 (by decide) twoPages_exact
    ⟨[0x500, 0x501], [], fun _ => zeros⟩ freePages_usable (by decide) twoPages_holds

end PageGrowth
