import OsEngineering.CallEffects

/-! Link counts that are exact: a directory without links is empty, and each other one is named
once, in the directory that is its "..". -/
namespace LinkCounts

open FaultState TransitionSystem KernelParams DirectoryTree PathWalk PathResolution InodeCounts
  SystemCalls FailedCalls LinkGraph TreeChanges DirectoryLinks UsedInodes CallEffects

variable {n : ℕ} {s t u : Fs} {c d dp i off : ℕ} {name : Name} {x : Dinode}

structure Exact (n : ℕ) (s : Fs) : Prop extends Tree n s where
  exact : ∀ i, 0 < i → nlink s i ≤ weight n s i
  bare : ∀ d, type s d = .dir → nlink s d = 0 → kids s d = 0
  parent : ∀ d c, c ∈ kids s d → type s c = .dir → dotdot s c = d
  once : ∀ c, type s c = .dir → 0 < nlink s c → c ≠ ROOTINO →
    names (Finset.range n) (kids s) c = 1
  unnamed : names (Finset.range n) (kids s) ROOTINO = 0
  top : dotdot s ROOTINO = ROOTINO

namespace Exact

theorem nlink_eq (h : Exact n s) (hi : 0 < i) : nlink s i = weight n s i :=
  le_antisymm (h.exact i hi) (h.links i hi)

theorem not_root (h : Exact n s) (hc : c ∈ kids s d) : c ≠ ROOTINO := by
  rintro rfl
  have hpos := names_pos (h.dir_lt (dir_of_mem hc)) hc
  have hzero := h.unnamed
  omega

theorem linked_of_kid (h : Exact n s) (hc : c ∈ kids s d) : 0 < nlink s d := by
  have hd := dir_of_mem hc
  have hnonneg := h.nonneg d
  have hne : nlink s d ≠ 0 := by
    intro hzero
    rw [h.bare d hd hzero] at hc
    exact Multiset.notMem_zero c hc
  omega

/-- A directory stands above its subdirectories, and has a place in another or is the root. -/
theorem parent_linked (h : Exact n s) (hd : type s d = .dir) (hlink : 0 < nlink s d) :
    0 < names (Finset.range n) (kids s) d + if d = ROOTINO then 1 else 0 := by
  by_cases hroot : d = ROOTINO
  · rw [if_pos hroot]
    omega
  · rw [h.once d hd hlink hroot]
    omega

/-! Freed inodes -/

theorem kids_freed (h : Exact n s) (hf : Freed s t) (d : ℕ) : kids t d = kids s d := by
  by_cases hd : type t d = .dir
  · exact kids_congr (hd.trans (dir_freed hf hd).symm) (entries_freed hf hd)
  · rw [kids_not_dir hd]
    by_cases hs : type s d = .dir
    · refine (h.bare d hs ?_).symm
      by_contra hne
      exact hd ((hf.type_of_linked hne).trans hs)
    · exact (kids_not_dir hs).symm

theorem freed (h : Exact n s) (hf : Freed s t) : Exact n t := by
  have hkids : kids t = kids s := funext (h.kids_freed hf)
  have hweight : ∀ i, weight n t i = weight n s i := by
    intro i
    have hbelow : below (kids t) (IsDir t) i = below (kids s) (IsDir s) i := by
      apply below_congr i (h.kids_freed hf i)
      intro c hc
      have hlinked := h.linked_of_mem hc
      unfold IsDir
      rw [hf.type_of_linked (by omega)]
    rw [weight, weight, hkids, ← hbelow, hkids]
  refine ⟨h.toTree.freed hf, ?_, ?_, ?_, ?_, ?_, ?_⟩
  · intro i hi
    rw [hf.nlink_eq, hweight]
    exact h.exact i hi
  · intro d hd hn
    rw [hf.nlink_eq] at hn
    rw [hkids]
    exact h.bare d (dir_freed hf hd) hn
  · intro d c hc hdir
    rw [hkids] at hc
    rw [dotdot_congr (entries_freed hf hdir)]
    exact h.parent d c hc (dir_freed hf hdir)
  · intro c hc hn hroot
    rw [hf.nlink_eq] at hn
    rw [hkids]
    exact h.once c (dir_freed hf hc) hn hroot
  · rw [hkids]
    exact h.unnamed
  · have hroot := (h.toTree.freed hf).root
    rw [dotdot_congr (entries_freed hf hroot)]
    exact h.top

/-! The changes. A new entry goes into a directory with links. -/

theorem link (h : Exact n u) (hl : Links u dp name i) (hdp : 0 < nlink u dp) :
    Exact n (newLink u dp name i) := by
  have ht := h.toTree
  have hadd := hl.added ht
  have hnot : ∀ j, ¬ (j = dp ∧ type u i = .dir) := fun j hand => hl.file hand.2
  have hnames : ∀ c, type u c = .dir → names (Finset.range n) (kids (newLink u dp name i)) c =
      names (Finset.range n) (kids u) c := by
    intro c hc
    have hne : c ≠ i := by
      rintro rfl
      exact hl.file hc
    rw [hadd.names (ht.dir_lt hl.dir), if_neg hne, add_zero]
  refine ⟨hl.tree ht, ?_, ?_, ?_, ?_, ?_, ?_⟩
  · intro j hj
    have hexact := h.exact j hj
    rw [hadd.weight (ht.dir_lt hl.dir), nlink_newLink, type_newLink, if_neg (hnot j)]
    split
    · omega
    · omega
  · intro d hd hn
    rw [type_newLink] at hd
    have hne : d ≠ i := by
      rintro rfl
      exact hl.file hd
    rw [nlink_newLink, if_neg hne, add_zero] at hn
    have hddp : d ≠ dp := by
      rintro rfl
      omega
    rw [hadd.old d hddp]
    exact h.bare d hd hn
  · intro d c hc hdir
    rw [type_newLink] at hdir
    rw [hl.dotdot_eq ht]
    obtain ⟨rfl, -⟩ | hold := hadd.mem hc
    · exact absurd hdir hl.file
    · exact h.parent d c hold hdir
  · intro c hc hn hroot
    rw [type_newLink] at hc
    have hne : c ≠ i := by
      rintro rfl
      exact hl.file hc
    rw [nlink_newLink, if_neg hne, add_zero] at hn
    rw [hnames c hc]
    exact h.once c hc hn hroot
  · rw [hnames _ ht.root]
    exact h.unnamed
  · rw [hl.dotdot_eq ht]
    exact h.top

theorem birth (h : Exact n u) (hb : Births n u dp name i x) (hdp : 0 < nlink u dp) :
    Exact n (newInode u dp name i x) := by
  have ht := h.toTree
  have hadd := hb.added ht
  have hne := hb.ne
  have hnames : ∀ c, c ≠ i → names (Finset.range n) (kids (newInode u dp name i x)) c =
      names (Finset.range n) (kids u) c := by
    intro c hc
    rw [hadd.names (ht.dir_lt hb.dir), if_neg hc, add_zero]
  refine ⟨hb.tree ht, ?_, ?_, ?_, ?_, ?_, ?_⟩
  · intro j hj
    have hexact := h.exact j hj
    rw [hadd.weight (ht.dir_lt hb.dir), type_newInode_self]
    by_cases hji : j = i
    · rw [hji, nlink_newInode_self u dp name x hne, hb.nlink, if_pos rfl]
      omega
    · rw [nlink_newInode_ne u dp name x hji, if_neg hji]
      by_cases hdp : j = dp
      · by_cases hx : x.type = .dir
        · rw [if_pos hdp, if_pos hx, if_pos ⟨hdp, hx⟩]
          omega
        · rw [if_pos hdp, if_neg hx]
          omega
      · rw [if_neg hdp]
        omega
  · intro d hd hn
    have hdi : d ≠ i := by
      rintro rfl
      rw [nlink_newInode_self u dp name x hne, hb.nlink] at hn
      omega
    rw [type_newInode_ne u dp name x hdi] at hd
    rw [nlink_newInode_ne u dp name x hdi] at hn
    have hddp : d ≠ dp := by
      rintro rfl
      rw [if_pos rfl] at hn
      split at hn
      · omega
      · omega
    rw [if_neg hddp, add_zero] at hn
    rw [hadd.old d hddp]
    exact h.bare d hd hn
  · intro d c hc hdir
    obtain ⟨rfl, rfl⟩ | hold := hadd.mem hc
    · rw [type_newInode_self] at hdir
      exact dotdot_shaped (hb.shaped_new ht hdir)
    · have hci : c ≠ i := by
        rintro rfl
        exact ht.not_named hb.free d hold
      rw [type_newInode_ne u dp name x hci] at hdir
      rw [hb.dotdot_ne ht hci]
      exact h.parent d c hold hdir
  · intro c hc hn hroot
    by_cases hci : c = i
    · rw [hadd.names (ht.dir_lt hb.dir), hci, if_pos rfl, ht.names_free hb.free]
    · rw [type_newInode_ne u dp name x hci] at hc
      rw [nlink_newInode_ne u dp name x hci] at hn
      rw [hnames c hci]
      refine h.once c hc ?_ hroot
      by_cases hcdp : c = dp
      · rwa [hcdp]
      · rwa [if_neg hcdp, add_zero] at hn
  · rw [hnames _ (hb.ne_root ht)]
    exact h.unnamed
  · rw [hb.dotdot_ne ht (hb.ne_root ht)]
    exact h.top

/-- A directory that is removed has one link. -/
theorem nlink_removed_dir (h : Exact n u) (hr : Removes u dp name off i)
    (hdir : type u i = .dir) : nlink u i = 1 := by
  have hmem := hr.mem h.toTree
  have hroot := h.not_root hmem
  rw [h.nlink_eq (pos_of_mem hmem), weight, h.once i hdir hr.linked hroot, if_neg hroot, below,
    kids_empty (hr.empty hdir), Multiset.countP_zero]
  rfl

theorem remove (h : Exact n u) (hr : Removes u dp name off i) : Exact n (removed u dp off i) := by
  have ht := h.toTree
  have hadd := hr.added ht
  have hmem := hr.mem ht
  have hlinked := h.linked_of_kid hmem
  have hnot : ∀ j, j = dp → j ≠ i := fun j hdp hji => hr.ne (hji.symm.trans hdp)
  -- a directory keeps its links and its name, or is the one that is removed
  have hkept : ∀ c, type u c = .dir → 0 < nlink (removed u dp off i) c → c ≠ i := by
    rintro c hc hn rfl
    rw [nlink_removed, if_neg hr.ne, if_pos rfl, h.nlink_removed_dir hr hc] at hn
    omega
  have hnames : ∀ c, c ≠ i → names (Finset.range n) (kids (removed u dp off i)) c =
      names (Finset.range n) (kids u) c := by
    intro c hc
    rw [hadd.names (ht.dir_lt (by rw [hr.dir])), if_neg hc, add_zero]
  refine ⟨hr.tree ht, ?_, ?_, ?_, ?_, ?_, ?_⟩
  · intro j hj
    have hexact := h.exact j hj
    have hcount := hr.count ht j
    omega
  · intro d hd hn
    rw [type_removed] at hd
    have hsub : kids u d = 0 → kids (removed u dp off i) d = 0 := by
      intro hnil
      apply Multiset.eq_zero_of_forall_notMem
      intro c hc
      have hkeep := hadd.keeps hc
      rw [hnil] at hkeep
      exact Multiset.notMem_zero c hkeep
    by_cases hdi : d = i
    · subst hdi
      exact hsub (kids_empty (hr.empty hd))
    · by_cases hddp : d = dp
      · subst hddp
        have hpos := h.parent_linked hr.dir hlinked
        have hweight := (hr.tree ht).links d (ht.bound d (by rw [hr.dir]; decide)).1
        rw [weight, hnames d hdi] at hweight
        omega
      · rw [nlink_removed, if_neg hddp, if_neg hdi, add_zero, add_zero] at hn
        exact hsub (h.bare d hd hn)
  · intro d c hc hdir
    rw [type_removed] at hdir
    rw [hr.dotdot_eq ht]
    exact h.parent d c (hadd.keeps hc) hdir
  · intro c hc hn hroot
    rw [type_removed] at hc
    have hci := hkept c hc hn
    rw [hnames c hci]
    refine h.once c hc ?_ hroot
    rw [nlink_removed, if_neg hci] at hn
    split at hn
    · split at hn
      · omega
      · omega
    · omega
  · rw [hnames _ (Ne.symm (h.not_root hmem))]
    exact h.unnamed
  · rw [hr.dotdot_eq ht]
    exact h.top

end Exact

/-! What is counted -/

/-- The entries for `i`, other than ".", in directories with links. -/
def linkCount (n : ℕ) (s : Fs) (i : ℕ) : ℕ :=
  ∑ d ∈ Finset.range n with type s d = .dir ∧ 0 < nlink s d,
    (entries s d).countP fun e => e.inum = i ∧ e.name ≠ ['.']

structure Counted (n : ℕ) (s : Fs) : Prop where
  exact : ∀ i, type s i ≠ .free → nlink s i = linkCount n s i
  named : ∀ i, type s i ≠ .free → 0 < nlink s i → ∃ d, type s d = .dir ∧ 0 < nlink s d ∧
    ∃ e ∈ entries s d, e.inum = i ∧ e.name ≠ ['.']

theorem count_rest {rest : List Dirent} (hi : i ≠ 0)
    (h : ∀ e ∈ rest, e.inum ≠ 0 → e.name ≠ ['.']) :
    rest.countP (fun e => e.inum = i ∧ e.name ≠ ['.']) = (inums rest).count i := by
  induction rest with
  | nil => rfl
  | cons e rest ih =>
    have htail := ih fun x hx => h x (List.mem_cons_of_mem e hx)
    rw [List.countP_cons, htail]
    by_cases he : e.inum = 0
    · have hnot : ¬ (decide (e.inum = i ∧ e.name ≠ ['.']) = true) := by
        rw [decide_eq_true_iff, he]
        exact fun hand => hi hand.1.symm
      rw [inums_cons_free he, if_neg hnot, add_zero]
    · have hname := h e List.mem_cons_self he
      rw [inums_cons he, Multiset.count_cons]
      congr 1
      apply if_congr _ rfl rfl
      rw [decide_eq_true_iff, and_iff_left hname]
      exact eq_comm

theorem count_entries (h : Tree n s) (hd : type s d = .dir) (hi : i ≠ 0) :
    (entries s d).countP (fun e => e.inum = i ∧ e.name ≠ ['.']) =
      (kids s d).count i + if dotdot s d = i then 1 else 0 := by
  obtain ⟨p, rest, hshape⟩ := h.shape d hd
  have hrest := count_rest hi hshape.names
  rw [kids_shaped hd hshape, dotdot_shaped hshape, ← hrest]
  obtain ⟨b, b', heq⟩ := hshape.places
  rw [heq, List.countP_cons, List.countP_cons]
  have hdot : ¬ (decide (d = i ∧ (['.'] : Name) ≠ ['.']) = true) := by
    rw [decide_eq_true_iff]
    exact fun hand => hand.2 rfl
  rw [if_neg hdot, add_zero]
  congr 1
  apply if_congr _ rfl rfl
  rw [decide_eq_true_iff]
  have hne : (['.', '.'] : Name) ≠ ['.'] := by decide
  exact and_iff_left hne

theorem Exact.names_dir (h : Exact n s) (c : ℕ) (hc : type s c = .dir) :
    names (Finset.range n) (kids s) c = if 0 < nlink s c ∧ c ≠ ROOTINO then 1 else 0 := by
  by_cases hroot : c = ROOTINO
  · rw [if_neg fun hand => hand.2 hroot, hroot]
    exact h.unnamed
  · by_cases hn : 0 < nlink s c
    · rw [if_pos ⟨hn, hroot⟩]
      exact h.once c hc hn hroot
    · have hlinks := h.links c (h.bound c (by rw [hc]; decide)).1
      rw [if_neg fun hand => hn hand.1]
      unfold weight at hlinks
      omega

theorem Exact.linkCount_eq (h : Exact n s) (hi : i ≠ 0) : linkCount n s i = weight n s i := by
  have hbelow : below (kids s) (IsDir s) i + (if i = ROOTINO then 1 else 0) =
      ((Finset.range n).filter fun c => IsDir s c ∧ 0 < nlink s c ∧ dotdot s c = i).card := by
    refine below_eq_card ?_ (fun c hc => h.dir_lt hc) h.names_dir h.parent
      ⟨h.root, h.root_linked⟩ h.top i
    intro d hd
    apply h.dir_lt
    by_contra hdir
    exact hd (kids_not_dir hdir)
  rw [weight, add_assoc, hbelow, Finset.card_filter, names, ← Finset.sum_add_distrib, linkCount,
    Finset.sum_filter]
  apply Finset.sum_congr rfl
  intro d _
  by_cases hd : type s d = .dir
  · by_cases hn : 0 < nlink s d
    · rw [if_pos ⟨hd, hn⟩, count_entries h.toTree hd hi]
      congr 1
      exact if_congr ⟨fun hup => ⟨hd, hn, hup⟩, fun hand => hand.2.2⟩ rfl rfl
    · have hnonneg := h.nonneg d
      rw [if_neg fun hand => hn hand.2, if_neg fun hand => hn hand.2.1,
        h.bare d hd (by omega), Multiset.count_zero, add_zero]
  · rw [if_neg fun hand => hd hand.1, if_neg fun hand => hd hand.1, kids_not_dir hd,
      Multiset.count_zero, add_zero]

theorem Exact.counted (h : Exact n s) : Counted n s := by
  have hexact : ∀ i, type s i ≠ .free → nlink s i = linkCount n s i := by
    intro i hi
    have hpos := (h.bound i hi).1
    rw [h.linkCount_eq (Nat.pos_iff_ne_zero.mp hpos), h.nlink_eq hpos]
  refine ⟨hexact, ?_⟩
  intro i hi hn
  rw [hexact i hi] at hn
  have hsum : linkCount n s i ≠ 0 := by omega
  obtain ⟨d, hd, hcount⟩ := Finset.exists_ne_zero_of_sum_ne_zero hsum
  obtain ⟨-, hdir, hlinked⟩ := Finset.mem_filter.mp hd
  obtain ⟨e, he, hwant⟩ := List.countP_pos_iff.mp (Nat.pos_of_ne_zero hcount)
  rw [decide_eq_true_iff] at hwant
  exact ⟨d, hdir, hlinked, e, he, hwant⟩

/-! Runs -/

/-- An entry is made only in a directory that has links. -/
def Tidy (s : State) (e : Event) : Prop := ∀ q path dp name, s.fs.procs e.p = some q →
  Makes s.fs q e.call path → LeadsTo s.fs (start q path) (components path) dp name →
  (∀ j, ¬ Lookup s.fs dp name j) → 0 < nlink s.fs dp

/-- A tree in which all that is in use has links and is counted. -/
structure Consistent (n : ℕ) (dinodes : ℕ → Dinode) : Prop where
  exact : Exact n (booted dinodes).fs
  linked : ∀ i, (dinodes i).type ≠ .free → 0 < (dinodes i).nlink
  births : ∀ i, ∀ e ∈ (dinodes i).entries, e.birth = 0

/-- Between calls. -/
structure Kept (n : ℕ) (s : Fs) : Prop where
  exact : Exact n s
  valid : ∀ i, s.valid i = true → type s i ≠ .free

theorem linked_before {q : Proc} {p : Fin NPROC} {c : Call} {path : Path} {halted : Option Fault}
    (ht : Tidy ⟨s, halted⟩ ⟨p, c⟩) (hq : s.procs p = some q) (hm : Makes s q c path)
    (hl : LeadsTo s (start q path) (components path) dp name) (hf : Freed s u)
    (hdir : type u dp = .dir) (hnone : findEntry name (entries u dp) 0 = none) :
    0 < nlink u dp := by
  rw [hf.nlink_eq]
  refine ht q path dp name hq hm hl ?_
  intro j hlook
  obtain ⟨off, hoff⟩ := (lookup_iff dp).mp hlook
  rw [(dir_before hf hdir).2, hnone] at hoff
  cases hoff

theorem effect_exact {p : Fin NPROC} {c : Call} {halted : Option Fault} (h : Exact n s)
    (ht : Tidy ⟨s, halted⟩ ⟨p, c⟩) (he : Effect False n s p c t) : Exact n t := by
  cases he with
  | kept hf => exact h.freed hf
  | link hq hm hl hf hlinks ht' =>
    have hdp := linked_before ht hq hm hl hf hlinks.dir hlinks.none
    exact ((h.freed hf).link hlinks hdp).freed ht'
  | create hq hm hl hf hb ht' =>
    have hdp := linked_before ht hq hm hl hf hb.dir hb.none
    exact ((h.freed hf).birth hb hdp).freed ht'
  | unlink _ _ _ hf hr ht' _ => exact ((h.freed hf).remove hr).freed ht'

theorem step_kept {s t : State} {e : Event} (h : Kept n s.fs)
    (hs : Guarded (machine n).Step Tidy s e t) : Kept n t.fs := by
  obtain ⟨ht, -, rfl⟩ := hs
  change Kept n (next n s e).fs
  cases hrun : e.call.run n e.p s.fs with
  | error f =>
    simp only [next, hrun]
    exact h
  | ok r =>
    simp only [next, hrun]
    have hsince : Since False 0 s.fs s.fs :=
      .start h.valid False.elim False.elim False.elim
    have hends := wp_ok (call_ends hsince h.exact.nonneg e.call) hrun
    exact ⟨effect_exact h.exact ht hends.effect, hends.valid⟩

theorem links_counted {dinodes : ℕ → Dinode} {es : List Event} {s : State}
    (hc : Consistent n dinodes)
    (r : Run (Guarded (machine n).Step Tidy) (· = booted dinodes) es s) : Counted n s.fs := by
  have hkept : Kept n s.fs := by
    refine r.invariant (I := fun s => Kept n s.fs) ?_ ?_
    · intro s hs
      rw [hs]
      refine ⟨hc.exact, ?_⟩
      intro i hi
      cases hi
    · intro s e t h hs
      exact step_kept h hs
  exact hkept.exact.counted

theorem kids_rootOnly (d : ℕ) : kids (booted rootOnly).fs d = 0 := by
  by_cases hd : d = ROOTINO
  · rw [hd]
    rfl
  · apply kids_not_dir
    change (if d = ROOTINO then _ else _ : Dinode).type ≠ .dir
    rw [if_neg hd]
    decide

theorem dir_rootOnly (h : type (booted rootOnly).fs d ≠ .free) : d = ROOTINO := by
  by_contra hd
  apply h
  change (if d = ROOTINO then _ else _ : Dinode).type = .free
  rw [if_neg hd]

theorem names_rootOnly (n i : ℕ) :
    names (Finset.range n) (kids (booted rootOnly).fs) i = 0 := by
  apply Finset.sum_eq_zero
  intro d _
  rw [kids_rootOnly]
  rfl

theorem rootOnly_consistent (hn : 1 < n) : Consistent n rootOnly where
  exact := by
    have hused : ∀ d, type (booted rootOnly).fs d = .dir → d = ROOTINO := by
      intro d hd
      apply dir_rootOnly
      rw [hd]
      decide
    have hweight : ∀ i, 0 < i → (weight n (booted rootOnly).fs i : ℤ) =
        nlink (booted rootOnly).fs i := by
      intro i _
      rw [weight, names_rootOnly, below, kids_rootOnly]
      change _ = (if i = ROOTINO then _ else _ : Dinode).nlink
      split
      · rfl
      · rfl
    refine ⟨⟨?_, ?_, ?_, fun i hi => (hweight i hi).le, rfl⟩, fun i hi => (hweight i hi).ge, ?_, ?_,
      ?_, names_rootOnly n ROOTINO, rfl⟩
    · intro i hi
      rw [dir_rootOnly hi]
      exact ⟨Nat.one_pos, hn⟩
    · intro i hi
      change (if i = ROOTINO then _ else _ : Dinode).nlink = 0
      split
      next hroot =>
        rw [hroot] at hi
        cases hi
      next => rfl
    · intro d hd
      rw [hused d hd]
      refine ⟨ROOTINO, [], ⟨⟨0, 0, rfl⟩, Nat.one_ne_zero, Nat.one_ne_zero, ?_⟩⟩
      intro e he
      cases he
    · intro d _ _
      exact kids_rootOnly d
    · intro d c hc
      rw [kids_rootOnly] at hc
      exact absurd hc (Multiset.notMem_zero c)
    · intro c hc _ hne
      exact absurd (hused c hc) hne
  linked := by
    intro i hi
    rw [dir_rootOnly hi]
    exact Int.one_pos
  births := by
    intro i e he
    change e ∈ (if i = ROOTINO then _ else _ : Dinode).entries at he
    split at he
    · rcases List.mem_cons.mp he with rfl | he
      · rfl
      · rw [List.mem_singleton.mp he]
    · cases he

theorem links_counted_mkdir :
    Counted 4 ((machine 4).exec (booted rootOnly) [⟨initproc, .mkdir ['d']⟩]).fs ∧
      nlink ((machine 4).exec (booted rootOnly) [⟨initproc, .mkdir ['d']⟩]).fs ROOTINO = 2 := by
  refine ⟨links_counted (rootOnly_consistent (by decide)) (.snoc (.nil rfl) ⟨?_, ?_, rfl⟩),
    by decide +kernel⟩
  · rintro q path dp name - - ⟨pre, -, -, hdir⟩ -
    have hused : type (booted rootOnly).fs dp ≠ .free := by
      rw [hdir]
      decide
    rw [dir_rootOnly hused]
    exact Int.one_pos
  · decide +kernel

/-- A file whose only name is in a directory that was removed: no name leads to it. -/
def orphaned : List Event :=
  [⟨initproc, .mkdir ['d']⟩, ⟨initproc, .chdir ['d']⟩, ⟨initproc, .unlink ['/', 'd']⟩,
   ⟨initproc, .open ['f'] O_CREATE⟩]

example : (machine 4).Valid (booted rootOnly) orphaned ∧
    nlink ((machine 4).exec (booted rootOnly) orphaned).fs 3 = 1 ∧
    linkCount 4 ((machine 4).exec (booted rootOnly) orphaned).fs 3 = 0 := by decide +kernel

end LinkCounts
