import OsEngineering.LinkCounts

/-! Lookups that find no free inode. A directory may outlive the one that is its "..": unlink()
counts the links of the parent, and not those who still look it up. -/
namespace ParentEntries

open FaultState FramedTriples TransitionSystem KernelParams DirectoryTree PathWalk PathResolution
  InodeCounts SystemCalls FailedCalls LinkGraph TreeChanges DirectoryLinks UsedInodes CallEffects
  LinkCounts

variable {n : ℕ} {s t u : Fs} {c d dp i off : ℕ} {name : Name} {x : Dinode} {e : Dirent}

/-- Every ".." is a directory with links, and every entry was made for the inode it names. -/
structure Grounded (n : ℕ) (s : Fs) : Prop extends Tree n s where
  up : ∀ d, type s d = .dir → type s (dotdot s d) = .dir ∧ 0 < nlink s (dotdot s d)
  born : ∀ d e, type s d = .dir → e ∈ entries s d → e.inum ≠ 0 → e.birth = s.births e.inum

/-- An entry is ".", "..", or one of the others. -/
theorem entry_cases (h : Tree n s) (hd : type s d = .dir) (he : e ∈ entries s d)
    (hne : e.inum ≠ 0) : e.inum = d ∨ e.inum = dotdot s d ∨ e.inum ∈ kids s d := by
  obtain ⟨p, rest, hshape⟩ := h.shape d hd
  rw [dotdot_shaped hshape, kids_shaped hd hshape]
  obtain ⟨b, b', heq⟩ := hshape.places
  rw [heq] at he
  rcases List.mem_cons.mp he with rfl | he
  · exact Or.inl rfl
  · rcases List.mem_cons.mp he with rfl | he
    · exact Or.inr (Or.inl rfl)
    · exact Or.inr (Or.inr (mem_inums.mpr ⟨hne, e, he, rfl⟩))

namespace Grounded

theorem solid (h : Grounded n s) : Solid s where
  free := h.free
  root := h.root_linked
  entry := by
    intro d e hd he hne
    rcases entry_cases h.toTree hd he hne with heq | heq | hmem
    · exact Or.inl heq
    · rw [heq]
      exact Or.inr (h.up d hd).2
    · exact Or.inr (h.linked_of_mem hmem)

theorem entry_used (h : Grounded n s) (hd : type s d = .dir) (he : e ∈ entries s d)
    (hne : e.inum ≠ 0) : type s e.inum ≠ .free := by
  obtain heq | hlinked := h.solid.entry d e hd he hne
  · rw [heq, hd]
    decide
  · exact h.solid.used hlinked

theorem freed (h : Grounded n s) (hf : Freed s t) : Grounded n t := by
  refine ⟨h.toTree.freed hf, ?_, ?_⟩
  · intro d hd
    obtain ⟨hdir, hlinked⟩ := h.up d (dir_freed hf hd)
    rw [dotdot_congr (entries_freed hf hd), hf.nlink_eq, hf.type_of_linked (by omega)]
    exact ⟨hdir, hlinked⟩
  · intro d e hd he hne
    rw [entries_freed hf hd] at he
    rw [hf.births]
    exact h.born d e (dir_freed hf hd) he hne

theorem link (h : Grounded n u) (hl : Links u dp name i) : Grounded n (newLink u dp name i) := by
  refine ⟨hl.tree h.toTree, ?_, ?_⟩
  · intro d hd
    rw [type_newLink] at hd
    obtain ⟨hdir, hlinked⟩ := h.up d hd
    rw [hl.dotdot_eq h.toTree, type_newLink, nlink_newLink]
    refine ⟨hdir, ?_⟩
    split
    · omega
    · omega
  · intro d e hd he hne
    rw [type_newLink] at hd
    by_cases hdp : d = dp
    · subst hdp
      rw [entries_newLink_self] at he
      rcases mem_writeEntry he with he | rfl
      · exact h.born d e hd he hne
      · rfl
    · rw [entries_newLink_ne name i hdp] at he
      exact h.born d e hd he hne

theorem births_newInode (u : Fs) (dp : ℕ) (name : Name) (i : ℕ) (x : Dinode) :
    (newInode u dp name i x).births = Function.update u.births i (u.births i + 1) := rfl

theorem birth (h : Grounded n u) (hb : Births n u dp name i x) :
    Grounded n (newInode u dp name i x) := by
  have ht := h.toTree
  -- no entry that stands there names the new inode
  have hold : ∀ d e, type u d = .dir → e ∈ entries u d → e.inum ≠ 0 →
      e.birth = (newInode u dp name i x).births e.inum := by
    intro d e hd he hne
    have hother : e.inum ≠ i := by
      intro heq
      exact h.entry_used hd he hne (heq ▸ hb.free)
    rw [births_newInode, Function.update_of_ne hother]
    exact h.born d e hd he hne
  refine ⟨hb.tree ht, ?_, ?_⟩
  · intro d hd
    by_cases hdi : d = i
    · subst hdi
      rw [type_newInode_self] at hd
      have hnonneg := ht.nonneg dp
      have hne := Ne.symm hb.ne
      rw [dotdot_shaped (hb.shaped_new ht hd), hb.type_parent, nlink_newInode_ne u dp name x hne,
        if_pos rfl, if_pos hd]
      exact ⟨rfl, by omega⟩
    · rw [type_newInode_ne u dp name x hdi] at hd
      obtain ⟨hdir, hlinked⟩ := h.up d hd
      have hne : dotdot u d ≠ i := by
        intro heq
        rw [heq, hb.free] at hdir
        cases hdir
      rw [hb.dotdot_ne ht hdi, type_newInode_ne u dp name x hne, nlink_newInode_ne u dp name x hne]
      refine ⟨hdir, ?_⟩
      split
      · split
        · omega
        · omega
      · omega
  · intro d e hd he hne
    by_cases hdi : d = i
    · subst hdi
      rw [type_newInode_self] at hd
      rw [entries_newInode_self u dp name x hb.ne, hb.dots hd, dots] at he
      rcases List.mem_cons.mp he with rfl | he
      · rw [births_newInode, Function.update_self]
      · obtain rfl := List.mem_singleton.mp he
        rw [births_newInode, Function.update_of_ne (Ne.symm hb.ne)]
    · rw [type_newInode_ne u dp name x hdi] at hd
      by_cases hdp : d = dp
      · subst hdp
        rw [entries_newInode_parent u d name x hb.ne] at he
        rcases mem_writeEntry he with he | rfl
        · exact hold d e hd he hne
        · rw [births_newInode, Function.update_self]
      · rw [entries_newInode_ne u dp name x hdp hdi] at he
        exact hold d e hd he hne

/-- The links of each ".." that remains are enough. -/
theorem remove (h : Grounded n u) (hr : Removes u dp name off i) {t : Fs}
    (hf : Freed (removed u dp off i) t)
    (hspare : ∀ c, type t c = .dir → type u i = .dir → dotdot u c = dp ∨ dotdot u c = i →
      1 < nlink u (dotdot u c)) : Grounded n t := by
  have ht := h.toTree
  have hold : ∀ {c}, type t c = .dir → type u c = .dir ∧ dotdot t c = dotdot u c := by
    intro c hc
    have hdir := dir_freed hf hc
    rw [type_removed] at hdir
    rw [dotdot_congr (entries_freed hf hc), hr.dotdot_eq ht]
    exact ⟨hdir, rfl⟩
  refine ⟨(hr.tree ht).freed hf, ?_, ?_⟩
  · intro c hc
    obtain ⟨hdir, hdots⟩ := hold hc
    obtain ⟨hparent, hlinked⟩ := h.up c hdir
    have hleft : 0 < nlink t (dotdot u c) := by
      rw [hf.nlink_eq, nlink_removed]
      by_cases hi : type u i = .dir
      · have hmore := hspare c hc hi
        by_cases hdp : dotdot u c = dp
        · have hne : dotdot u c ≠ i := fun heq => hr.ne (heq.symm.trans hdp)
          have hlinks := hmore (Or.inl hdp)
          rw [if_pos hdp, if_pos hi, if_neg hne]
          omega
        · by_cases heq : dotdot u c = i
          · have hlinks := hmore (Or.inr heq)
            rw [if_neg hdp, if_pos heq]
            omega
          · rw [if_neg hdp, if_neg heq]
            omega
      · have hne : dotdot u c ≠ i := by
          intro heq
          rw [heq] at hparent
          exact hi hparent
        rw [if_neg hne, if_neg hi]
        split
        · omega
        · omega
    have hwas : nlink (removed u dp off i) (dotdot u c) ≠ 0 := by
      rw [← hf.nlink_eq]
      omega
    rw [hdots, hf.type_of_linked hwas, type_removed]
    exact ⟨hparent, hleft⟩
  · intro c e hc he hne
    obtain ⟨hdir, -⟩ := hold hc
    rw [entries_freed hf hc] at he
    rw [hf.births]
    by_cases hdp : c = dp
    · subst hdp
      rw [entries_removed_self] at he
      rcases mem_writeEntry he with he | rfl
      · exact h.born c e hdir he hne
      · exact absurd rfl hne
    · rw [entries_removed_ne off i hdp] at he
      exact h.born c e hdir he hne

end Grounded

/-! Runs -/

/-- What unlink() removes is still there after it. -/
def Stays (s : Fs) (ip : ℕ) : Prop := 0 < s.ref ip ∨ 1 < nlink s ip

/-- unlink() of a directory leaves a link to the ".." of each directory that remains. -/
def Spares (s : State) (e : Event) : Prop := ∀ q path dp name ip, s.fs.procs e.p = some q →
  e.call = .unlink path → LeadsTo s.fs (start q path) (components path) dp name →
  name ≠ ['.'] → name ≠ ['.', '.'] → Lookup s.fs dp name ip →
  type s.fs ip = .dir → isdirempty (entries s.fs ip) = true →
  ∀ c, type s.fs c = .dir → (c = ip → Stays s.fs ip) →
    dotdot s.fs c = dp ∨ dotdot s.fs c = ip → 1 < nlink s.fs (dotdot s.fs c)

/-- Between calls. -/
structure Kept (n : ℕ) (s : Fs) : Prop where
  grounded : Grounded n s
  valid : ∀ i, s.valid i = true → type s i ≠ .free
  typed : Typed s
  owes : Owes 0 s

theorem Kept.since (h : Kept n s) : Since True 0 s s :=
  .start h.valid (fun _ => h.typed) (fun _ => h.grounded.solid) fun _ => h.owes

theorem Kept.ref_nonneg (h : Kept n s) (i : ℕ) : 0 ≤ s.ref i := by
  rw [h.owes.refs]
  exact Int.natCast_nonneg _

theorem effect_grounded {p : Fin NPROC} {c : Call} {halted : Option Fault} (h : Kept n s)
    (hs : Spares ⟨s, halted⟩ ⟨p, c⟩) (he : Effect True n s p c t) : Grounded n t := by
  cases he with
  | kept hf => exact h.grounded.freed hf
  | link _ _ _ hf hl ht => exact ((h.grounded.freed hf).link hl).freed ht
  | create _ _ _ hf hb ht => exact ((h.grounded.freed hf).birth hb).freed ht
  | @unlink u q path dp name off i hq hc hl hf hr ht hgone =>
    apply (h.grounded.freed hf).remove hr ht
    intro c hdir hi hdots
    have hbefore := dir_before hf hr.dir
    have hlook : Lookup s dp name i :=
      (lookup_iff dp).mpr ⟨off, by rw [hbefore.2]; exact hr.found⟩
    have hchild := dir_before hf hi
    have hdiru : type u c = .dir := by
      have hdir := dir_freed ht hdir
      rwa [type_removed] at hdir
    have hc' := dir_before hf hdiru
    have hsame : dotdot u c = dotdot s c := dotdot_congr hc'.2.symm
    rw [hsame] at hdots ⊢
    rw [hf.nlink_eq]
    refine hs q path dp name i hq hc hl hr.dot hr.dots hlook hchild.1 ?_ c hc'.1 ?_ hdots
    · rw [hchild.2]
      exact hr.empty hi
    · rintro rfl
      by_contra hnot
      -- its last link is gone, and nobody holds it
      obtain ⟨hheld, hmore⟩ : ¬ 0 < s.ref c ∧ ¬ 1 < nlink s c := not_or.mp hnot
      have hnlink : nlink t c = 0 := by
        have hlinked := hr.linked
        rw [hf.nlink_eq] at hlinked
        rw [ht.nlink_eq, nlink_removed, if_neg hr.ne, if_pos rfl, hf.nlink_eq]
        omega
      have href : s.ref c = 0 := by
        have hnonneg := h.ref_nonneg c
        omega
      have hfree := hgone trivial href hnlink
      rw [hfree] at hdir
      cases hdir

theorem step_kept {s t : State} {e : Event} (h : Kept n s.fs)
    (hs : Guarded (machine n).Step Spares s e t) :
    Kept n t.fs ∧ t.halted ≠ some (.panic "ilock: no type") := by
  have howes := step_owes h.owes hs.2
  obtain ⟨hspares, -, rfl⟩ := hs
  change Owes 0 (next n s e).fs at howes
  change Kept n (next n s e).fs ∧ (next n s e).halted ≠ _
  have hends := call_ends (n := n) (p := e.p) h.since h.grounded.nonneg e.call
  cases hrun : e.call.run n e.p s.fs with
  | error f =>
    simp only [next, hrun]
    refine ⟨h, ?_⟩
    intro heq
    exact wp_error hends hrun trivial (Option.some.inj heq)
  | ok r =>
    simp only [next, hrun] at howes ⊢
    have hok := wp_ok hends hrun
    exact ⟨⟨effect_grounded h hspares hok.effect, hok.valid, hok.typed trivial, howes⟩, by rintro ⟨⟩⟩

theorem Exact.grounded (h : Exact n s) (hlinked : ∀ i, type s i ≠ .free → 0 < nlink s i)
    (hborn : ∀ d e, type s d = .dir → e ∈ entries s d → e.inum ≠ 0 → e.birth = s.births e.inum) :
    Grounded n s := by
  refine ⟨h.toTree, ?_, hborn⟩
  intro d hd
  by_cases hroot : d = ROOTINO
  · rw [hroot, h.top]
    exact ⟨h.root, h.root_linked⟩
  · have hlink : 0 < nlink s d := by
      apply hlinked
      rw [hd]
      decide
    have honce := h.once d hd hlink hroot
    have hpos : 0 < names (Finset.range n) (kids s) d := by omega
    obtain ⟨dp, -, hmem⟩ := named_by hpos
    rw [h.parent dp d hmem hd]
    exact ⟨dir_of_mem hmem, h.linked_of_kid hmem⟩

theorem booted_kept {dinodes : ℕ → Dinode} (hc : Consistent n dinodes) :
    Kept n (booted dinodes).fs where
  grounded := by
    apply Exact.grounded hc.exact hc.linked
    intro d e _ he _
    exact hc.births d e he
  valid := by
    intro i hi
    cases hi
  typed := by
    intro i hi
    change 0 < (if i = ROOTINO then (1 : ℤ) else 0) at hi
    split at hi
    next hroot =>
      have hdir := hc.exact.root
      rw [hroot, hdir]
      decide
    next => cases hi
  owes := booted_owes dinodes

/-- No lookup comes to a free inode, or to one that was freed and allocated again. -/
theorem entries_used {dinodes : ℕ → Dinode} {es : List Event} {s : State}
    (hc : Consistent n dinodes)
    (r : Run (Guarded (machine n).Step Spares) (· = booted dinodes) es s) :
    s.halted ≠ some (.panic "ilock: no type") ∧
      ∀ d e, type s.fs d = .dir → e ∈ entries s.fs d → e.inum ≠ 0 →
        type s.fs e.inum ≠ .free ∧ e.birth = s.fs.births e.inum := by
  have hkept : Kept n s.fs ∧ s.halted ≠ some (.panic "ilock: no type") := by
    refine r.invariant (I := fun s => Kept n s.fs ∧ s.halted ≠ some (.panic "ilock: no type")) ?_ ?_
    · intro s hs
      rw [hs]
      exact ⟨booted_kept hc, by rintro ⟨⟩⟩
    · intro s e t h hs
      exact step_kept h.1 hs
  have hgrounded := hkept.1.grounded
  exact ⟨hkept.2, fun d e hd he hne =>
    ⟨hgrounded.entry_used hd he hne, hgrounded.born d e hd he hne⟩⟩

def shortLived : List Event := [⟨initproc, .mkdir ['d']⟩, ⟨initproc, .unlink ['d']⟩]

def afterShortLived : State := (machine 4).exec (booted rootOnly) shortLived

theorem entries_used_shortLived : afterShortLived.halted ≠ some (.panic "ilock: no type") ∧
    ∀ d e, type afterShortLived.fs d = .dir → e ∈ entries afterShortLived.fs d → e.inum ≠ 0 →
      type afterShortLived.fs e.inum ≠ .free ∧ e.birth = afterShortLived.fs.births e.inum := by
  have hc : Consistent 4 rootOnly := rootOnly_consistent (by decide)
  have hmkdir : Guarded (machine 4).Step Spares (booted rootOnly) ⟨initproc, .mkdir ['d']⟩
      (next 4 (booted rootOnly) ⟨initproc, .mkdir ['d']⟩) := by
    refine ⟨?_, by decide +kernel, rfl⟩
    intro q path dp name ip _ hcall
    cases hcall
  have hkept := (step_kept (booted_kept hc) hmkdir).1
  refine entries_used hc (.snoc (.snoc (.nil rfl) hmkdir) ⟨?_, ?_, rfl⟩)
  · intro q path dp name ip _ _ _ _ _ _ _ _ c hdir _ _
    -- each directory has the root as its ".."
    have hused : type (next 4 (booted rootOnly) ⟨initproc, .mkdir ['d']⟩).fs c ≠ .free := by
      rw [hdir]
      decide
    have hroots : ∀ c < 4, type (next 4 (booted rootOnly) ⟨initproc, .mkdir ['d']⟩).fs c = .dir →
        1 < nlink (next 4 (booted rootOnly) ⟨initproc, .mkdir ['d']⟩).fs
          (dotdot (next 4 (booted rootOnly) ⟨initproc, .mkdir ['d']⟩).fs c) := by decide +kernel
    exact hroots c (hkept.grounded.bound c hused).2 hdir
  · decide +kernel

/-- The ".." of a current directory that was removed, when it has been removed too. -/
def removedParent : List Event :=
  [⟨initproc, .mkdir ['a']⟩, ⟨initproc, .mkdir ['a', '/', 'b']⟩,
   ⟨initproc, .chdir ['a', '/', 'b']⟩, ⟨initproc, .unlink ['/', 'a', '/', 'b']⟩,
   ⟨initproc, .unlink ['/', 'a']⟩, ⟨initproc, .open ['.', '.', '/', 'f'] 0⟩]

example : (machine 5).Valid (booted rootOnly) removedParent ∧
    ((machine 5).exec (booted rootOnly) removedParent).halted =
      some (.panic "ilock: no type") := by decide +kernel

end ParentEntries
