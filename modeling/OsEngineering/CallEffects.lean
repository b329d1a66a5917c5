import OsEngineering.UsedInodes

/-! What the system calls make of the tree, whatever the image: one change at most, and before
and after it inodes without links may be freed. -/
namespace CallEffects

open FaultState FramedTriples KernelParams DirectoryTree PathWalk PathResolution InodeReferences
  InodeCounts SystemCalls FailedCalls SelfDeadlock TreeChanges DirectoryLinks UsedInodes

variable {P : Prop} {a : Multiset ℕ} {b s t u v : Fs} {dp i : ℕ} {name : Name} {p : Fin NPROC}

/-- The path for which a call makes an entry, if it leads to none: of a file that exists, or of
a new inode. -/
inductive Makes (s : Fs) (q : Proc) : Call → Path → Prop where
  | link {old new i} : Follows s (start q old) (components old) i → type s i ≠ .dir →
      type s i ≠ .free → Makes s q (.link old new) new
  | open {path omode} : omode &&& O_CREATE ≠ 0 → Makes s q (.open path omode) path
  | mkdir {path} : Makes s q (.mkdir path) path
  | mknod {path major minor} : Makes s q (.mknod path major minor) path

/-- What a call leaves in `t`. -/
inductive Effect (P : Prop) (n : ℕ) (s : Fs) (p : Fin NPROC) (c : Call) (t : Fs) : Prop where
  | kept : Freed s t → Effect P n s p c t
  | link {u q path dp name i} : s.procs p = some q → Makes s q c path →
      LeadsTo s (start q path) (components path) dp name → Freed s u → Links u dp name i →
      Freed (newLink u dp name i) t → Effect P n s p c t
  | create {u q path dp name i x} : s.procs p = some q → Makes s q c path →
      LeadsTo s (start q path) (components path) dp name → Freed s u → Births n u dp name i x →
      Freed (newInode u dp name i x) t → Effect P n s p c t
  | unlink {u q path dp name off i} : s.procs p = some q → c = .unlink path →
      LeadsTo s (start q path) (components path) dp name → Freed s u → Removes u dp name off i →
      Freed (removed u dp off i) t →
      -- without another holder, the inode goes with its last link
      (P → s.ref i = 0 → nlink t i = 0 → type t i = .free) → Effect P n s p c t

structure Ends (P : Prop) (n : ℕ) (s : Fs) (p : Fin NPROC) (c : Call) (t : Fs) : Prop where
  effect : Effect P n s p c t
  valid : ∀ i, t.valid i = true → type t i ≠ .free
  typed : P → Typed t

theorem Ends.of_settled {n : ℕ} {c : Call} (h : Settled P b t) (he : Effect P n s p c t) :
    Ends P n s p c t := ⟨he, h.valid, h.typed⟩

theorem Ends.of_kept {n : ℕ} {c : Call} (h : Settled P s t) : Ends P n s p c t :=
  .of_settled h (.kept h.freed)

/-! link() -/

theorem Freed.uncount (h : Freed (withNlink s i 1) t) (hn : 0 ≤ nlink s i) :
    Freed s (withNlink t i (-1)) := by
  have hne : nlink (withNlink s i 1) i ≠ 0 := by
    rw [nlink_withNlink, if_pos rfl]
    omega
  have hback := h.withNlink hne (-1)
  rwa [withNlink_back s i (by decide)] at hback

section Link

variable {n : ℕ} {q : Proc} {old new : Path}

/-- The new entry is not made. -/
theorem link_undone (h : Settled P (withNlink b i 1) u) (hf : Freed s b) (hn : 0 ≤ nlink b i) :
    Calm P (do
      ilock i
      addNlink i (-1)
      iunlockput i
      pure (-1 : ℤ)) (fun _ t => Ends P n s p (.link old new) t) u := by
  apply wp_bind
  refine wp_mono (ilock_settles i u h) ?_
  intro _ v hv
  apply wp_bind_run (addNlink_run v i (-1))
  have hback : Settled P s (withNlink v i (-1)) :=
    hv.change (hf.trans (Freed.uncount hv.freed hn)) (type_withNlink v i (-1)) rfl rfl
  refine wp_mono (done_settles i _ _ hback) ?_
  intro _ t ht
  exact .of_kept ht

theorem link_made (h : Since P a (withNlink b i 1) u) (hf : Freed s b) (hn : 0 ≤ nlink b i)
    (hfile : type b i ≠ .dir) (hused : type b i ≠ .free) (hq : s.procs p = some q)
    (hm : Makes s q (.link old new) new)
    (hl : LeadsTo s (start q new) (components new) dp name) :
    Calm P (linkEnd i dp name) (fun _ t => Ends P n s p (.link old new) t) u := by
  apply wp_bind
  refine wp_mono (h.dirlink dp name i) ?_
  rintro ok v (⟨rfl, hv⟩ | ⟨rfl, hnone, hdir, rfl⟩)
  · apply wp_bind
    refine wp_mono (iunlockput_settles dp v hv.toSettled) ?_
    intro _ w hw
    exact link_undone hw hf hn
  · have hback : withNlink (withNlink u i (-1)) i 1 = u := withNlink_back u i (by decide)
    have hnew : newLink (withNlink u i (-1)) dp name i =
        setEntry u dp (findEmpty (entries u dp) 0) ⟨i, name, u.births i⟩ := by
      rw [newLink, hback, entries_withNlink]
      rfl
    have hne : nlink (withNlink b i 1) i ≠ 0 := by
      rw [nlink_withNlink, if_pos rfl]
      omega
    have htype : type u i = type b i := by
      rw [h.freed.type_of_linked hne, type_withNlink]
    have hlinks : Links (withNlink u i (-1)) dp name i := by
      refine ⟨?_, ?_, ?_, ?_⟩
      · rwa [type_withNlink]
      · rwa [entries_withNlink]
      · rwa [type_withNlink, htype]
      · rwa [type_withNlink, htype]
    have hset := h.toSettled.change (.refl (setEntry u dp (findEmpty (entries u dp) 0)
      ⟨i, name, u.births i⟩)) (type_setEntry u dp _ _) rfl rfl
    apply wp_bind
    refine wp_mono (iunlockput_settles dp _ hset) ?_
    intro _ v hv
    rw [if_pos rfl]
    refine wp_mono (settles_bind (iput_settles i) (fun _ => settles_pure (0 : ℤ)) v hv) ?_
    intro _ t ht
    refine .of_settled ht (.link hq hm hl (hf.trans (Freed.uncount h.freed hn)) hlinks ?_)
    rw [hnew]
    exact ht.freed

theorem link_ends (h : Since P 0 s s) (hn : ∀ i, 0 ≤ nlink s i) (old new : Path) :
    Calm P (sysLink p old new) (fun _ t => Ends P n s p (.link old new) t) s := by
  rw [sysLink_eq]
  apply wp_bind
  refine wp_mono (h.namei old) ?_
  rintro r u ⟨hu, hold⟩
  cases r with
  | none => exact wp_pure (.of_kept hu.toSettled)
  | some i =>
    obtain ⟨q, hq, hfollows⟩ := hold i rfl
    apply wp_bind
    refine wp_mono (hu.ilock i) ?_
    rintro _ v ⟨hv, hlock, -, hused⟩
    have hused' : type v i ≠ .free := by
      rw [hlock]
      exact hused
    apply wp_bind_run (get_run v)
    by_cases hdir : type v i = .dir
    · rw [if_pos hdir]
      refine wp_mono (done_settles i _ v hv.toSettled) ?_
      intro _ t ht
      exact .of_kept ht
    · rw [if_neg hdir]
      apply wp_bind_run (addNlink_run v i 1)
      apply wp_bind
      refine wp_mono ((hv.counted hused').iunlock i) ?_
      rintro _ w ⟨hw, -⟩
      have hsame : ∀ d, type (withNlink v i 1) d = .dir →
          type s d = .dir ∧ entries s d = entries (withNlink v i 1) d := by
        intro d hd
        rw [type_withNlink] at hd
        rw [entries_withNlink]
        exact dir_before hv.freed hd
      have hm : Makes s q (.link old new) new := by
        have htype := hv.freed.type_eq hused'
        exact .link hfollows (by rwa [htype]) (by rwa [htype])
      have hnv : 0 ≤ nlink v i := by
        rw [hv.freed.nlink_eq]
        exact hn i
      apply wp_bind
      refine wp_mono (hw.namex new true) ?_
      rintro r x ⟨hx, hnew⟩
      cases r with
      | none => exact link_undone hx.toSettled hv.freed hnv
      | some y =>
        obtain ⟨dp, name⟩ := y
        obtain ⟨q', hq', hl⟩ := hnew dp name rfl
        have hqq : q' = q := by
          have hprocs : (withNlink v i 1).procs p = some q := by
            change v.procs p = some q
            rw [hv.procs, hq]
          rw [hprocs] at hq'
          exact (Option.some.inj hq').symm
        rw [hqq] at hl
        apply wp_bind
        refine wp_mono (hx.ilock dp) ?_
        rintro _ z ⟨hz, -, -, -⟩
        exact link_made hz hv.freed hnv hdir hused' hq hm (LeadsTo.before hsame hl)

end Link

/-! unlink() -/

theorem iunlockput_other {r : Unit} (hrun : iunlockput dp u = .ok (r, v)) (hne : i ≠ dp) :
    v.valid i = u.valid i ∧ v.ref i = u.ref i := by
  obtain ⟨_, w, hlock, hput⟩ := bind_ok hrun
  obtain rfl := iunlock_eq hlock
  by_cases hh : dp ∈ (PathWalk.unlock u dp).held
  · rw [iput_deadlock hh] at hput
    cases hput
  · by_cases hf : Frees (PathWalk.unlock u dp) dp
    · rw [iput_run_freed hh hf] at hput
      cases hput
      exact ⟨Function.update_of_ne hne _ _, Function.update_of_ne hne _ _⟩
    · rw [iput_run_kept hh hf] at hput
      cases hput
      exact ⟨rfl, Function.update_of_ne hne _ _⟩

theorem iunlockput_frees {r : Unit} (hrun : iunlockput i u = .ok (r, v)) (hf : Frees u i) :
    type v i = .free := by
  obtain ⟨_, w, hlock, hput⟩ := bind_ok hrun
  obtain rfl := iunlock_eq hlock
  by_cases hh : i ∈ (PathWalk.unlock u i).held
  · rw [iput_deadlock hh] at hput
    cases hput
  · have hf' : Frees (PathWalk.unlock u i) i := hf
    rw [iput_run_freed hh hf'] at hput
    cases hput
    change (Function.update u.dinodes i _ i).type = .free
    rw [Function.update_self]

section Unlink

variable {n off : ℕ} {q : Proc} {path : Path}

/-- The entry is clear, and the parent has lost the link that the ".." was. -/
def cleared (u : Fs) (dp off i : ℕ) : Fs :=
  withNlink (setEntry u dp off ⟨0, [], 0⟩) dp (if type u i = .dir then -1 else 0)

theorem unlink_tail {c : Call} (h : Since P ({i} + ({dp} + 0)) s u) (hr : Removes u dp name off i)
    (hvalid : u.valid i = true) (ho : P → Owes 0 s) (hq : s.procs p = some q)
    (hc : c = .unlink path) (hl : LeadsTo s (start q path) (components path) dp name) :
    Calm P (do
      iunlockput dp
      addNlink i (-1)
      iunlockput i
      pure (0 : ℤ)) (fun _ t => Ends P n s p c t) (cleared u dp off i) := by
  have hset : Settled P (cleared u dp off i) (cleared u dp off i) := by
    apply h.toSettled.change (.refl _)
    · intro j
      rw [cleared, type_withNlink, type_setEntry]
    · rfl
    · rfl
  apply wp_bind
  refine wp_mono (wp_runs (iunlockput_settles dp _ hset) fun r v hrun =>
    iunlockput_other (i := i) hrun hr.ne) ?_
  rintro _ v ⟨hv, hvv, hvr⟩
  apply wp_bind_run (addNlink_run v i (-1))
  have hlinked := hr.linked
  have hne : nlink (cleared u dp off i) i ≠ 0 := by
    rw [cleared, nlink_withNlink, nlink_setEntry, if_neg hr.ne]
    omega
  have hdone : Settled P (removed u dp off i) (withNlink v i (-1)) :=
    hv.change (hv.freed.withNlink hne (-1)) (type_withNlink v i (-1)) rfl rfl
  apply wp_bind
  refine wp_mono (wp_runs (R := fun _ t => Frees (withNlink v i (-1)) i → type t i = .free)
    (iunlockput_settles i _ hdone) fun r t hrun hf => iunlockput_frees hrun hf) ?_
  rintro _ t ⟨ht, hfrees⟩
  refine wp_pure (.of_settled ht (.unlink hq hc hl h.freed hr ht.freed ?_))
  intro hP href hn
  apply hfrees
  refine ⟨hvv.trans hvalid, ?_, ?_⟩
  · rw [hdone.freed.nlink_eq, ← ht.freed.nlink_eq]
    exact hn
  · -- the reference of the call is the only one
    have hholders : holders u i = 0 := by
      have hrefs := (ho hP).refs i
      rw [holders_congr h.files h.procs]
      rw [href, Multiset.count_zero] at hrefs
      omega
    have hrefs := (h.owes hP).refs i
    rw [hholders, add_zero, Multiset.count_add, Multiset.count_singleton_self,
      Multiset.count_singleton, if_neg hr.ne] at hrefs
    exact hvr.trans hrefs

theorem unlink_ends (h : Since P 0 s s) (path : Path) :
    Calm P (sysUnlink p path) (fun _ t => Ends P n s p (.unlink path) t) s := by
  apply wp_bind
  refine wp_mono (h.namex path true) ?_
  rintro r u ⟨hu, hcomes⟩
  cases r with
  | none => exact wp_pure (.of_kept hu.toSettled)
  | some x =>
    obtain ⟨dp, name⟩ := x
    obtain ⟨q, hq, hl⟩ := hcomes dp name rfl
    have hleave : ∀ {b : Fs}, Settled P s b → Calm P (do
        iunlockput dp
        pure (-1 : ℤ)) (fun _ t => Ends P n s p (.unlink path) t) b := by
      intro b hb
      refine wp_mono (done_settles dp _ b hb) ?_
      intro _ t ht
      exact .of_kept ht
    apply wp_bind
    refine wp_mono (hu.ilock dp) ?_
    rintro _ v ⟨hv, hlock, -, -⟩
    by_cases hdots : name = ['.'] ∨ name = ['.', '.']
    · rw [if_pos hdots]
      exact hleave hv.toSettled
    · rw [if_neg hdots]
      obtain ⟨hdot, hdotdot⟩ := not_or.mp hdots
      apply wp_bind
      refine wp_mono (hv.dirlookup dp name) ?_
      rintro r w ⟨hw, hsame, hheld, hdir, hf⟩
      cases r with
      | none => exact hleave hw.toSettled
      | some y =>
        obtain ⟨i, off⟩ := y
        apply wp_bind
        refine wp_mono (hw.ilock i) ?_
        rintro _ z ⟨hz, hlocki, hheldi, -⟩
        apply wp_bind_run (get_run z)
        have hne : i ≠ dp := by
          rintro rfl
          rw [hheld, hlock] at hheldi
          exact hheldi List.mem_cons_self
        have hzsame : z.dinodes = v.dinodes := by
          rw [hlocki]
          exact hsame.dinodes
        by_cases hlow : nlink z i < 1
        · rw [if_pos hlow]
          exact wp_throw fun _ => noType_panic (by decide)
        · rw [if_neg hlow]
          by_cases hfull : type z i = .dir ∧ isdirempty (entries z i) = false
          · rw [if_pos hfull]
            apply wp_bind
            refine wp_mono (iunlockput_settles i z hz.toSettled) ?_
            intro _ b hb
            exact hleave hb
          · rw [if_neg hfull]
            have hrem : Removes z dp name off i := by
              refine ⟨?_, ?_, hdot, hdotdot, hne, by omega, ?_⟩
              · unfold type at hdir ⊢
                rwa [hzsame]
              · unfold entries at hf ⊢
                rwa [hzsame]
              · intro hd
                by_contra hemp
                exact hfull ⟨hd, by simpa using hemp⟩
            have hvalid : z.valid i = true := by
              rw [hlocki]
              exact Function.update_self _ _ _
            have htail := unlink_tail (n := n) hz hrem hvalid h.owes hq rfl hl
            apply wp_bind_run (modify_run _ z)
            by_cases hd : type z i = .dir
            · rw [if_pos hd]
              rw [cleared, if_pos hd] at htail
              exact wp_bind_run (addNlink_run _ dp (-1)) htail
            · rw [if_neg hd]
              rw [cleared, if_neg hd, withNlink_zero] at htail
              exact htail

end Unlink

/-! create() -/

section Create

variable {n : ℕ} {ty : FileType} {major minor : BitVec 16} {q : Proc} {path : Path} {w : Fs}

/-- What a new inode contains. -/
def firstEntries (u : Fs) (ty : FileType) (i dp : ℕ) : List Dirent :=
  if ty = .dir then dots u i dp else []

/-- The same inode, with the entries of a directory. -/
theorem dots_dinodes (hne : i ≠ dp) (x : Dinode) (hx : x.entries = []) (k : ℤ) :
    SameTree (withNlink (made u i { x with entries := dots u i dp }) dp k)
      (setEntry (setEntry (withNlink (made u i x) dp k) i 0 ⟨i, ['.'], u.births i + 1⟩) i 1
        ⟨dp, ['.', '.'], u.births dp⟩) := by
  refine ⟨?_, rfl, rfl, rfl⟩
  funext j
  by_cases hi : j = i
  · rw [hi]
    simp only [setEntry, setDinode, withNlink, made, entries, Function.update_self,
      Function.update_of_ne hne, hx]
    rfl
  · simp only [setEntry, setDinode, withNlink, made, nlink, Function.update_of_ne hi]
    by_cases hj : j = dp
    · rw [hj]
      simp only [Function.update_self, Function.update_of_ne (Ne.symm hne)]
    · simp only [Function.update_of_ne hj, Function.update_of_ne hi]

/-- The state after code that writes nothing but the tree. -/
structure Wrote (b w v : Fs) : Prop where
  tree : SameTree b v
  valid : v.valid = w.valid
  ref : v.ref = w.ref

theorem last_entry {x : Dinode} (hne : i ≠ dp)
    (hv : Wrote (withNlink (made u i x) dp (if x.type = .dir then 1 else 0)) w v)
    (hnone : findEntry name (entries u dp) 0 = none) :
    Calm P (do
      let ok ← dirlink dp name i
      if ok then pure () else DirectoryTree.panic "create: dirlink")
      (fun _ v => Wrote (newInode u dp name i x) w v) v := by
  have hent : entries v dp = entries u dp := by
    rw [hv.tree.entries_eq, entries_withNlink]
    exact entries_setDinode_ne _ (Ne.symm hne)
  have hbirth : v.births i = u.births i + 1 := by
    rw [hv.tree.births]
    exact Function.update_self _ _ _
  apply wp_bind
  refine wp_mono (dirlink_fresh (by rwa [hent])) ?_
  rintro ok z ⟨rfl, -, rfl⟩
  rw [hent, hbirth]
  exact wp_pure ⟨setEntry_same hv.tree dp _ _, hv.valid, hv.ref⟩

theorem createEntries_wrote (hi : 0 < i) (hne : i ≠ dp) (hw : SameTree (made u i ⟨ty, major, minor, 1, []⟩) w)
    (hnone : findEntry name (entries u dp) 0 = none) :
    Calm P (createEntries ty dp name i) (fun _ v => Wrote
      (newInode u dp name i ⟨ty, major, minor, 1, firstEntries u ty i dp⟩) w v) w := by
  by_cases ht : ty = .dir
  · subst ht
    have hbi : w.births i = u.births i + 1 := by
      rw [hw.births]
      exact Function.update_self _ _ _
    have hbdp : w.births dp = u.births dp := by
      rw [hw.births]
      exact Function.update_of_ne (Ne.symm hne) _ _
    have hfirst : entries (withNlink w dp 1) i = [] := by
      rw [entries_withNlink, hw.entries_eq]
      exact entries_setDinode_self _ _ _
    rw [createEntries, if_pos rfl]
    apply wp_bind_run (addNlink_run w dp 1)
    apply wp_bind
    refine wp_mono (dirlink_fresh (by rw [hfirst]; rfl)) ?_
    rintro dot v ⟨rfl, -, hv⟩
    have hbv : v.births = w.births := by rw [hv]; rfl
    rw [hfirst] at hv
    have hself : entries v i = [⟨i, ['.'], u.births i + 1⟩] := by
      rw [hv, entries_setEntry_self, hfirst, ← hbi]
      rfl
    have hdots : findEntry ['.', '.'] (entries v i) 0 = none := by
      rw [hself, findEntry]
      split
      · rfl
      · rfl
    apply wp_bind
    refine wp_mono (dirlink_fresh hdots) ?_
    rintro dotdot x ⟨rfl, -, hx⟩
    have hplace : findEmpty (entries v i) 0 = 1 := by
      rw [hself, findEmpty, if_neg (Nat.pos_iff_ne_zero.mp hi)]
      rfl
    have hbi' : (withNlink w dp 1).births i = u.births i + 1 := hbi
    have hempty : findEmpty [] 0 = 0 := rfl
    rw [hempty, hbi'] at hv
    rw [hplace, hbv, hbdp, hv] at hx
    have htree := dots_dinodes (u := u) hne ⟨.dir, major, minor, 1, []⟩ rfl 1
    have hsame := setEntry_same (setEntry_same (withNlink_same hw dp 1) i 0
      ⟨i, ['.'], u.births i + 1⟩) i 1 ⟨dp, ['.', '.'], u.births dp⟩
    refine last_entry hne ⟨?_, ?_, ?_⟩ hnone
    · rw [hx, firstEntries, if_pos rfl, if_pos rfl]
      exact htree.trans hsame
    · rw [hx]
      rfl
    · rw [hx]
      rfl
  · rw [createEntries, if_neg ht, firstEntries, if_neg ht]
    refine last_entry hne ⟨?_, rfl, rfl⟩ hnone
    rw [if_neg ht, withNlink_zero]
    exact hw

theorem births_of {i : ℕ} (hdir : type u dp = .dir) (hnone : findEntry name (entries u dp) 0 = none)
    (hfree : type u i = .free) (hi : 0 < i ∧ i < n) (ht : ty ≠ .free) :
    Births n u dp name i ⟨ty, major, minor, 1, firstEntries u ty i dp⟩ :=
  ⟨hdir, hnone, hfree, hi, ht, rfl, fun hd => if_pos hd⟩

theorem settled_made (h : Settled P b u) (ht : ty ≠ .free) (x : Dinode) (hx : x.type = ty) :
    Settled P (made u i x) (made u i x) where
  freed := .refl _
  valid := by
    intro j hj
    by_cases hji : j = i
    · rw [hji, type_made_self, hx]
      exact ht
    · have htype : type (made u i x) j = type u j := type_setDinode_ne x hji
      rw [htype]
      exact h.valid j hj
  typed := by
    intro hP j hj
    by_cases hji : j = i
    · rw [hji, type_made_self, hx]
      exact ht
    · have htype : type (made u i x) j = type u j := type_setDinode_ne x hji
      rw [htype]
      exact h.typed hP j hj

/-- create() of a name that the directory does not have. -/
theorem create_new (h : Settled P s u) (hdir : type u dp = .dir)
    (hnone : findEntry name (entries u dp) 0 = none) (ht : ty ≠ .free) :
    Calm P (do
      let ip ← ialloc n ty
      ilock ip
      modify fun s => setDinode s ip
        { s.dinodes ip with major := major, minor := minor, nlink := 1 }
      createEntries ty dp name ip
      iunlockput dp
      pure (some ip)) (fun _ v => ∃ i x, Births n u dp name i x ∧
        Settled P (newInode u dp name i x) v) u := by
  cases hfind : (List.range n).find? fun i => decide (1 ≤ i ∧ type u i = .free) with
  | none =>
    have hrun : ialloc n ty u = .error (.panic "ialloc: no inodes") := by
      rw [ialloc, run_bind (get_run u), hfind]
      rfl
    rw [Calm, wp, bind_run, hrun]
    exact fun _ => noType_panic (by decide)
  | some i =>
    have hi := List.find?_some hfind
    have hlt := List.mem_range.mp (List.mem_of_find?_eq_some hfind)
    rw [decide_eq_true_iff] at hi
    have hbirth : Births n u dp name i ⟨ty, major, minor, 1, firstEntries u ty i dp⟩ :=
      births_of hdir hnone hi.2 ⟨hi.1, hlt⟩ ht
    have hrun := ialloc_run ty hfind
    by_cases hget : canGet (made u i ⟨ty, 0, 0, 0, []⟩) i
    · rw [iget_run hget] at hrun
      apply wp_bind_run hrun
      have hgrab : Settled P (made u i ⟨ty, 0, 0, 0, []⟩) (grab (made u i ⟨ty, 0, 0, 0, []⟩) i) := by
        refine grab_settled (settled_made h ht _ rfl) fun _ => ?_
        rw [type_made_self]
        exact ht
      apply wp_bind
      refine wp_mono (hgrab.ilock_ends i) ?_
      rintro _ v ⟨rfl, -, htype⟩
      have hlock := hgrab.lock htype
      apply wp_bind_run (modify_run _ _)
      have hdinode : (lock (grab (made u i ⟨ty, 0, 0, 0, []⟩) i) i).dinodes i =
          ⟨ty, 0, 0, 0, []⟩ := by
        change (grab (made u i ⟨ty, 0, 0, 0, []⟩) i).dinodes i = _
        rw [grab_dinodes]
        exact Function.update_self _ _ _
      rw [hdinode]
      have hsame : SameTree (made u i ⟨ty, major, minor, 1, []⟩)
          (setDinode (lock (grab (made u i ⟨ty, 0, 0, 0, []⟩) i) i) i
            ⟨ty, major, minor, 1, []⟩) := by
        rw [grab_made]
        exact (SameTree.grab _ i).trans ⟨rfl, rfl, rfl, rfl⟩
      apply wp_bind
      refine wp_mono (createEntries_wrote hi.1 hbirth.ne hsame hnone) ?_
      rintro _ w hw
      have hset : Settled P (newInode u dp name i ⟨ty, major, minor, 1, firstEntries u ty i dp⟩)
          w := by
        refine hlock.change (.of_same hw.tree.dinodes hw.tree.births) ?_ hw.valid hw.ref
        intro j
        have hmade : type (lock (grab (made u i ⟨ty, 0, 0, 0, []⟩) i) i) j =
            type (made u i ⟨ty, 0, 0, 0, []⟩) j := type_grab _ i j
        rw [hw.tree.type_eq, hmade]
        by_cases hji : j = i
        · rw [hji, type_newInode_self, type_made_self]
        · rw [type_newInode_ne u dp name _ hji]
          exact (type_setDinode_ne _ hji).symm
      refine wp_mono (settles_bind (iunlockput_settles dp)
        (fun _ => settles_pure (some i)) w hset) ?_
      intro _ t hend
      exact ⟨i, _, hbirth, hend⟩
    · rw [iget_full hget] at hrun
      rw [Calm, wp, bind_run, hrun]
      exact fun _ => noType_panic (by decide)

/-- The tree after create(): as it was, or with a new inode. -/
inductive Made (n : ℕ) (s : Fs) (p : Fin NPROC) (path : Path) : Fs → Prop where
  | old : Made n s p path s
  | new {u q dp name i x} : s.procs p = some q →
      LeadsTo s (start q path) (components path) dp name → Freed s u → Births n u dp name i x →
      Made n s p path (newInode u dp name i x)

theorem create_made (h : Since P 0 s s) (ht : ty ≠ .free) (path : Path) :
    Calm P (create n p path ty major minor) (fun _ v => ∃ b, Made n s p path b ∧
      Settled P b v) s := by
  apply wp_bind
  refine wp_mono (h.namex path true) ?_
  rintro r u ⟨hu, hcomes⟩
  cases r with
  | none => exact wp_pure ⟨s, .old, hu.toSettled⟩
  | some x =>
    obtain ⟨dp, name⟩ := x
    obtain ⟨q, hq, hl⟩ := hcomes dp name rfl
    apply wp_bind
    refine wp_mono (hu.ilock dp) ?_
    rintro _ v ⟨hv, -, -, -⟩
    apply wp_bind
    refine wp_mono (hv.dirlookup dp name) ?_
    rintro r w ⟨hw, hsame, -, hdir, hf⟩
    cases r with
    | some y =>
      obtain ⟨i, off⟩ := y
      have hold : Settles P s (do
          iunlockput dp
          ilock i
          let s ← get
          if ty = .file ∧ type s i = .file then pure (some i)
          else
            iunlockput i
            pure none) := by
        apply settles_bind (iunlockput_settles dp)
        intro _
        apply settles_bind (ilock_settles i)
        intro _
        apply settles_get
        intro z
        apply settles_ite
        · exact fun _ => settles_pure _
        · exact fun _ => done_settles i none
      refine wp_mono (hold w hw.toSettled) ?_
      intro _ t ht
      exact ⟨s, .old, ht⟩
    | none =>
      have hdirw : type w dp = .dir := by rwa [hsame.type_eq]
      have hnone : findEntry name (entries w dp) 0 = none := by rwa [hsame.entries_eq]
      refine wp_mono (create_new hw.toSettled hdirw hnone ht) ?_
      rintro _ t ⟨i, x, hb, hend⟩
      exact ⟨_, .new hq hl hw.freed hb, hend⟩

theorem Made.ends {c : Call} (h : Made n s p path b)
    (hm : ∀ q, s.procs p = some q → Makes s q c path) (hv : Settled P b v) : Ends P n s p c v := by
  cases h with
  | old => exact .of_kept hv
  | new hq hl hf hb => exact .of_settled hv (.create hq (hm _ hq) hl hf hb hv.freed)

/-- create(), and code that changes nothing. -/
theorem create_then {c : Call} {f : Option ℕ → FsCode ℤ} (h : Since P 0 s s) (ht : ty ≠ .free)
    (hm : ∀ q, s.procs p = some q → Makes s q c path) (hf : ∀ b r, Settles P b (f r)) :
    Calm P (create n p path ty major minor >>= f) (fun _ t => Ends P n s p c t) s := by
  apply wp_bind
  refine wp_mono (create_made h ht path) ?_
  rintro r v ⟨b, hb, hv⟩
  refine wp_mono (hf b r v hv) ?_
  intro _ t ht
  exact hb.ends hm ht

end Create

/-! The calls -/

section Calls

variable {n : ℕ} {path : Path}

/-- sys_mkdir() and sys_mknod(). -/
theorem createOnly_ends {c : Call} {ty : FileType} {major minor : BitVec 16} (h : Since P 0 s s)
    (ht : ty ≠ .free) (hm : ∀ q, s.procs p = some q → Makes s q c path) :
    Calm P (do
      match ← create n p path ty major minor with
      | none => pure (-1)
      | some ip => do
        iunlockput ip
        pure (0 : ℤ)) (fun _ t => Ends P n s p c t) s := by
  apply create_then h ht hm
  intro b r
  cases r with
  | none => exact settles_pure _
  | some ip => exact done_settles ip _

theorem open_ends (h : Since P 0 s s) (path : Path) (omode : BitVec 32) :
    Calm P (sysOpen n p path omode) (fun _ t => Ends P n s p (.open path omode) t) s := by
  unfold sysOpen
  by_cases hmode : omode &&& O_CREATE ≠ 0
  · rw [if_pos hmode]
    apply create_then h (by decide) fun q _ => .open hmode
    intro b r
    cases r with
    | none => exact settles_pure _
    | some ip => exact openFile_settles p ip
  · rw [if_neg hmode]
    apply wp_bind
    refine wp_mono (h.namei path) ?_
    rintro r u ⟨hu, -⟩
    cases r with
    | none => exact wp_pure (.of_kept hu.toSettled)
    | some ip =>
      have hrest : Settles P s (do
          ilock ip
          let s ← get
          if type s ip = .dir ∧ omode ≠ 0 then
            iunlockput ip
            pure (-1)
          else openFile p ip) := by
        apply settles_bind (ilock_settles ip)
        intro _
        apply settles_get
        intro z
        apply settles_ite
        · exact fun _ => done_settles ip _
        · exact fun _ => openFile_settles p ip
      refine wp_mono (hrest u hu.toSettled) ?_
      intro _ t ht
      exact .of_kept ht

theorem chdir_ends (h : Since P 0 s s) (path : Path) :
    Calm P (sysChdir p path) (fun _ t => Ends P n s p (.chdir path) t) s := by
  apply wp_bind
  refine wp_mono (h.namei path) ?_
  rintro r u ⟨hu, -⟩
  cases r with
  | none => exact wp_pure (.of_kept hu.toSettled)
  | some ip =>
    have hrest : Settles P s (do
        ilock ip
        let s ← get
        if type s ip ≠ .dir then
          iunlockput ip
          pure (-1)
        else
          iunlock ip
          let q ← myproc p
          iput q.cwd
          setProc p (some { q with cwd := ip })
          pure (0 : ℤ)) := by
      apply settles_bind (ilock_settles ip)
      intro _
      apply settles_get
      intro z
      apply settles_ite
      · exact fun _ => done_settles ip _
      · intro _
        apply settles_bind (iunlock_settles ip)
        intro _
        apply settles_bind (myproc_settles p)
        intro q
        apply settles_bind (iput_settles q.cwd)
        intro _
        exact settles_bind (setProc_settles p _) fun _ => settles_pure _
    refine wp_mono (hrest u hu.toSettled) ?_
    intro _ t ht
    exact .of_kept ht

theorem exec_ends (h : Since P 0 s s) (path : Path) (loaded : Bool) :
    Calm P (DirectoryTree.exec p path loaded) (fun _ t => Ends P n s p (.exec path loaded) t) s := by
  apply wp_bind
  refine wp_mono (h.namei path) ?_
  rintro r u ⟨hu, -⟩
  cases r with
  | none => exact wp_pure (.of_kept hu.toSettled)
  | some ip =>
    refine wp_mono (settles_bind (ilock_settles ip) (fun _ => done_settles ip
      (if loaded then (0 : ℤ) else -1)) u hu.toSettled) ?_
    intro _ t ht
    exact .of_kept ht

theorem close_settles (p : Fin NPROC) (fd : Fin NOFILE) : Settles P b (sysClose p fd) := by
  apply settles_bind (myproc_settles p)
  intro q
  cases q.ofile fd with
  | none => exact settles_pure _
  | some f =>
    apply settles_bind (setProc_settles p _)
    intro _
    exact settles_bind (fileclose_settles f) fun _ => settles_pure _

theorem dup_settles (p : Fin NPROC) (fd : Fin NOFILE) : Settles P b (sysDup p fd) := by
  apply settles_bind (myproc_settles p)
  intro q
  cases q.ofile fd with
  | none => exact settles_pure _
  | some f =>
    apply settles_bind (fdalloc_settles p f)
    intro r
    cases r with
    | none => exact settles_pure _
    | some fd1 => exact settles_bind (filedup_settles f) fun _ => settles_pure _

theorem pipealloc_settles (page : Bool) : Settles P b (pipealloc page) := by
  apply settles_bind filealloc_settles
  intro r
  cases r with
  | none => exact settles_pure _
  | some f0 =>
    apply settles_bind filealloc_settles
    intro r
    cases r with
    | none => exact settles_bind (fileclose_settles f0) fun _ => settles_pure _
    | some f1 =>
      apply settles_ite
      · exact fun _ => settles_pure _
      · intro _
        apply settles_bind (fileclose_settles f0)
        intro _
        exact settles_bind (fileclose_settles f1) fun _ => settles_pure _

theorem pipe_settles (p : Fin NPROC) (page : Bool) : Settles P b (sysPipe p page) := by
  apply settles_bind (pipealloc_settles page)
  intro r
  cases r with
  | none => exact settles_pure _
  | some e =>
    obtain ⟨rf, wf⟩ := e
    have hclose : Settles P b (do
        fileclose rf
        fileclose wf
        (pure (-1) : FsCode ℤ)) := by
      apply settles_bind (fileclose_settles rf)
      intro _
      exact settles_bind (fileclose_settles wf) fun _ => settles_pure _
    apply settles_bind (fdalloc_settles p rf)
    intro r
    cases r with
    | none => exact hclose
    | some fd0 =>
      apply settles_bind (fdalloc_settles p wf)
      intro r
      cases r with
      | none =>
        apply settles_bind (myproc_settles p)
        intro q
        exact settles_bind (setProc_settles p _) fun _ => hclose
      | some fd1 => exact settles_pure _

theorem useFile_settles (p : Fin NPROC) (fd : Fin NOFILE) (rounds : ℕ) (result : ℤ) :
    Settles P b (useFile p fd rounds result) := by
  apply settles_bind (myproc_settles p)
  intro q
  cases q.ofile fd with
  | none => exact settles_pure _
  | some f =>
    apply settles_get
    intro s
    cases (s.files f).ip with
    | none => exact settles_pure _
    | some ip => exact settles_bind (lockRounds_settles ip rounds) fun _ => settles_pure _

theorem exit_settles (p : Fin NPROC) : Settles P b (DirectoryTree.exit p) := by
  apply settles_ite
  · exact fun _ => settles_panic (by decide)
  · intro _
    apply settles_bind (closeAll_settles p _)
    intro _
    apply settles_bind (myproc_settles p)
    intro q
    apply settles_bind (iput_settles q.cwd)
    intro _
    exact settles_bind (setProc_settles p none) fun _ => settles_pure _

theorem fork_ends {np : Fin NPROC} (h : Since P 0 s s) :
    Calm P (DirectoryTree.fork p np) (fun _ t => Ends P n s p (.fork np) t) s := by
  cases hp : s.procs p with
  | none =>
    have hrun : myproc p s = .error (.panic "no process") := by
      rw [myproc, hp]
    rw [Calm, wp, DirectoryTree.fork, bind_run, hrun]
    exact fun _ => noType_panic (by decide)
  | some q =>
    have hrun : myproc p s = .ok (q, s) := by
      rw [myproc, hp]
    apply wp_bind_run hrun
    apply wp_bind
    refine wp_mono (wp_runs (R := fun _ u => P → Owes 0 u ∧ u.procs = s.procs)
      (dupAll_settles q _ s h.toSettled) fun r u hdup hP => dupAll_run (h.owes hP) hdup) ?_
    rintro _ u ⟨hu, howes⟩
    have hused : P → type u q.cwd ≠ .free := by
      intro hP
      obtain ⟨ho, hprocs⟩ := howes hP
      have hpos : 0 < FiniteTally.tally (cwds u) q.cwd :=
        FiniteTally.tally_pos (x := p) (by rw [cwds, hprocs, hp]; rfl)
      have hrefs := ho.refs q.cwd
      apply hu.typed hP
      rw [hrefs, holders]
      omega
    apply wp_bind_run (a := q.cwd) rfl
    have hdup : Settled P s { u with ref := Function.update u.ref q.cwd (u.ref q.cwd + 1) } := by
      refine ⟨hu.freed.trans (.of_same rfl rfl), hu.valid, ?_⟩
      intro hP j hj
      change 0 < Function.update u.ref q.cwd (u.ref q.cwd + 1) j at hj
      by_cases hji : j = q.cwd
      · rw [hji]
        exact hused hP
      · rw [Function.update_of_ne hji] at hj
        exact hu.typed hP j hj
    refine wp_mono (settles_bind (setProc_settles np _)
      (fun _ => settles_pure (np.val : ℤ)) _ hdup) ?_
    intro _ t ht
    exact .of_kept ht

theorem call_ends (h : Since P 0 s s) (hn : ∀ i, 0 ≤ nlink s i) (c : Call) :
    Calm P (c.run n p) (fun _ t => Ends P n s p c t) s := by
  have hkept : ∀ {code : FsCode ℤ}, Settles P s code →
      Calm P code (fun _ t => Ends P n s p c t) s := by
    intro code hcode
    refine wp_mono (hcode s h.toSettled) ?_
    intro _ t ht
    exact .of_kept ht
  cases c with
  | link old new => exact link_ends h hn old new
  | unlink path => exact unlink_ends h path
  | «open» path omode => exact open_ends h path omode
  | mkdir path => exact createOnly_ends h (by decide) fun q _ => .mkdir
  | mknod path major minor => exact createOnly_ends h (by decide) fun q _ => .mknod
  | chdir path => exact chdir_ends h path
  | exec path loaded => exact exec_ends h path loaded
  | close fd => exact hkept (close_settles p fd)
  | dup fd => exact hkept (dup_settles p fd)
  | pipe page => exact hkept (pipe_settles p page)
  | use fd rounds result => exact hkept (useFile_settles p fd rounds result)
  | exit => exact hkept (exit_settles p)
  | fork np => exact fork_ends h

end Calls

end CallEffects
