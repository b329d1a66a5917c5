import OsEngineering.InodeCounts
import OsEngineering.SystemCalls

/-! System calls that return -1 leave the tree, the files and the processes as they were, but for
an open() that has created the file before it finds no place for it. None of these calls writes
what a file contains. -/
namespace FailedCalls

open FaultState KernelParams DirectoryTree PathWalk InodeReferences SystemCalls

variable {b s t u v : Fs} {i j dp : ℕ} {tmp L : List ℕ} {p : Fin NPROC} {α β : Type}

/-- A run that faults does not return. -/
abbrev Does (c : FsCode α) (Q : α → Fs → Prop) (s : Fs) : Prop := wp c Q (fun _ => True) s

theorem does_of_ok {c : FsCode α} {Q : α → Fs → Prop} (h : ∀ a t, c s = .ok (a, t) → Q a t) :
    Does c Q s := by
  unfold Does wp
  cases hc : c s with
  | error e => trivial
  | ok x => exact h x.1 x.2 hc

/-! In the middle of a call -/

/-- The tree is that of `b`; the call holds the references in `tmp` and the locks in `L`. -/
structure At (b : Fs) (tmp L : List ℕ) (u : Fs) : Prop where
  mid : Mid tmp L u
  tree : SameTree b u

/-- The call may give back its reference to `i`, with those in `tmp` left. -/
def Kept (b : Fs) (tmp : List ℕ) (i : ℕ) : Prop :=
  type b i ≠ .free → nlink b i = 0 → 0 < holders b i + tmp.count i

theorem Kept.of_mid (h : Mid [] [] b) (tmp : List ℕ) (i : ℕ) : Kept b tmp i := by
  intro htype hlink
  have hpos := (h.orphans i htype hlink).1
  have hrefs := h.refs i
  have hnil : ([] : List ℕ).count i = 0 := rfl
  omega

theorem At.start (h : Mid [] [] b) : At b [] [] b := ⟨h, .refl b⟩

theorem At.iput (h : At b (i :: tmp) L u) (hk : Kept b tmp i) :
    Does (iput i) (fun _ v => At b tmp L v) u := by
  by_cases hL : i ∈ L
  · have hheld : i ∈ u.held := by rwa [h.mid.held]
    unfold Does wp
    rw [iput_deadlock hheld]
    trivial
  · have hf : ¬ Frees u i := by
      rintro ⟨hvalid, hlink, hone⟩
      have htype := h.mid.valid i hvalid
      rw [h.tree.type_eq] at htype
      rw [h.tree.nlink_eq] at hlink
      have hpos := hk htype hlink
      have hcount : (i :: tmp).count i = tmp.count i + 1 := List.count_cons_self
      rw [h.mid.refs, h.tree.holders_eq, hcount] at hone
      omega
    have hheld : i ∉ u.held := by rwa [h.mid.held]
    exact wp_of_run (iput_run_kept hheld hf) ⟨h.mid.drop hf, h.tree.trans ⟨rfl, rfl, rfl, rfl⟩⟩

theorem At.unlock (h : At b tmp L u) (i : ℕ) : At b tmp (L.erase i) (unlock u i) :=
  ⟨h.mid.unlock i, h.tree.trans ⟨rfl, rfl, rfl, rfl⟩⟩

theorem At.iunlock (h : At b tmp L u) (hi : i ∈ tmp) (hL : i ∈ L) :
    Does (iunlock i) (fun _ v => At b tmp (L.erase i) v) u :=
  wp_of_run (h.mid.iunlock_run hi hL) (h.unlock i)

theorem At.iunlockput (h : At b (i :: tmp) L u) (hL : i ∈ L) (hk : Kept b tmp i) :
    Does (iunlockput i) (fun _ v => At b tmp (L.erase i) v) u := by
  apply wp_bind
  refine wp_mono (h.iunlock List.mem_cons_self hL) ?_
  rintro - v hv
  exact hv.iput hk

/-- iunlockput() of what the call has locked last, and the rest of it. -/
theorem At.release {rest : Unit → FsCode β} {Q : β → Fs → Prop} (h : At b (i :: tmp) (i :: L) u)
    (hk : Kept b tmp i) (hrest : ∀ v, At b tmp L v → Does (rest ()) Q v) :
    Does (DirectoryTree.iunlockput i >>= rest) Q u := by
  apply wp_bind
  refine wp_mono (h.iunlockput List.mem_cons_self hk) ?_
  rintro - v hv
  rw [List.erase_cons_head] at hv
  exact hrest v hv

theorem At.ilock (h : At b tmp L u) (hi : i ∈ tmp) :
    Does (ilock i) (fun _ v => At b tmp (i :: L) v ∧ type b i ≠ .free) u := by
  by_cases hL : i ∈ L
  · have hheld : i ∈ u.held := by rwa [h.mid.held]
    unfold Does wp
    rw [ilock_deadlock (h.mid.ref_pos hi) hheld]
    trivial
  · by_cases htype : type u i = .free
    · unfold Does wp
      rw [h.mid.ilock_no_type hi hL htype]
      trivial
    · rw [h.tree.type_eq] at htype
      have htype' : type u i ≠ .free := by rwa [h.tree.type_eq]
      exact wp_of_run (h.mid.ilock_run hi hL htype') ⟨⟨h.mid.lock htype', h.tree.trans ⟨rfl, rfl, rfl, rfl⟩⟩, htype⟩

/-- The references that come with the result of a lookup. -/
def takenBy {β : Type} : Option (ℕ × β) → List ℕ
  | none => []
  | some (i, _) => [i]

theorem At.grab (h : At b tmp L u) (hpos : ∀ j ∈ L, j ∈ tmp) (i : ℕ) :
    At b (i :: tmp) L (grab u i) :=
  ⟨h.mid.grab i fun j hj => h.mid.ref_pos (hpos j hj), h.tree.trans (.grab u i)⟩

theorem At.dirlookup (h : At b tmp L u) (hpos : ∀ j ∈ L, j ∈ tmp) (dp : ℕ) (name : Name) :
    Does (dirlookup dp name) (fun r v => findEntry name (entries b dp) 0 = r ∧
      At b (takenBy r ++ tmp) L v) u := by
  apply does_of_ok
  intro r v hrun
  by_cases hdir : type u dp = .dir
  · cases hf : findEntry name (entries u dp) 0 with
    | none =>
      rw [dirlookup_none hdir hf] at hrun
      cases hrun
      rw [← h.tree.entries_eq]
      exact ⟨hf, h⟩
    | some x =>
      obtain ⟨i, off⟩ := x
      by_cases hget : canGet u i
      · rw [dirlookup_some hdir hf hget] at hrun
        cases hrun
        rw [← h.tree.entries_eq]
        exact ⟨hf, h.grab hpos i⟩
      · rw [dirlookup_full hdir hf hget] at hrun
        cases hrun
  · rw [DirectoryTree.dirlookup, run_bind (get_run u), if_pos hdir] at hrun
    cases hrun

theorem At.namex (h : At b tmp [] u) (path : Path) (par : Bool) :
    Does (namex p path par) (fun r v => At b (takenBy r ++ tmp) [] v ∧
      walk u p path par = .ok r) u := by
  refine wp_conseq (h.mid.namex_wp path par) ?_ fun _ _ => trivial
  rintro r v ⟨hwalk, ha, hmid⟩
  have hsame : SameTree b v := (h.tree.trans (.taken u r)).trans (.alike ha)
  cases r with
  | none => exact ⟨⟨hmid, hsame⟩, hwalk⟩
  | some x => exact ⟨⟨hmid, hsame⟩, hwalk⟩

/-- Code after which nothing is to be shown of what came before. -/
theorem does_bind_any {c : FsCode α} {f : α → FsCode β} {Q : β → Fs → Prop}
    (h : ∀ a u, Does (f a) Q u) : Does (c >>= f) Q s := by
  apply wp_bind
  apply does_of_ok
  intro a u _
  exact h a u

theorem mid_perm {tmp' : List ℕ} (h : Mid tmp L u) (hp : tmp.Perm tmp') : Mid tmp' L u where
  refs := by
    intro i
    rw [h.refs, hp.count_eq]
  valid := h.valid
  orphans := h.orphans
  idle := h.idle
  held := h.held
  locked := h.locked

/-! Open files -/

/-- No entry of the file table is free, or no descriptor of `p`. -/
def NoPlace (s : Fs) (p : Fin NPROC) : Prop :=
  (∀ f, (s.files f).ref ≠ 0) ∨ ∀ q, s.procs p = some q → ∀ fd, q.ofile fd ≠ none

theorem find_none {n : ℕ} {P : Fin n → Prop} [DecidablePred P]
    (h : (List.finRange n).find? (fun x => decide (P x)) = none) (x : Fin n) : ¬ P x := by
  have hx := List.find?_eq_none.mp h x (List.mem_finRange x)
  simpa using hx

theorem find_some {n : ℕ} {P : Fin n → Prop} [DecidablePred P] {x : Fin n}
    (h : (List.finRange n).find? (fun x => decide (P x)) = some x) : P x := by
  simpa using List.find?_some h

theorem filealloc_none (h : ∀ f, (u.files f).ref ≠ 0) : filealloc u = .ok (none, u) := by
  have hfind : (List.finRange NFILE).find? (fun f => decide ((u.files f).ref = 0)) = none := by
    apply List.find?_eq_none.mpr
    intro f _
    simpa using h f
  rw [filealloc, run_bind (get_run u), hfind]
  rfl

theorem filealloc_some (h : ¬ ∀ f, (u.files f).ref ≠ 0) : ∃ f, (u.files f).ref = 0 ∧
    filealloc u = .ok (some f, withFile u f ⟨1, (u.files f).ip⟩) := by
  cases hfind : (List.finRange NFILE).find? fun f => decide ((u.files f).ref = 0) with
  | none => exact absurd (find_none hfind) h
  | some f =>
    refine ⟨f, find_some hfind, ?_⟩
    rw [filealloc, run_bind (get_run u), hfind]
    rfl

theorem fdalloc_none {q : Proc} (hq : u.procs p = some q) (h : ∀ fd, q.ofile fd ≠ none)
    (f : Fin NFILE) : fdalloc p f u = .ok (none, u) := by
  have hmy : myproc p u = .ok (q, u) := by
    unfold myproc
    rw [hq]
  have hfind : (List.finRange NOFILE).find? (fun fd => decide (q.ofile fd = none)) = none := by
    apply List.find?_eq_none.mpr
    intro fd _
    simpa using h fd
  rw [fdalloc, run_bind hmy, hfind]
  rfl

theorem fdalloc_some {q : Proc} (hq : u.procs p = some q) (h : ¬ ∀ fd, q.ofile fd ≠ none)
    (f : Fin NFILE) : ∃ fd v, fdalloc p f u = .ok (some fd, v) := by
  have hmy : myproc p u = .ok (q, u) := by
    unfold myproc
    rw [hq]
  cases hfind : (List.finRange NOFILE).find? fun fd => decide (q.ofile fd = none) with
  | none => exact absurd (find_none hfind) h
  | some fd =>
    refine ⟨fd, withProc u p (some { q with ofile := Function.update q.ofile fd (some f) }), ?_⟩
    rw [fdalloc, run_bind hmy, hfind]
    rfl

/-- fileclose() undoes filealloc(). -/
theorem fileclose_fresh {f : Fin NFILE} (h : u.files f = ⟨0, none⟩) :
    fileclose f (withFile u f ⟨1, none⟩) = .ok ((), u) := by
  have hfile : (withFile u f ⟨1, none⟩).files f = ⟨1, none⟩ := Function.update_self _ _ _
  have hback : withFile (withFile u f ⟨1, none⟩) f ⟨0, none⟩ = u := by
    unfold withFile
    simp only [Function.update_idem, ← h, Function.update_eq_self]
  have hone : ¬ (1 : ℤ) < 1 := by decide
  have hlast : ¬ (0 : ℤ) < 1 - 1 := by decide
  rw [fileclose, run_bind (get_run _), hfile, if_neg hone, if_neg hlast]
  exact congrArg (fun v => Except.ok ((), v)) hback

/-- The end of sys_open(): without a place for the file, the inode is given back. -/
theorem At.openFile (h : At b [i] [i] u) (hk : Kept b [] i) :
    Does (openFile p i) (fun r v => (r = -1 ↔ NoPlace b p) ∧ (r = -1 → At b [] [] v)) u := by
  have hfiles := h.tree.files
  have hprocs := h.tree.procs
  have hend : ∀ {u}, At b [i] [i] u → NoPlace b p → Does (DirectoryTree.iunlockput i >>= fun _ => pure (-1))
      (fun r v => (r = (-1 : ℤ) ↔ NoPlace b p) ∧ (r = -1 → At b [] [] v)) u := by
    intro u h hno
    refine h.release hk fun v hv => ?_
    exact wp_pure ⟨iff_of_true rfl hno, fun _ => hv⟩
  by_cases hfull : ∀ f, (u.files f).ref ≠ 0
  · have hno : NoPlace b p := by
      left
      rwa [← hfiles]
    exact wp_bind_run (filealloc_none hfull) (hend h hno)
  · obtain ⟨f, hzero, hrun⟩ := filealloc_some hfull
    have hip := h.mid.idle f hzero
    have hold : u.files f = ⟨0, none⟩ := by
      cases hf : u.files f with
      | mk ref ip =>
        rw [hf] at hzero hip
        cases hzero
        cases hip
        rfl
    rw [hip] at hrun
    refine wp_bind_run hrun ?_
    cases hq : u.procs p with
    | none =>
      apply does_of_ok
      intro r v hr
      have hmy : myproc p (withFile u f ⟨1, none⟩) = .error (.panic "no process") := by
        have hq' : (withFile u f ⟨1, none⟩).procs p = none := hq
        unfold myproc
        rw [hq']
      simp only [fdalloc, bind_run, hmy] at hr
      cases hr
    | some q =>
      have hq' : (withFile u f ⟨1, none⟩).procs p = some q := hq
      by_cases hfds : ∀ fd, q.ofile fd ≠ none
      · have hno : NoPlace b p := by
          right
          intro q' hbq
          rw [← hprocs, hq] at hbq
          cases hbq
          exact hfds
        exact wp_bind_run (fdalloc_none hq' hfds f)
          (wp_bind_run (fileclose_fresh hold) (hend h hno))
      · obtain ⟨fd, v, hfd⟩ := fdalloc_some hq' hfds f
        refine wp_bind_run hfd ?_
        have hplace : ¬ NoPlace b p := by
          rintro (hno | hno)
          · rw [← hfiles] at hno
            exact hno f hzero
          · rw [← hprocs] at hno
            exact hfds (hno q hq)
        have hfdr : (fd.val : ℤ) ≠ -1 := by omega
        refine does_bind_any fun _ _ => does_bind_any fun _ _ => ?_
        exact wp_pure ⟨iff_of_false hfdr hplace, fun h => absurd h hfdr⟩

/-! Creation -/

/-- create() makes a new inode: there is a directory for it, without an entry of that name. -/
def Creates (s : Fs) (p : Fin NPROC) (path : Path) : Prop := ∃ dp name,
  walk s p path true = .ok (some (dp, name)) ∧ findEntry name (entries s dp) 0 = none

/-- After ialloc() of `i`, with what create() sets in it. -/
def made (s : Fs) (i : ℕ) (d : Dinode) : Fs := { setDinode s i d with
  births := Function.update s.births i (s.births i + 1) }

theorem grab_made (s : Fs) (i : ℕ) (d d' : Dinode) :
    setDinode (lock (grab (made s i d') i) i) i d = lock (grab (made s i d) i) i := by
  unfold grab
  by_cases hr : 0 < (made s i d').ref i
  · have hr' : 0 < (made s i d).ref i := hr
    rw [if_pos hr, if_pos hr']
    simp only [setDinode, lock, made, Function.update_idem]
  · have hr' : ¬ 0 < (made s i d).ref i := hr
    rw [if_neg hr, if_neg hr']
    simp only [setDinode, lock, made, Function.update_idem]

theorem type_made_self (s : Fs) (i : ℕ) (d : Dinode) : type (made s i d) i = d.type :=
  type_setDinode_self s i d

theorem mid_made {d : Dinode} (h : Mid tmp L u) (ht : d.type ≠ .free) (hn : d.nlink ≠ 0) :
    Mid tmp L (made u i d) := by
  have hset : Mid tmp L (setDinode u i d) := h.setDinode (fun _ => ht) fun _ h0 => absurd h0 hn
  exact ⟨hset.refs, hset.valid, hset.orphans, hset.idle, hset.held, hset.locked⟩

theorem made_same (h : SameTree b u) (i : ℕ) (d : Dinode) :
    SameTree (made b i d) (made u i d) := by
  refine ⟨?_, ?_, h.files, h.procs⟩
  · unfold made setDinode
    rw [h.dinodes]
  · unfold made
    rw [h.births]

theorem ialloc_run {ninodes : ℕ} (t : FileType)
    (h : (List.range ninodes).find? (fun i => decide (1 ≤ i ∧ type u i = .free)) = some i) :
    ialloc ninodes t u = iget i (made u i ⟨t, 0, 0, 0, []⟩) := by
  rw [ialloc, run_bind (get_run u), h]
  rfl

/-- ialloc(), ilock() and the first iupdate() of create(). -/
theorem ialloc_wp {E : Fault → Prop} (hpanic : ∀ msg, E (.panic msg)) {ninodes : ℕ}
    {t : FileType} {major minor : BitVec 16} {rest : ℕ → FsCode β}
    {Q : β → Fs → Prop} (h : At b [dp] [dp] u) (hdp : type b dp = .dir) (ht : t ≠ .free)
    (hrest : ∀ i v, type b i = .free → i ≠ dp →
      At (made b i ⟨t, major, minor, 1, []⟩) [i, dp] [i, dp] v → wp (rest i) Q E v) :
    wp (do
      let ip ← ialloc ninodes t
      ilock ip
      modify fun s => setDinode s ip
        { s.dinodes ip with major := major, minor := minor, nlink := 1 }
      rest ip) Q E u := by
  cases hfind : (List.range ninodes).find? fun i => decide (1 ≤ i ∧ type u i = .free) with
  | none =>
    have hrun : ialloc ninodes t u = .error (.panic "ialloc: no inodes") := by
      rw [ialloc, run_bind (get_run u), hfind]
      rfl
    rw [wp, bind_run, hrun]
    exact hpanic _
  | some i =>
    have hrun := ialloc_run t hfind
    have hfree : type u i = .free := by
      have hi := List.find?_some hfind
      rw [decide_eq_true_iff] at hi
      exact hi.2
    have hne : i ≠ dp := by
      rintro rfl
      rw [h.tree.type_eq, hdp] at hfree
      cases hfree
    rw [h.tree.type_eq] at hfree
    by_cases hget : canGet (made u i ⟨t, 0, 0, 0, []⟩) i
    · rw [iget_run hget] at hrun
      have hnonneg : 0 ≤ (made u i ⟨t, 0, 0, 0, []⟩).ref i := h.mid.steady.nonneg i
      have hpos : 0 < (grab (made u i ⟨t, 0, 0, 0, []⟩) i).ref i := by
        rw [grab_ref_self hnonneg]
        omega
      have hheld : i ∉ (grab (made u i ⟨t, 0, 0, 0, []⟩) i).held := by
        rw [grab_held]
        change i ∉ u.held
        rw [h.mid.held]
        exact fun hi => hne (List.mem_singleton.mp hi)
      have htype : type (grab (made u i ⟨t, 0, 0, 0, []⟩) i) i ≠ .free := by
        rw [type_grab, type_made_self]
        exact ht
      have hdinode : (lock (grab (made u i ⟨t, 0, 0, 0, []⟩) i) i).dinodes i =
          ⟨t, 0, 0, 0, []⟩ := by
        change (grab (made u i ⟨t, 0, 0, 0, []⟩) i).dinodes i = _
        rw [grab_dinodes]
        exact Function.update_self _ _ _
      refine wp_bind_run hrun (wp_bind_run (ilock_run hpos hheld htype)
        (wp_bind_run (modify_run _ _) ?_))
      rw [hdinode, grab_made]
      refine hrest i _ hfree hne ⟨?_, ?_⟩
      · have hmade := mid_made (i := i) (d := ⟨t, major, minor, 1, []⟩) h.mid ht Int.one_ne_zero
        have hgrab := hmade.grab i fun j hj => hmade.ref_pos hj
        apply hgrab.lock
        rw [type_grab, type_made_self]
        exact ht
      · refine (made_same h.tree i _).trans ((SameTree.grab _ i).trans ⟨rfl, rfl, rfl, rfl⟩)
    · rw [iget_full hget] at hrun
      rw [wp, bind_run, hrun]
      exact hpanic _

theorem setEntry_same (h : SameTree b u) (dp off : ℕ) (de : Dirent) :
    SameTree (DirectoryTree.setEntry b dp off de) (DirectoryTree.setEntry u dp off de) := by
  refine ⟨?_, h.births, h.files, h.procs⟩
  unfold DirectoryTree.setEntry setDinode entries
  rw [h.dinodes]

/-- dirlink() fails without a change, or it sets one entry. -/
theorem dirlink_does {name : Name} {inum : ℕ} (h : At b tmp L u) (hpos : ∀ j ∈ L, j ∈ tmp)
    (hdir : type b dp = .dir) (hk : ∀ i, Kept b tmp i) :
    Does (dirlink dp name inum) (fun ok v => (ok = false → At b tmp L v) ∧
      (findEntry name (entries b dp) 0 = none → ∃ off de, At (setEntry b dp off de) tmp L v)) u := by
  apply wp_bind
  refine wp_mono (h.dirlookup hpos dp name) ?_
  rintro r v ⟨hr, hv⟩
  cases r with
  | some x =>
    obtain ⟨i, off⟩ := x
    apply wp_bind
    refine wp_mono (hv.iput (hk i)) ?_
    intro _ w hw
    refine wp_pure ⟨fun _ => hw, fun hnone => ?_⟩
    rw [hnone] at hr
    cases hr
  | none =>
    apply wp_bind_run (get_run v)
    by_cases hfull : MAXDIRENTS ≤ findEmpty (entries v dp) 0
    · apply does_of_ok
      intro ok w hrun
      rw [if_pos hfull] at hrun
      cases hrun
    · dsimp only
      rw [if_neg hfull]
      refine wp_bind_run (modify_run _ _) (wp_pure ⟨nofun, fun _ =>
        ⟨findEmpty (entries v dp) 0, ⟨inum, name, v.births inum⟩, ?_, ?_⟩⟩)
      · apply mid_setEntry hv.mid
        rwa [hv.tree.type_eq]
      · exact setEntry_same hv.tree dp _ _

/-- The tree after create() of a file: a free inode has become one. -/
def Grown (s b : Fs) : Prop := ∃ i, type s i = .free ∧ type b i ≠ .free

theorem Grown.not_same (h : Grown s b) (hb : SameTree b t) : ¬ SameTree s t := by
  obtain ⟨i, hfree, hi⟩ := h
  intro hs
  apply hi
  rw [← hb.type_eq, hs.type_eq, hfree]

/-- What create() returns for a file: an inode, locked, of the same tree or of a grown one. -/
structure Created (s : Fs) (p : Fin NPROC) (path : Path) (t : FileType) (r : Option ℕ) (v : Fs) :
    Prop where
  fails : r = none → ¬ Creates s p path ∧ At s [] [] v
  finds : ∀ i, r = some i → ¬ Creates s p path → At s [i] [i] v
  makes : ∀ i, r = some i → Creates s p path → t = .file →
    ∃ b, Grown s b ∧ Kept b [] i ∧ b.files = s.files ∧ b.procs = s.procs ∧ At b [i] [i] v

theorem nlink_setDinode_self (s : Fs) (i : ℕ) (d : Dinode) :
    nlink (setDinode s i d) i = d.nlink := by
  simp only [nlink, setDinode, Function.update_self]

theorem nlink_setDinode_ne (d : Dinode) (h : j ≠ i) : nlink (setDinode s i d) j = nlink s j := by
  simp only [nlink, setDinode, Function.update_of_ne h]

theorem nlink_setEntry (s : Fs) (dp off : ℕ) (de : Dirent) (j : ℕ) :
    nlink (setEntry s dp off de) j = nlink s j := by
  by_cases hj : j = dp
  · subst hj
    exact nlink_setDinode_self _ _ _
  · exact nlink_setDinode_ne _ hj

theorem Kept.setEntry (h : Kept b tmp i) (off : ℕ) (de : Dirent) :
    Kept (setEntry b dp off de) tmp i := by
  intro ht hn
  rw [type_setEntry] at ht
  rw [nlink_setEntry] at hn
  exact h ht hn

theorem kept_made {d : Dinode} (h : Kept s tmp j) (hd : d.nlink ≠ 0) :
    Kept (made s i d) tmp j := by
  intro ht hn
  by_cases hj : j = i
  · subst hj
    exact absurd ((nlink_setDinode_self s j d).symm.trans hn) hd
  · apply h
    · exact fun hfree => ht ((type_setDinode_ne d hj).trans hfree)
    · exact (nlink_setDinode_ne d hj).symm.trans hn

theorem createEntries_does {name : Name} (h : At b tmp L u) (hpos : ∀ j ∈ L, j ∈ tmp)
    (hdir : type b dp = .dir) (hk : ∀ j, Kept b tmp j)
    (hnone : findEntry name (entries b dp) 0 = none) :
    Does (createEntries .file dp name i)
      (fun _ v => ∃ off de, At (setEntry b dp off de) tmp L v) u := by
  have hentries : createEntries .file dp name i = (do
      let ok ← dirlink dp name i
      if ok then pure () else DirectoryTree.panic "create: dirlink") := rfl
  rw [hentries]
  apply wp_bind
  refine wp_mono (dirlink_does h hpos hdir hk) ?_
  rintro ok v ⟨-, hv⟩
  cases ok with
  | false => trivial
  | true => exact hv hnone

theorem walk_dir {name : Name} {path : Path} (h : walk s p path true = .ok (some (dp, name))) :
    type s dp = .dir := (walk_ok h).2 rfl

theorem Creates.walk_eq {name : Name} {path : Path} (h : Creates s p path)
    (hw : walk s p path true = .ok (some (dp, name))) : findEntry name (entries s dp) 0 = none := by
  obtain ⟨dp', name', hw', hnone⟩ := h
  rw [hw] at hw'
  cases hw'
  exact hnone

theorem create_does {ninodes : ℕ} {path : Path} {t : FileType} {major minor : BitVec 16}
    (h : Mid [] [] s) (ht : t ≠ .free) :
    Does (create ninodes p path t major minor) (Created s p path t) s := by
  apply wp_bind
  refine wp_mono ((At.start h).namex path true) ?_
  rintro r u ⟨hu, hw⟩
  cases r with
  | none =>
    refine wp_pure ⟨fun _ => ⟨?_, hu⟩, nofun, nofun⟩
    rintro ⟨dp, name, hw', -⟩
    rw [hw] at hw'
    cases hw'
  | some x =>
    obtain ⟨dp, name⟩ := x
    have hdir := walk_dir hw
    apply wp_bind
    refine wp_mono (hu.ilock List.mem_cons_self) ?_
    rintro _ u ⟨hu, -⟩
    apply wp_bind
    refine wp_mono (hu.dirlookup (fun j hj => hj) dp name) ?_
    rintro r u ⟨hr, hu⟩
    cases r with
    | some y =>
      obtain ⟨i, off⟩ := y
      have hold : ¬ Creates s p path := by
        intro hc
        rw [hc.walk_eq hw] at hr
        cases hr
      have hswap : At s [dp, i] [dp] u := ⟨mid_perm hu.mid (List.Perm.swap dp i []), hu.tree⟩
      refine hswap.release (Kept.of_mid h _ _) fun u hu => ?_
      apply wp_bind
      refine wp_mono (hu.ilock List.mem_cons_self) ?_
      rintro _ u ⟨hu, -⟩
      apply wp_bind_run (get_run u)
      by_cases hfile : t = .file ∧ type u i = .file
      · rw [if_pos hfile]
        refine wp_pure ⟨nofun, ?_, ?_⟩
        · rintro j hj -
          cases hj
          exact hu
        · intro j _ hc
          exact absurd hc hold
      · rw [if_neg hfile]
        refine hu.release (Kept.of_mid h _ _) fun u hu => ?_
        exact wp_pure ⟨fun _ => ⟨hold, hu⟩, nofun, nofun⟩
    | none =>
      have hnew : Creates s p path := ⟨dp, name, hw, hr⟩
      apply ialloc_wp (fun _ => trivial) hu hdir ht
      intro i u hfree hne hu
      by_cases hfile : t = .file
      · subst hfile
        have hent : entries (made s i ⟨.file, major, minor, 1, []⟩) dp = entries s dp :=
          entries_setDinode_ne _ hne.symm
        have htype : type (made s i ⟨.file, major, minor, 1, []⟩) dp = type s dp :=
          type_setDinode_ne _ hne.symm
        have hkept : ∀ tmp j, Kept (made s i ⟨.file, major, minor, 1, []⟩) tmp j :=
          fun tmp j => kept_made (Kept.of_mid h tmp j) Int.one_ne_zero
        apply wp_bind
        refine wp_mono (createEntries_does hu (fun j hj => hj) (htype.trans hdir) (hkept _)
          ((congrArg (findEntry name · 0) hent).trans hr)) ?_
        rintro _ v ⟨off, de, hv⟩
        have hswap : At (setEntry (made s i ⟨.file, major, minor, 1, []⟩) dp off de) [dp, i]
            [i, dp] v := ⟨mid_perm hv.mid (List.Perm.swap dp i []), hv.tree⟩
        have hmem : dp ∈ [i, dp] := List.mem_cons_of_mem i List.mem_cons_self
        have herase : [i, dp].erase dp = [i] := by
          rw [List.erase_cons_tail (by simpa using hne), List.erase_cons_head]
        apply wp_bind
        refine wp_mono (hswap.iunlockput hmem ((hkept _ _).setEntry off de)) ?_
        intro _ w hw
        rw [herase] at hw
        refine ⟨nofun, ?_, ?_⟩
        · intro j _ hno
          exact absurd hnew hno
        · rintro j hj - -
          cases hj
          refine ⟨_, ⟨i, hfree, ?_⟩, (hkept _ _).setEntry off de, rfl, rfl, hw⟩
          rw [type_setEntry, type_made_self]
          exact ht
      · refine does_bind_any fun _ u => does_bind_any fun _ v => wp_pure ⟨nofun, ?_, ?_⟩
        · intro j _ hno
          exact absurd hnew hno
        · intro j _ _ ht
          exact absurd ht hfile

/-! The calls -/

/-- A call that returns -1 has changed nothing. -/
abbrev Spared (s : Fs) (r : ℤ) (t : Fs) : Prop := r = -1 → At s [] [] t

theorem spared_zero (s : Fs) : Spared s 0 t := fun h => absurd h (by decide)

theorem namei_does (h : Mid [] [] s) (path : Path) :
    Does (namei p path) (fun r v => At s r.toList [] v) s := by
  apply wp_bind
  refine wp_mono ((At.start h).namex path false) ?_
  rintro r v ⟨hv, -⟩
  cases r with
  | none => exact wp_pure hv
  | some x => exact wp_pure hv

theorem chdir_does (h : Mid [] [] s) (path : Path) : Does (sysChdir p path) (Spared s) s := by
  apply wp_bind
  refine wp_mono (namei_does h path) ?_
  intro r u hu
  cases r with
  | none => exact wp_pure fun _ => hu
  | some i =>
    apply wp_bind
    refine wp_mono (hu.ilock List.mem_cons_self) ?_
    rintro _ u ⟨hu, -⟩
    apply wp_bind_run (get_run u)
    by_cases hdir : type u i ≠ .dir
    · rw [if_pos hdir]
      refine hu.release (Kept.of_mid h _ _) fun u hu => ?_
      exact wp_pure fun _ => hu
    · rw [if_neg hdir]
      refine does_bind_any fun _ _ => does_bind_any fun _ _ => does_bind_any fun _ _ =>
        does_bind_any fun _ _ => ?_
      exact wp_pure (spared_zero s)

theorem unlink_does (h : Mid [] [] s) (path : Path) : Does (sysUnlink p path) (Spared s) s := by
  apply wp_bind
  refine wp_mono ((At.start h).namex path true) ?_
  rintro r u ⟨hu, -⟩
  cases r with
  | none => exact wp_pure fun _ => hu
  | some x =>
    obtain ⟨dp, name⟩ := x
    have hleave : ∀ {v}, At s [dp] [dp] v →
        Does (iunlockput dp >>= fun _ => pure (-1)) (Spared s) v := by
      intro v hv
      refine hv.release (Kept.of_mid h _ _) fun w hw => ?_
      exact wp_pure fun _ => hw
    apply wp_bind
    refine wp_mono (hu.ilock List.mem_cons_self) ?_
    rintro _ u ⟨hu, -⟩
    by_cases hdots : name = ['.'] ∨ name = ['.', '.']
    · rw [if_pos hdots]
      exact hleave hu
    · rw [if_neg hdots]
      apply wp_bind
      refine wp_mono (hu.dirlookup (fun j hj => hj) dp name) ?_
      rintro r u ⟨-, hu⟩
      cases r with
      | none => exact hleave hu
      | some y =>
        obtain ⟨i, off⟩ := y
        apply wp_bind
        refine wp_mono (hu.ilock List.mem_cons_self) ?_
        rintro _ u ⟨hu, -⟩
        apply wp_bind_run (get_run u)
        by_cases hlink : nlink u i < 1
        · rw [if_pos hlink]
          trivial
        · rw [if_neg hlink]
          by_cases hfull : type u i = .dir ∧ isdirempty (entries u i) = false
          · rw [if_pos hfull]
            refine hu.release (Kept.of_mid h _ _) fun u hu => ?_
            exact hleave hu
          · rw [if_neg hfull]
            refine does_bind_any fun _ _ => ?_
            by_cases hdir : type u i = .dir
            · rw [if_pos hdir]
              refine does_bind_any fun _ _ => does_bind_any fun _ _ => does_bind_any fun _ _ =>
                does_bind_any fun _ _ => ?_
              exact wp_pure (spared_zero s)
            · rw [if_neg hdir]
              refine does_bind_any fun _ _ => does_bind_any fun _ _ => does_bind_any fun _ _ => ?_
              exact wp_pure (spared_zero s)

/-- sys_mkdir() and sys_mknod(). -/
theorem createOnly_does {ninodes : ℕ} {path : Path} {t : FileType} {major minor : BitVec 16}
    (h : Mid [] [] s) (ht : t ≠ .free) :
    Does (do
      match ← create ninodes p path t major minor with
      | none => pure (-1)
      | some ip => do
        iunlockput ip
        pure (0 : ℤ)) (Spared s) s := by
  apply wp_bind
  refine wp_mono (create_does h ht) ?_
  intro r u hu
  cases r with
  | none => exact wp_pure fun _ => (hu.fails rfl).2
  | some i => exact does_bind_any fun _ _ => wp_pure (spared_zero s)

/-! sys_link() counts the new link before it makes the entry. -/

theorem withNlink_same (h : SameTree b u) (i : ℕ) (n : ℤ) :
    SameTree (withNlink b i n) (withNlink u i n) := by
  refine ⟨?_, h.births, h.files, h.procs⟩
  unfold withNlink setDinode nlink
  rw [h.dinodes]

theorem withNlink_back (s : Fs) (i : ℕ) : SameTree s (withNlink (withNlink s i 1) i (-1)) := by
  refine ⟨?_, rfl, rfl, rfl⟩
  have hself : (withNlink s i 1).dinodes i = { s.dinodes i with nlink := nlink s i + 1 } :=
    Function.update_self _ _ _
  have hlink : nlink (withNlink s i 1) i = nlink s i + 1 := nlink_setDinode_self _ _ _
  have hsum : nlink s i + 1 + -1 = (s.dinodes i).nlink := by
    unfold nlink
    omega
  rw [withNlink, hself, hlink, hsum]
  change Function.update (Function.update s.dinodes i _) i (s.dinodes i) = s.dinodes
  rw [Function.update_idem, Function.update_eq_self]

theorem At.addNlink (h : At b tmp L u) (hi : i ∈ tmp) (hL : i ∈ L) (ht : type b i ≠ .free)
    (n : ℤ) : At (withNlink b i n) tmp L (withNlink u i n) := by
  refine ⟨mid_withNlink h.mid hi hL ?_ n, withNlink_same h.tree i n⟩
  rwa [h.tree.type_eq]

theorem kept_withNlink (h : Kept s tmp j) (hi : i ∈ tmp) (n : ℤ) :
    Kept (withNlink s i n) tmp j := by
  intro ht hn
  by_cases hj : j = i
  · subst hj
    have hpos := List.count_pos_iff.mpr hi
    omega
  · apply h
    · rwa [type_withNlink] at ht
    · exact (nlink_setDinode_ne _ hj).symm.trans hn

/-- The new entry is not made. -/
theorem link_bad {i : ℕ} (h : Mid [] [] s) (hu : At (withNlink s i 1) [i] [] u)
    (ht : type s i ≠ .free) : Does (do
      ilock i
      addNlink i (-1)
      iunlockput i
      pure (-1)) (Spared s) u := by
  apply wp_bind
  refine wp_mono (hu.ilock List.mem_cons_self) ?_
  rintro _ u ⟨hu, -⟩
  refine wp_bind_run (addNlink_run u i (-1)) ?_
  have ht' : type (withNlink s i 1) i ≠ .free := by rwa [type_withNlink]
  have hback := hu.addNlink List.mem_cons_self List.mem_cons_self ht' (-1)
  have hold : At s [i] [i] (withNlink u i (-1)) :=
    ⟨hback.mid, (withNlink_back s i).trans hback.tree⟩
  refine hold.release (Kept.of_mid h _ _) fun v hv => ?_
  exact wp_pure fun _ => hv

/-- The directory part of sys_link(), and what comes after it. -/
theorem link_entry {b : Fs} {i inum : ℕ} {name : Name} {rest : Bool → FsCode β}
    {Q : β → Fs → Prop} (h : At b [dp, i] [] u) (hdir : type b dp = .dir)
    (hk : ∀ tmp, i ∈ tmp → ∀ j, Kept b tmp j)
    (hfail : ∀ v, At b [i] [] v → Does (rest false) Q v) (hdone : ∀ v, Does (rest true) Q v) :
    Does (do
      ilock dp
      let ok ← dirlink dp name inum
      iunlockput dp
      rest ok) Q u := by
  have hmem : i ∈ [dp, i] := List.mem_cons_of_mem dp List.mem_cons_self
  apply wp_bind
  refine wp_mono (h.ilock List.mem_cons_self) ?_
  rintro _ u ⟨hu, -⟩
  have hpos : ∀ j ∈ [dp], j ∈ [dp, i] := by
    intro j hj
    rw [List.mem_singleton.mp hj]
    exact List.mem_cons_self
  apply wp_bind
  refine wp_mono (dirlink_does hu hpos hdir (hk _ hmem)) ?_
  rintro ok u ⟨hu, -⟩
  cases ok with
  | true => exact does_bind_any fun _ v => hdone v
  | false =>
    refine (hu rfl).release (hk _ List.mem_cons_self dp) fun v hv => ?_
    exact hfail v hv

theorem link_does (h : Mid [] [] s) (old new : Path) : Does (sysLink p old new) (Spared s) s := by
  apply wp_bind
  refine wp_mono (namei_does h old) ?_
  intro r u hu
  cases r with
  | none => exact wp_pure fun _ => hu
  | some i =>
    apply wp_bind
    refine wp_mono (hu.ilock List.mem_cons_self) ?_
    rintro _ u ⟨hu, ht⟩
    apply wp_bind_run (get_run u)
    by_cases hdir : type u i = .dir
    · rw [if_pos hdir]
      refine hu.release (Kept.of_mid h _ _) fun u hu => ?_
      exact wp_pure fun _ => hu
    · rw [if_neg hdir]
      refine wp_bind_run (addNlink_run u i 1) ?_
      have hcounted := hu.addNlink List.mem_cons_self List.mem_cons_self ht 1
      apply wp_bind
      refine wp_mono (hcounted.iunlock List.mem_cons_self List.mem_cons_self) ?_
      intro _ u hu
      rw [List.erase_cons_head] at hu
      have htree := hu.tree
      apply wp_bind
      refine wp_mono (hu.namex new true) ?_
      rintro r u ⟨hu, hw⟩
      cases r with
      | none => exact link_bad h hu ht
      | some x =>
        obtain ⟨dp, name⟩ := x
        have hdp : type (withNlink s i 1) dp = .dir := by
          rw [← htree.type_eq]
          exact walk_dir hw
        have hkept : ∀ tmp, i ∈ tmp → ∀ j, Kept (withNlink s i 1) tmp j :=
          fun tmp hi j => kept_withNlink (Kept.of_mid h tmp j) hi 1
        refine link_entry hu hdp hkept ?_ ?_
        · intro v hv
          exact link_bad h hv ht
        · intro v
          change Does (iput i >>= fun _ => pure 0) (Spared s) v
          exact does_bind_any fun _ _ => wp_pure (spared_zero s)

/-! sys_open() -/

/-- sys_open() that makes a new file and finds no place for it. -/
def OpensInVain (s : Fs) (p : Fin NPROC) : Call → Prop
  | .open path omode => omode &&& O_CREATE ≠ 0 ∧ Creates s p path ∧ NoPlace s p
  | _ => False

/-- What sys_open() returns -1 with, when it does. -/
structure Opened (s : Fs) (p : Fin NPROC) (path : Path) (omode : BitVec 32) (r : ℤ) (t : Fs) :
    Prop where
  spares : ¬ OpensInVain s p (.open path omode) → Spared s r t
  wastes : OpensInVain s p (.open path omode) → r = -1 ∧ ¬ SameTree s t

theorem Opened.of_spared {path : Path} {omode : BitVec 32} {r : ℤ}
    (h : ¬ OpensInVain s p (.open path omode)) (hs : Spared s r t) : Opened s p path omode r t :=
  ⟨fun _ => hs, fun hv => absurd hv h⟩

theorem noPlace_congr (hf : b.files = s.files) (hp : b.procs = s.procs) :
    NoPlace b p ↔ NoPlace s p := by
  unfold NoPlace
  rw [hf, hp]

theorem open_does {ninodes : ℕ} (h : Mid [] [] s) (path : Path) (omode : BitVec 32) :
    Does (sysOpen ninodes p path omode) (Opened s p path omode) s := by
  unfold sysOpen
  by_cases hcreate : omode &&& O_CREATE ≠ 0
  · rw [if_pos hcreate]
    apply wp_bind
    refine wp_mono (create_does h (by decide)) ?_
    intro r u hu
    cases r with
    | none =>
      obtain ⟨hold, hu⟩ := hu.fails rfl
      exact wp_pure (.of_spared (fun hv => hold hv.2.1) fun _ => hu)
    | some i =>
      by_cases hnew : Creates s p path
      · obtain ⟨b, hgrown, hkept, hfiles, hprocs, hb⟩ := hu.makes i rfl hnew rfl
        have hplace := noPlace_congr (p := p) hfiles hprocs
        refine wp_mono (hb.openFile hkept) ?_
        rintro r v ⟨hr, hv⟩
        constructor
        · intro hok hfail
          exact absurd ⟨hcreate, hnew, hplace.mp (hr.mp hfail)⟩ hok
        · rintro ⟨-, -, hno⟩
          have hfail := hr.mpr (hplace.mpr hno)
          exact ⟨hfail, hgrown.not_same (hv hfail).tree⟩
      · refine wp_mono ((hu.finds i rfl hnew).openFile (Kept.of_mid h _ _)) ?_
        rintro r v ⟨-, hv⟩
        exact .of_spared (fun hvain => hnew hvain.2.1) hv
  · rw [if_neg hcreate]
    have hok : ¬ OpensInVain s p (.open path omode) := fun hv => hcreate hv.1
    apply wp_bind
    refine wp_mono (namei_does h path) ?_
    intro r u hu
    cases r with
    | none => exact wp_pure (.of_spared hok fun _ => hu)
    | some i =>
      apply wp_bind
      refine wp_mono (hu.ilock List.mem_cons_self) ?_
      rintro _ u ⟨hu, -⟩
      apply wp_bind_run (get_run u)
      by_cases hdir : type u i = .dir ∧ omode ≠ 0
      · rw [if_pos hdir]
        refine hu.release (Kept.of_mid h _ _) fun u hu => ?_
        exact wp_pure (.of_spared hok fun _ => hu)
      · rw [if_neg hdir]
        refine wp_mono (hu.openFile (Kept.of_mid h _ _)) ?_
        rintro r v ⟨-, hv⟩
        exact .of_spared hok hv

/-- sys_open(), sys_link(), sys_unlink(), sys_mkdir(), sys_mknod() and sys_chdir(). -/
def ByPath : Call → Prop
  | .open _ _ | .link _ _ | .unlink _ | .mkdir _ | .mknod _ _ _ | .chdir _ => True
  | _ => False

theorem spared_does {ninodes : ℕ} (h : Mid [] [] s) {c : Call} (hc : ByPath c)
    (hok : ¬ OpensInVain s p c) : Does (c.run ninodes p) (Spared s) s := by
  cases c with
  | «open» path omode => exact wp_mono (open_does h path omode) fun _ _ ho => ho.spares hok
  | link old new => exact link_does h old new
  | unlink path => exact unlink_does h path
  | mkdir path => exact createOnly_does h (by decide)
  | mknod path major minor => exact createOnly_does h (by decide)
  | chdir path => exact chdir_does h path
  | exec => cases hc
  | close => cases hc
  | dup => cases hc
  | pipe => cases hc
  | use => cases hc
  | exit => cases hc
  | fork => cases hc

/-- A failed call leaves the tree, the files and the processes, their descriptors and current
directories among them, as they were, if and only if it is no open() that makes a file in
vain. -/
theorem failed_call_same_iff {ninodes : ℕ} {c : Call} {r : ℤ} (h : Mid [] [] s) (hc : ByPath c)
    (hrun : c.run ninodes p s = .ok (r, t)) :
    (r = -1 → SameTree s t) ↔ ¬ OpensInVain s p c := by
  constructor
  · intro hsame hvain
    cases c with
    | «open» path omode =>
      obtain ⟨hr, hne⟩ := (wp_ok (open_does h path omode) hrun).wastes hvain
      exact hne (hsame hr)
    | link | unlink | mkdir | mknod | chdir | exec | close | dup | pipe | use | exit | fork =>
      exact hvain
  · intro hok hr
    exact (wp_ok (spared_does h hc hok) hrun hr).tree

/-! A process all of whose descriptors are one end of a pipe. -/

def pipeEnd : Fin NFILE := ⟨0, NFILE_pos⟩

def crowded : Fs := { (InodeCounts.booted InodeCounts.rootOnly).fs with
  files := fun f => if f = pipeEnd then ⟨16, none⟩ else ⟨0, none⟩
  procs := fun p => if p = initproc then some ⟨ROOTINO, fun _ => some pipeEnd⟩ else none }

theorem crowded_mid : Mid [] [] crowded where
  refs := by
    intro i
    have hopens : opens crowded = opens (InodeCounts.booted InodeCounts.rootOnly).fs := by
      funext f
      change (if f = pipeEnd then (⟨16, none⟩ : File) else ⟨0, none⟩).ip = none
      split
      · rfl
      · rfl
    have hcwds : cwds crowded = cwds (InodeCounts.booted InodeCounts.rootOnly).fs := by
      funext p
      change (if p = initproc then some (⟨ROOTINO, fun _ => some pipeEnd⟩ : Proc) else none).map
        Proc.cwd = (if p = initproc then some (⟨ROOTINO, fun _ => none⟩ : Proc) else none).map
        Proc.cwd
      split
      · rfl
      · rfl
    have hrefs := (InodeCounts.booted_owes InodeCounts.rootOnly).refs i
    unfold holders at hrefs ⊢
    rw [hopens, hcwds]
    exact hrefs
  valid := nofun
  orphans := by
    intro i htype hlink
    by_cases hroot : i = ROOTINO
    · subst hroot
      exact absurd hlink (by decide)
    · have hfree : crowded.dinodes i = ⟨.free, 0, 0, 0, []⟩ := if_neg hroot
      rw [type, hfree] at htype
      exact absurd rfl htype
  idle := by
    intro f _
    change (if f = pipeEnd then (⟨16, none⟩ : File) else ⟨0, none⟩).ip = none
    split
    · rfl
    · rfl
  held := rfl
  locked := nofun

theorem crowded_run : ∃ t, (Call.open ['f'] O_CREATE).run 4 initproc crowded = .ok (-1, t) ∧
    type t 2 = .file := by
  have hout : ((Call.open ['f'] O_CREATE).run 4 initproc crowded).toOption.map
      (fun x => (x.1, type x.2 2)) = some (-1, .file) := by decide +kernel
  obtain ⟨r, t, hrun, hr⟩ := run_of_some hout
  obtain ⟨rfl, ht⟩ := Prod.mk.inj hr
  exact ⟨t, hrun, ht⟩

theorem failed_call_same_iff_crowded :
    ∃ t, (Call.open ['f'] O_CREATE).run 4 initproc crowded = .ok (-1, t) ∧
      ((-1 = (-1 : ℤ) → SameTree crowded t) ↔
        ¬ OpensInVain crowded initproc (.open ['f'] O_CREATE)) := by
  obtain ⟨t, hrun, -⟩ := crowded_run
  exact ⟨t, hrun, failed_call_same_iff crowded_mid trivial hrun⟩

/-- open() returns -1, and the file is there. -/
theorem failed_open_leaves_file : Mid [] [] crowded ∧
    ∃ t, (Call.open ['f'] O_CREATE).run 4 initproc crowded = .ok (-1, t) ∧
      ¬ SameTree crowded t := by
  obtain ⟨t, hrun, ht⟩ := crowded_run
  refine ⟨crowded_mid, t, hrun, fun hsame => ?_⟩
  have hfree : type crowded 2 = .free := by decide
  rw [← hsame.type_eq, ht] at hfree
  cases hfree

end FailedCalls
