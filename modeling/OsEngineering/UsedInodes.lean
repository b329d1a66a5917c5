import OsEngineering.DirectoryLinks
import OsEngineering.PathResolution
import OsEngineering.SelfDeadlock

/-! Code that, where references, entries and the root lead to inodes in use, finds no free inode
locked. Before a system call changes the tree, and after it, only inodes without links are freed. -/
namespace UsedInodes

open FaultState FramedTriples KernelParams DirectoryTree PathWalk PathResolution InodeReferences
  InodeCounts SystemCalls FailedCalls SelfDeadlock TreeChanges DirectoryLinks

variable {α β : Type} {P : Prop} {a : Multiset ℕ} {b s t u v : Fs} {d dp i j : ℕ} {name : Name}
  {p : Fin NPROC}

def NoType (e : Fault) : Prop := e ≠ .panic "ilock: no type"

theorem noType_panic {msg : String} (h : msg ≠ "ilock: no type") : NoType (.panic msg) := by
  rintro ⟨⟩
  exact h rfl

theorem noType_deadlock (i : ℕ) : NoType (.deadlock i) := by
  rintro ⟨⟩

/-- An inode with references is in use. -/
def Typed (s : Fs) : Prop := ∀ i, 0 < s.ref i → type s i ≠ .free

/-- The root and the entries name inodes that iput() does not free. -/
structure Solid (s : Fs) : Prop where
  free : ∀ i, type s i = .free → nlink s i = 0
  root : 0 < nlink s ROOTINO
  entry : ∀ d e, type s d = .dir → e ∈ entries s d → e.inum ≠ 0 →
    e.inum = d ∨ 0 < nlink s e.inum

theorem Solid.used (h : Solid s) (hn : 0 < nlink s i) : type s i ≠ .free := by
  intro hfree
  rw [h.free i hfree] at hn
  exact lt_irrefl 0 hn

theorem Solid.found (h : Solid s) (hd : type s d = .dir)
    (hf : findEntry name (entries s d) 0 = some (i, j)) : type s i ≠ .free := by
  obtain ⟨e, he, rfl, -, hne⟩ := findEntry_mem hf
  obtain heq | hn := h.entry d e hd he hne
  · rw [heq, hd]
    decide
  · exact h.used hn

theorem Solid.freed (h : Solid s) (hf : Freed s t) : Solid t where
  free := by
    intro i hi
    rw [hf.nlink_eq]
    by_contra hn
    rw [hf.type_of_linked hn] at hi
    exact hn (h.free i hi)
  root := by
    rw [hf.nlink_eq]
    exact h.root
  entry := by
    intro d e hd he hne
    have hused : type t d ≠ .free := by
      rw [hd]
      decide
    rw [← hf.type_eq hused] at hd
    rw [← hf.entries_eq hused] at he
    rw [hf.nlink_eq]
    exact h.entry d e hd he hne

/-! After the change that has made `b` -/

/-- Under `P`, references are to inodes in use. -/
structure Settled (P : Prop) (b u : Fs) : Prop where
  freed : Freed b u
  valid : ∀ i, u.valid i = true → type u i ≠ .free
  typed : P → Typed u

/-- A run that, under `P`, finds no free inode locked. -/
abbrev Calm (P : Prop) (c : FsCode α) (Q : α → Fs → Prop) (u : Fs) : Prop :=
  wp c Q (fun e => P → NoType e) u

def Settles (P : Prop) (b : Fs) (c : FsCode α) : Prop :=
  ∀ u, Settled P b u → Calm P c (fun _ v => Settled P b v) u

theorem Settled.congr (h : Settled P b u) (hd : v.dinodes = u.dinodes) (hb : v.births = u.births)
    (hv : ∀ j, v.valid j = true → u.valid j = true) (hr : ∀ j, 0 < v.ref j → 0 < u.ref j) :
    Settled P b v where
  freed := h.freed.trans (.of_same hd hb)
  valid := by
    intro j hj
    unfold type
    rw [hd]
    exact h.valid j (hv j hj)
  typed := by
    intro hP j hj
    unfold type
    rw [hd]
    exact h.typed hP j (hr j hj)

theorem settles_pure (x : α) : Settles P b (pure x : FsCode α) := fun _ h => wp_pure h

theorem settles_panic {msg : String} (h : msg ≠ "ilock: no type") :
    Settles P b (panic msg : FsCode α) := fun _ _ => wp_throw fun _ => noType_panic h

theorem settles_bind {c : FsCode α} {f : α → FsCode β} (hc : Settles P b c)
    (hf : ∀ x, Settles P b (f x)) : Settles P b (c >>= f) := by
  intro u h
  apply wp_bind
  refine wp_mono (hc u h) ?_
  intro x v hv
  exact hf x v hv

theorem settles_get {f : Fs → FsCode α} (hf : ∀ s, Settles P b (f s)) :
    Settles P b (get >>= f) := fun u h => wp_bind_run (get_run u) (hf u u h)

theorem settles_ite {c c' : FsCode α} {q : Prop} [Decidable q] (hc : q → Settles P b c)
    (hc' : ¬ q → Settles P b c') : Settles P b (if q then c else c') := by
  by_cases hq : q
  · rw [if_pos hq]
    exact hc hq
  · rw [if_neg hq]
    exact hc' hq

/-- Nothing that is of interest here changes. -/
theorem settles_modify {f : Fs → Fs} (hd : ∀ s, (f s).dinodes = s.dinodes)
    (hb : ∀ s, (f s).births = s.births) (hv : ∀ s, (f s).valid = s.valid)
    (hr : ∀ s, (f s).ref = s.ref) : Settles P b (modify f) := by
  intro u h
  apply wp_of_run (modify_run f u)
  refine h.congr (hd u) (hb u) ?_ ?_
  · intro j hj
    rwa [hv] at hj
  · intro j hj
    rwa [hr] at hj

theorem iunlock_eq {r : Unit} (hrun : iunlock i u = .ok (r, v)) : v = PathWalk.unlock u i := by
  obtain ⟨s, w, hget, hrest⟩ := bind_ok hrun
  cases hget
  split at hrest
  · cases hrest
  · cases hrest
    rfl

theorem Settled.lock (h : Settled P b u) (ht : type u i ≠ .free) :
    Settled P b (PathWalk.lock u i) where
  freed := h.freed.trans (.of_same rfl rfl)
  valid := by
    intro j hj
    change Function.update u.valid i true j = true at hj
    by_cases hji : j = i
    · rw [hji]
      exact ht
    · rw [Function.update_of_ne hji] at hj
      exact h.valid j hj
  typed := h.typed

/-- How ilock() ends. -/
theorem Settled.ilock_ends (h : Settled P b u) (i : ℕ) :
    Calm P (ilock i) (fun _ v => v = PathWalk.lock u i ∧ i ∉ u.held ∧ type u i ≠ .free) u := by
  by_cases hr : u.ref i < 1
  · have hrun : ilock i u = .error (.panic "ilock") := by
      rw [ilock, run_bind (get_run u), if_pos hr]
      rfl
    rw [Calm, wp, hrun]
    exact fun _ => noType_panic (by decide)
  · have hpos : 0 < u.ref i := by omega
    by_cases hh : i ∈ u.held
    · rw [Calm, wp, ilock_deadlock hpos hh]
      exact fun _ => noType_deadlock i
    · by_cases ht : type u i = .free
      · have hv : u.valid i = false := by
          by_contra hv
          exact h.valid i (by simpa using hv) ht
        rw [Calm, wp, ilock_no_type hpos hh hv ht]
        exact fun hP => absurd ht (h.typed hP i hpos)
      · exact wp_of_run (ilock_run hpos hh ht) ⟨rfl, hh, ht⟩

theorem ilock_settles (i : ℕ) : Settles P b (ilock i) := by
  intro u h
  refine wp_mono (h.ilock_ends i) ?_
  rintro _ v ⟨rfl, -, ht⟩
  exact h.lock ht

theorem iunlock_settles (i : ℕ) : Settles P b (iunlock i) := by
  apply settles_get
  intro s
  apply settles_ite
  · exact fun _ => settles_panic (by decide)
  · intro _ u h
    exact wp_of_run (a := ()) rfl (h.congr rfl rfl (fun _ => id) fun _ => id)

theorem drop_ref (hr : 0 < (drop u i).ref j) : 0 < u.ref j := by
  change 0 < Function.update u.ref i (u.ref i - 1) j at hr
  by_cases hj : j = i
  · rw [hj, Function.update_self] at hr
    rw [hj]
    omega
  · rwa [Function.update_of_ne hj] at hr

theorem freed_truncate (hn : nlink u i = 0) : Freed u (drop (truncate u i) i) where
  births := rfl
  inode := by
    intro j
    change Function.update u.dinodes i _ j = _ ∨ _ ∧ Function.update u.dinodes i _ j = _
    by_cases hj : j = i
    · rw [hj, Function.update_self]
      exact Or.inr ⟨hn, rfl⟩
    · rw [Function.update_of_ne hj]
      exact Or.inl rfl

theorem Settled.dropFreed (h : Settled P b u) (hf : Frees u i) :
    Settled P b (drop (truncate u i) i) where
  freed := h.freed.trans (freed_truncate hf.2.1)
  valid := by
    intro j hj
    change Function.update u.valid i false j = true at hj
    change (Function.update u.dinodes i _ j).type ≠ .free
    by_cases hji : j = i
    · rw [hji, Function.update_self] at hj
      cases hj
    · rw [Function.update_of_ne hji] at hj ⊢
      exact h.valid j hj
  typed := by
    intro hP j hj
    change 0 < Function.update u.ref i (u.ref i - 1) j at hj
    change (Function.update u.dinodes i _ j).type ≠ .free
    by_cases hji : j = i
    · have hone := hf.2.2
      rw [hji, Function.update_self] at hj
      omega
    · rw [Function.update_of_ne hji] at hj ⊢
      exact h.typed hP j hj

theorem iput_settles (i : ℕ) : Settles P b (iput i) := by
  intro u h
  by_cases hh : i ∈ u.held
  · rw [Calm, wp, iput_deadlock hh]
    exact fun _ => noType_deadlock i
  · by_cases hf : Frees u i
    · exact wp_of_run (iput_run_freed hh hf) (h.dropFreed hf)
    · exact wp_of_run (iput_run_kept hh hf) (h.congr rfl rfl (fun _ => id) fun _ => drop_ref)

theorem iunlockput_settles (i : ℕ) : Settles P b (iunlockput i) :=
  settles_bind (iunlock_settles i) fun _ => iput_settles i

/-- The call ends with iunlockput(). -/
theorem done_settles (i : ℕ) (x : α) : Settles P b (iunlockput i >>= fun _ => (pure x : FsCode α)) :=
  settles_bind (iunlockput_settles i) fun _ => settles_pure x

theorem grab_settled (h : Settled P b u) (ht : P → type u i ≠ .free) :
    Settled P b (grab u i) where
  freed := h.freed.trans (.of_same (grab_dinodes u i) (grab_births u i))
  valid := by
    intro j hj
    rw [type_grab]
    exact h.valid j (grab_valid_le hj)
  typed := by
    intro hP j hj
    rw [type_grab]
    by_cases hji : j = i
    · rw [hji]
      exact ht hP
    · rw [grab_ref_ne hji] at hj
      exact h.typed hP j hj

/-! Open files and processes -/

theorem myproc_settles (p : Fin NPROC) : Settles P b (myproc p) := by
  intro u h
  unfold Calm wp myproc
  cases u.procs p with
  | none => exact fun _ => noType_panic (by decide)
  | some q => exact h

theorem setFile_settles (f : Fin NFILE) (x : File) : Settles P b (setFile f x) :=
  settles_modify (fun _ => rfl) (fun _ => rfl) (fun _ => rfl) fun _ => rfl

theorem setProc_settles (p : Fin NPROC) (q : Option Proc) : Settles P b (setProc p q) :=
  settles_modify (fun _ => rfl) (fun _ => rfl) (fun _ => rfl) fun _ => rfl

theorem filealloc_settles : Settles P b filealloc := by
  apply settles_get
  intro s
  cases (List.finRange NFILE).find? fun f => decide ((s.files f).ref = 0) with
  | none => exact settles_pure none
  | some f => exact settles_bind (setFile_settles f _) fun _ => settles_pure (some f)

theorem fdalloc_settles (p : Fin NPROC) (f : Fin NFILE) : Settles P b (fdalloc p f) := by
  apply settles_bind (myproc_settles p)
  intro q
  cases (List.finRange NOFILE).find? fun fd => decide (q.ofile fd = none) with
  | none => exact settles_pure none
  | some fd => exact settles_bind (setProc_settles p _) fun _ => settles_pure (some fd)

theorem filedup_settles (f : Fin NFILE) : Settles P b (filedup f) := by
  apply settles_get
  intro s
  apply settles_ite
  · exact fun _ => settles_panic (by decide)
  · exact fun _ => setFile_settles f _

theorem fileclose_settles (f : Fin NFILE) : Settles P b (fileclose f) := by
  apply settles_get
  intro s
  apply settles_ite
  · exact fun _ => settles_panic (by decide)
  · intro _
    apply settles_ite
    · exact fun _ => setFile_settles f _
    · intro _
      apply settles_bind (setFile_settles f _)
      intro _
      cases (s.files f).ip with
      | none => exact settles_pure ()
      | some ip => exact iput_settles ip

theorem openFile_settles (p : Fin NPROC) (ip : ℕ) : Settles P b (openFile p ip) := by
  apply settles_bind filealloc_settles
  intro r
  cases r with
  | none => exact done_settles ip _
  | some f =>
    apply settles_bind (fdalloc_settles p f)
    intro r
    cases r with
    | none => exact settles_bind (fileclose_settles f) fun _ => done_settles ip _
    | some fd =>
      apply settles_bind (iunlock_settles ip)
      intro _
      exact settles_bind (setFile_settles f _) fun _ => settles_pure _

theorem lockRounds_settles (ip k : ℕ) : Settles P b (lockRounds ip k) := by
  induction k with
  | zero => exact settles_pure ()
  | succ k ih =>
    exact settles_bind (ilock_settles ip) fun _ => settles_bind (iunlock_settles ip) fun _ => ih

theorem closeAll_settles (p : Fin NPROC) (fds : List (Fin NOFILE)) :
    Settles P b (closeAll p fds) := by
  induction fds with
  | nil => exact settles_pure ()
  | cons fd fds ih =>
    apply settles_bind (myproc_settles p)
    intro q
    cases q.ofile fd with
    | none => exact ih
    | some f =>
      exact settles_bind (fileclose_settles f) fun _ =>
        settles_bind (setProc_settles p _) fun _ => ih

theorem dupAll_settles (q : Proc) (fds : List (Fin NOFILE)) : Settles P b (dupAll q fds) := by
  induction fds with
  | nil => exact settles_pure ()
  | cons fd fds ih =>
    unfold dupAll
    cases q.ofile fd with
    | none => exact ih
    | some f => exact settles_bind (filedup_settles f) fun _ => ih

/-! Before the change -/

/-- The call holds the references in `a`. -/
structure Since (P : Prop) (a : Multiset ℕ) (b u : Fs) : Prop extends Settled P b u where
  files : u.files = b.files
  procs : u.procs = b.procs
  solid : P → Solid b
  owes : P → Owes a u

theorem wp_runs {E : Fault → Prop} {c : FsCode α} {Q R : α → Fs → Prop} (h : wp c Q E u)
    (hr : ∀ x v, c u = .ok (x, v) → R x v) : wp c (fun x v => Q x v ∧ R x v) E u := by
  unfold wp at *
  cases hc : c u with
  | error e =>
    rw [hc] at h
    exact h
  | ok x =>
    rw [hc] at h
    exact ⟨h, hr x.1 x.2 hc⟩

namespace Since

theorem start (hv : ∀ i, s.valid i = true → type s i ≠ .free) (ht : P → Typed s)
    (hs : P → Solid s) (ho : P → Owes a s) : Since P a s s :=
  ⟨⟨.refl s, hv, ht⟩, rfl, rfl, hs, ho⟩

theorem ilock (h : Since P a b u) (i : ℕ) : Calm P (ilock i) (fun _ v => Since P a b v ∧
    v = PathWalk.lock u i ∧ i ∉ u.held ∧ type u i ≠ .free) u := by
  refine wp_mono (h.toSettled.ilock_ends i) ?_
  rintro _ v ⟨rfl, hh, ht⟩
  exact ⟨⟨h.toSettled.lock ht, h.files, h.procs, h.solid, fun hP => (h.owes hP).congr rfl rfl rfl⟩,
    rfl, hh, ht⟩

theorem iunlock (h : Since P a b u) (i : ℕ) :
    Calm P (iunlock i) (fun _ v => Since P a b v ∧ SameTree u v) u := by
  refine wp_mono (wp_runs (iunlock_settles i u h.toSettled) fun x v => iunlock_eq) ?_
  rintro x v ⟨hv, rfl⟩
  exact ⟨⟨hv, h.files, h.procs, h.solid, fun hP => (h.owes hP).congr rfl rfl rfl⟩,
    rfl, rfl, rfl, rfl⟩

theorem iput (h : Since P ({i} + a) b u) : Calm P (iput i) (fun _ v => Since P a b v) u := by
  refine wp_mono (wp_runs (iput_settles i u h.toSettled) fun x v => iput_run) ?_
  rintro x v ⟨hv, hr, hf, hp⟩
  exact ⟨hv, hf.trans h.files, hp.trans h.procs, h.solid, fun hP => (h.owes hP).give hr hf hp⟩

theorem iunlockput (h : Since P ({i} + a) b u) :
    Calm P (iunlockput i) (fun _ v => Since P a b v) u := by
  apply wp_bind
  refine wp_mono (h.iunlock i) ?_
  rintro - v ⟨hv, -⟩
  exact hv.iput

theorem solid_now (h : Since P a b u) (hP : P) : Solid u := (h.solid hP).freed h.freed

theorem cwd_used (h : Since P a b u) {q : Proc} (hq : u.procs p = some q) (hP : P) :
    type u q.cwd ≠ .free := by
  have hrefs := (h.owes hP).refs q.cwd
  have hpos : 0 < FiniteTally.tally (cwds u) q.cwd :=
    FiniteTally.tally_pos (x := p) (by rw [cwds, hq]; rfl)
  apply h.typed hP
  rw [hrefs, holders]
  omega

theorem grab (h : Since P a b u) (hg : canGet u i) (ht : P → type u i ≠ .free) :
    Since P ({i} + a) b (PathWalk.grab u i) where
  toSettled := grab_settled h.toSettled ht
  files := (grab_files u i).trans h.files
  procs := (grab_procs u i).trans h.procs
  solid := h.solid
  owes := by
    intro hP
    have howes := h.owes hP
    rw [← zero_add a] at howes
    exact iget_spec i a u i _ howes (iget_run hg)

theorem idup (h : Since P a b u) (ht : P → type u i ≠ .free) :
    Calm P (idup i) (fun r v => r = i ∧ Since P ({i} + a) b v) u := by
  refine wp_of_run rfl ⟨rfl, ⟨h.freed.trans (.of_same rfl rfl), h.valid, ?_⟩, h.files, h.procs,
    h.solid, ?_⟩
  · intro hP j hj
    change 0 < Function.update u.ref i (u.ref i + 1) j at hj
    by_cases hji : j = i
    · rw [hji]
      exact ht hP
    · rw [Function.update_of_ne hji] at hj
      exact h.typed hP j hj
  · exact fun hP => (h.owes hP).take rfl rfl rfl

theorem iget (h : Since P a b u) (ht : P → type u i ≠ .free) :
    Calm P (iget i) (fun r v => r = i ∧ Since P ({i} + a) b v) u := by
  by_cases hg : canGet u i
  · exact wp_of_run (iget_run hg) ⟨rfl, h.grab hg ht⟩
  · rw [Calm, wp, iget_full hg]
    exact fun _ => noType_panic (by decide)

theorem dirlookup (h : Since P a b u) (dp : ℕ) (name : Name) :
    Calm P (dirlookup dp name) (fun r v => Since P (found r + a) b v ∧ SameTree u v ∧
      v.held = u.held ∧ type u dp = .dir ∧ findEntry name (entries u dp) 0 = r) u := by
  by_cases hd : type u dp = .dir
  · cases hf : findEntry name (entries u dp) 0 with
    | none =>
      refine wp_of_run (dirlookup_none hd hf) ⟨?_, .refl u, rfl, hd, rfl⟩
      rw [show found (none : Option (ℕ × ℕ)) + a = a from zero_add a]
      exact h
    | some x =>
      obtain ⟨i, off⟩ := x
      by_cases hg : canGet u i
      · exact wp_of_run (dirlookup_some hd hf hg) ⟨h.grab hg fun hP => (h.solid_now hP).found hd hf,
          .grab u i, grab_held u i, hd, rfl⟩
      · rw [Calm, wp, dirlookup_full hd hf hg]
        exact fun _ => noType_panic (by decide)
  · have hrun : DirectoryTree.dirlookup dp name u = .error (.panic "dirlookup not DIR") := by
      rw [DirectoryTree.dirlookup, run_bind (get_run u), if_pos hd]
      rfl
    rw [Calm, wp, hrun]
    exact fun _ => noType_panic (by decide)

end Since

/-- Where a path leads: to its parent directory, or all the way. -/
def Comes (s : Fs) : Bool → ℕ → List Name → ℕ → Name → Prop
  | true, i, names, d, last => LeadsTo s i names d last
  | false, i, names, d, _ => Follows s i names d

theorem Comes.cons {par : Bool} {names : List Name} {last : Name} (hd : type s i = .dir)
    (hl : Lookup s i name j) (h : Comes s par j names d last) :
    Comes s par i (name :: names) d last := by
  cases par with
  | false => exact Follows.cons hd hl h
  | true =>
    obtain ⟨pre, rfl, hpre, hdir⟩ := h
    exact ⟨name :: pre, rfl, Follows.cons hd hl hpre, hdir⟩

theorem dir_before (h : Freed b u) (hd : type u i = .dir) :
    type b i = .dir ∧ entries b i = entries u i := by
  have hused : type u i ≠ .free := by
    rw [hd]
    decide
  exact ⟨(h.type_eq hused).trans hd, h.entries_eq hused⟩

theorem Since.namexFrom {ip : ℕ} (h : Since P ({ip} + a) b u) (par : Bool) (names : List Name) :
    Calm P (namexFrom par ip names) (fun r v => Since P (found r + a) b v ∧
      ∀ d last, r = some (d, last) → Comes b par ip names d last) u := by
  have hnone : ∀ {v}, Since P a b v → Since P (found (none : Option (ℕ × Name)) + a) b v ∧
      ∀ d last, (none : Option (ℕ × Name)) = some (d, last) → Comes b par ip names d last := by
    intro v hv
    refine ⟨?_, by rintro d last ⟨⟩⟩
    rw [show found (none : Option (ℕ × Name)) + a = a from zero_add a]
    exact hv
  induction names generalizing ip u with
  | nil =>
    cases par with
    | false =>
      refine wp_pure ⟨h, ?_⟩
      rintro d last ⟨⟩
      exact .nil ip
    | true =>
      apply wp_bind
      refine wp_mono h.iput ?_
      intro _ v hv
      exact wp_pure (hnone hv)
  | cons name rest ih =>
    apply wp_bind
    refine wp_mono (h.ilock ip) ?_
    rintro _ v ⟨hv, -, -, -⟩
    apply wp_bind_run (get_run v)
    by_cases hdir : type v ip = .dir
    · rw [if_neg (not_not.mpr hdir)]
      obtain ⟨hb, hent⟩ := dir_before hv.freed hdir
      by_cases hlast : par = true ∧ rest = []
      · rw [if_pos hlast]
        obtain ⟨rfl, rfl⟩ := hlast
        apply wp_bind
        refine wp_mono (hv.iunlock ip) ?_
        rintro _ w ⟨hw, -⟩
        refine wp_pure ⟨hw, ?_⟩
        rintro d last ⟨⟩
        exact ⟨[], rfl, .nil _, hb⟩
      · rw [if_neg hlast]
        apply wp_bind
        refine wp_mono (hv.dirlookup ip name) ?_
        rintro r w ⟨hw, -, -, -, hf⟩
        cases r with
        | none =>
          rw [show found (none : Option (ℕ × ℕ)) + ({ip} + a) = {ip} + a from zero_add _] at hw
          apply wp_bind
          refine wp_mono hw.iunlockput ?_
          intro _ x hx
          exact wp_pure (hnone hx)
        | some y =>
          obtain ⟨next, off⟩ := y
          have hl : Lookup b ip name next := (lookup_iff ip).mpr ⟨off, by rw [hent]; exact hf⟩
          have hswap : found (some (next, off)) + ({ip} + a) = {ip} + ({next} + a) :=
            add_left_comm _ _ _
          rw [hswap] at hw
          apply wp_bind
          refine wp_mono hw.iunlockput ?_
          intro _ x hx
          refine wp_mono (ih hx ?_) ?_
          · intro z hz
            refine ⟨(hnone hz).1, by rintro d last ⟨⟩⟩
          · rintro r z ⟨hz, hcomes⟩
            exact ⟨hz, fun d last hr => .cons hb hl (hcomes d last hr)⟩
    · rw [if_pos hdir]
      apply wp_bind
      refine wp_mono hv.iunlockput ?_
      intro _ w hw
      exact wp_pure (hnone hw)

theorem Since.namex (h : Since P a b u) (path : Path) (par : Bool) :
    Calm P (namex p path par) (fun r v => Since P (found r + a) b v ∧ ∀ d last,
      r = some (d, last) → ∃ q, b.procs p = some q ∧
        Comes b par (PathResolution.start q path) (components path) d last) u := by
  cases hp : u.procs p with
  | none =>
    have hrun : myproc p u = .error (.panic "no process") := by
      rw [myproc, hp]
    rw [Calm, wp, DirectoryTree.namex, bind_run, hrun]
    exact fun _ => noType_panic (by decide)
  | some q =>
    have hrun : myproc p u = .ok (q, u) := by
      rw [myproc, hp]
    have hq : b.procs p = some q := by rw [← h.procs, hp]
    apply wp_bind_run hrun
    by_cases hroot : path.head? = some '/'
    · have hstart : PathResolution.start q path = ROOTINO := if_pos hroot
      simp only [if_pos hroot]
      apply wp_bind
      refine wp_mono (h.iget (i := ROOTINO) fun hP =>
        (h.solid_now hP).used (h.solid_now hP).root) ?_
      rintro _ v ⟨rfl, hv⟩
      refine wp_mono (hv.namexFrom par (elements path)) ?_
      rintro r w ⟨hw, hcomes⟩
      rw [elements_eq, ← hstart] at hcomes
      exact ⟨hw, fun d last hr => ⟨q, hq, hcomes d last hr⟩⟩
    · have hstart : PathResolution.start q path = q.cwd := if_neg hroot
      simp only [if_neg hroot]
      apply wp_bind
      refine wp_mono (h.idup (i := q.cwd) fun hP => h.cwd_used hp hP) ?_
      rintro _ v ⟨rfl, hv⟩
      refine wp_mono (hv.namexFrom par (elements path)) ?_
      rintro r w ⟨hw, hcomes⟩
      rw [elements_eq, ← hstart] at hcomes
      exact ⟨hw, fun d last hr => ⟨q, hq, hcomes d last hr⟩⟩

theorem Since.namei (h : Since P a b u) (path : Path) :
    Calm P (namei p path) (fun r v => Since P (single r + a) b v ∧ ∀ i, r = some i →
      ∃ q, b.procs p = some q ∧ Follows b (PathResolution.start q path) (components path) i) u := by
  apply wp_bind
  refine wp_mono (h.namex path false) ?_
  rintro r v ⟨hv, hcomes⟩
  cases r with
  | none =>
    refine wp_pure ⟨hv, ?_⟩
    rintro i ⟨⟩
  | some x =>
    refine wp_pure ⟨hv, ?_⟩
    rintro i ⟨⟩
    exact hcomes x.1 x.2 rfl

/-! The change -/

/-- The tree is changed into `b'`. -/
theorem Settled.change {b' : Fs} (h : Settled P b u) (hf : Freed b' v)
    (ht : ∀ j, type v j = type u j) (hv : v.valid = u.valid) (hr : v.ref = u.ref) :
    Settled P b' v where
  freed := hf
  valid := by
    intro j hj
    rw [hv] at hj
    rw [ht]
    exact h.valid j hj
  typed := by
    intro hP j hj
    rw [hr] at hj
    rw [ht]
    exact h.typed hP j hj

theorem dirlink_fresh {inum : ℕ} (hnone : findEntry name (entries u dp) 0 = none) :
    Calm P (dirlink dp name inum) (fun ok v => ok = true ∧ type u dp = .dir ∧
      v = setEntry u dp (findEmpty (entries u dp) 0) ⟨inum, name, u.births inum⟩) u := by
  by_cases hdir : type u dp = .dir
  · refine wp_bind_run (dirlookup_none hdir hnone) (wp_bind_run (get_run u) ?_)
    dsimp only
    by_cases hfull : MAXDIRENTS ≤ findEmpty (entries u dp) 0
    · rw [if_pos hfull]
      exact wp_throw fun _ => noType_panic (by decide)
    · rw [if_neg hfull]
      exact wp_bind_run (modify_run _ _) (wp_pure ⟨rfl, hdir, rfl⟩)
  · have hrun : dirlookup dp name u = .error (.panic "dirlookup not DIR") := by
      rw [DirectoryTree.dirlookup, run_bind (get_run u), if_pos hdir]
      rfl
    rw [Calm, wp, dirlink, bind_run, hrun]
    exact fun _ => noType_panic (by decide)

/-- dirlink() finds the name, or makes an entry. -/
theorem Since.dirlink (h : Since P a b u) (dp : ℕ) (name : Name) (inum : ℕ) :
    Calm P (dirlink dp name inum) (fun ok v => (ok = false ∧ Since P a b v) ∨ (ok = true ∧
      findEntry name (entries u dp) 0 = none ∧ type u dp = .dir ∧
      v = setEntry u dp (findEmpty (entries u dp) 0) ⟨inum, name, u.births inum⟩)) u := by
  cases hf : findEntry name (entries u dp) 0 with
  | none =>
    refine wp_mono (dirlink_fresh hf) ?_
    rintro ok v ⟨hok, hdir, hv⟩
    exact Or.inr ⟨hok, rfl, hdir, hv⟩
  | some x =>
    obtain ⟨i, off⟩ := x
    apply wp_bind
    refine wp_mono (h.dirlookup dp name) ?_
    rintro r v ⟨hv, -, -, -, hr⟩
    rw [hf] at hr
    subst hr
    apply wp_bind
    refine wp_mono hv.iput ?_
    intro _ w hw
    exact wp_pure (Or.inl ⟨rfl, hw⟩)

theorem Follows.before {names : List Name}
    (h : ∀ d, type u d = .dir → type b d = .dir ∧ entries b d = entries u d)
    (hf : Follows u i names j) : Follows b i names j := by
  induction hf with
  | nil i => exact .nil i
  | @cons i name j names k hdir hl _ ih =>
    obtain ⟨hb, hent⟩ := h i hdir
    refine .cons hb ?_ ih
    unfold Lookup at hl ⊢
    rw [hent]
    exact hl

theorem LeadsTo.before {names : List Name}
    (h : ∀ d, type u d = .dir → type b d = .dir ∧ entries b d = entries u d)
    (hl : LeadsTo u i names d name) : LeadsTo b i names d name := by
  obtain ⟨pre, hnames, hpre, hdir⟩ := hl
  exact ⟨pre, hnames, Follows.before h hpre, (h d hdir).1⟩

theorem Since.counted (h : Since P a b u) (ht : type u i ≠ .free) :
    Since P a (withNlink u i 1) (withNlink u i 1) := by
  refine .start ?_ ?_ ?_ ?_
  · intro j hj
    rw [type_withNlink]
    exact h.valid j hj
  · intro hP j hj
    rw [type_withNlink]
    exact h.typed hP j hj
  · intro hP
    have hs := h.solid_now hP
    have hle : ∀ j, nlink u j ≤ nlink (withNlink u i 1) j := by
      intro j
      rw [nlink_withNlink]
      split
      · omega
      · omega
    refine ⟨?_, hs.root.trans_le (hle _), ?_⟩
    · intro j hj
      rw [type_withNlink] at hj
      have hji : j ≠ i := by
        rintro rfl
        exact ht hj
      rw [nlink_withNlink, if_neg hji, add_zero]
      exact hs.free j hj
    · intro d e hd he hne
      rw [type_withNlink] at hd
      rw [entries_withNlink] at he
      exact (hs.entry d e hd he hne).imp_right fun hlt => hlt.trans_le (hle _)
  · exact fun hP => (h.owes hP).congr rfl rfl rfl

end UsedInodes
