import OsEngineering.FailedCalls

/-! Which system calls wait for a sleep lock that they hold themselves: only a link() whose new
name stands in the parent directory for that directory itself. -/
namespace SelfDeadlock

open FaultState KernelParams DirectoryTree PathWalk InodeReferences SystemCalls FailedCalls

variable {s t u v : Fs} {i dp : ℕ} {L L' M tmp : List ℕ} {p : Fin NPROC} {α β : Type}

/-! The locks that code takes and gives back -/

def NoDeadlock (e : Fault) : Prop := ∀ i, e ≠ .deadlock i

theorem noDeadlock_panic (msg : String) : NoDeadlock (.panic msg) := nofun

/-- A run that does not wait for a lock of its own. -/
abbrev Safe (c : FsCode α) (Q : α → Fs → Prop) (s : Fs) : Prop := wp c Q NoDeadlock s

/-- From the locks in `L` to those in `L'`. -/
def Locks (L L' : List ℕ) (c : FsCode α) : Prop :=
  ∀ s, s.held = L → Safe c (fun _ t => t.held = L') s

theorem locks_pure (a : α) : Locks L L (pure a : FsCode α) := fun _ h => wp_pure h

theorem locks_panic (msg : String) : Locks L L' (panic msg : FsCode α) :=
  fun _ _ => wp_throw (noDeadlock_panic msg)

theorem locks_get : Locks L L (get : FsCode Fs) := fun s h => wp_of_run (get_run s) h

theorem locks_modify {f : Fs → Fs} (h : ∀ s, (f s).held = s.held) :
    Locks L L (modify f : FsCode PUnit) :=
  fun s hs => wp_of_run (modify_run f s) ((h s).trans hs)

theorem locks_bind {c : FsCode α} {f : α → FsCode β} (hc : Locks L M c)
    (hf : ∀ a, Locks M L' (f a)) : Locks L L' (c >>= f) := by
  intro s hs
  apply wp_bind
  refine wp_mono (hc s hs) ?_
  intro a t ht
  exact hf a t ht

theorem locks_ite {c d : FsCode α} {P : Prop} [Decidable P] (hc : P → Locks L L' c)
    (hd : ¬ P → Locks L L' d) : Locks L L' (if P then c else d) := by
  by_cases h : P
  · rw [if_pos h]
    exact hc h
  · rw [if_neg h]
    exact hd h

theorem acquiresleep_locks (hi : i ∉ L) : Locks L (i :: L) (acquiresleep i) := by
  rintro s rfl
  exact wp_of_run (acquiresleep_run hi) rfl

theorem releasesleep_locks (i : ℕ) : Locks L (L.erase i) (releasesleep i) := by
  rintro s rfl
  exact wp_of_run rfl rfl

theorem ilock_locks (hi : i ∉ L) : Locks L (i :: L) (ilock i) := by
  apply locks_bind locks_get
  intro s
  apply locks_ite
  · exact fun _ => locks_panic _
  · intro _
    apply locks_bind (acquiresleep_locks hi)
    intro _
    apply locks_ite
    · exact fun _ => locks_pure _
    · intro _
      refine locks_bind (locks_modify ?_) fun _ => ?_
      · exact fun _ => rfl
      · exact locks_ite (fun _ => locks_panic _) fun _ => locks_pure _

theorem iunlock_locks (i : ℕ) : Locks L (L.erase i) (iunlock i) := by
  apply locks_bind locks_get
  intro s
  exact locks_ite (fun _ => locks_panic _) fun _ => releasesleep_locks i

theorem iput_locks (hi : i ∉ L) : Locks L L (iput i) := by
  apply locks_bind (acquiresleep_locks hi)
  intro _
  apply locks_bind (locks_modify ?_)
  · intro _
    have hback : Locks (i :: L) ((i :: L).erase i) (releasesleep i) := releasesleep_locks i
    rw [List.erase_cons_head] at hback
    exact locks_bind hback fun _ => locks_modify fun _ => rfl
  · intro s
    split
    · rfl
    · rfl

theorem iunlockput_locks (hi : i ∉ L.erase i) : Locks L (L.erase i) (iunlockput i) :=
  locks_bind (iunlock_locks i) fun _ => iput_locks hi

/-- iunlockput() of what was locked last. -/
theorem iunlockput_last (hi : i ∉ L) : Locks (i :: L) L (iunlockput i) := by
  have h : Locks (i :: L) ((i :: L).erase i) (iunlockput i) :=
    iunlockput_locks (by rwa [List.erase_cons_head])
  rwa [List.erase_cons_head] at h

theorem leave_locks (i : ℕ) (r : α) : Locks [i] [] (do
    iunlockput i
    pure r) :=
  locks_bind (iunlockput_last List.not_mem_nil) fun _ => locks_pure r

theorem iget_locks (i : ℕ) : Locks L L (iget i) := by
  intro s hs
  by_cases hget : canGet s i
  · exact wp_of_run (iget_run hget) (by rwa [grab_held])
  · rw [Safe, wp, iget_full hget]
    exact noDeadlock_panic _

theorem idup_locks (i : ℕ) : Locks L L (idup i) := fun _ hs => wp_of_run rfl hs

theorem addNlink_locks (i : ℕ) (n : ℤ) : Locks L L (addNlink i n) := locks_modify fun _ => rfl

theorem dirlookup_locks (dp : ℕ) (name : Name) : Locks L L (dirlookup dp name) := by
  apply locks_bind locks_get
  intro s
  apply locks_ite
  · exact fun _ => locks_panic _
  · intro _
    split
    · exact locks_pure _
    · exact locks_bind (iget_locks _) fun _ => locks_pure _

theorem namexFrom_locks (par : Bool) (ip : ℕ) (names : List Name) :
    Locks [] [] (namexFrom par ip names) := by
  induction names generalizing ip with
  | nil =>
    apply locks_ite
    · exact fun _ => locks_bind (iput_locks List.not_mem_nil) fun _ => locks_pure _
    · exact fun _ => locks_pure _
  | cons name rest ih =>
    have hleave : Locks [ip] [] (iunlockput ip) := iunlockput_last List.not_mem_nil
    apply locks_bind (ilock_locks List.not_mem_nil)
    intro _
    apply locks_bind locks_get
    intro s
    apply locks_ite
    · exact fun _ => locks_bind hleave fun _ => locks_pure _
    · intro _
      apply locks_ite
      · intro _
        have hunlock : Locks [ip] ([ip].erase ip) (iunlock ip) := iunlock_locks ip
        rw [List.erase_cons_head] at hunlock
        exact locks_bind hunlock fun _ => locks_pure _
      · intro _
        apply locks_bind (dirlookup_locks ip name)
        intro r
        cases r with
        | none => exact locks_bind hleave fun _ => locks_pure _
        | some x => exact locks_bind hleave fun _ => ih x.1

theorem myproc_locks (p : Fin NPROC) : Locks L L (myproc p) := by
  intro s hs
  unfold Safe wp myproc
  cases s.procs p with
  | none => exact noDeadlock_panic _
  | some q => exact hs

theorem namex_locks (p : Fin NPROC) (path : Path) (par : Bool) :
    Locks [] [] (namex p path par) := by
  apply locks_bind (myproc_locks p)
  intro q
  apply locks_ite
  · exact fun _ => locks_bind (iget_locks _) fun ip => namexFrom_locks par ip _
  · exact fun _ => locks_bind (idup_locks _) fun ip => namexFrom_locks par ip _

theorem namei_locks (p : Fin NPROC) (path : Path) : Locks [] [] (namei p path) :=
  locks_bind (namex_locks p path false) fun _ => locks_pure _

/-! exec() and chdir() -/

theorem exec_locks (p : Fin NPROC) (path : Path) (loaded : Bool) :
    Locks [] [] (DirectoryTree.exec p path loaded) := by
  apply locks_bind (namei_locks p path)
  intro r
  cases r with
  | none => exact locks_pure _
  | some ip =>
    apply locks_bind (ilock_locks List.not_mem_nil)
    intro _
    exact leave_locks ip _

theorem chdir_locks (p : Fin NPROC) (path : Path) : Locks [] [] (sysChdir p path) := by
  apply locks_bind (namei_locks p path)
  intro r
  cases r with
  | none => exact locks_pure _
  | some ip =>
    apply locks_bind (ilock_locks List.not_mem_nil)
    intro _
    apply locks_bind locks_get
    intro s
    apply locks_ite
    · exact fun _ => leave_locks ip _
    · intro _
      have hunlock : Locks [ip] ([ip].erase ip) (iunlock ip) := iunlock_locks ip
      rw [List.erase_cons_head] at hunlock
      apply locks_bind hunlock
      intro _
      apply locks_bind (myproc_locks p)
      intro q
      apply locks_bind (iput_locks List.not_mem_nil)
      intro _
      exact locks_bind (locks_modify fun _ => rfl) fun _ => locks_pure _

/-! unlink() -/

theorem Safe.and {c : FsCode α} {Q Q' : α → Fs → Prop} (h : Safe c Q s) (hd : Does c Q' s) :
    Safe c (fun a t => Q a t ∧ Q' a t) s := by
  unfold Does Safe wp at *
  cases hrun : c s with
  | error e =>
    rw [hrun] at h
    exact h
  | ok x =>
    rw [hrun] at h hd
    exact ⟨h, hd⟩

/-- The locks of the code, with what is known of its result. -/
theorem Locks.does {c : FsCode α} {Q : α → Fs → Prop} (hc : Locks L L' c) (hs : s.held = L)
    (hd : Does c Q s) : Safe c Q s := wp_mono (Safe.and (hc s hs) hd) fun _ _ h => h.2

theorem Locks.ends {c : FsCode α} (hc : Locks L L' c) (hs : s.held = L) :
    Safe c (fun _ _ => True) s := wp_mono (hc s hs) fun _ _ _ => trivial

/-- A directory is in itself under its two first names only. -/
def SelfNames (s : Fs) : Prop := ∀ d name off, type s d = .dir →
  findEntry name (entries s d) 0 = some (d, off) → name = ['.'] ∨ name = ['.', '.']

/-- What unlink() does with the entry that it has found. -/
theorem unlink_tail_locks {off : ℕ} (hne : i ≠ dp) :
    Locks [dp] [] (do
      ilock i
      let s ← get
      if nlink s i < 1 then DirectoryTree.panic "unlink: nlink < 1"
      else if type s i = .dir ∧ isdirempty (entries s i) = false then do
        iunlockput i
        iunlockput dp
        pure (-1)
      else do
        modify fun s => setEntry s dp off ⟨0, [], 0⟩
        if type s i = .dir then addNlink dp (-1) else pure ()
        iunlockput dp
        addNlink i (-1)
        iunlockput i
        pure (0 : ℤ)) := by
  have hi : i ∉ [dp] := fun h => hne (List.mem_singleton.mp h)
  have hdp : [i, dp].erase dp = [i] := by
    rw [List.erase_cons_tail (by simpa using hne), List.erase_cons_head]
  have hput : Locks [i, dp] [i] (iunlockput dp) := by
    have h : Locks [i, dp] ([i, dp].erase dp) (iunlockput dp) := by
      apply iunlockput_locks
      rw [hdp]
      exact fun h => hne (List.mem_singleton.mp h).symm
    rwa [hdp] at h
  apply locks_bind (ilock_locks hi)
  intro _
  apply locks_bind locks_get
  intro s
  apply locks_ite
  · exact fun _ => locks_panic _
  · intro _
    apply locks_ite
    · exact fun _ => locks_bind (iunlockput_last hi) fun _ => leave_locks dp _
    · intro _
      have hrest : Locks [i, dp] [] (do
          iunlockput dp
          addNlink i (-1)
          iunlockput i
          pure (0 : ℤ)) :=
        locks_bind hput fun _ => locks_bind (addNlink_locks i _) fun _ => leave_locks i _
      refine locks_bind (locks_modify ?_) fun _ => ?_
      · exact fun _ => rfl
      · apply locks_ite
        · exact fun _ => locks_bind (addNlink_locks dp _) fun _ => hrest
        · exact fun _ => hrest

theorem unlink_safe (h : Mid [] [] s) (hself : SelfNames s) (path : Path) :
    Safe (sysUnlink p path) (fun _ _ => True) s := by
  apply wp_bind
  refine wp_mono ((namex_locks p path true).does h.held ((At.start h).namex path true)) ?_
  rintro r u ⟨hu, hwalk⟩
  cases r with
  | none => exact wp_pure trivial
  | some x =>
    obtain ⟨dp, name⟩ := x
    apply wp_bind
    refine wp_mono ((ilock_locks List.not_mem_nil).does hu.mid.held
      (hu.ilock List.mem_cons_self)) ?_
    rintro _ u ⟨hu, -⟩
    by_cases hdots : name = ['.'] ∨ name = ['.', '.']
    · rw [if_pos hdots]
      exact (leave_locks dp _).ends hu.mid.held
    · rw [if_neg hdots]
      apply wp_bind
      refine wp_mono ((dirlookup_locks dp name).does hu.mid.held
        (hu.dirlookup (fun j hj => hj) dp name)) ?_
      rintro r v ⟨hfound, hv⟩
      cases r with
      | none =>
        exact (leave_locks dp _).ends hv.mid.held
      | some y =>
        obtain ⟨i, off⟩ := y
        have hne : i ≠ dp := by
          rintro rfl
          exact hdots (hself i name off ((walk_ok hwalk).2 rfl) hfound)
        exact (unlink_tail_locks hne).ends hv.mid.held

/-! open(), mkdir() and mknod() -/

/-- dirlink() of a name that the directory does not have. -/
theorem dirlink_new {name : Name} (inum : ℕ) (hnone : findEntry name (entries u dp) 0 = none) :
    Safe (dirlink dp name inum)
      (fun _ v => v = setEntry u dp (findEmpty (entries u dp) 0) ⟨inum, name, u.births inum⟩) u := by
  by_cases hdir : type u dp = .dir
  · refine wp_bind_run (dirlookup_none hdir hnone) (wp_bind_run (get_run u) ?_)
    dsimp only
    by_cases hfull : MAXDIRENTS ≤ findEmpty (entries u dp) 0
    · rw [if_pos hfull]
      exact noDeadlock_panic _
    · rw [if_neg hfull]
      exact wp_bind_run (modify_run _ _) (wp_pure rfl)
  · have hrun : dirlookup dp name u = .error (.panic "dirlookup not DIR") := by
      rw [DirectoryTree.dirlookup, run_bind (get_run u), if_pos hdir]
      rfl
    rw [Safe, wp, dirlink, bind_run, hrun]
    exact noDeadlock_panic _

theorem createEntries_safe {t : FileType} {name : Name} (hne : i ≠ dp) (hi : entries u i = [])
    (hnone : findEntry name (entries u dp) 0 = none) :
    Safe (createEntries t dp name i) (fun _ v => v.held = u.held) u := by
  have hlast : ∀ {v}, v.held = u.held → findEntry name (entries v dp) 0 = none →
      Safe (do
        let ok ← dirlink dp name i
        if ok then pure () else DirectoryTree.panic "create: dirlink")
        (fun _ w => w.held = u.held) v := by
    intro v hheld hfind
    apply wp_bind
    refine wp_mono (dirlink_new i hfind) ?_
    rintro ok w rfl
    cases ok with
    | false => exact noDeadlock_panic _
    | true => exact hheld
  by_cases ht : t = .dir
  · rw [createEntries, if_pos ht]
    have hfirst : entries (withNlink u dp (1 : ℤ)) i = [] := by
      rw [entries_withNlink, hi]
    have hdot : findEntry ['.'] (entries (withNlink u dp 1) i) 0 = none := by
      rw [hfirst]
      rfl
    refine wp_bind_run (addNlink_run u dp 1) ?_
    apply wp_bind
    refine wp_mono (dirlink_new i hdot) ?_
    rintro dot v hv
    cases dot with
    | false => exact noDeadlock_panic _
    | true =>
      have hself : entries v i = [⟨i, ['.'], (withNlink u dp 1).births i⟩] := by
        rw [hv, entries_setEntry_self, hfirst]
        rfl
      have hdots : findEntry ['.', '.'] (entries v i) 0 = none := by
        rw [hself, findEntry]
        split
        · rfl
        · rfl
      apply wp_bind
      refine wp_mono (dirlink_new dp hdots) ?_
      rintro dotdot w hw
      cases dotdot with
      | false => exact noDeadlock_panic _
      | true =>
        have hkept : entries w dp = entries u dp := by
          rw [hw, entries_setEntry_ne _ _ hne.symm, hv, entries_setEntry_ne _ _ hne.symm,
            entries_withNlink]
        apply hlast
        · rw [hw, hv]
          rfl
        · rw [hkept]
          exact hnone
  · rw [createEntries, if_neg ht]
    exact hlast rfl hnone

theorem create_safe {ninodes : ℕ} {t : FileType} {major minor : BitVec 16} (h : Mid [] [] s)
    (ht : t ≠ .free) (path : Path) :
    Safe (create ninodes p path t major minor) (fun r v => v.held = r.toList) s := by
  apply wp_bind
  refine wp_mono ((namex_locks p path true).does h.held ((At.start h).namex path true)) ?_
  rintro r u ⟨hu, hwalk⟩
  cases r with
  | none => exact wp_pure hu.mid.held
  | some x =>
    obtain ⟨dp, name⟩ := x
    have hdir := (walk_ok hwalk).2 rfl
    apply wp_bind
    refine wp_mono ((ilock_locks List.not_mem_nil).does hu.mid.held
      (hu.ilock List.mem_cons_self)) ?_
    rintro _ u ⟨hu, -⟩
    apply wp_bind
    refine wp_mono ((dirlookup_locks dp name).does hu.mid.held
      (hu.dirlookup (fun j hj => hj) dp name)) ?_
    rintro r v ⟨hfound, hv⟩
    cases r with
    | some y =>
      obtain ⟨i, off⟩ := y
      apply wp_bind
      refine wp_mono (iunlockput_last List.not_mem_nil v hv.mid.held) ?_
      rintro - w hw
      apply wp_bind
      refine wp_mono (ilock_locks List.not_mem_nil w hw) ?_
      rintro - x hx
      apply wp_bind_run (get_run x)
      by_cases hfile : t = .file ∧ type x i = .file
      · rw [if_pos hfile]
        exact wp_pure hx
      · rw [if_neg hfile]
        apply wp_bind
        refine wp_mono (iunlockput_last List.not_mem_nil x hx) ?_
        rintro - y hy
        exact wp_pure hy
    | none =>
      apply ialloc_wp noDeadlock_panic hv hdir ht
      intro i w hfree hne hw
      have hempty : entries w i = [] := by
        rw [hw.tree.entries_eq]
        exact entries_setDinode_self _ _ _
      have hnone : findEntry name (entries w dp) 0 = none := by
        rw [hw.tree.entries_eq]
        have hsame : entries (made s i ⟨t, major, minor, 1, []⟩) dp = entries s dp :=
          entries_setDinode_ne _ hne.symm
        rw [hsame]
        exact hfound
      apply wp_bind
      refine wp_mono (createEntries_safe hne hempty hnone) ?_
      rintro - x hx
      have hlocked : x.held = [i, dp] := hx.trans hw.mid.held
      have herase : [i, dp].erase dp = [i] := by
        rw [List.erase_cons_tail (by simpa using hne), List.erase_cons_head]
      have hput : Locks [i, dp] ([i, dp].erase dp) (iunlockput dp) := by
        apply iunlockput_locks
        rw [herase]
        exact fun hmem => hne (List.mem_singleton.mp hmem).symm
      rw [herase] at hput
      apply wp_bind
      refine wp_mono (hput x hlocked) ?_
      rintro - y hy
      exact wp_pure hy

theorem createOnly_safe {ninodes : ℕ} {t : FileType} {major minor : BitVec 16} (h : Mid [] [] s)
    (ht : t ≠ .free) (path : Path) :
    Safe (do
      match ← create ninodes p path t major minor with
      | none => pure (-1)
      | some ip => do
        iunlockput ip
        pure (0 : ℤ)) (fun _ _ => True) s := by
  apply wp_bind
  refine wp_mono (create_safe h ht path) ?_
  intro r u hu
  cases r with
  | none => exact wp_pure trivial
  | some i => exact (leave_locks i 0).ends hu

theorem fdalloc_locks (p : Fin NPROC) (f : Fin NFILE) : Locks L L (fdalloc p f) := by
  apply locks_bind (myproc_locks p)
  intro q
  split
  · exact locks_pure _
  · refine locks_bind (locks_modify ?_) fun _ => locks_pure _
    exact fun _ => rfl

theorem openFile_safe (hidle : ∀ f, (u.files f).ref = 0 → (u.files f).ip = none)
    (hheld : u.held = [i]) : Safe (openFile p i) (fun _ _ => True) u := by
  by_cases hfull : ∀ f, (u.files f).ref ≠ 0
  · exact wp_bind_run (filealloc_none hfull) ((leave_locks i _).ends hheld)
  · obtain ⟨f, hzero, hrun⟩ := filealloc_some hfull
    have hip := hidle f hzero
    have hold : u.files f = ⟨0, none⟩ := by
      cases hf : u.files f with
      | mk ref ip =>
        rw [hf] at hzero hip
        cases hzero
        cases hip
        rfl
    rw [hip] at hrun
    refine wp_bind_run hrun ?_
    cases hq : u.procs p with
    | none =>
      have hq' : (withFile u f ⟨1, none⟩).procs p = none := hq
      have hmy : myproc p (withFile u f ⟨1, none⟩) = .error (.panic "no process") := by
        unfold myproc
        rw [hq']
      have hfd : fdalloc p f (withFile u f ⟨1, none⟩) = .error (.panic "no process") := by
        rw [fdalloc, bind_run, hmy]
      dsimp only
      rw [wp, bind_run, hfd]
      exact noDeadlock_panic _
    | some q =>
      have hq' : (withFile u f ⟨1, none⟩).procs p = some q := hq
      by_cases hfds : ∀ fd, q.ofile fd ≠ none
      · exact wp_bind_run (fdalloc_none hq' hfds f)
          (wp_bind_run (fileclose_fresh hold) ((leave_locks i _).ends hheld))
      · obtain ⟨fd, v, hfd⟩ := fdalloc_some hq' hfds f
        have hlocks : Safe (fdalloc p f) (fun _ w => w.held = [i]) (withFile u f ⟨1, none⟩) :=
          fdalloc_locks p f _ hheld
        have hlocked := wp_ok hlocks hfd
        refine wp_bind_run hfd ?_
        have hrest : Locks [i] [] (do
            iunlock i
            setFile f ⟨1, some i⟩
            pure (fd.val : ℤ)) := by
          have hunlock : Locks [i] ([i].erase i) (iunlock i) := iunlock_locks i
          rw [List.erase_cons_head] at hunlock
          refine locks_bind hunlock fun _ => locks_bind (locks_modify ?_) fun _ => locks_pure _
          exact fun _ => rfl
        exact hrest.ends hlocked

theorem open_safe {ninodes : ℕ} (h : Mid [] [] s) (path : Path) (omode : BitVec 32) :
    Safe (sysOpen ninodes p path omode) (fun _ _ => True) s := by
  rw [sysOpen]
  by_cases hcreate : omode &&& O_CREATE ≠ 0
  · rw [if_pos hcreate]
    apply wp_bind
    refine wp_mono (Safe.and (create_safe h (by decide) path) (create_does h (by decide))) ?_
    rintro r u ⟨hheld, hmade⟩
    cases r with
    | none => exact wp_pure trivial
    | some i =>
      refine openFile_safe ?_ hheld
      by_cases hnew : Creates s p path
      · obtain ⟨b, -, -, -, -, hb⟩ := hmade.makes i rfl hnew rfl
        exact hb.mid.idle
      · exact (hmade.finds i rfl hnew).mid.idle
  · rw [if_neg hcreate]
    apply wp_bind
    refine wp_mono ((namei_locks p path).does h.held (namei_does h path)) ?_
    intro r u hu
    cases r with
    | none => exact wp_pure trivial
    | some i =>
      apply wp_bind
      refine wp_mono ((ilock_locks List.not_mem_nil).does hu.mid.held
        (hu.ilock List.mem_cons_self)) ?_
      rintro _ u ⟨hu, -⟩
      apply wp_bind_run (get_run u)
      by_cases hdir : type u i = .dir ∧ omode ≠ 0
      · rw [if_pos hdir]
        exact (leave_locks i _).ends hu.mid.held
      · rw [if_neg hdir]
        exact openFile_safe hu.mid.idle hu.mid.held

/-! link() -/

/-- The new name of a link() of a file stands, in its parent directory, for that directory. -/
def LinksIntoItself (s : Fs) (p : Fin NPROC) : Call → Prop
  | .link old new => ∃ i name dp last off,
      walk s p old false = .ok (some (i, name)) ∧ type s i ≠ .dir ∧ type s i ≠ .free ∧
        walk (grab s i) p new true = .ok (some (dp, last)) ∧
        findEntry last (entries s dp) 0 = some (dp, off)
  | _ => False

/-- The end of sys_link() from dirlink() on. -/
def linkEnd (i dp : ℕ) (name : Name) : FsCode ℤ := do
  let ok ← dirlink dp name i
  iunlockput dp
  if ok then do
    iput i
    pure 0
  else do
    ilock i
    addNlink i (-1)
    iunlockput i
    pure (-1)

theorem linkEnd_locks_tail (i dp : ℕ) (ok : Bool) : Locks [dp] [] (do
    iunlockput dp
    if ok then do
      iput i
      pure 0
    else do
      ilock i
      addNlink i (-1)
      iunlockput i
      pure (-1 : ℤ)) := by
  apply locks_bind (iunlockput_last List.not_mem_nil)
  intro _
  apply locks_ite
  · exact fun _ => locks_bind (iput_locks List.not_mem_nil) fun _ => locks_pure _
  · intro _
    refine locks_bind (ilock_locks List.not_mem_nil) fun _ => ?_
    exact locks_bind (addNlink_locks i _) fun _ => leave_locks i _

/-- dirlink() puts what it finds while the directory is locked. -/
theorem linkEnd_deadlocks {name : Name} {off : ℕ} (i : ℕ) (hdir : type u dp = .dir)
    (hfound : findEntry name (entries u dp) 0 = some (dp, off)) (hpos : 0 < u.ref dp)
    (hheld : dp ∈ u.held) : linkEnd i dp name u = .error (.deadlock dp) := by
  have hget : canGet u dp := Or.inl hpos
  have hput : iput dp (grab u dp) = .error (.deadlock dp) := by
    apply iput_deadlock
    rwa [grab_held]
  have hlink : dirlink dp name i u = .error (.deadlock dp) := by
    rw [dirlink, run_bind (dirlookup_some hdir hfound hget)]
    dsimp only
    rw [bind_run, hput]
  rw [linkEnd, bind_run, hlink]

theorem dirlink_other {name : Name} (i : ℕ) (hheld : u.held = [dp])
    (hother : ∀ off, findEntry name (entries u dp) 0 ≠ some (dp, off)) :
    Safe (dirlink dp name i) (fun _ v => v.held = [dp]) u := by
  cases hf : findEntry name (entries u dp) 0 with
  | none =>
    refine wp_mono (dirlink_new i hf) ?_
    rintro ok v rfl
    exact hheld
  | some x =>
    obtain ⟨j, off⟩ := x
    have hne : j ∉ [dp] := by
      rintro hj
      rw [List.mem_singleton.mp hj] at hf
      exact hother off hf
    have hlook : Does (dirlookup dp name) (fun r _ => r = some (j, off)) u := by
      apply does_of_ok
      intro r v hrun
      by_cases hdir : type u dp = .dir
      · by_cases hget : canGet u j
        · rw [dirlookup_some hdir hf hget] at hrun
          cases hrun
          rfl
        · rw [dirlookup_full hdir hf hget] at hrun
          cases hrun
      · rw [DirectoryTree.dirlookup, run_bind (get_run u), if_pos hdir] at hrun
        cases hrun
    apply wp_bind
    refine wp_mono (Safe.and (dirlookup_locks dp name u hheld) hlook) ?_
    rintro r v ⟨hv, rfl⟩
    exact locks_bind (iput_locks hne) (fun _ => locks_pure false) v hv

theorem linkEnd_safe {name : Name} (i : ℕ) (hheld : u.held = [dp])
    (hother : ∀ off, findEntry name (entries u dp) 0 ≠ some (dp, off)) :
    Safe (linkEnd i dp name) (fun _ _ => True) u := by
  apply wp_bind
  refine wp_mono (dirlink_other i hheld hother) ?_
  intro ok v hv
  exact (linkEnd_locks_tail i dp ok).ends hv

/-- From the lookup of the new name on. -/
def linkNew (p : Fin NPROC) (i : ℕ) (new : Path) : FsCode ℤ := do
  match ← nameiparent p new with
  | none => do
    ilock i
    addNlink i (-1)
    iunlockput i
    pure (-1)
  | some (dp, name) => do
    ilock dp
    linkEnd i dp name

theorem sysLink_eq (p : Fin NPROC) (old new : Path) : sysLink p old new = (do
    match ← namei p old with
    | none => pure (-1)
    | some i => do
      ilock i
      let s ← get
      if type s i = .dir then do
        iunlockput i
        pure (-1)
      else do
        addNlink i 1
        iunlock i
        linkNew p i new) := rfl

/-- After the link count of the file has gone up. -/
def counted (s : Fs) (i : ℕ) : Fs := unlock (withNlink (lock s i) i 1) i

theorem Safe.no_deadlock {c : FsCode α} {Q : α → Fs → Prop} (h : Safe c Q s) (j : ℕ) :
    c s ≠ .error (.deadlock j) := fun hrun => wp_error h hrun j rfl

/-- How a lookup outside of all locks ends. -/
inductive Looked (s : Fs) (p : Fin NPROC) (path : Path) (par : Bool) (tmp : List ℕ) :
    Except Fault (Option (ℕ × Name) × Fs) → Prop where
  | fails {e : Fault} (he : NoDeadlock e) (hwalk : walk s p path par = .error e) :
      Looked s p path par tmp (.error e)
  | missing {t : Fs} (hwalk : walk s p path par = .ok none) (hmid : Mid tmp [] t) :
      Looked s p path par tmp (.ok (none, t))
  | found {i : ℕ} {name : Name} {t : Fs} (hwalk : walk s p path par = .ok (some (i, name)))
      (halike : Alike (grab s i) t) (hmid : Mid (i :: tmp) [] t) :
      Looked s p path par tmp (.ok (some (i, name), t))

theorem namex_looked (h : Mid tmp [] s) (path : Path) (par : Bool) :
    Looked s p path par tmp (namex p path par s) := by
  have hrun := h.namex_wp path par (p := p)
  unfold wp at hrun
  cases hc : namex p path par s with
  | error e =>
    rw [hc] at hrun
    exact .fails (walk_error hrun).1 hrun
  | ok x =>
    obtain ⟨r, t⟩ := x
    rw [hc] at hrun
    obtain ⟨hwalk, halike, hmid⟩ := hrun
    cases r with
    | none => exact .missing hwalk hmid
    | some y => exact .found hwalk halike hmid

theorem linkNew_iff (h : Mid [i] [] u) (new : Path) :
    (∀ j, linkNew p i new u ≠ .error (.deadlock j)) ↔ ¬ ∃ dp last off,
      walk u p new true = .ok (some (dp, last)) ∧
        findEntry last (entries u dp) 0 = some (dp, off) := by
  have hlooked := namex_looked (p := p) h new true
  unfold linkNew nameiparent
  cases hc : namex p new true u with
  | error e =>
    rw [hc] at hlooked
    cases hlooked with
    | fails he hwalk =>
      refine iff_of_true (fun j hj => ?_) ?_
      · rw [bind_run, hc] at hj
        cases hj
        exact he j rfl
      · rintro ⟨dp, last, off, hw, -⟩
        rw [hwalk] at hw
        cases hw
  | ok x =>
    rw [hc] at hlooked
    cases hlooked with
    | missing hwalk hmid =>
      refine iff_of_true (fun j => ?_) ?_
      · rw [run_bind hc]
        have hfail : Locks [] [] (do
            ilock i
            addNlink i (-1)
            iunlockput i
            pure (-1 : ℤ)) :=
          locks_bind (ilock_locks List.not_mem_nil) fun _ =>
            locks_bind (addNlink_locks i _) fun _ => leave_locks i _
        exact Safe.no_deadlock (hfail.ends hmid.held) j
      · rintro ⟨dp, last, off, hw, -⟩
        rw [hwalk] at hw
        cases hw
    | found hwalk halike hmid =>
      rename_i dp last v
      have hdir : type v dp = .dir := by
        rw [halike.type_eq, type_grab]
        exact (walk_ok hwalk).2 rfl
      have hfree : type v dp ≠ .free := by
        rw [hdir]
        decide
      have hent : entries v dp = entries u dp := by rw [halike.entries_eq, entries_grab]
      have hlocked := hmid.lock hfree
      rw [run_bind hc]
      dsimp only
      rw [run_bind (hmid.ilock_run List.mem_cons_self List.not_mem_nil hfree)]
      by_cases hself : ∃ off, findEntry last (entries u dp) 0 = some (dp, off)
      · obtain ⟨off, hoff⟩ := hself
        refine iff_of_false (fun hno => hno dp ?_) (not_not.mpr ⟨dp, last, off, hwalk, hoff⟩)
        have hfound : findEntry last (entries (lock v dp) dp) 0 = some (dp, off) := by
          change findEntry last (entries v dp) 0 = some (dp, off)
          rw [hent]
          exact hoff
        refine linkEnd_deadlocks i hdir hfound (hlocked.ref_pos List.mem_cons_self) ?_
        rw [hlocked.held]
        exact List.mem_cons_self
      · refine iff_of_true (fun j => ?_) ?_
        · apply Safe.no_deadlock (linkEnd_safe i hlocked.held ?_)
          intro off hoff
          change findEntry last (entries v dp) 0 = some (dp, off) at hoff
          rw [hent] at hoff
          exact hself ⟨off, hoff⟩
        · rintro ⟨dp', last', off, hw, hoff⟩
          rw [hwalk] at hw
          cases hw
          exact hself ⟨off, hoff⟩

theorem counted_mid (h : Mid [i] [] u) (ht : type u i ≠ .free) : Mid [i] [] (counted u i) := by
  have hup := mid_withNlink (h.lock ht) List.mem_cons_self List.mem_cons_self ht 1
  have hopen := hup.unlock i
  rwa [List.erase_cons_head] at hopen

theorem counted_walk (u : Fs) (i : ℕ) (path : Path) (par : Bool) :
    walk (counted u i) p path par = walk u p path par :=
  walk_congr (s := u) (t := counted u i) (fun j => type_withNlink (lock u i) i 1 j)
    (fun j => entries_withNlink (lock u i) i 1 j) rfl rfl rfl p path par

/-- sys_link() once the file is found. -/
def linkFound (p : Fin NPROC) (i : ℕ) (new : Path) : FsCode ℤ := do
  ilock i
  let s ← get
  if type s i = .dir then do
    iunlockput i
    pure (-1)
  else do
    addNlink i 1
    iunlock i
    linkNew p i new

theorem linkFound_iff (h : Mid [i] [] u) (new : Path) :
    (∀ j, linkFound p i new u ≠ .error (.deadlock j)) ↔ ¬ ∃ dp last off,
      type u i ≠ .dir ∧ type u i ≠ .free ∧ walk u p new true = .ok (some (dp, last)) ∧
        findEntry last (entries u dp) 0 = some (dp, off) := by
  unfold linkFound
  by_cases hfree : type u i = .free
  · have hpanic := h.ilock_no_type List.mem_cons_self List.not_mem_nil hfree
    refine iff_of_true (fun j hj => ?_) ?_
    · rw [bind_run, hpanic] at hj
      cases hj
    · rintro ⟨dp, last, off, -, hne, -⟩
      exact hne hfree
  · rw [run_bind (h.ilock_run List.mem_cons_self List.not_mem_nil hfree), run_bind (get_run _)]
    have hlocked := h.lock hfree
    by_cases hdir : type u i = .dir
    · have hsame : type (lock u i) i = .dir := hdir
      rw [if_pos hsame]
      refine iff_of_true ((leave_locks i (-1)).ends hlocked.held).no_deadlock ?_
      rintro ⟨dp, last, off, hne, -⟩
      exact hne hdir
    · have hup := mid_withNlink hlocked List.mem_cons_self List.mem_cons_self hfree 1
      have hsame : ¬ type (lock u i) i = .dir := hdir
      rw [if_neg hsame, run_bind (addNlink_run _ i 1),
        run_bind (hup.iunlock_run List.mem_cons_self List.mem_cons_self)]
      have hiff := linkNew_iff (p := p) (counted_mid h hfree) new
      simp only [counted_walk] at hiff
      have hent : ∀ dp, entries (counted u i) dp = entries u dp :=
        fun dp => entries_withNlink (lock u i) i 1 dp
      simp only [hent] at hiff
      refine hiff.trans (not_congr ?_)
      constructor
      · rintro ⟨dp, last, off, hw, hoff⟩
        exact ⟨dp, last, off, hdir, hfree, hw, hoff⟩
      · rintro ⟨dp, last, off, -, -, hw, hoff⟩
        exact ⟨dp, last, off, hw, hoff⟩

theorem link_iff (h : Mid [] [] s) (old new : Path) :
    (∀ j, sysLink p old new s ≠ .error (.deadlock j)) ↔ ¬ LinksIntoItself s p (.link old new) := by
  have hlooked := namex_looked (p := p) h old false
  have hlink : sysLink p old new = (do
      let r ← namex p old false
      match r.map Prod.fst with
      | none => pure (-1)
      | some i => linkFound p i new) := by
    rw [sysLink_eq, namei, bind_assoc]
    rfl
  rw [hlink]
  cases hc : namex p old false s with
  | error e =>
    rw [hc] at hlooked
    cases hlooked with
    | fails he hwalk =>
      refine iff_of_true (fun j hj => ?_) ?_
      · rw [bind_run, hc] at hj
        cases hj
        exact he j rfl
      · rintro ⟨i, name, dp, last, off, hw, -⟩
        rw [hwalk] at hw
        cases hw
  | ok x =>
    rw [hc] at hlooked
    rw [run_bind hc]
    cases hlooked with
    | missing hwalk hmid =>
      refine iff_of_true (fun j hj => ?_) ?_
      · cases hj
      · rintro ⟨i, name, dp, last, off, hw, -⟩
        rw [hwalk] at hw
        cases hw
    | found hwalk halike hmid =>
      rename_i i name u
      refine (linkFound_iff hmid new).trans (not_congr ?_)
      have hwalk' : walk u p new true = walk (grab s i) p new true :=
        walk_congr halike.type_eq halike.entries_eq halike.ref halike.inuse halike.procs p new true
      have hent : ∀ dp, entries u dp = entries s dp := by
        intro dp
        rw [halike.entries_eq, entries_grab]
      rw [hwalk', halike.type_eq, type_grab]
      constructor
      · rintro ⟨dp, last, off, hdir, hfree, hw, hoff⟩
        rw [hent] at hoff
        exact ⟨i, name, dp, last, off, hwalk, hdir, hfree, hw, hoff⟩
      · rintro ⟨i', name', dp, last, off, hi, hdir, hfree, hw, hoff⟩
        rw [hwalk] at hi
        cases hi
        refine ⟨dp, last, off, hdir, hfree, hw, ?_⟩
        rw [hent]
        exact hoff

/-! The calls -/

/-- The calls that look up a path. -/
def Looks : Call → Prop
  | .open _ _ | .link _ _ | .unlink _ | .mkdir _ | .mknod _ _ _ | .chdir _ | .exec _ _ => True
  | _ => False

/-- Of the calls that look up a path, only a link() into itself waits for a sleep lock that it
holds. -/
theorem self_deadlock_iff {ninodes : ℕ} {c : Call} (h : Mid [] [] s) (hself : SelfNames s)
    (hc : Looks c) :
    (∀ j, c.run ninodes p s ≠ .error (.deadlock j)) ↔ ¬ LinksIntoItself s p c := by
  cases c with
  | link old new => exact link_iff h old new
  | «open» path omode => exact iff_of_true (open_safe h path omode).no_deadlock id
  | unlink path => exact iff_of_true (unlink_safe h hself path).no_deadlock id
  | mkdir path => exact iff_of_true (createOnly_safe h (by decide) path).no_deadlock id
  | mknod path major minor => exact iff_of_true (createOnly_safe h (by decide) path).no_deadlock id
  | chdir path => exact iff_of_true ((chdir_locks p path).ends h.held).no_deadlock id
  | exec path loaded => exact iff_of_true ((exec_locks p path loaded).ends h.held).no_deadlock id
  | close => cases hc
  | dup => cases hc
  | pipe => cases hc
  | use => cases hc
  | exit => cases hc
  | fork => cases hc

/-- The root with one file. -/
def rootWithFile : ℕ → Dinode := fun i =>
  if i = ROOTINO then
    ⟨.dir, 0, 0, 1, [⟨ROOTINO, ['.'], 0⟩, ⟨ROOTINO, ['.', '.'], 0⟩, ⟨2, ['f'], 0⟩]⟩
  else if i = 2 then ⟨.file, 0, 0, 1, []⟩
  else ⟨.free, 0, 0, 0, []⟩

def small : Fs := (InodeCounts.booted rootWithFile).fs

theorem small_mid : Mid [] [] small where
  refs := (InodeCounts.booted_owes rootWithFile).refs
  valid := nofun
  orphans := by
    intro i htype hlink
    change (rootWithFile i).type ≠ .free at htype
    change (rootWithFile i).nlink = 0 at hlink
    unfold rootWithFile at htype hlink
    split at hlink
    · cases hlink
    · next hroot =>
      rw [if_neg hroot] at htype
      split at hlink
      · cases hlink
      · next htwo =>
        rw [if_neg htwo] at htype
        exact absurd rfl htype
  idle := fun _ _ => rfl
  held := rfl
  locked := nofun

theorem small_selfNames : SelfNames small := by
  intro d name off hdir hfound
  have hroot : d = ROOTINO := by
    by_contra hne
    change (rootWithFile d).type = .dir at hdir
    unfold rootWithFile at hdir
    rw [if_neg hne] at hdir
    split at hdir
    · cases hdir
    · cases hdir
  subst hroot
  change findEntry name [⟨ROOTINO, ['.'], 0⟩, ⟨ROOTINO, ['.', '.'], 0⟩, ⟨2, ['f'], 0⟩] 0 = _ at hfound
  by_cases hdot : name = ['.']
  · exact Or.inl hdot
  by_cases hdots : name = ['.', '.']
  · exact Or.inr hdots
  have hrest : findEntry name [⟨2, ['f'], 0⟩] 2 = some (ROOTINO, off) := by
    rw [findEntry, if_neg (by decide), if_neg hdot, findEntry, if_neg (by decide),
      if_neg hdots] at hfound
    exact hfound
  by_cases hf : name = ['f']
  · rw [findEntry, if_neg (by decide), if_pos hf] at hrest
    cases hrest
  · rw [findEntry, if_neg (by decide), if_neg hf] at hrest
    cases hrest

def faultOf : Except Fault (ℤ × Fs) → Option Fault
  | .error e => some e
  | .ok _ => none

theorem eq_error {r : Except Fault (ℤ × Fs)} {e : Fault} (h : faultOf r = some e) :
    r = .error e := by
  cases r with
  | error e' => rw [Option.some.inj h]
  | ok x => cases h

theorem self_deadlock_iff_small :
    (∀ j, (Call.link ['f'] ['g']).run 4 initproc small ≠ .error (.deadlock j)) ↔
      ¬ LinksIntoItself small initproc (.link ['f'] ['g']) :=
  self_deadlock_iff small_mid small_selfNames trivial

/-- link("f", "/.") waits for the lock of the root, which it holds. -/
theorem link_waits_for_itself : Mid [] [] small ∧ SelfNames small ∧
    (Call.link ['f'] ['/', '.']).run 4 initproc small = .error (.deadlock ROOTINO) :=
  ⟨small_mid, small_selfNames, eq_error (by decide +kernel)⟩

end SelfDeadlock
