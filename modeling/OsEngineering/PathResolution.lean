import OsEngineering.PathWalk
import Mathlib.Data.List.TakeWhile

/-! What skipelem() makes of a path, and which inode namei() and nameiparent() come to. -/
namespace PathResolution

open FaultState KernelParams DirectoryTree PathWalk

/-! The components of a path -/

/-- What stands between the slashes, without what is empty, and cut. -/
def components (path : Path) : List Name :=
  ((path.splitOn '/').filter (· ≠ [])).map (List.take DIRSIZ)

/-- The names that repeated calls of skipelem() yield until it returns 0. -/
inductive Yields : Path → List Name → Prop where
  | stop {path} : skipelem path = none → Yields path []
  | next {path name rest names} : skipelem path = some (name, rest) → Yields rest names →
      Yields path (name :: names)

variable {path rest : Path} {name : Name} {names : List Name}

theorem components_slash (path : Path) : components ('/' :: path) = components path := by
  rw [components, List.splitOn_cons_eq_if_modifyHead, if_pos (by rfl), List.filter_cons_of_neg
    (by decide)]
  rfl

theorem components_slashes (path : Path) :
    components (path.dropWhile (· = '/')) = components path := by
  induction path with
  | nil => rfl
  | cons c path ih =>
    by_cases hc : c = '/'
    · subst hc
      rw [List.dropWhile_cons_of_pos (by decide), ih, components_slash]
    · rw [List.dropWhile_cons_of_neg (by simpa using hc)]

/-- A word, up to a slash or the end. -/
theorem components_word {w : Path} (hw : w ≠ []) (hchars : '/' ∉ w)
    (hrest : rest = [] ∨ rest.head? = some '/') :
    components (w ++ rest) = w.take DIRSIZ :: components rest := by
  obtain rfl | hslash := hrest
  · rw [List.append_nil, components, List.splitOn_eq_singleton hchars,
      List.filter_cons_of_pos (by simpa using hw)]
    rfl
  · obtain ⟨as, rfl⟩ := List.head?_eq_some_iff.mp hslash
    rw [components_slash, components, List.splitOn_append_cons_self,
      List.splitOn_eq_singleton hchars, List.singleton_append,
      List.filter_cons_of_pos (by simpa using hw)]
    rfl

theorem components_none (h : skipelem path = none) : components path = [] := by
  unfold skipelem at h
  dsimp only at h
  split at h
  next hs =>
    rw [← components_slashes, hs]
    rfl
  next => cases h

/-- What is left after leading slashes does not begin with one. -/
theorem head_slashes (path : Path) : (path.dropWhile (· = '/')).head? ≠ some '/' := by
  intro h
  have hne : path.dropWhile (· = '/') ≠ [] := by
    intro hnil
    rw [hnil] at h
    cases h
  have hnot := List.head_dropWhile_not (fun c => decide (c = '/')) hne
  rw [List.head?_eq_some_head hne, Option.some.injEq] at h
  rw [h] at hnot
  exact absurd hnot (by decide)

theorem components_some (h : skipelem path = some (name, rest)) :
    components path = name :: components rest := by
  unfold skipelem at h
  dsimp only at h
  split at h
  next => cases h
  next hs =>
    cases h
    have hhead := head_slashes path
    rw [components_slashes, ← components_slashes path]
    generalize path.dropWhile (· = '/') = s at hs hhead
    have hw : s.takeWhile (· ≠ '/') ≠ [] := by
      cases s with
      | nil => exact absurd rfl hs
      | cons c s =>
        have hc : c ≠ '/' := fun hc => hhead (congrArg some hc)
        rw [List.takeWhile_cons_of_pos (by simpa using hc)]
        exact List.cons_ne_nil _ _
    have hchars : '/' ∉ s.takeWhile (· ≠ '/') := by
      intro hmem
      have := List.mem_takeWhile_imp hmem
      exact absurd this (by decide)
    have hend : s.dropWhile (· ≠ '/') = [] ∨ (s.dropWhile (· ≠ '/')).head? = some '/' := by
      by_cases hnil : s.dropWhile (· ≠ '/') = []
      · exact Or.inl hnil
      · right
        have hnot := List.head_dropWhile_not (fun c => decide (c ≠ '/')) hnil
        rw [List.head?_eq_some_head hnil]
        simpa using hnot
    have hword := components_word hw hchars hend
    rwa [List.takeWhile_append_dropWhile] at hword

/-- Repeated skipelem() yields the components, and no other list. -/
theorem yields_iff (path : Path) (names : List Name) :
    Yields path names ↔ names = components path := by
  constructor
  · intro h
    induction h with
    | stop hs => exact (components_none hs).symm
    | next hs _ ih => rw [components_some hs, ih]
  · rintro rfl
    -- each call leaves a shorter path
    generalize hn : path.length = n
    induction n using Nat.strongRecOn generalizing path with
    | ind n ih =>
      cases hs : skipelem path with
      | none =>
        rw [components_none hs]
        exact .stop hs
      | some x =>
        obtain ⟨name, rest⟩ := x
        have hlt := length_skipelem hs
        rw [components_some hs]
        exact .next hs (ih rest.length (by omega) rest rfl)

/-- The names that the loop of namex() goes through. -/
theorem elements_eq (path : Path) : elements path = components path := by
  rw [← yields_iff]
  generalize hn : path.length = n
  induction n using Nat.strongRecOn generalizing path with
  | ind n ih =>
    rw [elements_skipelem]
    cases hs : skipelem path with
    | none => exact .stop hs
    | some x =>
      obtain ⟨name, rest⟩ := x
      have hlt := length_skipelem hs
      exact .next hs (ih rest.length (by omega) rest rfl)

/-! The loop of namex() over the path itself -/

/-- Behind the loop. -/
def namexEnd (nameiparent : Bool) (ip : ℕ) : FsCode (Option (ℕ × Name)) :=
  if nameiparent then do
    iput ip
    pure none
  else pure (some (ip, []))

/-- The loop with at most `k` rounds: the path that is left is looked at for the last name. -/
def namexLoop (nameiparent : Bool) : ℕ → ℕ → Path → FsCode (Option (ℕ × Name))
  | 0, ip, _ => namexEnd nameiparent ip
  | k + 1, ip, path =>
    match skipelem path with
    | none => namexEnd nameiparent ip
    | some (name, path) => do
      ilock ip
      let s ← get
      if type s ip ≠ .dir then
        iunlockput ip
        pure none
      else if nameiparent ∧ path = [] then
        iunlock ip
        pure (some (ip, name))
      else
        match ← dirlookup ip name with
        | none => do
          iunlockput ip
          pure none
        | some (next, _) => do
          iunlockput ip
          namexLoop nameiparent k next path

/-- skipelem() has eaten the slashes behind the name, so that nothing is left exactly when there
is no further name. -/
theorem rest_nil_iff (h : skipelem path = some (name, rest)) : elements rest = [] ↔ rest = [] := by
  have hhead : rest.head? ≠ some '/' := by
    unfold skipelem at h
    dsimp only at h
    split at h
    next => cases h
    next =>
      cases h
      exact head_slashes _
  constructor
  · intro hnil
    cases rest with
    | nil => rfl
    | cons c cs =>
      have hc : c ≠ '/' := fun hc => hhead (congrArg some hc)
      have hskip : skipelem (c :: cs) = some (((c :: cs).takeWhile (· ≠ '/')).take DIRSIZ,
          ((c :: cs).dropWhile (· ≠ '/')).dropWhile (· = '/')) := by
        unfold skipelem
        rw [List.dropWhile_cons_of_neg (by simpa using hc)]
        exact if_neg (List.cons_ne_nil _ _)
      rw [elements_skipelem, hskip] at hnil
      cases hnil
  · rintro rfl
    rfl

theorem namexLoop_eq (par : Bool) {k : ℕ} (hk : path.length ≤ k) (ip : ℕ) :
    namexLoop par k ip path = namexFrom par ip (elements path) := by
  induction k generalizing path ip with
  | zero =>
    obtain rfl := List.length_eq_zero_iff.mp (Nat.le_zero.mp hk)
    rfl
  | succ k ih =>
    rw [elements_skipelem, namexLoop]
    cases hs : skipelem path with
    | none => rfl
    | some x =>
      obtain ⟨name, rest⟩ := x
      have hlt := length_skipelem hs
      have hlast : ∀ a b : FsCode (Option (ℕ × Name)),
          (if par = true ∧ elements rest = [] then a else b) =
            if par = true ∧ rest = [] then a else b :=
        fun a b => if_congr (and_congr_right fun _ => rest_nil_iff hs) rfl rfl
      have hrest : ∀ next, namexLoop par k next rest = namexFrom par next (elements rest) :=
        fun next => ih (by omega) next
      dsimp only
      rw [namexFrom]
      simp only [hrest, hlast]
      all_goals rfl

/-- namex() as it goes over the path. -/
theorem namex_loop (p : Fin NPROC) (path : Path) (par : Bool) :
    namex p path par = (do
      let q ← myproc p
      let ip ← if path.head? = some '/' then iget ROOTINO else idup q.cwd
      namexLoop par path.length ip path) := by
  rw [namex]
  simp only [namexLoop_eq par (Nat.le_refl path.length)]

/-! Where the components lead -/

/-- The first entry with the name, free entries aside. -/
def Lookup (s : Fs) (dp : ℕ) (name : Name) (i : ℕ) : Prop :=
  ∃ de, (entries s dp).find? (fun de => de.inum ≠ 0 ∧ de.name = name) = some de ∧ de.inum = i

/-- From directory to directory, and to an inode of any type in the end. -/
inductive Follows (s : Fs) : ℕ → List Name → ℕ → Prop where
  | nil (i) : Follows s i [] i
  | cons {i name j names k} : type s i = .dir → Lookup s i name j → Follows s j names k →
      Follows s i (name :: names) k

/-- An inode on the way is not a directory, or has no entry for the next component. -/
def Stuck (s : Fs) (i : ℕ) (names : List Name) : Prop :=
  ∃ pre name rest d, names = pre ++ name :: rest ∧ Follows s i pre d ∧
    (type s d ≠ .dir ∨ ∀ j, ¬ Lookup s d name j)

variable {s t : Fs} {i j k d : ℕ}

theorem findEntry_find (name : Name) (des : List Dirent) (off : ℕ) :
    (findEntry name des off).map Prod.fst =
      (des.find? fun de => de.inum ≠ 0 ∧ de.name = name).map Dirent.inum := by
  induction des generalizing off with
  | nil => rfl
  | cons de des ih =>
    rw [findEntry]
    by_cases hfree : de.inum = 0
    · rw [if_pos hfree, ih, List.find?_cons_of_neg (by simpa using fun h => absurd hfree h)]
    · rw [if_neg hfree]
      by_cases hname : name = de.name
      · rw [if_pos hname, List.find?_cons_of_pos (by simpa using ⟨hfree, hname.symm⟩)]
        rfl
      · rw [if_neg hname, ih,
          List.find?_cons_of_neg (by simpa using fun _ h => hname h.symm)]

theorem lookup_iff (dp : ℕ) : Lookup s dp name i ↔
    ∃ off, findEntry name (entries s dp) 0 = some (i, off) := by
  have hfind := findEntry_find name (entries s dp) 0
  unfold Lookup
  cases hf : findEntry name (entries s dp) 0 with
  | none =>
    rw [hf] at hfind
    refine iff_of_false ?_ (fun h => nomatch h.choose_spec)
    rintro ⟨de, hde, -⟩
    rw [hde] at hfind
    cases hfind
  | some x =>
    obtain ⟨n, off⟩ := x
    rw [hf] at hfind
    cases hde : (entries s dp).find? fun de => de.inum ≠ 0 ∧ de.name = name with
    | none =>
      rw [hde] at hfind
      cases hfind
    | some de =>
      rw [hde] at hfind
      have hn : n = de.inum := Option.some.inj hfind
      constructor
      · rintro ⟨de', hde', hi⟩
        cases hde'
        exact ⟨off, by rw [hn, hi]⟩
      · rintro ⟨-, ⟨⟩⟩
        exact ⟨de, rfl, hn.symm⟩

theorem Lookup.unique (h : Lookup s d name i) (g : Lookup s d name j) : i = j := by
  obtain ⟨a, ha, rfl⟩ := h
  obtain ⟨b, hb, rfl⟩ := g
  rw [ha] at hb
  cases hb
  rfl

theorem Follows.unique (h : Follows s i names j) (g : Follows s i names k) : j = k := by
  induction h with
  | nil i =>
    cases g
    rfl
  | cons _ hl _ ih =>
    cases g with
    | cons _ hl' hf' =>
      obtain rfl := hl.unique hl'
      exact ih hf'

/-- A walk that gets stuck comes to no inode. -/
theorem Stuck.not_follows (h : Stuck s i names) : ¬ Follows s i names j := by
  obtain ⟨pre, name, rest, d, rfl, hpre, hend⟩ := h
  induction hpre with
  | nil i =>
    intro g
    cases g with
    | cons hdir hl _ =>
      obtain hdir' | hno := hend
      · exact hdir' hdir
      · exact hno _ hl
  | cons _ hl _ ih =>
    intro g
    cases g with
    | cons _ hl' hf' =>
      obtain rfl := hl.unique hl'
      exact ih hend hf'

theorem Stuck.cons (hdir : type s i = .dir) (hl : Lookup s i name j) (h : Stuck s j names) :
    Stuck s i (name :: names) := by
  obtain ⟨pre, last, rest, d, rfl, hpre, hend⟩ := h
  exact ⟨name :: pre, last, rest, d, rfl, .cons hdir hl hpre, hend⟩

theorem Stuck.here (h : type s i ≠ .dir ∨ ∀ j, ¬ Lookup s i name j) :
    Stuck s i (name :: names) :=
  ⟨[], name, names, i, rfl, .nil i, h⟩

/-! namei() -/

/-- A walk to the last component ends where the components lead, or gets stuck. -/
structure Walked (s : Fs) (i : ℕ) (names : List Name) (r : Option (ℕ × Name)) : Prop where
  found : ∀ j last, r = some (j, last) → Follows s i names j
  missed : r = none → Stuck s i names

theorem walkFrom_walked {r : Option (ℕ × Name)} (h : walkFrom s false i names = .ok r) :
    Walked s i names r := by
  induction names generalizing i with
  | nil =>
    cases h
    refine ⟨?_, by rintro ⟨⟩⟩
    rintro j last ⟨⟩
    exact .nil i
  | cons name names ih =>
    rw [walkFrom] at h
    split at h
    next => cases h
    next hfree =>
      split at h
      next hdir =>
        cases h
        exact ⟨by rintro j last ⟨⟩, fun _ => Stuck.here (Or.inl hdir)⟩
      next hdir =>
        rw [if_neg fun hand => absurd hand.1 (by decide)] at h
        cases hf : findEntry name (entries s i) 0 with
        | none =>
          rw [hf] at h
          cases h
          refine ⟨by rintro j last ⟨⟩, fun _ => Stuck.here (Or.inr fun j hl => ?_)⟩
          obtain ⟨off, hoff⟩ := (lookup_iff i).mp hl
          rw [hf] at hoff
          cases hoff
        | some x =>
          obtain ⟨next, off⟩ := x
          rw [hf] at h
          dsimp only at h
          have hl : Lookup s i name next := (lookup_iff i).mpr ⟨off, hf⟩
          split at h
          next =>
            have hrest := ih h
            exact ⟨fun j last hr => .cons (not_not.mp hdir) hl (hrest.found j last hr),
              fun hr => (hrest.missed hr).cons (not_not.mp hdir) hl⟩
          next => cases h

/-! nameiparent() -/

/-- There is no component, or the walk to all but the last one does not come to a directory. -/
def ParentStuck (s : Fs) (i : ℕ) (names : List Name) : Prop :=
  names = [] ∨ ∃ pre last, names = pre ++ [last] ∧
    (Stuck s i pre ∨ ∃ d, Follows s i pre d ∧ type s d ≠ .dir)

/-- The directory that the components but the last lead to. -/
def LeadsTo (s : Fs) (i : ℕ) (names : List Name) (d : ℕ) (last : Name) : Prop :=
  ∃ pre, names = pre ++ [last] ∧ Follows s i pre d ∧ type s d = .dir

theorem ParentStuck.not_leads {last : Name} (h : ParentStuck s i names) :
    ¬ LeadsTo s i names d last := by
  rintro ⟨pre, hnames, hpre, hdir⟩
  obtain rfl | ⟨pre', last', hnames', hend⟩ := h
  · exact absurd hnames (by simp)
  · obtain ⟨rfl, -⟩ := List.append_inj' (hnames.symm.trans hnames') rfl
    obtain hstuck | ⟨d', hd', hne⟩ := hend
    · exact hstuck.not_follows hpre
    · obtain rfl := hpre.unique hd'
      exact hne hdir

theorem LeadsTo.unique {last last' : Name} (h : LeadsTo s i names d last)
    (g : LeadsTo s i names k last') : d = k ∧ last = last' := by
  obtain ⟨pre, hnames, hpre, -⟩ := h
  obtain ⟨pre', hnames', hpre', -⟩ := g
  obtain ⟨rfl, hlast⟩ := List.append_inj' (hnames.symm.trans hnames') rfl
  exact ⟨hpre.unique hpre', (List.cons.inj hlast).1⟩

theorem ParentStuck.cons (hdir : type s i = .dir) (hl : Lookup s i name j) (hne : names ≠ [])
    (h : ParentStuck s j names) : ParentStuck s i (name :: names) := by
  obtain hnil | ⟨pre, last, rfl, hend⟩ := h
  · exact absurd hnil hne
  · refine Or.inr ⟨name :: pre, last, rfl, ?_⟩
    obtain hstuck | ⟨d, hd, hd'⟩ := hend
    · exact Or.inl (hstuck.cons hdir hl)
    · exact Or.inr ⟨d, .cons hdir hl hd, hd'⟩

theorem ParentStuck.here (h : type s i ≠ .dir ∨ names ≠ [] ∧ ∀ j, ¬ Lookup s i name j) :
    ParentStuck s i (name :: names) := by
  right
  obtain rfl | ⟨pre, last, rfl⟩ := List.eq_nil_or_concat names
  · exact ⟨[], name, rfl, Or.inr ⟨i, .nil i, h.resolve_right fun hne => hne.1 rfl⟩⟩
  · refine ⟨name :: pre, last, by rw [List.concat_eq_append]; rfl, Or.inl (Stuck.here ?_)⟩
    exact h.imp_right And.right

structure ParentWalked (s : Fs) (i : ℕ) (names : List Name) (r : Option (ℕ × Name)) : Prop where
  found : ∀ d last, r = some (d, last) → LeadsTo s i names d last
  missed : r = none → ParentStuck s i names

theorem walkFrom_parent {r : Option (ℕ × Name)} (h : walkFrom s true i names = .ok r) :
    ParentWalked s i names r := by
  induction names generalizing i with
  | nil =>
    cases h
    exact ⟨by rintro d last ⟨⟩, fun _ => Or.inl rfl⟩
  | cons name names ih =>
    rw [walkFrom] at h
    split at h
    next => cases h
    next hfree =>
      split at h
      next hdir =>
        cases h
        exact ⟨by rintro d last ⟨⟩, fun _ => ParentStuck.here (Or.inl hdir)⟩
      next hdir =>
        have hdir' : type s i = .dir := not_not.mp hdir
        split at h
        next hlast =>
          obtain ⟨-, rfl⟩ := hlast
          cases h
          refine ⟨?_, by rintro ⟨⟩⟩
          rintro d last ⟨⟩
          exact ⟨[], rfl, .nil i, hdir'⟩
        next hmore =>
          have hne : names ≠ [] := fun hnil => hmore ⟨rfl, hnil⟩
          cases hf : findEntry name (entries s i) 0 with
          | none =>
            rw [hf] at h
            cases h
            refine ⟨by rintro d last ⟨⟩, fun _ => ParentStuck.here (Or.inr ⟨hne, fun j hl => ?_⟩)⟩
            obtain ⟨off, hoff⟩ := (lookup_iff i).mp hl
            rw [hf] at hoff
            cases hoff
          | some x =>
            obtain ⟨next, off⟩ := x
            rw [hf] at h
            dsimp only at h
            have hl : Lookup s i name next := (lookup_iff i).mpr ⟨off, hf⟩
            split at h
            next =>
              have hrest := ih h
              refine ⟨fun d last hr => ?_, fun hr => (hrest.missed hr).cons hdir' hl hne⟩
              obtain ⟨pre, rfl, hpre, hd⟩ := hrest.found d last hr
              exact ⟨name :: pre, rfl, .cons hdir' hl hpre, hd⟩
            next => cases h

/-! Faults -/

/-- The inode cache is full, or a free inode is in a directory on the way. -/
def Broken (s : Fs) (i : ℕ) (names : List Name) (e : Fault) : Prop :=
  e = .panic "iget: no inodes" ∧ NINODE ≤ s.inuse + 1 ∨
    e = .panic "ilock: no type" ∧ ∃ pre name rest d, names = pre ++ name :: rest ∧
      Follows s i pre d ∧ type s d = .free

theorem Broken.cons {e : Fault} (hdir : type s i = .dir) (hl : Lookup s i name j)
    (h : Broken s j names e) : Broken s i (name :: names) e := by
  obtain hfull | ⟨he, pre, last, rest, d, rfl, hpre, hfree⟩ := h
  · exact Or.inl hfull
  · exact Or.inr ⟨he, name :: pre, last, rest, d, rfl, .cons hdir hl hpre, hfree⟩

theorem full_of_not_canGet (h : ¬ canGet (grab s i) j) : NINODE ≤ s.inuse + 1 := by
  obtain ⟨-, huse⟩ := not_or.mp h
  rw [grab_inuse] at huse
  split at huse
  · omega
  · omega

theorem walkFrom_broken {par : Bool} {e : Fault} (h : walkFrom s par i names = .error e) :
    Broken s i names e := by
  induction names generalizing i with
  | nil => cases h
  | cons name names ih =>
    rw [walkFrom] at h
    split at h
    next hfree =>
      cases h
      exact Or.inr ⟨rfl, [], name, names, i, rfl, .nil i, hfree⟩
    next hfree =>
      split at h
      next => cases h
      next hdir =>
        split at h
        next => cases h
        next =>
          cases hf : findEntry name (entries s i) 0 with
          | none =>
            rw [hf] at h
            cases h
          | some x =>
            obtain ⟨next, off⟩ := x
            rw [hf] at h
            dsimp only at h
            have hl : Lookup s i name next := (lookup_iff i).mpr ⟨off, hf⟩
            split at h
            next => exact (ih h).cons (not_not.mp hdir) hl
            next hget =>
              cases h
              exact Or.inl ⟨rfl, full_of_not_canGet hget⟩

/-! namei() and nameiparent() -/

/-- The root, or the current directory. -/
def start (q : Proc) (path : Path) : ℕ := if path.head? = some '/' then ROOTINO else q.cwd

variable {p : Fin NPROC} {q : Proc}

theorem walk_start (hp : s.procs p = some q) (path : Path) (par : Bool) :
    walk s p path par = walkFrom s par (start q path) (components path) ∨
      walk s p path par = .error (.panic "iget: no inodes") ∧ NINODE ≤ s.inuse := by
  unfold walk start
  rw [hp, elements_eq]
  dsimp only
  by_cases hroot : path.head? = some '/'
  · rw [if_pos hroot, if_pos hroot]
    by_cases hget : canGet s ROOTINO
    · rw [if_pos hget]
      exact Or.inl rfl
    · rw [if_neg hget]
      exact Or.inr ⟨rfl, Nat.le_of_not_lt (not_or.mp hget).2⟩
  · rw [if_neg hroot, if_neg hroot]
    exact Or.inl rfl

theorem walk_ok_start (hp : s.procs p = some q) {par : Bool} {r : Option (ℕ × Name)}
    (h : walk s p path par = .ok r) :
    walkFrom s par (start q path) (components path) = .ok r := by
  obtain hw | ⟨hw, -⟩ := walk_start hp path par
  · rwa [hw] at h
  · rw [hw] at h
    cases h

theorem walk_error_start (hp : s.procs p = some q) {par : Bool} {e : Fault}
    (h : walk s p path par = .error e) : Broken s (start q path) (components path) e := by
  obtain hw | ⟨hw, hfull⟩ := walk_start hp path par
  · rw [hw] at h
    exact walkFrom_broken h
  · rw [hw] at h
    cases h
    exact Or.inl ⟨rfl, by omega⟩

section Specs

variable (s : Fs) (p : Fin NPROC) (path : Path) (i : ℕ) (names : List Name)

/-- namei() of a path that stands for `names` from `i` on. It takes a reference to what it
returns, and changes nothing else. -/
structure NameiSpec : Prop where
  found : ∀ r t, namei p path s = .ok (r, t) → ∀ j, r = some j ↔ Follows s i names j
  missed : ∀ r t, namei p path s = .ok (r, t) → (r = none ↔ Stuck s i names)
  state : ∀ r t, namei p path s = .ok (r, t) → t.held = s.held ∧ Alike (r.elim s (grab s)) t
  faults : ∀ e, namei p path s = .error e → Broken s i names e

structure NameiparentSpec : Prop where
  found : ∀ r t, nameiparent p path s = .ok (r, t) →
    ∀ d last, r = some (d, last) ↔ LeadsTo s i names d last
  missed : ∀ r t, nameiparent p path s = .ok (r, t) → (r = none ↔ ParentStuck s i names)
  state : ∀ r t, nameiparent p path s = .ok (r, t) → t.held = s.held ∧ Alike (taken s r) t
  faults : ∀ e, nameiparent p path s = .error e → Broken s i names e

end Specs

/-- How namex() ends. -/
theorem namex_cases (hs : Steady s) (hh : s.held = []) (hp : s.procs p = some q)
    (hcwd : 0 < s.ref q.cwd) (path : Path) (par : Bool) :
    (∃ r t, namex p path par s = .ok (r, t) ∧ t.held = s.held ∧ Alike (taken s r) t ∧
      walkFrom s par (start q path) (components path) = .ok r) ∨
    ∃ e, namex p path par s = .error e ∧ Broken s (start q path) (components path) e := by
  have hrun := namex_run (p := p) hs hh (fun q' hq' => by
    rw [hp] at hq'
    cases hq'
    exact hcwd) path par
  unfold EndsAs at hrun
  cases hw : walk s p path par with
  | error e =>
    rw [hw] at hrun
    exact Or.inr ⟨e, hrun, walk_error_start hp hw⟩
  | ok r =>
    rw [hw] at hrun
    obtain ⟨t, ht, hheld, ha⟩ := hrun
    exact Or.inl ⟨r, t, ht, hheld, ha, walk_ok_start hp hw⟩

theorem Walked.iff {r : Option (ℕ × Name)} (h : Walked s i names r) :
    (∀ j, r.map Prod.fst = some j ↔ Follows s i names j) ∧
      (r.map Prod.fst = none ↔ Stuck s i names) := by
  cases r with
  | none =>
    have hstuck := h.missed rfl
    exact ⟨fun j => iff_of_false nofun hstuck.not_follows, iff_of_true rfl hstuck⟩
  | some x =>
    have hfound := h.found x.1 x.2 rfl
    refine ⟨fun j => ?_, iff_of_false nofun fun hstuck => hstuck.not_follows hfound⟩
    rw [Option.map_some, Option.some.injEq]
    constructor
    · rintro rfl
      exact hfound
    · exact hfound.unique

theorem ParentWalked.iff {r : Option (ℕ × Name)} (h : ParentWalked s i names r) :
    (∀ d last, r = some (d, last) ↔ LeadsTo s i names d last) ∧
      (r = none ↔ ParentStuck s i names) := by
  cases r with
  | none =>
    have hstuck := h.missed rfl
    exact ⟨fun d last => iff_of_false nofun hstuck.not_leads, iff_of_true rfl hstuck⟩
  | some x =>
    have hfound := h.found x.1 x.2 rfl
    refine ⟨fun d last => ?_, iff_of_false nofun fun hstuck => hstuck.not_leads hfound⟩
    rw [Option.some.injEq]
    constructor
    · rintro rfl
      exact hfound
    · intro hleads
      obtain ⟨hd, hlast⟩ := hfound.unique hleads
      exact Prod.ext hd hlast

theorem namei_spec (hs : Steady s) (hh : s.held = []) (hp : s.procs p = some q)
    (hcwd : 0 < s.ref q.cwd) (path : Path) :
    NameiSpec s p path (start q path) (components path) := by
  obtain ⟨r, t, hrun, hheld, ha, hw⟩ | ⟨e, hrun, hbroken⟩ := namex_cases hs hh hp hcwd path false
  · have hnamei : namei p path s = .ok (r.map Prod.fst, t) := by
      rw [namei, run_bind hrun]
      rfl
    obtain ⟨hfound, hmissed⟩ := (walkFrom_walked hw).iff
    have hsame : ∀ r' t', namei p path s = .ok (r', t') → r' = r.map Prod.fst ∧ t' = t := by
      intro r' t' h
      rw [hnamei] at h
      cases h
      exact ⟨rfl, rfl⟩
    constructor
    · intro r' t' h
      rw [(hsame r' t' h).1]
      exact hfound
    · intro r' t' h
      rw [(hsame r' t' h).1]
      exact hmissed
    · intro r' t' h
      obtain ⟨rfl, rfl⟩ := hsame r' t' h
      refine ⟨hheld, ?_⟩
      cases r with
      | none => exact ha
      | some x => exact ha
    · intro e h
      rw [hnamei] at h
      cases h
  · have hnamei : namei p path s = .error e := by
      rw [namei, bind_run, hrun]
    have hnone : ∀ r' t', namei p path s ≠ .ok (r', t') := by
      intro r' t' h
      rw [hnamei] at h
      cases h
    refine ⟨fun r' t' h => absurd h (hnone r' t'), fun r' t' h => absurd h (hnone r' t'),
      fun r' t' h => absurd h (hnone r' t'), fun e' h => ?_⟩
    rw [hnamei] at h
    cases h
    exact hbroken

theorem nameiparent_spec (hs : Steady s) (hh : s.held = []) (hp : s.procs p = some q)
    (hcwd : 0 < s.ref q.cwd) (path : Path) :
    NameiparentSpec s p path (start q path) (components path) := by
  obtain ⟨r, t, hrun, hheld, ha, hw⟩ | ⟨e, hrun, hbroken⟩ := namex_cases hs hh hp hcwd path true
  · obtain ⟨hfound, hmissed⟩ := (walkFrom_parent hw).iff
    have hsame : ∀ r' t', nameiparent p path s = .ok (r', t') → r' = r ∧ t' = t := by
      intro r' t' h
      rw [nameiparent, hrun] at h
      cases h
      exact ⟨rfl, rfl⟩
    constructor
    · intro r' t' h
      rw [(hsame r' t' h).1]
      exact hfound
    · intro r' t' h
      rw [(hsame r' t' h).1]
      exact hmissed
    · intro r' t' h
      obtain ⟨rfl, rfl⟩ := hsame r' t' h
      exact ⟨hheld, ha⟩
    · intro e h
      rw [nameiparent, hrun] at h
      cases h
  · have hnone : ∀ r' t', nameiparent p path s ≠ .ok (r', t') := by
      intro r' t' h
      rw [nameiparent, hrun] at h
      cases h
    refine ⟨fun r' t' h => absurd h (hnone r' t'), fun r' t' h => absurd h (hnone r' t'),
      fun r' t' h => absurd h (hnone r' t'), fun e' h => ?_⟩
    rw [nameiparent, hrun] at h
    cases h
    exact hbroken

/-- Paths stand for their components, and lead where the components lead. -/
theorem path_resolution (hs : Steady s) (hh : s.held = []) (hp : s.procs p = some q)
    (hcwd : 0 < s.ref q.cwd) (path : Path) :
    (∀ names, Yields path names ↔ names = components path) ∧
      NameiSpec s p path (start q path) (components path) ∧
      NameiparentSpec s p path (start q path) (components path) :=
  ⟨yields_iff path, namei_spec hs hh hp hcwd path, nameiparent_spec hs hh hp hcwd path⟩

/-- A root directory with one file, which is the current directory of one process. -/
def oneFile : Fs where
  dinodes i :=
    if i = ROOTINO then ⟨.dir, 0, 0, 1, [⟨ROOTINO, ['.'], 0⟩, ⟨ROOTINO, ['.', '.'], 0⟩,
      ⟨2, ['f'], 0⟩]⟩
    else if i = 2 then ⟨.file, 0, 0, 1, []⟩
    else ⟨.free, 0, 0, 0, []⟩
  ref i := if i = ROOTINO then 1 else 0
  valid _ := false
  inuse := 1
  held := []
  files _ := ⟨0, none⟩
  procs p := if p = initproc then some ⟨ROOTINO, fun _ => none⟩ else none
  births _ := 0

theorem oneFile_steady : Steady oneFile where
  nonneg := by
    intro i
    change 0 ≤ if i = ROOTINO then (1 : ℤ) else 0
    split <;> decide
  valid := nofun
  orphans := by
    intro i htype hlink
    by_cases hroot : i = ROOTINO
    · subst hroot
      exact absurd hlink (by decide)
    · by_cases h2 : i = 2
      · subst h2
        exact absurd hlink (by decide)
      · have hfree : oneFile.dinodes i = ⟨.free, 0, 0, 0, []⟩ := by
          change (if i = ROOTINO then _ else if i = 2 then _ else _) = _
          rw [if_neg hroot, if_neg h2]
        rw [type, hfree] at htype
        exact absurd rfl htype

theorem path_resolution_file :
    (∀ names, Yields "//.//f/".toList names ↔ names = components "//.//f/".toList) ∧
      NameiSpec oneFile initproc "//.//f/".toList ROOTINO (components "//.//f/".toList) ∧
      NameiparentSpec oneFile initproc "//.//f/".toList ROOTINO (components "//.//f/".toList) :=
  path_resolution oneFile_steady rfl rfl (by decide) _

end PathResolution
