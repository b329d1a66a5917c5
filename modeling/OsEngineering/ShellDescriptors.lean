import OsEngineering.DescriptorTable
import OsEngineering.ShellCommands
import Mathlib.Data.Finset.Lattice.Fold
import Mathlib.Data.List.Infix
import Mathlib.Order.Lattice.Nat

/-! runcmd() in hw02-shell/sh.c: the descriptors each execv() is called with. -/
namespace ShellDescriptors

open DescriptorTable ShellCommands

/-- Where a process goes from one command to the next. -/
inductive Turn where
  | sub
  | left
  | right
  deriving DecidableEq, Repr

/-- The place of a command in the tree. -/
abbrev Path := List Turn

/-- Open files. A pipe goes by the place of the command that made it. -/
inductive Object where
  | inherited (fd : ℕ)
  | file (file : Str) (flags : Flags)
  | readEnd (pipe : Path)
  | writeEnd (pipe : Path)
  deriving DecidableEq, Repr

inductive Call where
  | «open»
  | pipe
  | fork (turn : Turn)
  | dup2 (turn : Turn)
  deriving DecidableEq

/-- A call of execv(). -/
structure Exec where
  path : Path
  argv : List Str
  table : Table Object

section

/-! `ok` says which of the calls that a command makes succeed. -/

variable (ok : Path → Call → Bool)

/-- dup2() in a child of a pipe, whose result is not looked at. -/
def redirect (path : Path) (turn : Turn) (t : Table Object) (old new : ℕ) : Table Object :=
  if ok path (.dup2 turn) then dup2 t old new else t

/-- The calls of execv() of the process that runs `cmd` and of its children. -/
def runcmd (path : Path) : Cmd → Table Object → List Exec
  | .execcmd [], _ => []
  | .execcmd (arg :: args), t => [⟨path, arg :: args, t⟩]
  | .redircmd cmd file type, t =>
    let t := close t type.fd
    if ok path .open then runcmd (path ++ [.sub]) cmd (alloc t (.file file type.flags)).2
    else []
  | .pipecmd left right, t =>
    if ok path .pipe then
      let (r, t) := alloc t (.readEnd path)
      let (w, t) := alloc t (.writeEnd path)
      let runleft :=
        if ok path (.fork .left) then
          let t := redirect ok path .left (close t 1) w 1
          runcmd (path ++ [.left]) left (close (close t r) w)
        else []
      let runright :=
        if ok path (.fork .right) then
          let t := redirect ok path .right (close t 0) r 0
          runcmd (path ++ [.right]) right (close (close t r) w)
        else []
      runleft ++ runright
    else []

end

/-- The table of a shell that has the descriptors `fds` open. -/
def initial (fds : Finset ℕ) : Table Object where
  object fd := if fd ∈ fds then some (.inherited fd) else none
  top := fds.sup id + 1
  free := by
    intro fd hfd
    rw [if_neg]
    intro hin
    have hle : id fd ≤ fds.sup id := Finset.le_sup hin
    rw [id] at hle
    omega

/-- What the commands from `cmd` down along a path make of which descriptor. -/
def settings : Path → Cmd → Path → List (ℕ × Object)
  | path, .redircmd cmd file type, .sub :: rest =>
    (type.fd, .file file type.flags) :: settings (path ++ [.sub]) cmd rest
  | path, .pipecmd left _, .left :: rest =>
    (1, .writeEnd path) :: settings (path ++ [.left]) left rest
  | path, .pipecmd _ right, .right :: rest =>
    (0, .readEnd path) :: settings (path ++ [.right]) right rest
  | _, _, _ => []

/-- The last setting of `fd`, or `x` without one. -/
def lastSetting (fd : ℕ) (x : Object) : List (ℕ × Object) → Object
  | [] => x
  | s :: rest => lastSetting fd (if s.1 = fd then s.2 else x) rest

/-! One command. -/

variable {ok : Path → Call → Bool} {fds : Finset ℕ} {x y : Object} {t : Table Object}

/-- The table of a shell with `x` and `y` in place of its standard input and output. -/
def Wired (fds : Finset ℕ) (x y : Object) (t : Table Object) : Prop :=
  ∀ fd, t.object fd = if fd = 0 then some x else if fd = 1 then some y
    else (initial fds).object fd

theorem Wired.stdin (h : Wired fds x y t) : t.object 0 = some x := h 0

theorem Wired.stdout (h : Wired fds x y t) : t.object 1 = some y := h 1

theorem Wired.setInput (h : Wired fds x y t) {u : Table Object} {z : Object}
    (hself : u.object 0 = some z) (hother : ∀ fd, fd ≠ 0 → u.object fd = t.object fd) :
    Wired fds z y u := by
  intro fd
  by_cases hfd : fd = 0
  · rw [hfd, if_pos rfl]
    exact hself
  · rw [hother fd hfd, h fd, if_neg hfd, if_neg hfd]

theorem Wired.setOutput (h : Wired fds x y t) {u : Table Object} {z : Object}
    (hself : u.object 1 = some z) (hother : ∀ fd, fd ≠ 1 → u.object fd = t.object fd) :
    Wired fds x z u := by
  intro fd
  by_cases hfd : fd = 1
  · rw [hfd, if_neg one_ne_zero, if_pos rfl]
    exact hself
  · rw [hother fd hfd, h fd, if_neg hfd, if_neg hfd]

/-- open() gives the number that close() has made free, if all below it are in use. -/
theorem reopen (z : Object) (fd : ℕ) (hused : ∀ n < fd, t.object n ≠ none) :
    (alloc (close t fd) z).2.object fd = some z ∧
      ∀ n, n ≠ fd → (alloc (close t fd) z).2.object n = t.object n := by
  have hlow : lowest (close t fd) = fd := by
    apply lowest_eq (close_self t fd)
    intro n hn
    rw [close_of_ne t (by omega)]
    exact hused n hn
  rw [alloc, hlow]
  refine ⟨install_self _ fd z, fun n hn => ?_⟩
  rw [install_of_ne _ z hn, close_of_ne t hn]

theorem Wired.redir (h : Wired fds x y t) (file : Str) (type : Redirection) :
    Wired fds (if type.fd = 0 then .file file type.flags else x)
      (if type.fd = 1 then .file file type.flags else y)
      (alloc (close t type.fd) (.file file type.flags)).2 := by
  cases type with
  | input =>
    obtain ⟨hself, hother⟩ := reopen (t := t) (.file file .read) 0 fun n hn =>
      absurd hn (Nat.not_lt_zero n)
    exact h.setInput hself hother
  | output =>
    obtain ⟨hself, hother⟩ := reopen (t := t) (.file file .truncate) 1 (by
      intro n hn
      obtain rfl : n = 0 := by omega
      rw [h.stdin]
      nofun)
    exact h.setOutput hself hother

/-- The table after pipe(), in a child that has put one end in place of `std`. -/
theorem piped (path : Path) {std : ℕ} {z : Object} (h : Wired fds x y t) (hstd : std < 2)
    (hok : ∀ path call, ok path call = true) (turn : Turn)
    {old : ℕ} (hold : old = (alloc t (.readEnd path)).1 ∧ z = .readEnd path ∨
      old = (alloc (alloc t (.readEnd path)).2 (.writeEnd path)).1 ∧ z = .writeEnd path) :
    let (r, t₁) := alloc t (.readEnd path)
    let (w, t₂) := alloc t₁ (.writeEnd path)
    let u := close (close (redirect ok path turn (close t₂ std) old std) r) w
    u.object std = some z ∧ ∀ fd, fd ≠ std → u.object fd = t.object fd := by
  simp only [alloc] at hold ⊢
  generalize hr : lowest t = r at hold ⊢
  generalize hw : lowest (install t r (.readEnd path)) = w at hold ⊢
  have hrfree : t.object r = none := hr ▸ lowest_free t
  have hwfree : (install t r (.readEnd path)).object w = none := hw ▸ lowest_free _
  have hwr : w ≠ r := by
    rintro rfl
    rw [install_self] at hwfree
    cases hwfree
  have hwfree' : t.object w = none := by
    rw [install_of_ne t _ hwr] at hwfree
    exact hwfree
  -- both numbers are new, so neither is that of a standard descriptor
  have hopen : t.object std ≠ none := by
    obtain rfl | rfl : std = 0 ∨ std = 1 := by omega
    · rw [h.stdin]
      nofun
    · rw [h.stdout]
      nofun
  have hsr : std ≠ r := fun heq => hopen (heq ▸ hrfree)
  have hsw : std ≠ w := fun heq => hopen (heq ▸ hwfree')
  have hend : (close (install (install t r (.readEnd path)) w (.writeEnd path)) std).object old =
      some z := by
    rcases hold with ⟨rfl, rfl⟩ | ⟨rfl, rfl⟩
    · rw [close_of_ne _ hsr.symm, install_of_ne _ _ hwr.symm, install_self]
    · rw [close_of_ne _ hsw.symm, install_self]
  rw [redirect, if_pos (hok path _), dup2_eq hend]
  constructor
  · rw [close_of_ne _ hsw, close_of_ne _ hsr, install_self]
  · intro fd hfd
    by_cases hfw : fd = w
    · rw [hfw, close_self, hwfree']
    · rw [close_of_ne _ hfw]
      by_cases hfr : fd = r
      · rw [hfr, close_self, hrfree]
      · rw [close_of_ne _ hfr, install_of_ne _ _ hfd, close_of_ne _ hfd, install_of_ne _ _ hfw,
          install_of_ne _ _ hfr]

/-! The whole tree. -/

/-- Every execv() has the standard input and output that the commands above it set. -/
theorem runcmd_wired (hok : ∀ path call, ok path call = true) (cmd : Cmd) {path : Path}
    (h : Wired fds x y t) {e : Exec} (he : e ∈ runcmd ok path cmd t) :
    ∃ rest, e.path = path ++ rest ∧
      Wired fds (lastSetting 0 x (settings path cmd rest))
        (lastSetting 1 y (settings path cmd rest)) e.table := by
  induction cmd generalizing path x y t with
  | execcmd argv =>
    cases argv with
    | nil => exact absurd he List.not_mem_nil
    | cons arg args =>
      rw [runcmd, List.mem_singleton] at he
      refine ⟨[], ?_, ?_⟩
      · rw [he, List.append_nil]
      · rw [he]
        exact h
  | redircmd cmd file type ih =>
    rw [runcmd, if_pos (hok path _)] at he
    obtain ⟨rest, hpath, hwired⟩ := ih (h.redir file type) he
    refine ⟨.sub :: rest, ?_, hwired⟩
    rw [hpath, List.append_assoc]
    rfl
  | pipecmd left right ihl ihr =>
    rw [runcmd, if_pos (hok path _)] at he
    dsimp only at he
    rw [if_pos (hok path _), if_pos (hok path _), List.mem_append] at he
    rcases he with he | he
    · obtain ⟨hself, hother⟩ := piped path h (by decide : 1 < 2) hok .left
        (Or.inr ⟨rfl, rfl⟩)
      obtain ⟨rest, hpath, hwired⟩ := ihl (h.setOutput hself hother) he
      refine ⟨.left :: rest, ?_, hwired⟩
      rw [hpath, List.append_assoc]
      rfl
    · obtain ⟨hself, hother⟩ := piped path h (by decide : 0 < 2) hok .right
        (Or.inl ⟨rfl, rfl⟩)
      obtain ⟨rest, hpath, hwired⟩ := ihr (h.setInput hself hother) he
      refine ⟨.right :: rest, ?_, hwired⟩
      rw [hpath, List.append_assoc]
      rfl

theorem lastSetting_mem (fd : ℕ) (l : List (ℕ × Object)) (x : Object) :
    lastSetting fd x l = x ∨ (fd, lastSetting fd x l) ∈ l := by
  induction l generalizing x with
  | nil => exact Or.inl rfl
  | cons s rest ih =>
    rw [lastSetting]
    rcases ih (if s.1 = fd then s.2 else x) with h | h
    · rw [h]
      by_cases hs : s.1 = fd
      · rw [if_pos hs, ← hs]
        exact Or.inr List.mem_cons_self
      · rw [if_neg hs]
        exact Or.inl rfl
    · exact Or.inr (List.mem_cons_of_mem s h)

/-- Only below the left side of a pipe does a setting name its write end. -/
theorem writeEnd_left {fd : ℕ} {pipe : Path} (cmd : Cmd) {path rest : Path}
    (h : (fd, .writeEnd pipe) ∈ settings path cmd rest) : pipe ++ [.left] <+: path ++ rest := by
  have hnext : ∀ {path rest : Path} {turn : Turn},
      pipe ++ [.left] <+: (path ++ [turn]) ++ rest → pipe ++ [.left] <+: path ++ turn :: rest := by
    intro path rest turn hp
    rw [List.append_assoc] at hp
    exact hp
  induction cmd generalizing path rest with
  | execcmd argv =>
    rw [settings] at h
    · exact absurd h List.not_mem_nil
    all_goals nofun
  | redircmd cmd file type ih =>
    match rest, h with
    | .sub :: rest, h =>
      rcases List.mem_cons.mp h with heq | h
      · cases (Prod.mk.inj heq).2
      · exact hnext (ih h)
    | [], h => exact absurd h List.not_mem_nil
    | .left :: rest, h => exact absurd h List.not_mem_nil
    | .right :: rest, h => exact absurd h List.not_mem_nil
  | pipecmd left right ihl ihr =>
    match rest, h with
    | .left :: rest, h =>
      rcases List.mem_cons.mp h with heq | h
      · obtain rfl : pipe = path := by
          injection (Prod.mk.inj heq).2
        exact hnext (List.prefix_append _ _)
      · exact hnext (ihl h)
    | .right :: rest, h =>
      rcases List.mem_cons.mp h with heq | h
      · cases (Prod.mk.inj heq).2
      · exact hnext (ihr h)
    | [], h => exact absurd h List.not_mem_nil
    | .sub :: rest, h => exact absurd h List.not_mem_nil

/-- The places of the commands with a program to run. -/
def programs (path : Path) : Cmd → List Path
  | .execcmd [] => []
  | .execcmd (_ :: _) => [path]
  | .redircmd cmd _ _ => programs (path ++ [.sub]) cmd
  | .pipecmd left right => programs (path ++ [.left]) left ++ programs (path ++ [.right]) right

/-- Each program of the tree gets to its execv(). -/
theorem runcmd_paths (hok : ∀ path call, ok path call = true) (cmd : Cmd) (path : Path)
    (t : Table Object) : (runcmd ok path cmd t).map Exec.path = programs path cmd := by
  induction cmd generalizing path t with
  | execcmd argv => cases argv <;> rfl
  | redircmd cmd file type ih =>
    rw [runcmd, if_pos (hok path _), programs]
    exact ih _ _
  | pipecmd left right ihl ihr =>
    rw [runcmd, if_pos (hok path _), programs]
    dsimp only
    rw [if_pos (hok path _), if_pos (hok path _), List.map_append, ihl, ihr]

theorem initial_wired (hin : 0 ∈ fds) (hout : 1 ∈ fds) :
    Wired fds (.inherited 0) (.inherited 1) (initial fds) := by
  intro fd
  by_cases h0 : fd = 0
  · rw [if_pos h0, h0]
    exact if_pos hin
  · rw [if_neg h0]
    by_cases h1 : fd = 1
    · rw [if_pos h1, h1]
      exact if_pos hout
    · rw [if_neg h1]

/-- At each execv() the descriptors of the shell are open and no others, standard input and
output are what the commands above it last set, and nobody to the right of a pipe, or outside
of it, has its write end. -/
theorem execv_descriptors (hin : 0 ∈ fds) (hout : 1 ∈ fds)
    (hok : ∀ path call, ok path call = true) (cmd : Cmd) {e : Exec}
    (he : e ∈ runcmd ok [] cmd (initial fds)) :
    (∀ fd, (e.table.object fd).isSome ↔ fd ∈ fds) ∧
      e.table.object 0 = some (lastSetting 0 (.inherited 0) (settings [] cmd e.path)) ∧
      e.table.object 1 = some (lastSetting 1 (.inherited 1) (settings [] cmd e.path)) ∧
      (∀ fd, 2 ≤ fd → e.table.object fd = (initial fds).object fd) ∧
      ∀ fd pipe, e.table.object fd = some (.writeEnd pipe) → pipe ++ [.left] <+: e.path := by
  obtain ⟨rest, hpath, hwired⟩ := runcmd_wired hok cmd (initial_wired hin hout) he
  rw [List.nil_append] at hpath
  subst hpath
  have hrest : ∀ fd, 2 ≤ fd → e.table.object fd = (initial fds).object fd := by
    intro fd hfd
    rw [hwired fd, if_neg (by omega), if_neg (by omega)]
  have hsome : ∀ fd, ((initial fds).object fd).isSome ↔ fd ∈ fds := by
    intro fd
    simp only [initial]
    split
    · next h => exact iff_of_true rfl h
    · next h => exact iff_of_false nofun h
  refine ⟨fun fd => ?_, hwired.stdin, hwired.stdout, hrest, fun fd pipe hfd => ?_⟩
  · by_cases h0 : fd = 0
    · rw [h0, hwired.stdin]
      exact iff_of_true rfl hin
    · by_cases h1 : fd = 1
      · rw [h1, hwired.stdout]
        exact iff_of_true rfl hout
      · rw [hrest fd (by omega)]
        exact hsome fd
  · -- the write end is a setting, as no descriptor of the shell is one
    have hset : ∀ {n : ℕ} {x : Object}, (∀ p, x ≠ .writeEnd p) →
        lastSetting n x (settings [] cmd e.path) = .writeEnd pipe →
        pipe ++ [.left] <+: e.path := by
      intro n x hx hlast
      rcases lastSetting_mem n (settings [] cmd e.path) x with h | h
      · exact absurd (h.symm.trans hlast) (hx pipe)
      · rw [hlast] at h
        exact writeEnd_left cmd h
    by_cases h0 : fd = 0
    · rw [h0, hwired.stdin] at hfd
      exact hset (x := .inherited 0) (fun _ => nofun) (Option.some.inj hfd)
    · by_cases h1 : fd = 1
      · rw [h1, hwired.stdout] at hfd
        exact hset (x := .inherited 1) (fun _ => nofun) (Option.some.inj hfd)
      · rw [hrest fd (by omega)] at hfd
        simp only [initial] at hfd
        split at hfd <;> cases hfd

/-- A shell with 0, 1 and 2 open runs `a < f | b`. -/
theorem execv_descriptors_pipe : ∃ e ∈ runcmd (fun _ _ => true) []
      (.pipecmd (.redircmd (.execcmd [[97]]) [102] .input) (.execcmd [[98]])) (initial {0, 1, 2}),
    e.table.object 0 = some (.file [102] .read) ∧ e.table.object 1 = some (.writeEnd []) ∧
      ∀ fd, (e.table.object fd).isSome ↔ fd ∈ ({0, 1, 2} : Finset ℕ) := by
  refine ⟨_, List.mem_cons_self, ?_⟩
  obtain ⟨hopen, hin, hout, -, -⟩ := execv_descriptors
    (show 0 ∈ ({0, 1, 2} : Finset ℕ) by decide) (by decide)
    (fun _ _ => rfl) (.pipecmd (.redircmd (.execcmd [[97]]) [102] .input) (.execcmd [[98]]))
    (e := (runcmd (fun _ _ => true) [] (.pipecmd (.redircmd (.execcmd [[97]]) [102] .input)
      (.execcmd [[98]])) (initial {0, 1, 2})).head nofun) (List.head_mem _)
  exact ⟨hin, hout, hopen⟩

end ShellDescriptors
