import OsEngineering.FramedTriples
import OsEngineering.InodeAccounts
import OsEngineering.InodeReferences
import Mathlib.Algebra.BigOperators.Group.Finset.Piecewise
import Mathlib.Data.Multiset.Count

/-! Every path through a system call gives back the references that it takes, on any image of
the disk, so that between calls a reference count is the number of open files and current
directories. -/
namespace InodeCounts

open FaultState TransitionSystem KernelParams DirectoryTree PathWalk FiniteTally
open InodeReferences FramedTriples

/-- The call under way holds the references in `tmp`. -/
structure Owes (tmp : Multiset ℕ) (s : Fs) : Prop where
  refs : ∀ i, s.ref i = holders s i + tmp.count i
  live : ∀ f, (s.files f).ip ≠ none → 0 < (s.files f).ref

variable {α : Type} {x : Multiset ℕ} {s t : Fs} {i : ℕ}

abbrev Spec (a : Multiset ℕ) (c : FsCode α) (b : α → Multiset ℕ) : Prop := Triple Owes a c b

/-- Code that takes and gives back nothing. -/
abbrev Neutral (c : FsCode α) : Prop := Spec 0 c fun _ => 0

theorem neutral_run {c : FsCode α} {r : α} (hc : Neutral c) (h : Owes x s)
    (hrun : c s = .ok (r, t)) : Owes x t := by
  have hkeep := hc x s r t
  rw [zero_add] at hkeep
  exact hkeep h hrun

theorem Owes.congr (h : Owes x s) (hr : t.ref = s.ref) (hf : t.files = s.files)
    (hp : t.procs = s.procs) : Owes x t where
  refs := by
    intro i
    rw [hr, holders_congr hf hp]
    exact h.refs i
  live := by
    rw [hf]
    exact h.live

theorem Owes.nonneg (h : Owes x s) (i : ℕ) : 0 ≤ s.ref i := by
  rw [h.refs]
  omega

theorem Owes.give (h : Owes ({i} + x) s) (hr : t.ref = Function.update s.ref i (s.ref i - 1))
    (hf : t.files = s.files) (hp : t.procs = s.procs) : Owes x t where
  refs := by
    intro j
    have hj := h.refs j
    rw [hr, holders_congr hf hp]
    rw [Multiset.count_add, Multiset.count_singleton] at hj
    by_cases hji : j = i
    · subst hji
      rw [if_pos rfl] at hj
      rw [Function.update_self]
      omega
    · rw [if_neg hji] at hj
      rw [Function.update_of_ne hji]
      omega
  live := by
    rw [hf]
    exact h.live

theorem Owes.take (h : Owes x s) (hr : t.ref = Function.update s.ref i (s.ref i + 1))
    (hf : t.files = s.files) (hp : t.procs = s.procs) : Owes ({i} + x) t where
  refs := by
    intro j
    have hj := h.refs j
    rw [hr, holders_congr hf hp, Multiset.count_add, Multiset.count_singleton]
    by_cases hji : j = i
    · subst hji
      rw [if_pos rfl, Function.update_self]
      omega
    · rw [if_neg hji, Function.update_of_ne hji]
      omega
  live := by
    rw [hf]
    exact h.live

/-! Locks and references. -/

theorem modify_neutral {m : Fs → Fs} (hr : ∀ s, (m s).ref = s.ref)
    (hf : ∀ s, (m s).files = s.files) (hp : ∀ s, (m s).procs = s.procs) :
    Neutral (modify m) := by
  apply triple_modify
  intro x s h
  exact h.congr (hr s) (hf s) (hp s)

theorem panic_spec (msg : String) {a : Multiset ℕ} {b : α → Multiset ℕ} :
    Spec a (panic msg : FsCode α) b := triple_throw _

theorem acquiresleep_neutral (i : ℕ) : Neutral (acquiresleep i) := by
  intro x s r t h hrun
  by_cases hi : i ∈ s.held
  · rw [acquiresleep_deadlock hi] at hrun
    cases hrun
  · rw [acquiresleep_run hi] at hrun
    cases hrun
    exact h.congr rfl rfl rfl

theorem ilock_neutral (i : ℕ) : Neutral (ilock i) := by
  apply triple_get
  intro s
  apply triple_ite
  · intro _
    apply panic_spec
  · intro _
    apply triple_keep (acquiresleep_neutral i)
    intro _
    apply triple_ite
    · intro _
      exact triple_pure rfl
    · intro _
      apply triple_keep
      · exact modify_neutral (fun _ => rfl) (fun _ => rfl) fun _ => rfl
      intro _
      apply triple_ite
      · intro _
        apply panic_spec
      · intro _
        exact triple_pure rfl

theorem iunlock_neutral (i : ℕ) : Neutral (iunlock i) := by
  apply triple_get
  intro s
  apply triple_ite
  · intro _
    apply panic_spec
  · intro _ x s r t h hrun
    cases hrun
    exact h.congr rfl rfl rfl

theorem iget_spec (i : ℕ) : Spec 0 (iget i) fun r => {r} := by
  intro x s r t h hrun
  rw [zero_add] at h
  have hpos := h.nonneg i
  by_cases hg : canGet s i
  · rw [iget_run hg] at hrun
    cases hrun
    refine h.take ?_ (grab_files s i) (grab_procs s i)
    rw [grab_ref]
    by_cases hr : 0 < s.ref i
    · rw [if_pos hr]
    · have hz : s.ref i = 0 := by omega
      rw [if_neg hr, hz, zero_add]
  · rw [iget_full hg] at hrun
    cases hrun

theorem idup_spec (i : ℕ) : Spec 0 (idup i) fun r => {r} := by
  intro x s r t h hrun
  rw [zero_add] at h
  cases hrun
  exact h.take rfl rfl rfl

theorem iput_run {r : Unit} (hrun : iput i s = .ok (r, t)) :
    t.ref = Function.update s.ref i (s.ref i - 1) ∧ t.files = s.files ∧ t.procs = s.procs := by
  by_cases hi : i ∈ s.held
  · rw [iput_deadlock hi] at hrun
    cases hrun
  · by_cases hf : Frees s i
    · rw [iput_run_freed hi hf] at hrun
      cases hrun
      exact ⟨rfl, rfl, rfl⟩
    · rw [iput_run_kept hi hf] at hrun
      cases hrun
      exact ⟨rfl, rfl, rfl⟩

theorem iput_spec (i : ℕ) : Spec {i} (iput i) fun _ => 0 := by
  intro x s r t h hrun
  obtain ⟨hr, hf, hp⟩ := iput_run hrun
  rw [zero_add]
  exact h.give hr hf hp

theorem iunlockput_spec (i : ℕ) : Spec {i} (iunlockput i) fun _ => 0 := by
  apply triple_keep (iunlock_neutral i)
  intro _
  exact iput_spec i

theorem addNlink_neutral (i : ℕ) (n : ℤ) : Neutral (addNlink i n) :=
  modify_neutral (fun _ => rfl) (fun _ => rfl) fun _ => rfl

/-- The call ends with `iunlockput` of its last reference. -/
theorem done_spec (i : ℕ) {r : α} {b : α → Multiset ℕ} (h : b r = 0) :
    Spec {i} (iunlockput i >>= fun _ => (pure r : FsCode α)) b := by
  apply triple_give (add_zero _).symm (iunlockput_spec i)
  intro _
  exact triple_pure h

/-! Directories and paths. -/

/-- The reference that comes with the result of a lookup. -/
def found {β : Type} : Option (ℕ × β) → Multiset ℕ
  | none => 0
  | some (i, _) => {i}

theorem dirlookup_spec (dp : ℕ) (name : Name) : Spec 0 (dirlookup dp name) found := by
  apply triple_get
  intro s
  apply triple_ite
  · intro _
    apply panic_spec
  · intro _
    cases findEntry name (entries s dp) 0 with
    | none => exact triple_pure rfl
    | some e =>
      obtain ⟨inum, off⟩ := e
      intro x s r t h hrun
      obtain ⟨j, u, hj, hr⟩ := bind_ok hrun
      obtain ⟨rfl, rfl⟩ := pure_ok hr
      have hji : j = inum := by
        simp only [iget] at hj
        split at hj
        · cases hj
          rfl
        · split at hj
          · cases hj
            rfl
          · cases hj
      have hspec := iget_spec inum x s j t h hj
      rw [hji] at hspec
      exact hspec

theorem dirlink_neutral (dp : ℕ) (name : Name) (inum : ℕ) :
    Neutral (dirlink dp name inum) := by
  apply triple_bind (dirlookup_spec dp name)
  intro r
  cases r with
  | none =>
    apply triple_get
    intro s
    apply triple_ite
    · intro _
      apply panic_spec
    · intro _
      apply triple_keep
      · exact modify_neutral (fun _ => rfl) (fun _ => rfl) fun _ => rfl
      intro _
      exact triple_pure rfl
  | some e =>
    apply triple_give (add_zero _).symm (iput_spec e.1)
    intro _
    exact triple_pure rfl

theorem namexFrom_spec (par : Bool) (ip : ℕ) (names : List Name) :
    Spec {ip} (namexFrom par ip names) found := by
  induction names generalizing ip with
  | nil =>
    apply triple_ite
    · intro _
      apply triple_give (add_zero _).symm (iput_spec ip)
      intro _
      exact triple_pure rfl
    · intro _
      exact triple_pure rfl
  | cons name rest ih =>
    apply triple_keep (ilock_neutral ip)
    intro _
    apply triple_get
    intro s
    apply triple_ite
    · intro _
      apply triple_give (add_zero _).symm (iunlockput_spec ip)
      intro _
      exact triple_pure rfl
    · intro _
      apply triple_ite
      · intro _
        apply triple_keep (iunlock_neutral ip)
        intro _
        exact triple_pure rfl
      · intro _
        apply triple_take (dirlookup_spec ip name)
        intro r
        cases r with
        | none =>
          apply triple_give (add_comm _ _) (iunlockput_spec ip)
          intro _
          exact triple_pure rfl
        | some e =>
          apply triple_give (add_comm _ _) (iunlockput_spec ip)
          intro _
          exact ih e.1

theorem myproc_neutral (p : Fin NPROC) : Neutral (myproc p) := by
  intro x s r t h hrun
  simp only [myproc] at hrun
  split at hrun
  · cases hrun
    exact h
  · cases hrun

theorem namex_spec (p : Fin NPROC) (path : Path) (par : Bool) :
    Spec 0 (namex p path par) found := by
  apply triple_keep (myproc_neutral p)
  intro q
  have hrest : ∀ c : FsCode ℕ, (Spec 0 c fun r => {r}) →
      Spec 0 (c >>= fun ip => namexFrom par ip (elements path)) found := by
    intro c hc
    apply triple_bind hc
    intro ip
    exact namexFrom_spec par ip _
  by_cases hroot : path.head? = some '/'
  · simp only [if_pos hroot]
    exact hrest _ (iget_spec ROOTINO)
  · simp only [if_neg hroot]
    exact hrest _ (idup_spec q.cwd)

/-- The reference that namei() and create() return. -/
def single : Option ℕ → Multiset ℕ
  | none => 0
  | some i => {i}

theorem namei_spec (p : Fin NPROC) (path : Path) : Spec 0 (namei p path) single := by
  apply triple_bind (namex_spec p path false)
  intro r
  cases r with
  | none => exact triple_pure rfl
  | some e => exact triple_pure rfl

/-! Links. -/

theorem sysLink_neutral (p : Fin NPROC) (old new : Path) : Neutral (sysLink p old new) := by
  apply triple_bind (namei_spec p old)
  intro r
  cases r with
  | none => exact triple_pure rfl
  | some ip =>
    apply triple_keep (ilock_neutral ip)
    intro _
    apply triple_get
    intro s
    apply triple_ite
    · intro _
      exact done_spec ip rfl
    · intro _
      apply triple_keep (addNlink_neutral ip 1)
      intro _
      apply triple_keep (iunlock_neutral ip)
      intro _
      apply triple_take (namex_spec p new true)
      intro r
      -- the second path gives back its own reference, so {ip} is left in any case
      have hrest : ∀ linked : Bool, Spec {ip}
          (if linked = true then do
            iput ip
            pure 0
          else do
            ilock ip
            addNlink ip (-1)
            iunlockput ip
            pure (-1)) fun _ : ℤ => 0 := by
        intro linked
        apply triple_ite
        · intro _
          apply triple_give (add_zero _).symm (iput_spec ip)
          intro _
          exact triple_pure rfl
        · intro _
          apply triple_keep (ilock_neutral ip)
          intro _
          apply triple_keep (addNlink_neutral ip (-1))
          intro _
          exact done_spec ip rfl
      cases r with
      | none =>
        rw [show found (none : Option (ℕ × Name)) + single (some ip) = {ip} from zero_add _]
        exact triple_return (hrest false)
      | some e =>
        obtain ⟨dp, name⟩ := e
        apply triple_keep (ilock_neutral dp)
        intro _
        apply triple_keep (dirlink_neutral dp name ip)
        intro ok
        apply triple_give rfl (iunlockput_spec dp)
        intro _
        exact triple_return (hrest ok)

theorem sysUnlink_neutral (p : Fin NPROC) (path : Path) : Neutral (sysUnlink p path) := by
  apply triple_bind (namex_spec p path true)
  intro r
  cases r with
  | none => exact triple_pure rfl
  | some e =>
    obtain ⟨dp, name⟩ := e
    apply triple_keep (ilock_neutral dp)
    intro _
    apply triple_ite
    · intro _
      exact done_spec dp rfl
    · intro _
      apply triple_take (dirlookup_spec dp name)
      intro r
      cases r with
      | none =>
        rw [show found (none : Option (ℕ × ℕ)) + found (some (dp, name)) = {dp} from zero_add _]
        exact done_spec dp rfl
      | some e =>
        obtain ⟨ip, off⟩ := e
        apply triple_keep (ilock_neutral ip)
        intro _
        apply triple_get
        intro s
        apply triple_ite
        · intro _
          apply panic_spec
        · intro _
          apply triple_ite
          · intro _
            apply triple_give rfl (iunlockput_spec ip)
            intro _
            exact done_spec dp rfl
          · intro _
            apply triple_keep
            · exact modify_neutral (fun _ => rfl) (fun _ => rfl) fun _ => rfl
            intro _
            have hrest : Spec ({ip} + {dp}) (do
                iunlockput dp
                addNlink ip (-1)
                iunlockput ip
                pure 0) fun _ : ℤ => 0 := by
              apply triple_give (add_comm _ _) (iunlockput_spec dp)
              intro _
              apply triple_keep (addNlink_neutral ip (-1))
              intro _
              exact done_spec ip rfl
            apply triple_ite
            · intro _
              apply triple_keep (addNlink_neutral dp (-1))
              intro _
              exact hrest
            · intro _
              exact hrest

/-! New inodes. -/

theorem ialloc_spec (ninodes : ℕ) (t : FileType) :
    Spec 0 (ialloc ninodes t) fun i => {i} := by
  apply triple_get
  intro s
  dsimp only
  cases (List.range ninodes).find? fun i => decide (1 ≤ i ∧ type s i = .free) with
  | none => apply panic_spec
  | some inum =>
    apply triple_keep
    · exact modify_neutral (fun _ => rfl) (fun _ => rfl) fun _ => rfl
    intro _
    exact iget_spec inum

theorem createEntries_neutral (t : FileType) (dp : ℕ) (name : Name) (ip : ℕ) :
    Neutral (createEntries t dp name ip) := by
  have hlast : Neutral (do
      let ok ← dirlink dp name ip
      if ok = true then pure () else DirectoryTree.panic "create: dirlink") := by
    apply triple_keep (dirlink_neutral dp name ip)
    intro ok
    apply triple_ite
    · intro _
      exact triple_pure rfl
    · intro _
      apply panic_spec
  have hdots : ∀ dotdot : Bool, Neutral (do
      if dotdot = true then pure () else DirectoryTree.panic "create dots"
      let ok ← dirlink dp name ip
      if ok = true then pure () else DirectoryTree.panic "create: dirlink") := by
    intro dotdot
    apply triple_ite
    · intro _
      exact triple_return hlast
    · intro _ x s r t _ hrun
      cases hrun
  apply triple_ite
  · intro _
    apply triple_keep (addNlink_neutral dp 1)
    intro _
    apply triple_keep (dirlink_neutral ip ['.'] ip)
    intro dot
    apply triple_ite
    · intro _
      apply triple_keep (dirlink_neutral ip ['.', '.'] dp)
      exact hdots
    · intro _
      exact triple_return (hdots false)
  · intro _
    exact hlast

theorem create_spec (ninodes : ℕ) (p : Fin NPROC) (path : Path) (t : FileType)
    (major minor : BitVec 16) : Spec 0 (create ninodes p path t major minor) single := by
  apply triple_bind (namex_spec p path true)
  intro r
  cases r with
  | none => exact triple_pure rfl
  | some e =>
    obtain ⟨dp, name⟩ := e
    apply triple_keep (ilock_neutral dp)
    intro _
    apply triple_take (dirlookup_spec dp name)
    intro r
    cases r with
    | some e =>
      obtain ⟨ip, off⟩ := e
      apply triple_give (add_comm _ _) (iunlockput_spec dp)
      intro _
      apply triple_keep (ilock_neutral ip)
      intro _
      apply triple_get
      intro s
      apply triple_ite
      · intro _
        exact triple_pure rfl
      · intro _
        exact done_spec ip rfl
    | none =>
      rw [show found (none : Option (ℕ × ℕ)) + found (some (dp, name)) = {dp} from zero_add _]
      apply triple_take (ialloc_spec ninodes t)
      intro ip
      apply triple_keep (ilock_neutral ip)
      intro _
      apply triple_keep
      · exact modify_neutral (fun _ => rfl) (fun _ => rfl) fun _ => rfl
      intro _
      apply triple_keep (createEntries_neutral t dp name ip)
      intro _
      apply triple_give (add_comm _ _) (iunlockput_spec dp)
      intro _
      exact triple_pure rfl

/-! Open files. -/

theorem count_single (o : Option ℕ) (i : ℕ) :
    (single o).count i = if o = some i then 1 else 0 := by
  cases o with
  | none => rfl
  | some j =>
    change Multiset.count i {j} = _
    rw [Multiset.count_singleton]
    apply if_congr _ rfl rfl
    constructor
    · intro h
      exact congrArg some h.symm
    · intro h
      exact (Option.some.inj h).symm

/-- A reference moves between the call and an open file. -/
theorem Owes.withFile {y : Multiset ℕ} (h : Owes x s) (f : Fin NFILE) (g : File)
    (hlive : g.ip ≠ none → 0 < g.ref) (hmove : y + single g.ip = x + single (s.files f).ip) :
    Owes y (InodeReferences.withFile s f g) where
  refs := by
    intro i
    have htally := tally_update (opens s) f g.ip i
    have hr := h.refs i
    have hc := congrArg (Multiset.count i) hmove
    rw [Multiset.count_add, Multiset.count_add, count_single, count_single] at hc
    change s.ref i = (tally (cwds s) i +
      tally (opens (InodeReferences.withFile s f g)) i : ℕ) + y.count i
    rw [opens_withFile]
    simp only [holders] at hr
    change _ + (if (s.files f).ip = some i then 1 else 0) = _ at htally
    omega
  live := by
    intro k hk
    change (Function.update s.files f g k).ip ≠ none at hk
    change 0 < (Function.update s.files f g k).ref
    by_cases hkf : k = f
    · subst hkf
      rw [Function.update_self] at hk ⊢
      exact hlive hk
    · rw [Function.update_of_ne hkf] at hk ⊢
      exact h.live k hk

/-- A file keeps its inode. -/
theorem Owes.recount (h : Owes x s) (f : Fin NFILE) {n : ℤ} (hn : 0 < n) :
    Owes x (InodeReferences.withFile s f ⟨n, (s.files f).ip⟩) :=
  h.withFile f _ (fun _ => hn) rfl

theorem filealloc_run {r : Option (Fin NFILE)} (h : Owes x s) (hrun : filealloc s = .ok (r, t)) :
    Owes x t ∧ t.procs = s.procs ∧ ∀ f, r = some f → (t.files f).ip = none := by
  obtain ⟨s', u, hget, hrest⟩ := bind_ok hrun
  cases hget
  cases hfind : (List.finRange NFILE).find? fun f => decide ((s.files f).ref = 0) with
  | none =>
    rw [hfind] at hrest
    cases hrest
    exact ⟨h, rfl, nofun⟩
  | some f =>
    rw [hfind] at hrest
    cases hrest
    have hzero : (s.files f).ref = 0 := by simpa using List.find?_some hfind
    have hip : (s.files f).ip = none := by
      by_contra hne
      have := h.live f hne
      omega
    refine ⟨h.recount f Int.one_pos, rfl, ?_⟩
    rintro g hg
    cases hg
    change (Function.update s.files f _ f).ip = none
    rw [Function.update_self]
    exact hip

theorem filealloc_neutral : Neutral filealloc := by
  intro x s r t h hrun
  exact (filealloc_run h hrun).1

theorem fileclose_run {f : Fin NFILE} {r : Unit} (h : Owes x s)
    (hrun : fileclose f s = .ok (r, t)) : Owes x t ∧ t.procs = s.procs := by
  obtain ⟨s', u, hget, hrest⟩ := bind_ok hrun
  cases hget
  split at hrest
  · cases hrest
  · split at hrest
    · next hpos =>
      cases hrest
      exact ⟨h.recount f hpos, rfl⟩
    · obtain ⟨_, u, hset, hrest⟩ := bind_ok hrest
      cases hset
      cases hip : (s.files f).ip with
      | none =>
        rw [hip] at hrest
        cases hrest
        refine ⟨h.withFile f ⟨0, none⟩ (fun hne => absurd rfl hne) ?_, rfl⟩
        rw [hip]
      | some ip =>
        rw [hip] at hrest
        have hclosed : Owes ({ip} + x) (InodeReferences.withFile s f ⟨0, none⟩) := by
          apply h.withFile f ⟨0, none⟩ fun hne => absurd rfl hne
          rw [hip, add_comm x]
          exact add_zero _
        obtain ⟨hr, hf, hp⟩ := iput_run hrest
        exact ⟨hclosed.give hr hf hp, hp⟩

theorem fileclose_neutral (f : Fin NFILE) : Neutral (fileclose f) := by
  intro x s r t h hrun
  exact (fileclose_run h hrun).1

theorem filedup_run {f : Fin NFILE} {r : Unit} (h : Owes x s)
    (hrun : filedup f s = .ok (r, t)) : Owes x t ∧ t.procs = s.procs := by
  obtain ⟨s', u, hget, hrest⟩ := bind_ok hrun
  cases hget
  split at hrest
  · cases hrest
  · next hpos =>
    cases hrest
    exact ⟨h.recount f (by omega), rfl⟩

/-! Processes. -/

/-- The reference that belongs to the process `q`. -/
def cwdOf (q : Option Proc) : Multiset ℕ := single (q.map Proc.cwd)

/-- A reference moves between the call and a current directory. -/
theorem Owes.withProc {y : Multiset ℕ} (h : Owes x s) (p : Fin NPROC) (q : Option Proc)
    (hmove : y + cwdOf q = x + cwdOf (s.procs p)) :
    Owes y (InodeReferences.withProc s p q) where
  refs := by
    intro i
    have htally := tally_update (cwds s) p (q.map Proc.cwd) i
    have hr := h.refs i
    have hc := congrArg (Multiset.count i) hmove
    rw [Multiset.count_add, Multiset.count_add, cwdOf, cwdOf, count_single, count_single] at hc
    change s.ref i = (tally (cwds (InodeReferences.withProc s p q)) i +
      tally (opens s) i : ℕ) + y.count i
    rw [cwds_withProc]
    simp only [holders] at hr
    change _ + (if (s.procs p).map Proc.cwd = some i then 1 else 0) = _ at htally
    omega
  live := h.live

theorem Owes.setOfile {p : Fin NPROC} {q : Proc} (h : Owes x s) (hq : s.procs p = some q)
    (ofile : Fin NOFILE → Option (Fin NFILE)) :
    Owes x (InodeReferences.withProc s p (some { q with ofile := ofile })) := by
  apply h.withProc
  rw [hq]
  rfl

theorem myproc_run {p : Fin NPROC} {q : Proc} (hrun : myproc p s = .ok (q, t)) :
    s.procs p = some q ∧ t = s := by
  simp only [myproc] at hrun
  split at hrun
  · next hq =>
    cases hrun
    exact ⟨hq, rfl⟩
  · cases hrun

/-- iput() of the current directory, before the process gets another one or ends. -/
theorem leave_run {p : Fin NPROC} {q : Proc} {r : Unit} (q' : Option Proc)
    (h : Owes (cwdOf q' + x) s) (hq : s.procs p = some q) (hrun : iput q.cwd s = .ok (r, t)) :
    Owes x (InodeReferences.withProc t p q') := by
  have hmoved : Owes ({q.cwd} + x) (InodeReferences.withProc s p q') := by
    apply h.withProc
    rw [hq, add_comm (cwdOf q'), add_comm _ (cwdOf (some q)), add_assoc]
    rfl
  obtain ⟨hr, hf, hp⟩ := iput_run hrun
  have hprocs : Function.update t.procs p q' = Function.update s.procs p q' := by rw [hp]
  exact hmoved.give (t := InodeReferences.withProc t p q') hr hf hprocs

/-! The calls on files. -/

theorem fdalloc_run {p : Fin NPROC} {f : Fin NFILE} {r : Option (Fin NOFILE)} (h : Owes x s)
    (hrun : fdalloc p f s = .ok (r, t)) : Owes x t ∧ t.files = s.files := by
  obtain ⟨q, u, hmy, hrest⟩ := bind_ok hrun
  obtain ⟨hq, rfl⟩ := myproc_run hmy
  cases hfind : (List.finRange NOFILE).find? fun fd => decide (q.ofile fd = none) with
  | none =>
    rw [hfind] at hrest
    cases hrest
    exact ⟨h, rfl⟩
  | some fd =>
    rw [hfind] at hrest
    cases hrest
    exact ⟨h.setOfile hq _, rfl⟩

theorem fdalloc_neutral (p : Fin NPROC) (f : Fin NFILE) : Neutral (fdalloc p f) := by
  intro x s r t h hrun
  exact (fdalloc_run h hrun).1

theorem iunlock_run {r : Unit} (hrun : iunlock i s = .ok (r, t)) : t.files = s.files := by
  obtain ⟨s', u, hget, hrest⟩ := bind_ok hrun
  cases hget
  split at hrest
  · cases hrest
  · cases hrest
    rfl

theorem openFile_spec (p : Fin NPROC) (ip : ℕ) : Spec {ip} (openFile p ip) fun _ => 0 := by
  intro x s r t h hrun
  obtain ⟨f, u, halloc, hrest⟩ := bind_ok hrun
  obtain ⟨hu, -, hblank⟩ := filealloc_run h halloc
  cases f with
  | none => exact done_spec ip (b := fun _ => 0) rfl x u r t hu hrest
  | some f =>
    obtain ⟨fd, v, hfd, hrest⟩ := bind_ok hrest
    obtain ⟨hv, hfiles⟩ := fdalloc_run hu hfd
    cases fd with
    | none =>
      have hfail : Spec {ip} (do
          fileclose f
          iunlockput ip
          pure (-1)) fun _ : ℤ => 0 := by
        apply triple_keep (fileclose_neutral f)
        intro _
        exact done_spec ip rfl
      exact hfail x v r t hv hrest
    | some fd =>
      obtain ⟨_, w, hunlock, hrest⟩ := bind_ok hrest
      have hw : Owes ({ip} + x) w := neutral_run (iunlock_neutral ip) hv hunlock
      have hip : (w.files f).ip = none := by
        rw [iunlock_run hunlock, hfiles]
        exact hblank f rfl
      cases hrest
      rw [zero_add]
      -- the reference of the call becomes that of the file
      apply hw.withFile f ⟨1, some ip⟩ fun _ => Int.one_pos
      rw [hip, add_comm x]
      exact (add_zero _).symm

theorem sysOpen_neutral (ninodes : ℕ) (p : Fin NPROC) (path : Path) (omode : BitVec 32) :
    Neutral (sysOpen ninodes p path omode) := by
  apply triple_ite
  · intro _
    apply triple_bind (create_spec ninodes p path .file 0 0)
    intro r
    cases r with
    | none => exact triple_pure rfl
    | some ip => exact openFile_spec p ip
  · intro _
    apply triple_bind (namei_spec p path)
    intro r
    cases r with
    | none => exact triple_pure rfl
    | some ip =>
      apply triple_keep (ilock_neutral ip)
      intro _
      apply triple_get
      intro s
      apply triple_ite
      · intro _
        exact done_spec ip rfl
      · intro _
        exact openFile_spec p ip

/-- sys_mkdir() and sys_mknod(). -/
theorem createOnly_neutral (ninodes : ℕ) (p : Fin NPROC) (path : Path) (t : FileType)
    (major minor : BitVec 16) : Neutral (create ninodes p path t major minor >>= fun r =>
      match r with
      | none => (pure (-1) : FsCode ℤ)
      | some ip => do
        iunlockput ip
        pure 0) := by
  apply triple_bind (create_spec ninodes p path t major minor)
  intro r
  cases r with
  | none => exact triple_pure rfl
  | some ip => exact done_spec ip rfl

theorem sysChdir_neutral (p : Fin NPROC) (path : Path) : Neutral (sysChdir p path) := by
  apply triple_bind (namei_spec p path)
  intro r
  cases r with
  | none => exact triple_pure rfl
  | some ip =>
    apply triple_keep (ilock_neutral ip)
    intro _
    apply triple_get
    intro s
    apply triple_ite
    · intro _
      exact done_spec ip rfl
    · intro _
      apply triple_keep (iunlock_neutral ip)
      intro _ x s r t h hrun
      obtain ⟨q, u, hmy, hrest⟩ := bind_ok hrun
      obtain ⟨hq, rfl⟩ := myproc_run hmy
      obtain ⟨_, v, hput, hrest⟩ := bind_ok hrest
      cases hrest
      rw [zero_add]
      exact leave_run (some { q with cwd := ip }) h hq hput

theorem exec_neutral (p : Fin NPROC) (path : Path) (loaded : Bool) :
    Neutral (DirectoryTree.exec p path loaded) := by
  apply triple_bind (namei_spec p path)
  intro r
  cases r with
  | none => exact triple_pure rfl
  | some ip =>
    apply triple_keep (ilock_neutral ip)
    intro _
    exact done_spec ip rfl

theorem sysClose_neutral (p : Fin NPROC) (fd : Fin NOFILE) : Neutral (sysClose p fd) := by
  intro x s r t h hrun
  obtain ⟨q, u, hmy, hrest⟩ := bind_ok hrun
  obtain ⟨hq, rfl⟩ := myproc_run hmy
  rw [zero_add] at h ⊢
  cases hf : q.ofile fd with
  | none =>
    rw [hf] at hrest
    cases hrest
    exact h
  | some f =>
    rw [hf] at hrest
    obtain ⟨_, v, hset, hrest⟩ := bind_ok hrest
    cases hset
    obtain ⟨_, w, hclose, hrest⟩ := bind_ok hrest
    cases hrest
    exact (fileclose_run (h.setOfile hq _) hclose).1

theorem sysDup_neutral (p : Fin NPROC) (fd : Fin NOFILE) : Neutral (sysDup p fd) := by
  apply triple_keep (myproc_neutral p)
  intro q
  cases q.ofile fd with
  | none => exact triple_pure rfl
  | some f =>
    apply triple_keep (fdalloc_neutral p f)
    intro r
    cases r with
    | none => exact triple_pure rfl
    | some fd1 =>
      apply triple_keep
      · intro x s r t h hrun
        exact (filedup_run h hrun).1
      intro _
      exact triple_pure rfl

theorem pipealloc_neutral (page : Bool) : Neutral (pipealloc page) := by
  apply triple_keep filealloc_neutral
  intro r
  cases r with
  | none => exact triple_pure rfl
  | some f0 =>
    apply triple_keep filealloc_neutral
    intro r
    cases r with
    | none =>
      apply triple_keep (fileclose_neutral f0)
      intro _
      exact triple_pure rfl
    | some f1 =>
      apply triple_ite
      · intro _
        exact triple_pure rfl
      · intro _
        apply triple_keep (fileclose_neutral f0)
        intro _
        apply triple_keep (fileclose_neutral f1)
        intro _
        exact triple_pure rfl

theorem clearFd_neutral (p : Fin NPROC) (fd : Fin NOFILE) : Neutral (myproc p >>= fun q =>
    setProc p (some { q with ofile := Function.update q.ofile fd none })) := by
  intro x s r t h hrun
  obtain ⟨q, u, hmy, hrest⟩ := bind_ok hrun
  obtain ⟨hq, rfl⟩ := myproc_run hmy
  cases hrest
  exact h.setOfile hq _

theorem sysPipe_neutral (p : Fin NPROC) (page : Bool) : Neutral (sysPipe p page) := by
  apply triple_keep (pipealloc_neutral page)
  intro r
  cases r with
  | none => exact triple_pure rfl
  | some e =>
    obtain ⟨rf, wf⟩ := e
    have hclose : Neutral (do
        fileclose rf
        fileclose wf
        (pure (-1) : FsCode ℤ)) := by
      apply triple_keep (fileclose_neutral rf)
      intro _
      apply triple_keep (fileclose_neutral wf)
      intro _
      exact triple_pure rfl
    apply triple_keep (fdalloc_neutral p rf)
    intro r
    cases r with
    | none => exact hclose
    | some fd0 =>
      apply triple_keep (fdalloc_neutral p wf)
      intro r
      cases r with
      | none =>
        have hclear := triple_keep (clearFd_neutral p fd0) fun _ => hclose
        rw [bind_assoc] at hclear
        exact hclear
      | some fd1 => exact triple_pure rfl

theorem lockRounds_neutral (ip k : ℕ) : Neutral (lockRounds ip k) := by
  induction k with
  | zero => exact triple_pure rfl
  | succ k ih =>
    apply triple_keep (ilock_neutral ip)
    intro _
    apply triple_keep (iunlock_neutral ip)
    intro _
    exact ih

theorem useFile_neutral (p : Fin NPROC) (fd : Fin NOFILE) (rounds : ℕ) (result : ℤ) :
    Neutral (useFile p fd rounds result) := by
  apply triple_keep (myproc_neutral p)
  intro q
  cases q.ofile fd with
  | none => exact triple_pure rfl
  | some f =>
    apply triple_get
    intro s
    cases (s.files f).ip with
    | none => exact triple_pure rfl
    | some ip =>
      apply triple_keep (lockRounds_neutral ip rounds)
      intro _
      exact triple_pure rfl

/-! exit() and fork(). -/

theorem closeAll_neutral (p : Fin NPROC) (fds : List (Fin NOFILE)) :
    Neutral (closeAll p fds) := by
  induction fds with
  | nil => exact triple_pure rfl
  | cons fd fds ih =>
    intro x s r t h hrun
    obtain ⟨q, u, hmy, hrest⟩ := bind_ok hrun
    obtain ⟨hq, rfl⟩ := myproc_run hmy
    rw [zero_add] at h ⊢
    cases hf : q.ofile fd with
    | none =>
      simp only [hf] at hrest
      exact neutral_run ih h hrest
    | some f =>
      simp only [hf] at hrest
      obtain ⟨_, v, hclose, hrest⟩ := bind_ok hrest
      obtain ⟨hv, hprocs⟩ := fileclose_run h hclose
      obtain ⟨_, w, hset, hrest⟩ := bind_ok hrest
      cases hset
      apply neutral_run ih (hv.setOfile _ _) hrest
      rw [hprocs]
      exact hq

theorem exit_neutral (p : Fin NPROC) : Neutral (DirectoryTree.exit p) := by
  apply triple_ite
  · intro _
    apply panic_spec
  · intro _
    apply triple_keep (closeAll_neutral p _)
    intro _ x s r t h hrun
    obtain ⟨q, u, hmy, hrest⟩ := bind_ok hrun
    obtain ⟨hq, rfl⟩ := myproc_run hmy
    obtain ⟨_, v, hput, hrest⟩ := bind_ok hrest
    cases hrest
    rw [zero_add]
    exact leave_run none h hq hput

theorem dupAll_run {q : Proc} {fds : List (Fin NOFILE)} {r : Unit} (h : Owes x s)
    (hrun : dupAll q fds s = .ok (r, t)) : Owes x t ∧ t.procs = s.procs := by
  induction fds generalizing s with
  | nil =>
    cases hrun
    exact ⟨h, rfl⟩
  | cons fd fds ih =>
    simp only [dupAll] at hrun
    cases hf : q.ofile fd with
    | none =>
      rw [hf] at hrun
      exact ih h hrun
    | some f =>
      rw [hf] at hrun
      obtain ⟨_, u, hdup, hrest⟩ := bind_ok hrun
      obtain ⟨hu, hprocs⟩ := filedup_run h hdup
      obtain ⟨ht, hprocs'⟩ := ih hu hrest
      exact ⟨ht, hprocs'.trans hprocs⟩

theorem fork_run {p np : Fin NPROC} {r : ℤ} (h : Owes x s) (hfree : s.procs np = none)
    (hrun : DirectoryTree.fork p np s = .ok (r, t)) : Owes x t := by
  obtain ⟨q, u, hmy, hrest⟩ := bind_ok hrun
  obtain ⟨hq, rfl⟩ := myproc_run hmy
  obtain ⟨_, v, hdup, hrest⟩ := bind_ok hrest
  obtain ⟨hv, hprocs⟩ := dupAll_run h hdup
  obtain ⟨cwd, w, hidup, hrest⟩ := bind_ok hrest
  have hw := idup_spec q.cwd x v cwd w
  rw [zero_add] at hw
  have hw := hw hv hidup
  have hwprocs : w.procs = v.procs := by
    cases hidup
    rfl
  cases hrest
  -- the child is the holder of the reference that idup() took
  apply hw.withProc
  rw [hwprocs, hprocs, hfree, add_comm _ x]
  exact (add_zero _).symm

/-! Runs. -/

theorem call_run {ninodes : ℕ} {e : Event} {r : ℤ} {halted : Option Fault}
    (he : Enabled ⟨s, halted⟩ e) (h : Owes 0 s)
    (hrun : e.call.run ninodes e.p s = .ok (r, t)) : Owes 0 t := by
  have hneutral : ∀ {c : FsCode ℤ}, Neutral c → c s = .ok (r, t) → Owes 0 t := fun hc =>
    neutral_run hc h
  obtain ⟨p, call⟩ := e
  cases call with
  | link old new => exact hneutral (sysLink_neutral p old new) hrun
  | unlink path => exact hneutral (sysUnlink_neutral p path) hrun
  | «open» path omode => exact hneutral (sysOpen_neutral ninodes p path omode) hrun
  | mkdir path => exact hneutral (createOnly_neutral ninodes p path .dir 0 0) hrun
  | mknod path major minor =>
    exact hneutral (createOnly_neutral ninodes p path .dev major minor) hrun
  | chdir path => exact hneutral (sysChdir_neutral p path) hrun
  | exec path loaded => exact hneutral (exec_neutral p path loaded) hrun
  | close fd => exact hneutral (sysClose_neutral p fd) hrun
  | dup fd => exact hneutral (sysDup_neutral p fd) hrun
  | pipe page => exact hneutral (sysPipe_neutral p page) hrun
  | use fd rounds result => exact hneutral (useFile_neutral p fd rounds result) hrun
  | exit => exact hneutral (exit_neutral p) hrun
  | fork np => exact fork_run h he.2.2 hrun

theorem step_owes {ninodes : ℕ} {s t : State} {e : Event} (h : Owes 0 s.fs)
    (hs : (machine ninodes).Step s e t) : Owes 0 t.fs := by
  obtain ⟨he, rfl⟩ := hs
  change Owes 0 (next ninodes s e).fs
  cases hrun : e.call.run ninodes e.p s.fs with
  | error f =>
    simp only [next, hrun]
    exact h
  | ok r =>
    simp only [next, hrun]
    exact call_run he h hrun

/-- After userinit(): the first process has the root as its current directory. -/
def booted (dinodes : ℕ → Dinode) : State where
  fs := {
    dinodes := dinodes
    ref := fun i => if i = ROOTINO then 1 else 0
    valid := fun _ => false
    inuse := 1
    held := []
    files := fun _ => ⟨0, none⟩
    procs := fun p => if p = initproc then some ⟨ROOTINO, fun _ => none⟩ else none
    births := fun _ => 0 }
  halted := none

theorem booted_owes (dinodes : ℕ → Dinode) : Owes 0 (booted dinodes).fs where
  refs := by
    intro i
    have hopens : tally (opens (booted dinodes).fs) i = 0 :=
      Finset.sum_eq_zero fun f _ => if_neg (by rintro ⟨⟩)
    have hcwds : tally (cwds (booted dinodes).fs) i = if i = ROOTINO then 1 else 0 := by
      rw [tally, Finset.sum_eq_single initproc]
      · apply if_congr _ rfl rfl
        constructor
        · intro h
          exact (Option.some.inj h).symm
        · rintro rfl
          rfl
      · intro p _ hp
        apply if_neg
        change Option.map Proc.cwd (if p = initproc then _ else none) ≠ _
        rw [if_neg hp]
        rintro ⟨⟩
      · intro h
        exact absurd (Finset.mem_univ _) h
    change (if i = ROOTINO then 1 else 0) = _
    rw [holders, hopens, hcwds, Multiset.count_zero]
    split <;> rfl
  live := fun f h => absurd rfl h

theorem run_owes {ninodes : ℕ} {dinodes : ℕ → Dinode} {es : List Event} {s : State}
    (r : Run (machine ninodes).Step (· = booted dinodes) es s) : Owes 0 s.fs := by
  refine r.invariant (I := fun s => Owes 0 s.fs) ?_ ?_
  · intro s hs
    rw [hs]
    exact booted_owes dinodes
  · intro s e t h hs
    exact step_owes h hs

/-- Each reference is that of an open file or of a current directory. -/
def Accounted (s : Fs) : Prop := ∀ i, s.ref i =
  (Finset.univ.filter fun f => 0 < (s.files f).ref ∧ (s.files f).ip = some i).card +
    (Finset.univ.filter fun p => (s.procs p).map Proc.cwd = some i).card

theorem Owes.accounted (h : Owes 0 s) : Accounted s := by
  intro i
  have hopens : tally (opens s) i =
      (Finset.univ.filter fun f => 0 < (s.files f).ref ∧ (s.files f).ip = some i).card := by
    rw [tally, Finset.card_filter]
    apply Finset.sum_congr rfl
    intro f _
    apply if_congr _ rfl rfl
    constructor
    · intro hf
      refine ⟨h.live f ?_, hf⟩
      intro hnone
      rw [opens, hnone] at hf
      cases hf
    · exact And.right
  have hcwds : tally (cwds s) i =
      (Finset.univ.filter fun p => (s.procs p).map Proc.cwd = some i).card := by
    rw [tally, Finset.card_filter]
    rfl
  rw [h.refs, holders, hopens, hcwds, Multiset.count_zero]
  omega

theorem references_accounted {H : Type} [Fintype H] [DecidableEq H] (ninodes : ℕ) :
    (∀ dinodes es s, Run (machine ninodes).Step (· = booted dinodes) es s → Accounted s.fs) ∧
      ∀ disk es (s : InodeCache.State H),
        Run (InodeCache.machine ninodes).Step (· = InodeCache.initial disk) es s →
          ∀ j k, 0 < (s.icache j).ref → 0 < (s.icache k).ref →
            InodeAccounts.SameKey (s.icache j) (s.icache k) → j = k := by
  constructor
  · intro dinodes es s r
    exact (run_owes r).accounted
  · intro disk es s r
    exact (InodeAccounts.run_accounts r).unique

/-- A disk with nothing but the root directory. -/
def rootOnly : ℕ → Dinode := fun i =>
  if i = ROOTINO then ⟨.dir, 0, 0, 1, [⟨ROOTINO, ['.'], 0⟩, ⟨ROOTINO, ['.', '.'], 0⟩]⟩
  else ⟨.free, 0, 0, 0, []⟩

def child : Fin NPROC := ⟨1, one_lt_NPROC⟩

def fd0 : Fin NOFILE := ⟨0, by decide⟩

/-- A file open in two processes, their current directories, and calls that fail. -/
def sharedFile : List Event :=
  [⟨initproc, .open ['f'] O_CREATE⟩, ⟨initproc, .fork child⟩, ⟨child, .mkdir ['d']⟩,
   ⟨child, .chdir ['d']⟩, ⟨child, .link ['.', '.', '/', 'f'] ['g']⟩, ⟨child, .dup fd0⟩,
   ⟨child, .unlink ['.', '.', '/', 'd']⟩, ⟨child, .open ['g'] 0⟩,
   ⟨child, .link ['g'] ['x', '/', 'y']⟩, ⟨initproc, .close fd0⟩]

def oneInode : InodeCache.Dev → ℕ → InodeCache.Dinode := fun _ _ => InodeCache.fresh 2

def twoHandles : List (InodeCache.Event (Fin 2)) := [.iget p0 1 1, .iget p1 1 1]

theorem references_accounted_shared :
    Accounted ((machine 4).exec (booted rootOnly) sharedFile).fs ∧
      ((machine 4).exec (booted rootOnly) sharedFile).fs.ref 2 = 2 ∧
      ∀ j k, 0 < (((InodeCache.machine 4).exec (InodeCache.initial oneInode)
          twoHandles).icache j).ref →
        0 < (((InodeCache.machine 4).exec (InodeCache.initial oneInode)
          twoHandles).icache k).ref →
        InodeAccounts.SameKey (((InodeCache.machine 4).exec (InodeCache.initial oneInode)
          twoHandles).icache j) (((InodeCache.machine 4).exec (InodeCache.initial oneInode)
          twoHandles).icache k) → j = k := by
  refine ⟨(references_accounted (H := Fin 2) 4).1 _ _ _ (Machine.Valid.run ?_), ?_,
    (references_accounted (H := Fin 2) 4).2 _ _ _ (Machine.Valid.run ?_)⟩
  · decide +kernel
  · decide +kernel
  · decide +kernel

end InodeCounts
