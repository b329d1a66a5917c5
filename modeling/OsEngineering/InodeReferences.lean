import OsEngineering.FiniteTally
import OsEngineering.PathWalk

/-! Reference counts are exact: one for each current directory, one for each open file, and
one for each reference a system call holds for itself. -/
namespace InodeReferences

open FaultState KernelParams DirectoryTree PathWalk FiniteTally

def cwds (s : Fs) : Fin NPROC → Option ℕ := fun p => (s.procs p).map Proc.cwd

def opens (s : Fs) : Fin NFILE → Option ℕ := fun f => (s.files f).ip

def holders (s : Fs) (i : ℕ) : ℕ := tally (cwds s) i + tally (opens s) i

/-- In the middle of a system call: `tmp` lists its references and `L` its locks. -/
structure Mid (tmp L : List ℕ) (s : Fs) : Prop where
  refs : ∀ i, s.ref i = holders s i + tmp.count i
  valid : ∀ i, s.valid i = true → type s i ≠ .free
  orphans : ∀ i, type s i ≠ .free → nlink s i = 0 → 0 < s.ref i ∧ s.valid i = true
  idle : ∀ f, (s.files f).ref = 0 → (s.files f).ip = none
  held : s.held = L
  locked : ∀ i ∈ L, s.valid i = true

/-- What the tree and the holders of references are made of. -/
structure SameTree (s t : Fs) : Prop where
  dinodes : t.dinodes = s.dinodes
  births : t.births = s.births
  files : t.files = s.files
  procs : t.procs = s.procs

variable {tmp L : List ℕ} {s t u : Fs} {i : ℕ}

theorem SameTree.refl (s : Fs) : SameTree s s := ⟨rfl, rfl, rfl, rfl⟩

theorem SameTree.trans (h : SameTree s t) (g : SameTree t u) : SameTree s u :=
  ⟨g.dinodes.trans h.dinodes, g.births.trans h.births, g.files.trans h.files,
    g.procs.trans h.procs⟩

theorem SameTree.type_eq (h : SameTree s t) (i : ℕ) : type t i = type s i := by
  unfold type
  rw [h.dinodes]

theorem SameTree.nlink_eq (h : SameTree s t) (i : ℕ) : nlink t i = nlink s i := by
  unfold nlink
  rw [h.dinodes]

theorem SameTree.entries_eq (h : SameTree s t) (i : ℕ) : entries t i = entries s i := by
  unfold entries
  rw [h.dinodes]

theorem SameTree.holders_eq (h : SameTree s t) (i : ℕ) : holders t i = holders s i := by
  unfold holders cwds opens
  rw [h.files, h.procs]

theorem SameTree.grab (s : Fs) (i : ℕ) : SameTree s (grab s i) :=
  ⟨grab_dinodes s i, grab_births s i, grab_files s i, grab_procs s i⟩

theorem SameTree.alike (h : Alike s t) : SameTree s t := ⟨h.dinodes, h.births, h.files, h.procs⟩

theorem SameTree.taken (s : Fs) (r : Option (ℕ × Name)) : SameTree s (taken s r) := by
  cases r with
  | none => exact .refl s
  | some x => exact .grab s x.1

namespace Mid

theorem steady (h : Mid tmp L s) : Steady s where
  nonneg := by
    intro i
    rw [h.refs]
    omega
  valid := h.valid
  orphans := h.orphans

theorem ref_pos (h : Mid tmp L s) (hi : i ∈ tmp) : 0 < s.ref i := by
  have := List.count_pos_iff.mpr hi
  rw [h.refs]
  omega

theorem cwd_pos (h : Mid tmp L s) {p : Fin NPROC} {q : Proc} (hp : s.procs p = some q) :
    0 < s.ref q.cwd := by
  have : 0 < tally (cwds s) q.cwd := tally_pos (x := p) (by rw [cwds, hp]; rfl)
  rw [h.refs, holders]
  omega

theorem alike (h : Mid tmp [] s) (ha : Alike s t) (hh : t.held = []) : Mid tmp [] t where
  refs := by
    intro i
    rw [ha.ref, (SameTree.alike ha).holders_eq]
    exact h.refs i
  valid := (h.steady.alike ha).valid
  orphans := (h.steady.alike ha).orphans
  idle := by
    rw [ha.files]
    exact h.idle
  held := hh
  locked := by
    intro i hi
    cases hi

theorem grab (h : Mid tmp L s) (i : ℕ) (hpos : ∀ j ∈ L, 0 < s.ref j) :
    Mid (i :: tmp) L (grab s i) where
  refs := by
    intro j
    rw [(SameTree.grab s i).holders_eq]
    by_cases hj : j = i
    · subst hj
      rw [grab_ref_self (h.steady.nonneg j), h.refs, List.count_cons_self]
      omega
    · rw [grab_ref_ne hj, h.refs, List.count_cons_of_ne (Ne.symm hj)]
  valid := (h.steady.grab i).valid
  orphans := (h.steady.grab i).orphans
  idle := by
    rw [grab_files]
    exact h.idle
  held := (grab_held s i).trans h.held
  locked := by
    intro j hj
    by_cases hji : j = i
    · subst hji
      rw [grab_valid_self, if_pos (hpos j hj)]
      exact h.locked j hj
    · rw [grab_valid_ne hji]
      exact h.locked j hj

theorem lock (h : Mid tmp L s) (ht : type s i ≠ .free) : Mid tmp (i :: L) (lock s i) := by
  have hv : ∀ j, (PathWalk.lock s i).valid j = true ↔ j = i ∨ s.valid j = true := by
    intro j
    change Function.update s.valid i true j = true ↔ _
    by_cases hj : j = i
    · subst hj
      rw [Function.update_self]
      exact iff_of_true rfl (Or.inl rfl)
    · rw [Function.update_of_ne hj, or_iff_right hj]
  refine ⟨h.refs, ?_, ?_, h.idle, ?_, ?_⟩
  · intro j hj
    rcases (hv j).mp hj with rfl | hj
    · exact ht
    · exact h.valid j hj
  · intro j htj hn
    obtain ⟨hr, hvj⟩ := h.orphans j htj hn
    exact ⟨hr, (hv j).mpr (Or.inr hvj)⟩
  · change i :: s.held = i :: L
    rw [h.held]
  · intro j hj
    rcases List.mem_cons.mp hj with rfl | hj
    · exact (hv j).mpr (Or.inl rfl)
    · exact (hv j).mpr (Or.inr (h.locked j hj))

theorem unlock (h : Mid tmp L s) (i : ℕ) : Mid tmp (L.erase i) (unlock s i) where
  refs := h.refs
  valid := h.valid
  orphans := h.orphans
  idle := h.idle
  held := by
    change s.held.erase i = L.erase i
    rw [h.held]
  locked := fun j hj => h.locked j (List.mem_of_mem_erase hj)

/-- A change of one inode that does not make it an orphan nobody holds. -/
theorem setDinode (h : Mid tmp L s) {d : Dinode} (hv : s.valid i = true → d.type ≠ .free)
    (ho : d.type ≠ .free → d.nlink = 0 → 0 < s.ref i ∧ s.valid i = true) :
    Mid tmp L (setDinode s i d) where
  refs := h.refs
  valid := by
    intro j hj
    change (Function.update s.dinodes i d j).type ≠ .free
    by_cases hji : j = i
    · subst hji
      rw [Function.update_self]
      exact hv hj
    · rw [Function.update_of_ne hji]
      exact h.valid j hj
  orphans := by
    intro j ht hn
    change (Function.update s.dinodes i d j).type ≠ .free at ht
    change (Function.update s.dinodes i d j).nlink = 0 at hn
    by_cases hji : j = i
    · subst hji
      rw [Function.update_self] at ht hn
      exact ho ht hn
    · rw [Function.update_of_ne hji] at ht hn
      exact h.orphans j ht hn
  idle := h.idle
  held := h.held
  locked := h.locked

/-- A change of an inode that the call has locked. -/
theorem change (h : Mid tmp L s) (hi : i ∈ tmp) (hL : i ∈ L) {d : Dinode}
    (ht : d.type ≠ .free) : Mid tmp L (DirectoryTree.setDinode s i d) :=
  h.setDinode (fun _ => ht) fun _ _ => ⟨h.ref_pos hi, h.locked i hL⟩

end Mid

/-! The primitives in the middle of a call. -/

theorem Mid.ilock_run (h : Mid tmp L s) (hi : i ∈ tmp) (hL : i ∉ L) (ht : type s i ≠ .free) :
    ilock i s = .ok ((), PathWalk.lock s i) :=
  PathWalk.ilock_run (h.ref_pos hi) (by rwa [h.held]) ht

theorem Mid.ilock_no_type (h : Mid tmp L s) (hi : i ∈ tmp) (hL : i ∉ L)
    (ht : type s i = .free) : ilock i s = .error (.panic "ilock: no type") := by
  refine PathWalk.ilock_no_type (h.ref_pos hi) (by rwa [h.held]) ?_ ht
  by_contra hv
  exact h.valid i (by simpa using hv) ht

theorem Mid.iunlock_run (h : Mid tmp L s) (hi : i ∈ tmp) (hL : i ∈ L) :
    iunlock i s = .ok ((), PathWalk.unlock s i) :=
  PathWalk.iunlock_run (h.ref_pos hi) (by rwa [h.held])

/-- What iput() of the call's reference to `i` may do to the tree. -/
structure Released (tmp : List ℕ) (i : ℕ) (s t : Fs) : Prop where
  births : t.births = s.births
  files : t.files = s.files
  procs : t.procs = s.procs
  dinodes : t.dinodes = s.dinodes ∨ (nlink s i = 0 ∧ holders s i = 0 ∧ i ∉ tmp ∧
    t.dinodes = Function.update s.dinodes i { s.dinodes i with type := .free, entries := [] })

theorem holders_congr (hf : t.files = s.files) (hp : t.procs = s.procs) (i : ℕ) :
    holders t i = holders s i := by
  unfold holders cwds opens
  rw [hf, hp]

theorem Mid.drop (h : Mid (i :: tmp) L s) (hf : ¬ Frees s i) : Mid tmp L (drop s i) where
  refs := by
    intro j
    change Function.update s.ref i (s.ref i - 1) j = holders s j + tmp.count j
    by_cases hj : j = i
    · subst hj
      rw [Function.update_self, h.refs, List.count_cons_self]
      omega
    · rw [Function.update_of_ne hj, h.refs, List.count_cons_of_ne (Ne.symm hj)]
  valid := h.valid
  orphans := by
    intro j ht hn
    obtain ⟨hr, hv⟩ := h.orphans j ht hn
    refine ⟨?_, hv⟩
    change 0 < Function.update s.ref i (s.ref i - 1) j
    by_cases hj : j = i
    · subst hj
      have : s.ref j ≠ 1 := fun hone => hf ⟨hv, hn, hone⟩
      rw [Function.update_self]
      omega
    · rwa [Function.update_of_ne hj]
  idle := h.idle
  held := h.held
  locked := h.locked

theorem Mid.dropFreed (h : Mid (i :: tmp) L s) (hL : i ∉ L) (hf : Frees s i) :
    Mid tmp L (PathWalk.drop (truncate s i) i) where
  refs := by
    intro j
    change Function.update s.ref i (s.ref i - 1) j = holders s j + tmp.count j
    by_cases hj : j = i
    · subst hj
      rw [Function.update_self, h.refs, List.count_cons_self]
      omega
    · rw [Function.update_of_ne hj, h.refs, List.count_cons_of_ne (Ne.symm hj)]
  valid := by
    intro j hv
    change Function.update s.valid i false j = true at hv
    change (Function.update s.dinodes i _ j).type ≠ .free
    by_cases hj : j = i
    · subst hj
      rw [Function.update_self] at hv
      cases hv
    · rw [Function.update_of_ne hj] at hv ⊢
      exact h.valid j hv
  orphans := by
    intro j ht hn
    change (Function.update s.dinodes i _ j).type ≠ .free at ht
    change (Function.update s.dinodes i _ j).nlink = 0 at hn
    change 0 < Function.update s.ref i (s.ref i - 1) j ∧
      Function.update s.valid i false j = true
    by_cases hj : j = i
    · subst hj
      rw [Function.update_self] at ht
      exact absurd rfl ht
    · rw [Function.update_of_ne hj] at ht hn ⊢
      rw [Function.update_of_ne hj]
      exact h.orphans j ht hn
  idle := h.idle
  held := h.held
  locked := by
    intro j hj
    change Function.update s.valid i false j = true
    have hji : j ≠ i := fun h => hL (h ▸ hj)
    rw [Function.update_of_ne hji]
    exact h.locked j hj

theorem Mid.iput_run (h : Mid (i :: tmp) L s) (hL : i ∉ L) :
    ∃ t, iput i s = .ok ((), t) ∧ Mid tmp L t ∧ Released tmp i s t := by
  by_cases hf : Frees s i
  · refine ⟨_, iput_run_freed (by rwa [h.held]) hf, h.dropFreed hL hf, rfl, rfl, rfl, ?_⟩
    have hone := hf.2.2
    have hcount : (i :: tmp).count i = tmp.count i + 1 := List.count_cons_self
    rw [h.refs, hcount] at hone
    refine Or.inr ⟨hf.2.1, by omega, ?_, rfl⟩
    exact List.count_eq_zero.mp (by omega)
  · exact ⟨_, iput_run_kept (by rwa [h.held]) hf, h.drop hf, rfl, rfl, rfl, Or.inl rfl⟩

/-! Open files and processes. -/

def withFile (s : Fs) (f : Fin NFILE) (x : File) : Fs :=
  { s with files := Function.update s.files f x }

def withProc (s : Fs) (p : Fin NPROC) (q : Option Proc) : Fs :=
  { s with procs := Function.update s.procs p q }

theorem opens_withFile (s : Fs) (f : Fin NFILE) (x : File) :
    opens (withFile s f x) = Function.update (opens s) f x.ip := by
  funext g
  unfold opens withFile
  by_cases hg : g = f
  · subst hg
    simp only [Function.update_self]
  · simp only [Function.update_of_ne hg]

theorem cwds_withProc (s : Fs) (p : Fin NPROC) (q : Option Proc) :
    cwds (withProc s p q) = Function.update (cwds s) p (q.map Proc.cwd) := by
  funext r
  unfold cwds withProc
  by_cases hr : r = p
  · subst hr
    simp only [Function.update_self]
  · simp only [Function.update_of_ne hr]

/-- A reference moves between the call and an open file. -/
theorem Mid.withFile {tmp' : List ℕ} (h : Mid tmp L s) (f : Fin NFILE) (x : File)
    (hidle : x.ref = 0 → x.ip = none)
    (hcount : ∀ i, tmp'.count i + (if x.ip = some i then 1 else 0) =
      tmp.count i + if (s.files f).ip = some i then 1 else 0) :
    Mid tmp' L (withFile s f x) where
  refs := by
    intro i
    have htally := tally_update (opens s) f x.ip i
    have hc := hcount i
    have hr := h.refs i
    change s.ref i = (tally (cwds s) i + tally (opens (InodeReferences.withFile s f x)) i : ℕ) +
      tmp'.count i
    rw [opens_withFile]
    unfold holders at hr
    change _ + (if (s.files f).ip = some i then 1 else 0) = _ at htally
    omega
  valid := h.valid
  orphans := h.orphans
  idle := by
    intro g hg
    change (Function.update s.files f x g).ref = 0 at hg
    change (Function.update s.files f x g).ip = none
    by_cases hgf : g = f
    · subst hgf
      rw [Function.update_self] at hg ⊢
      exact hidle hg
    · rw [Function.update_of_ne hgf] at hg ⊢
      exact h.idle g hg
  held := h.held
  locked := h.locked

/-- A reference moves between the call and a current directory. -/
theorem Mid.withProc {tmp' : List ℕ} (h : Mid tmp L s) (p : Fin NPROC) (q : Option Proc)
    (hcount : ∀ i, tmp'.count i + (if q.map Proc.cwd = some i then 1 else 0) =
      tmp.count i + if (s.procs p).map Proc.cwd = some i then 1 else 0) :
    Mid tmp' L (withProc s p q) where
  refs := by
    intro i
    have htally := tally_update (cwds s) p (q.map Proc.cwd) i
    have hc := hcount i
    have hr := h.refs i
    change s.ref i = (tally (cwds (InodeReferences.withProc s p q)) i + tally (opens s) i : ℕ) +
      tmp'.count i
    rw [cwds_withProc]
    unfold holders at hr
    change _ + (if (s.procs p).map Proc.cwd = some i then 1 else 0) = _ at htally
    omega
  valid := h.valid
  orphans := h.orphans
  idle := h.idle
  held := h.held
  locked := h.locked

/-- namei() and nameiparent() from outside all locks. -/
theorem Mid.namex_wp {p : Fin NPROC} (h : Mid tmp [] s) (path : Path) (par : Bool) :
    wp (namex p path par)
      (fun r t => walk s p path par = .ok r ∧ Alike (taken s r) t ∧
        Mid ((r.map Prod.fst).toList ++ tmp) [] t)
      (fun e => walk s p path par = .error e) s := by
  have hcwd : ∀ q, s.procs p = some q → 0 < s.ref q.cwd := fun q hq => h.cwd_pos hq
  have hrun := namex_run h.steady h.held hcwd path par
  cases hw : walk s p path par with
  | error e =>
    rw [hw] at hrun
    rw [wp, hrun]
  | ok r =>
    rw [hw] at hrun
    obtain ⟨t, ht, hheld, ha⟩ := hrun
    rw [wp, ht]
    refine ⟨rfl, ha, ?_⟩
    have hh : t.held = [] := hheld.trans h.held
    cases r with
    | none => exact h.alike ha hh
    | some x =>
      refine (h.grab x.1 ?_).alike ha hh
      intro j hj
      cases hj

end InodeReferences
