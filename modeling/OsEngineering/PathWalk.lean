import OsEngineering.DirectoryTree

/-! What the primitives on inodes do when they do not fault, and where a path leads: namex()
takes and gives back references on its way, and leaves everything else as it was. -/
namespace PathWalk

open FaultState KernelParams DirectoryTree

variable {s t u : Fs} {i j : ℕ}

/-! The elements of a path. -/

theorem length_skipelem {path rest : Path} {name : Name}
    (h : skipelem path = some (name, rest)) : rest.length < path.length := by
  unfold skipelem at h
  dsimp only at h
  split at h
  · cases h
  · next hne =>
    cases h
    have hdrop : (path.dropWhile (· = '/')).length ≤ path.length :=
      (List.dropWhile_suffix _).length_le
    cases hs : path.dropWhile (· = '/') with
    | nil => exact absurd hs hne
    | cons c cs =>
      have hc : c ≠ '/' := by
        have := List.head_dropWhile_not (fun c => decide (c = '/')) hne
        simpa [hs] using this
      have h1 : ((c :: cs).dropWhile (· ≠ '/')).length ≤ cs.length := by
        rw [List.dropWhile_cons_of_pos (by simpa using hc)]
        exact (List.dropWhile_suffix _).length_le
      have h2 : (((c :: cs).dropWhile (· ≠ '/')).dropWhile (· = '/')).length ≤
          ((c :: cs).dropWhile (· ≠ '/')).length := (List.dropWhile_suffix _).length_le
      rw [hs, List.length_cons] at hdrop
      omega

theorem elementsUpTo_enough {k m : ℕ} {path : Path} (hk : path.length ≤ k)
    (hm : path.length ≤ m) : elementsUpTo k path = elementsUpTo m path := by
  have hnil : ∀ n, elementsUpTo n [] = [] := by
    intro n
    cases n with
    | zero => rfl
    | succ n => rfl
  induction k generalizing m path with
  | zero =>
    obtain rfl := List.length_eq_zero_iff.mp (Nat.le_zero.mp hk)
    rw [hnil, hnil]
  | succ k ih =>
    cases m with
    | zero =>
      obtain rfl := List.length_eq_zero_iff.mp (Nat.le_zero.mp hm)
      rw [hnil, hnil]
    | succ m =>
      unfold elementsUpTo
      cases hs : skipelem path with
      | none => rfl
      | some x =>
        have hlt := length_skipelem hs
        dsimp only
        rw [ih (m := m) (by omega) (by omega)]

/-- The loop condition of namex(). -/
theorem elements_skipelem (path : Path) : elements path =
    match skipelem path with
    | none => []
    | some (name, rest) => name :: elements rest := by
  unfold elements
  cases hp : path.length with
  | zero =>
    obtain rfl := List.length_eq_zero_iff.mp hp
    rfl
  | succ n =>
    rw [elementsUpTo]
    cases hs : skipelem path with
    | none => rfl
    | some x =>
      have hlt := length_skipelem hs
      dsimp only
      rw [elementsUpTo_enough (k := n) (m := x.2.length) (by omega) (Nat.le_refl _)]

/-! References and locks. -/

def canGet (s : Fs) (i : ℕ) : Prop := 0 < s.ref i ∨ s.inuse < NINODE

instance (s : Fs) (i : ℕ) : Decidable (canGet s i) := inferInstanceAs (Decidable (_ ∨ _))

/-- One more reference. -/
def grab (s : Fs) (i : ℕ) : Fs :=
  if 0 < s.ref i then { s with ref := Function.update s.ref i (s.ref i + 1) }
  else { s with
    ref := Function.update s.ref i 1
    valid := Function.update s.valid i false
    inuse := s.inuse + 1 }

/-- One reference less. -/
def drop (s : Fs) (i : ℕ) : Fs := { s with
  ref := Function.update s.ref i (s.ref i - 1)
  inuse := if s.ref i = 1 then s.inuse - 1 else s.inuse }

def lock (s : Fs) (i : ℕ) : Fs :=
  { s with held := i :: s.held, valid := Function.update s.valid i true }

def unlock (s : Fs) (i : ℕ) : Fs := { s with held := s.held.erase i }

theorem iget_run (h : canGet s i) : iget i s = .ok (i, grab s i) := by
  unfold iget grab
  by_cases hr : 0 < s.ref i
  · rw [if_pos hr, if_pos hr]
  · rw [if_neg hr, if_neg hr, if_pos (h.resolve_left hr)]

theorem iget_full (h : ¬ canGet s i) : iget i s = .error (.panic "iget: no inodes") := by
  unfold canGet at h
  rw [not_or] at h
  unfold iget
  rw [if_neg h.1, if_neg h.2]

theorem idup_run (h : 0 < s.ref i) : idup i s = .ok (i, grab s i) := by
  unfold idup grab
  rw [if_pos h]

theorem acquiresleep_run (h : i ∉ s.held) :
    acquiresleep i s = .ok ((), { s with held := i :: s.held }) := by
  unfold acquiresleep
  rw [if_neg h]

theorem acquiresleep_deadlock (h : i ∈ s.held) : acquiresleep i s = .error (.deadlock i) := by
  unfold acquiresleep
  rw [if_pos h]

theorem ilock_run (hr : 0 < s.ref i) (hh : i ∉ s.held) (ht : type s i ≠ .free) :
    ilock i s = .ok ((), lock s i) := by
  have hr' : ¬ s.ref i < 1 := by omega
  simp only [ilock, bind_run, get_run, if_neg hr', acquiresleep_run hh]
  cases hv : s.valid i with
  | true =>
    have hupd : Function.update s.valid i true = s.valid := by
      rw [← hv]
      exact Function.update_eq_self i s.valid
    simp only [if_true, pure_run, lock, hupd]
  | false =>
    simp only [Bool.false_eq_true, if_false, bind_run, modify_run, if_neg ht, pure_run, lock]

theorem ilock_no_type (hr : 0 < s.ref i) (hh : i ∉ s.held) (hv : s.valid i = false)
    (ht : type s i = .free) : ilock i s = .error (.panic "ilock: no type") := by
  have hr' : ¬ s.ref i < 1 := by omega
  simp only [ilock, bind_run, get_run, if_neg hr', acquiresleep_run hh, hv,
    Bool.false_eq_true, if_false, modify_run, if_pos ht]
  rfl

theorem ilock_deadlock (hr : 0 < s.ref i) (hh : i ∈ s.held) :
    ilock i s = .error (.deadlock i) := by
  have hr' : ¬ s.ref i < 1 := by omega
  simp only [ilock, bind_run, get_run, if_neg hr', acquiresleep_deadlock hh]

theorem iunlock_run (hr : 0 < s.ref i) (hh : i ∈ s.held) :
    iunlock i s = .ok ((), unlock s i) := by
  have h : ¬ (i ∉ s.held ∨ s.ref i < 1) := by
    rintro (h | h)
    · exact h hh
    · omega
  simp only [iunlock, bind_run, get_run, if_neg h]
  rfl

/-- iput() frees the inode. -/
def Frees (s : Fs) (i : ℕ) : Prop := s.valid i = true ∧ nlink s i = 0 ∧ s.ref i = 1

theorem iput_run_kept (hh : i ∉ s.held) (hf : ¬ Frees s i) :
    iput i s = .ok ((), drop s i) := by
  have hf' : ¬ (s.valid i = true ∧ nlink { s with held := i :: s.held } i = 0 ∧
      s.ref i = 1) := hf
  simp only [iput, bind_run, acquiresleep_run hh, modify_run, if_neg hf', releasesleep,
    List.erase_cons_head]
  rfl

theorem iput_run_freed (hh : i ∉ s.held) (hf : Frees s i) :
    iput i s = .ok ((), drop (truncate s i) i) := by
  have hf' : s.valid i = true ∧ nlink { s with held := i :: s.held } i = 0 ∧
      s.ref i = 1 := hf
  have herase : (i :: s.held).erase i = s.held := List.erase_cons_head i s.held
  simp only [iput, bind_run, acquiresleep_run hh, modify_run, if_pos hf', releasesleep]
  unfold truncate setDinode drop
  simp only [herase]

theorem iput_deadlock (hh : i ∈ s.held) : iput i s = .error (.deadlock i) := by
  simp only [iput, bind_run, acquiresleep_deadlock hh]

theorem dirlookup_none {dp : ℕ} {name : Name} (ht : type s dp = .dir)
    (hf : findEntry name (entries s dp) 0 = none) :
    dirlookup dp name s = .ok (none, s) := by
  have ht' : ¬ type s dp ≠ .dir := not_not.mpr ht
  simp only [dirlookup, bind_run, get_run, if_neg ht', hf, pure_run]

theorem dirlookup_some {dp off : ℕ} {name : Name} (ht : type s dp = .dir)
    (hf : findEntry name (entries s dp) 0 = some (i, off)) (hg : canGet s i) :
    dirlookup dp name s = .ok (some (i, off), grab s i) := by
  have ht' : ¬ type s dp ≠ .dir := not_not.mpr ht
  simp only [dirlookup, bind_run, get_run, if_neg ht', hf, iget_run hg, pure_run]

theorem dirlookup_full {dp off : ℕ} {name : Name} (ht : type s dp = .dir)
    (hf : findEntry name (entries s dp) 0 = some (i, off)) (hg : ¬ canGet s i) :
    dirlookup dp name s = .error (.panic "iget: no inodes") := by
  have ht' : ¬ type s dp ≠ .dir := not_not.mpr ht
  simp only [dirlookup, bind_run, get_run, if_neg ht', hf, iget_full hg]

/-! Counting references. -/

theorem grab_ref (s : Fs) (i : ℕ) : (grab s i).ref =
    Function.update s.ref i (if 0 < s.ref i then s.ref i + 1 else 1) := by
  unfold grab
  by_cases hr : 0 < s.ref i
  · rw [if_pos hr, if_pos hr]
  · rw [if_neg hr, if_neg hr]

theorem grab_ref_self (h : 0 ≤ s.ref i) : (grab s i).ref i = s.ref i + 1 := by
  rw [grab_ref, Function.update_self]
  split
  · rfl
  · omega

theorem grab_ref_ne (h : j ≠ i) : (grab s i).ref j = s.ref j := by
  rw [grab_ref, Function.update_of_ne h]

theorem grab_inuse (s : Fs) (i : ℕ) :
    (grab s i).inuse = s.inuse + if 0 < s.ref i then 0 else 1 := by
  unfold grab
  by_cases hr : 0 < s.ref i
  · rw [if_pos hr, if_pos hr]
    rfl
  · rw [if_neg hr, if_neg hr]

theorem grab_valid_ne (h : j ≠ i) : (grab s i).valid j = s.valid j := by
  unfold grab
  by_cases hr : 0 < s.ref i
  · rw [if_pos hr]
  · rw [if_neg hr]
    exact Function.update_of_ne h _ _

theorem grab_valid_self (s : Fs) (i : ℕ) :
    (grab s i).valid i = if 0 < s.ref i then s.valid i else false := by
  unfold grab
  by_cases hr : 0 < s.ref i
  · rw [if_pos hr, if_pos hr]
  · rw [if_neg hr, if_neg hr]
    exact Function.update_self _ _ _

theorem grab_valid_le (h : (grab s i).valid j = true) : s.valid j = true := by
  by_cases hj : j = i
  · subst hj
    rw [grab_valid_self] at h
    split at h
    · exact h
    · cases h
  · rwa [grab_valid_ne hj] at h

theorem grab_dinodes (s : Fs) (i : ℕ) : (grab s i).dinodes = s.dinodes := by
  unfold grab
  by_cases hr : 0 < s.ref i
  · rw [if_pos hr]
  · rw [if_neg hr]

theorem grab_files (s : Fs) (i : ℕ) : (grab s i).files = s.files := by
  unfold grab
  by_cases hr : 0 < s.ref i
  · rw [if_pos hr]
  · rw [if_neg hr]

theorem grab_procs (s : Fs) (i : ℕ) : (grab s i).procs = s.procs := by
  unfold grab
  by_cases hr : 0 < s.ref i
  · rw [if_pos hr]
  · rw [if_neg hr]

theorem grab_births (s : Fs) (i : ℕ) : (grab s i).births = s.births := by
  unfold grab
  by_cases hr : 0 < s.ref i
  · rw [if_pos hr]
  · rw [if_neg hr]

theorem grab_held (s : Fs) (i : ℕ) : (grab s i).held = s.held := by
  unfold grab
  by_cases hr : 0 < s.ref i
  · rw [if_pos hr]
  · rw [if_neg hr]

theorem type_grab (s : Fs) (i j : ℕ) : type (grab s i) j = type s j := by
  unfold type
  rw [grab_dinodes]

theorem nlink_grab (s : Fs) (i j : ℕ) : nlink (grab s i) j = nlink s j := by
  unfold nlink
  rw [grab_dinodes]

theorem entries_grab (s : Fs) (i j : ℕ) : entries (grab s i) j = entries s j := by
  unfold entries
  rw [grab_dinodes]

/-! States that differ in locks, and in what is read from disk. -/

structure Alike (s t : Fs) : Prop where
  dinodes : t.dinodes = s.dinodes
  ref : t.ref = s.ref
  inuse : t.inuse = s.inuse
  files : t.files = s.files
  procs : t.procs = s.procs
  births : t.births = s.births
  kept : ∀ i, 0 < s.ref i → s.valid i = true → t.valid i = true
  sound : ∀ i, t.valid i = true → s.valid i = true ∨ type s i ≠ .free

namespace Alike

theorem refl (s : Fs) : Alike s s :=
  ⟨rfl, rfl, rfl, rfl, rfl, rfl, fun _ _ => id, fun _ => Or.inl⟩

theorem type_eq (h : Alike s t) (i : ℕ) : type t i = type s i := by
  unfold type
  rw [h.dinodes]

theorem nlink_eq (h : Alike s t) (i : ℕ) : nlink t i = nlink s i := by
  unfold nlink
  rw [h.dinodes]

theorem entries_eq (h : Alike s t) (i : ℕ) : entries t i = entries s i := by
  unfold entries
  rw [h.dinodes]

theorem trans (h : Alike s t) (g : Alike t u) : Alike s u where
  dinodes := g.dinodes.trans h.dinodes
  ref := g.ref.trans h.ref
  inuse := g.inuse.trans h.inuse
  files := g.files.trans h.files
  procs := g.procs.trans h.procs
  births := g.births.trans h.births
  kept := by
    intro i hr hv
    apply g.kept i _ (h.kept i hr hv)
    rw [h.ref]
    exact hr
  sound := by
    intro i hv
    rcases g.sound i hv with hv | ht
    · exact h.sound i hv
    · rw [h.type_eq] at ht
      exact Or.inr ht

theorem canGet (h : Alike s t) (i : ℕ) : PathWalk.canGet t i ↔ PathWalk.canGet s i := by
  unfold PathWalk.canGet
  rw [h.ref, h.inuse]

theorem lock (h : Alike s t) (ht : type s i ≠ .free) : Alike s (lock t i) where
  dinodes := h.dinodes
  ref := h.ref
  inuse := h.inuse
  files := h.files
  procs := h.procs
  births := h.births
  kept := by
    intro j hr hv
    change Function.update t.valid i true j = true
    by_cases hj : j = i
    · subst hj
      exact Function.update_self j true t.valid
    · rw [Function.update_of_ne hj]
      exact h.kept j hr hv
  sound := by
    intro j hv
    change Function.update t.valid i true j = true at hv
    by_cases hj : j = i
    · subst hj
      exact Or.inr ht
    · rw [Function.update_of_ne hj] at hv
      exact h.sound j hv

theorem unlock (h : Alike s t) (i : ℕ) : Alike s (unlock t i) :=
  ⟨h.dinodes, h.ref, h.inuse, h.files, h.procs, h.births, h.kept, h.sound⟩

theorem grab (h : Alike s t) (i : ℕ) : Alike (grab s i) (grab t i) where
  dinodes := by rw [grab_dinodes, grab_dinodes, h.dinodes]
  ref := by rw [grab_ref, grab_ref, h.ref]
  inuse := by rw [grab_inuse, grab_inuse, h.ref, h.inuse]
  files := by rw [grab_files, grab_files, h.files]
  procs := by rw [grab_procs, grab_procs, h.procs]
  births := by rw [grab_births, grab_births, h.births]
  kept := by
    intro j hj hv
    by_cases hji : j = i
    · subst hji
      rw [grab_valid_self] at hv ⊢
      rw [h.ref]
      split at hv
      · next hr =>
        rw [if_pos hr]
        exact h.kept j hr hv
      · cases hv
    · rw [grab_ref_ne hji] at hj
      rw [grab_valid_ne hji] at hv ⊢
      exact h.kept j hj hv
  sound := by
    intro j hv
    rw [type_grab]
    by_cases hji : j = i
    · subst hji
      rw [grab_valid_self] at hv ⊢
      rw [h.ref] at hv
      split at hv
      · next hr =>
        rw [if_pos hr]
        exact h.sound j hv
      · cases hv
    · rw [grab_valid_ne hji] at hv ⊢
      exact h.sound j hv

theorem drop (h : Alike s t) (i : ℕ) : Alike (drop s i) (drop t i) where
  dinodes := h.dinodes
  ref := by
    unfold PathWalk.drop
    rw [h.ref]
  inuse := by
    unfold PathWalk.drop
    rw [h.ref, h.inuse]
  files := h.files
  procs := h.procs
  births := h.births
  kept := by
    intro j hj hv
    change 0 < Function.update s.ref i (s.ref i - 1) j at hj
    refine h.kept j ?_ hv
    by_cases hji : j = i
    · subst hji
      rw [Function.update_self] at hj
      omega
    · rwa [Function.update_of_ne hji] at hj
  sound := h.sound

end Alike

theorem drop_grab (h : 0 ≤ s.ref i) : Alike s (drop (grab s i) i) := by
  have hself := grab_ref_self h
  refine ⟨grab_dinodes s i, ?_, ?_, grab_files s i, grab_procs s i, grab_births s i, ?_, ?_⟩
  · funext j
    change Function.update (grab s i).ref i ((grab s i).ref i - 1) j = s.ref j
    by_cases hj : j = i
    · subst hj
      rw [Function.update_self, hself]
      omega
    · rw [Function.update_of_ne hj, grab_ref_ne hj]
  · change (if (grab s i).ref i = 1 then (grab s i).inuse - 1 else (grab s i).inuse) = _
    rw [hself, grab_inuse]
    split
    · split
      · omega
      · omega
    · split
      · omega
      · omega
  · intro j hr hv
    change (grab s i).valid j = true
    by_cases hj : j = i
    · subst hj
      rw [grab_valid_self, if_pos hr]
      exact hv
    · rw [grab_valid_ne hj]
      exact hv
  · intro j hv
    exact Or.inl (grab_valid_le hv)

/-- The step of a walk from `i` to `j`. -/
theorem drop_grab_grab (hi : 0 ≤ s.ref i) (hj : 0 ≤ s.ref j) :
    Alike (grab s j) (drop (grab (grab s i) j) i) := by
  by_cases hij : j = i
  · subst hij
    exact drop_grab (by rw [grab_ref_self hj]; omega)
  · have hji : i ≠ j := fun h => hij h.symm
    have href : (grab (grab s i) j).ref i = s.ref i + 1 := by
      rw [grab_ref_ne hji, grab_ref_self hi]
    refine ⟨?_, ?_, ?_, ?_, ?_, ?_, ?_, ?_⟩
    · change (grab (grab s i) j).dinodes = _
      rw [grab_dinodes, grab_dinodes, grab_dinodes]
    · funext k
      change Function.update (grab (grab s i) j).ref i ((grab (grab s i) j).ref i - 1) k = _
      by_cases hk : k = i
      · subst hk
        rw [Function.update_self, href, grab_ref_ne hji]
        omega
      · rw [Function.update_of_ne hk]
        by_cases hkj : k = j
        · subst hkj
          rw [grab_ref_self (by rwa [grab_ref_ne hk]), grab_ref_ne hk, grab_ref_self hj]
        · rw [grab_ref_ne hkj, grab_ref_ne hk, grab_ref_ne hkj]
    · change (if (grab (grab s i) j).ref i = 1 then (grab (grab s i) j).inuse - 1
        else (grab (grab s i) j).inuse) = _
      rw [href, grab_inuse, grab_inuse, grab_inuse, grab_ref_ne hij]
      split
      · rw [if_neg (by omega)]
        omega
      · rw [if_pos (by omega)]
        omega
    · change (grab (grab s i) j).files = _
      rw [grab_files, grab_files, grab_files]
    · change (grab (grab s i) j).procs = _
      rw [grab_procs, grab_procs, grab_procs]
    · change (grab (grab s i) j).births = _
      rw [grab_births, grab_births, grab_births]
    · intro k hr hv
      change (grab (grab s i) j).valid k = true
      by_cases hkj : k = j
      · subst hkj
        rw [grab_valid_self] at hv ⊢
        rw [grab_ref_ne hij, grab_valid_ne hij]
        exact hv
      · rw [grab_valid_ne hkj] at hv ⊢
        by_cases hk : k = i
        · subst hk
          rw [grab_ref_ne hkj] at hr
          rw [grab_valid_self, if_pos hr]
          exact hv
        · rw [grab_valid_ne hk]
          exact hv
    · intro k hv
      have hv1 : (grab (grab s i) j).valid k = true := hv
      refine Or.inl ?_
      by_cases hkj : k = j
      · subst hkj
        rw [grab_valid_self] at hv1 ⊢
        rw [grab_ref_ne hij, grab_valid_ne hij] at hv1
        exact hv1
      · rw [grab_valid_ne hkj] at hv1 ⊢
        exact grab_valid_le hv1

/-- Between system calls, and during them outside the last steps of a removal: an inode
without links has a holder. -/
structure Steady (s : Fs) : Prop where
  nonneg : ∀ i, 0 ≤ s.ref i
  valid : ∀ i, s.valid i = true → type s i ≠ .free
  orphans : ∀ i, type s i ≠ .free → nlink s i = 0 → 0 < s.ref i ∧ s.valid i = true

theorem Steady.grab (h : Steady s) (i : ℕ) : Steady (grab s i) where
  nonneg := by
    intro j
    by_cases hj : j = i
    · subst hj
      have := h.nonneg j
      rw [grab_ref_self this]
      omega
    · rw [grab_ref_ne hj]
      exact h.nonneg j
  valid := by
    intro j hv
    rw [type_grab]
    exact h.valid j (grab_valid_le hv)
  orphans := by
    intro j ht hn
    rw [type_grab] at ht
    rw [nlink_grab] at hn
    obtain ⟨hr, hv⟩ := h.orphans j ht hn
    by_cases hj : j = i
    · subst hj
      rw [grab_ref_self (h.nonneg j), grab_valid_self, if_pos hr]
      exact ⟨by omega, hv⟩
    · rw [grab_ref_ne hj, grab_valid_ne hj]
      exact ⟨hr, hv⟩

theorem Steady.alike (h : Steady s) (ha : Alike s t) : Steady t where
  nonneg := by
    rw [ha.ref]
    exact h.nonneg
  valid := by
    intro i hv
    rw [ha.type_eq]
    rcases ha.sound i hv with hv | ht
    · exact h.valid i hv
    · exact ht
  orphans := by
    intro i ht hn
    rw [ha.type_eq] at ht
    rw [ha.nlink_eq] at hn
    obtain ⟨hr, hv⟩ := h.orphans i ht hn
    rw [ha.ref]
    exact ⟨hr, ha.kept i hr hv⟩

/-- Giving back a reference taken since then does not free the inode. -/
theorem Steady.not_frees (h : Steady s) (hu : Steady u) (hd : u.dinodes = s.dinodes)
    (hr : s.ref i < u.ref i) : ¬ Frees u i := by
  rintro ⟨hv, hn, hone⟩
  have ht : type s i ≠ .free := by
    have := hu.valid i hv
    unfold type at this ⊢
    rwa [hd] at this
  have hz : nlink s i = 0 := by
    unfold nlink at hn ⊢
    rwa [hd] at hn
  have := (h.orphans i ht hz).1
  omega

theorem iunlockput_kept {L : List ℕ} (hr : 0 < u.ref i) (hh : u.held = i :: L) (hL : i ∉ L)
    (hf : ¬ Frees u i) :
    iunlockput i u = .ok ((), drop (unlock u i) i) ∧ (drop (unlock u i) i).held = L := by
  have herase : (unlock u i).held = L := by
    change u.held.erase i = L
    rw [hh, List.erase_cons_head]
  have hmem : i ∈ u.held := by
    rw [hh]
    exact List.mem_cons_self
  have hf' : ¬ Frees (unlock u i) i := hf
  refine ⟨?_, herase⟩
  rw [iunlockput, run_bind (iunlock_run hr hmem), iput_run_kept (by rwa [herase]) hf']

/-! Where a path leads from a state, with the faults of looking it up. -/

def walkFrom (s : Fs) (nameiparent : Bool) :
    ℕ → List Name → Except Fault (Option (ℕ × Name))
  | ip, [] => .ok (if nameiparent then none else some (ip, []))
  | ip, name :: rest =>
    if type s ip = .free then .error (.panic "ilock: no type")
    else if type s ip ≠ .dir then .ok none
    else if nameiparent ∧ rest = [] then .ok (some (ip, name))
    else
      match findEntry name (entries s ip) 0 with
      | none => .ok none
      | some (next, _) =>
        if canGet (grab s ip) next then walkFrom s nameiparent next rest
        else .error (.panic "iget: no inodes")

def walk (s : Fs) (p : Fin NPROC) (path : Path) (nameiparent : Bool) :
    Except Fault (Option (ℕ × Name)) :=
  match s.procs p with
  | none => .error (.panic "no process")
  | some q =>
    if path.head? = some '/' then
      if canGet s ROOTINO then walkFrom s nameiparent ROOTINO (elements path)
      else .error (.panic "iget: no inodes")
    else walkFrom s nameiparent q.cwd (elements path)

/-- The state with the reference that namex() returns. -/
def taken (s : Fs) : Option (ℕ × Name) → Fs
  | none => s
  | some (ip, _) => grab s ip

/-- A run ends as `w` says, in a state like `f` of its result and without locks. -/
def EndsAs {α : Type} (c : FsCode α) (s : Fs) (w : Except Fault α) (f : α → Fs) : Prop :=
  match w with
  | .error e => c s = .error e
  | .ok r => ∃ t, c s = .ok (r, t) ∧ t.held = s.held ∧ Alike (f r) t

/-- unlock() and iput() of the inode a walk has come to. -/
theorem leave_run (hs : Steady s) (ha : Alike (grab s i) u) (hh : u.held = [i]) :
    ∃ v, iunlockput i u = .ok ((), v) ∧ v.held = [] ∧ Alike s v := by
  have hn := hs.nonneg i
  have hr : s.ref i < u.ref i := by
    rw [ha.ref, grab_ref_self hn]
    omega
  have hd : u.dinodes = s.dinodes := ha.dinodes.trans (grab_dinodes s i)
  have hf := hs.not_frees ((hs.grab i).alike ha) hd hr
  obtain ⟨hrun, hheld⟩ := iunlockput_kept (by omega) hh List.not_mem_nil hf
  exact ⟨_, hrun, hheld, (drop_grab hn).trans ((ha.unlock i).drop i)⟩

/-- The same with a reference to the next inode. -/
theorem move_run (hs : Steady s) (ha : Alike (grab (grab s i) j) u) (hh : u.held = [i]) :
    ∃ v, iunlockput i u = .ok ((), v) ∧ v.held = [] ∧ Alike (grab s j) v := by
  have hn := hs.nonneg i
  have hr : s.ref i < u.ref i := by
    rw [ha.ref]
    by_cases hij : j = i
    · subst hij
      have := grab_ref_self hn
      rw [grab_ref_self (by omega)]
      omega
    · rw [grab_ref_ne (Ne.symm hij), grab_ref_self hn]
      omega
  have hd : u.dinodes = s.dinodes := by rw [ha.dinodes, grab_dinodes, grab_dinodes]
  have hf := hs.not_frees (((hs.grab i).grab j).alike ha) hd hr
  obtain ⟨hrun, hheld⟩ := iunlockput_kept (by omega) hh List.not_mem_nil hf
  exact ⟨_, hrun, hheld, (drop_grab_grab hn (hs.nonneg j)).trans ((ha.unlock i).drop i)⟩

theorem namexFrom_run (hs : Steady s) (par : Bool) (names : List Name) {ip : ℕ}
    (ha : Alike (grab s ip) u) (hh : u.held = []) :
    EndsAs (namexFrom par ip names) u (walkFrom s par ip names) (taken s) := by
  have hn := hs.nonneg ip
  have hpos : 0 < u.ref ip := by
    rw [ha.ref, grab_ref_self hn]
    omega
  have hnot : ip ∉ u.held := by
    rw [hh]
    exact List.not_mem_nil
  induction names generalizing ip u with
  | nil =>
    cases par with
    | false => exact ⟨u, rfl, rfl, ha⟩
    | true =>
      have hd : u.dinodes = s.dinodes := ha.dinodes.trans (grab_dinodes s ip)
      have hr : s.ref ip < u.ref ip := by
        rw [ha.ref, grab_ref_self hn]
        omega
      have hf := hs.not_frees ((hs.grab ip).alike ha) hd hr
      refine ⟨drop u ip, ?_, rfl, (drop_grab hn).trans (ha.drop ip)⟩
      simp only [namexFrom, if_true, bind_run, iput_run_kept hnot hf, pure_run]
  | cons name rest ih =>
    have htype : type u ip = type s ip := by rw [ha.type_eq, type_grab]
    by_cases hfree : type s ip = .free
    · have hv : u.valid ip = false := by
        by_contra hv
        exact ((hs.grab ip).alike ha).valid ip (by simpa using hv) (htype.trans hfree)
      have hw : walkFrom s par ip (name :: rest) = .error (.panic "ilock: no type") := by
        rw [walkFrom, if_pos hfree]
      rw [hw]
      simp only [EndsAs, namexFrom, bind_run,
        ilock_no_type hpos hnot hv (htype.trans hfree)]
    have hlock := ilock_run hpos hnot (by rwa [htype])
    have hal : Alike (grab s ip) (lock u ip) := ha.lock (by rwa [type_grab])
    have hheld : (lock u ip).held = [ip] := by
      change ip :: u.held = [ip]
      rw [hh]
    have htl : type (lock u ip) ip = type s ip := htype
    by_cases hdir : type s ip = .dir
    · have hent : entries (lock u ip) ip = entries s ip := by rw [hal.entries_eq, entries_grab]
      have htd : ¬ type (lock u ip) ip ≠ .dir := not_not.mpr (htl.trans hdir)
      by_cases hlast : par = true ∧ rest = []
      · have hw : walkFrom s par ip (name :: rest) = .ok (some (ip, name)) := by
          rw [walkFrom, if_neg hfree, if_neg (not_not.mpr hdir), if_pos hlast]
        have hmem : ip ∈ (lock u ip).held := List.mem_cons_self
        have hposl : 0 < (lock u ip).ref ip := hpos
        rw [hw]
        refine ⟨unlock (lock u ip) ip, ?_, ?_, hal.unlock ip⟩
        · simp only [namexFrom, bind_run, hlock, get_run, if_neg htd, if_pos hlast,
            iunlock_run hposl hmem, pure_run]
        · exact List.erase_cons_head ip u.held
      cases hf : findEntry name (entries s ip) 0 with
      | none =>
        have hw : walkFrom s par ip (name :: rest) = .ok none := by
          rw [walkFrom, if_neg hfree, if_neg (not_not.mpr hdir), if_neg hlast, hf]
        obtain ⟨v, hv, hvheld, hav⟩ := leave_run hs hal hheld
        have hlook := dirlookup_none (htl.trans hdir) (hent ▸ hf)
        rw [hw]
        refine ⟨v, ?_, by rw [hvheld, hh], hav⟩
        simp only [namexFrom, bind_run, hlock, get_run, if_neg htd, if_neg hlast, hlook, hv,
          pure_run]
      | some x =>
        obtain ⟨next, off⟩ := x
        have hlook : findEntry name (entries (lock u ip) ip) 0 = some (next, off) := hent ▸ hf
        by_cases hg : canGet (grab s ip) next
        · have hw : walkFrom s par ip (name :: rest) = walkFrom s par next rest := by
            rw [walkFrom, if_neg hfree, if_neg (not_not.mpr hdir), if_neg hlast, hf]
            exact if_pos hg
          have hheldg : (grab (lock u ip) next).held = [ip] := by rw [grab_held, hheld]
          obtain ⟨v, hv, hvheld, hav⟩ := move_run hs (hal.grab next) hheldg
          have hnn := hs.nonneg next
          have hposv : 0 < v.ref next := by
            rw [hav.ref, grab_ref_self hnn]
            omega
          have hrest := ih hav hvheld hnn hposv (by rw [hvheld]; exact List.not_mem_nil)
          have hrun : namexFrom par ip (name :: rest) u = namexFrom par next rest v := by
            simp only [namexFrom, bind_run, hlock, get_run, if_neg htd, if_neg hlast,
              dirlookup_some (htl.trans hdir) hlook ((hal.canGet next).mpr hg), hv]
          rw [hw]
          unfold EndsAs at hrest ⊢
          rw [hrun, hh, ← hvheld]
          exact hrest
        · have hw : walkFrom s par ip (name :: rest) =
              .error (.panic "iget: no inodes") := by
            rw [walkFrom, if_neg hfree, if_neg (not_not.mpr hdir), if_neg hlast, hf]
            exact if_neg hg
          have hg' : ¬ canGet (lock u ip) next := fun h => hg ((hal.canGet next).mp h)
          rw [hw]
          simp only [EndsAs, namexFrom, bind_run, hlock, get_run, if_neg htd, if_neg hlast,
            dirlookup_full (htl.trans hdir) hlook hg']
    · have hw : walkFrom s par ip (name :: rest) = .ok none := by
        rw [walkFrom, if_neg hfree, if_pos hdir]
      have htd : type (lock u ip) ip ≠ .dir := by rwa [htl]
      obtain ⟨v, hv, hvheld, hav⟩ := leave_run hs hal hheld
      rw [hw]
      refine ⟨v, ?_, by rw [hvheld, hh], hav⟩
      simp only [namexFrom, bind_run, hlock, get_run, if_pos htd, hv, pure_run]

theorem namex_run {p : Fin NPROC} (hs : Steady s) (hh : s.held = [])
    (hcwd : ∀ q, s.procs p = some q → 0 < s.ref q.cwd) (path : Path) (par : Bool) :
    EndsAs (namex p path par) s (walk s p path par) (taken s) := by
  unfold walk
  cases hp : s.procs p with
  | none =>
    have hmy : myproc p s = .error (.panic "no process") := by
      unfold myproc
      rw [hp]
    simp only [EndsAs, namex, bind_run, hmy]
  | some q =>
    have hmy : myproc p s = .ok (q, s) := by
      unfold myproc
      rw [hp]
    have hgheld : ∀ i, (grab s i).held = [] := fun i => (grab_held s i).trans hh
    by_cases hroot : path.head? = some '/'
    · by_cases hg : canGet s ROOTINO
      · have hrest := namexFrom_run hs par (elements path) (Alike.refl (grab s ROOTINO))
          (hgheld ROOTINO)
        have hrun : namex p path par s = namexFrom par ROOTINO (elements path) (grab s ROOTINO) := by
          simp only [namex, bind_run, hmy, if_pos hroot, iget_run hg]
        dsimp only
        rw [if_pos hroot, if_pos hg]
        unfold EndsAs at hrest ⊢
        rw [hrun, hh, ← hgheld ROOTINO]
        exact hrest
      · dsimp only
        rw [if_pos hroot, if_neg hg]
        simp only [EndsAs, namex, bind_run, hmy, if_pos hroot, iget_full hg]
    · have hrest := namexFrom_run hs par (elements path) (Alike.refl (grab s q.cwd))
        (hgheld q.cwd)
      have hrun : namex p path par s = namexFrom par q.cwd (elements path) (grab s q.cwd) := by
        simp only [namex, bind_run, hmy, if_neg hroot, idup_run (hcwd q hp)]
      dsimp only
      rw [if_neg hroot]
      unfold EndsAs at hrest ⊢
      rw [hrun, hh, ← hgheld q.cwd]
      exact hrest

/-! The inodes that paths lead to. -/

inductive Reach (s : Fs) : ℕ → Prop where
  | root : Reach s ROOTINO
  | cwd {p q} : s.procs p = some q → Reach s q.cwd
  | entry {d e} : Reach s d → type s d = .dir → e ∈ entries s d → e.inum ≠ 0 → Reach s e.inum

theorem findEntry_some {name : Name} {des : List Dirent} {off k : ℕ}
    (h : findEntry name des off = some (i, k)) :
    off ≤ k ∧ i ≠ 0 ∧ ∃ de, des[k - off]? = some de ∧ de.inum = i ∧ de.name = name := by
  induction des generalizing off with
  | nil => cases h
  | cons de des ih =>
    have hlater : findEntry name des (off + 1) = some (i, k) →
        off ≤ k ∧ i ≠ 0 ∧ ∃ d, (de :: des)[k - off]? = some d ∧ d.inum = i ∧ d.name = name := by
      intro h
      obtain ⟨hk, hi, d, hd, heq⟩ := ih h
      refine ⟨by omega, hi, d, ?_, heq⟩
      have : k - off = (k - (off + 1)) + 1 := by omega
      rw [this, List.getElem?_cons_succ]
      exact hd
    unfold findEntry at h
    split at h
    · exact hlater h
    · next hne =>
      split at h
      · next hname =>
        cases h
        refine ⟨Nat.le_refl _, hne, de, ?_, rfl, hname.symm⟩
        rw [Nat.sub_self, List.getElem?_cons_zero]
      · exact hlater h

theorem findEntry_mem {name : Name} {des : List Dirent} {off k : ℕ}
    (h : findEntry name des off = some (i, k)) :
    ∃ de ∈ des, de.inum = i ∧ de.name = name ∧ i ≠ 0 := by
  obtain ⟨-, hi, de, hde, hinum, hname⟩ := findEntry_some h
  exact ⟨de, List.mem_of_getElem? hde, hinum, hname, hi⟩

theorem Reach.found {d off k : ℕ} {name : Name} (h : Reach s d) (hd : type s d = .dir)
    (hf : findEntry name (entries s d) off = some (i, k)) : Reach s i := by
  obtain ⟨de, hmem, rfl, -, hne⟩ := findEntry_mem hf
  exact .entry h hd hmem hne

/-- Faults of system calls that do not tell of a wrong use of locks or directories. -/
def Tolerated (s : Fs) (e : Fault) : Prop :=
  (∀ i, e ≠ .deadlock i) ∧
    (e = .panic "ilock: no type" → ∃ d, Reach s d ∧ type s d = .free)

theorem tolerated_panic {msg : String} (h : msg ≠ "ilock: no type") :
    Tolerated s (.panic msg) := by
  refine ⟨fun i he => ?_, fun he => ?_⟩
  · cases he
  · cases he
    exact absurd rfl h

theorem tolerated_no_type (hr : Reach s i) (ht : type s i = .free) :
    Tolerated s (.panic "ilock: no type") := by
  refine ⟨fun j he => ?_, fun _ => ⟨i, hr, ht⟩⟩
  cases he

theorem walkFrom_error {par : Bool} {ip : ℕ} {names : List Name} {e : Fault} (hr : Reach s ip)
    (h : walkFrom s par ip names = .error e) : Tolerated s e := by
  induction names generalizing ip with
  | nil => cases h
  | cons name rest ih =>
    unfold walkFrom at h
    split at h
    · next hfree =>
      cases h
      exact tolerated_no_type hr hfree
    · split at h
      · cases h
      · next hdir =>
        split at h
        · cases h
        · split at h
          · cases h
          · next next off hf =>
            split at h
            · exact ih (hr.found (not_not.mp hdir) hf) h
            · cases h
              exact tolerated_panic (by decide)

theorem walkFrom_ok {par : Bool} {ip jp : ℕ} {names : List Name} {name : Name}
    (hr : Reach s ip) (h : walkFrom s par ip names = .ok (some (jp, name))) :
    Reach s jp ∧ (par = true → type s jp = .dir) := by
  induction names generalizing ip with
  | nil =>
    cases par with
    | false =>
      cases h
      exact ⟨hr, fun h => by cases h⟩
    | true => cases h
  | cons nm rest ih =>
    unfold walkFrom at h
    split at h
    · cases h
    · split at h
      · cases h
      · next hdir =>
        split at h
        · cases h
          exact ⟨hr, fun _ => not_not.mp hdir⟩
        · split at h
          · cases h
          · next next off hf =>
            split at h
            · exact ih (hr.found (not_not.mp hdir) hf) h
            · cases h

theorem walk_error {p : Fin NPROC} {path : Path} {par : Bool} {e : Fault}
    (h : walk s p path par = .error e) : Tolerated s e := by
  unfold walk at h
  split at h
  · cases h
    exact tolerated_panic (by decide)
  · next q hp =>
    split at h
    · split at h
      · exact walkFrom_error .root h
      · cases h
        exact tolerated_panic (by decide)
    · exact walkFrom_error (.cwd hp) h

theorem walk_ok {p : Fin NPROC} {path : Path} {par : Bool} {ip : ℕ} {name : Name}
    (h : walk s p path par = .ok (some (ip, name))) :
    Reach s ip ∧ (par = true → type s ip = .dir) := by
  unfold walk at h
  split at h
  · cases h
  · next q hp =>
    split at h
    · split at h
      · exact walkFrom_ok .root h
      · cases h
    · exact walkFrom_ok (.cwd hp) h

/-- A walk depends on the directories and the reference counts. -/
theorem walkFrom_congr (htype : ∀ i, type t i = type s i)
    (hent : ∀ i, entries t i = entries s i) (href : t.ref = s.ref) (huse : t.inuse = s.inuse)
    (par : Bool) (ip : ℕ) (names : List Name) :
    walkFrom t par ip names = walkFrom s par ip names := by
  have hget : ∀ i j, canGet (grab t i) j ↔ canGet (grab s i) j := by
    intro i j
    unfold canGet
    rw [grab_ref, grab_ref, grab_inuse, grab_inuse, href, huse]
  induction names generalizing ip with
  | nil => rfl
  | cons name rest ih =>
    unfold walkFrom
    rw [htype, hent]
    simp only [ih, hget]

theorem walk_congr (htype : ∀ i, type t i = type s i)
    (hent : ∀ i, entries t i = entries s i) (href : t.ref = s.ref) (huse : t.inuse = s.inuse)
    (hprocs : t.procs = s.procs) (p : Fin NPROC) (path : Path) (par : Bool) :
    walk t p path par = walk s p path par := by
  have hget : canGet t ROOTINO ↔ canGet s ROOTINO := by
    unfold canGet
    rw [href, huse]
  unfold walk
  rw [hprocs]
  simp only [walkFrom_congr htype hent href huse, hget]

theorem Reach.congr (hd : t.dinodes = s.dinodes) (hp : t.procs = s.procs) (h : Reach t i) :
    Reach s i := by
  induction h with
  | root => exact .root
  | cwd hq =>
    rw [hp] at hq
    exact .cwd hq
  | entry _ hdir hmem hne ih =>
    unfold type at hdir
    unfold entries at hmem
    rw [hd] at hdir hmem
    exact .entry ih hdir hmem hne

end PathWalk
