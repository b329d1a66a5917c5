import OsEngineering.FailedCalls

/-! The changes of the directory tree: inodes without links are freed, an entry is made for an
inode that has others, a new inode gets its first entry, or an entry is removed. -/
namespace TreeChanges

open DirectoryTree PathWalk SystemCalls FailedCalls

variable {s t u : Fs} {d dp i j off : ℕ} {name : Name} {des rest : List Dirent}

/-! Freed inodes -/

/-- Inodes without links may have been freed. -/
structure Freed (s t : Fs) : Prop where
  births : t.births = s.births
  inode : ∀ i, t.dinodes i = s.dinodes i ∨
    nlink s i = 0 ∧ t.dinodes i = { s.dinodes i with type := .free, entries := [] }

namespace Freed

theorem of_same (hd : t.dinodes = s.dinodes) (hb : t.births = s.births) : Freed s t :=
  ⟨hb, fun i => Or.inl (congrFun hd i)⟩

theorem refl (s : Fs) : Freed s s := of_same rfl rfl

theorem nlink_eq (h : Freed s t) (i : ℕ) : nlink t i = nlink s i := by
  unfold nlink
  rcases h.inode i with hi | ⟨-, hi⟩
  · rw [hi]
  · rw [hi]

theorem trans (h : Freed s t) (g : Freed t u) : Freed s u where
  births := g.births.trans h.births
  inode := by
    intro i
    rcases g.inode i with hi | ⟨hn, hi⟩
    · rw [hi]
      exact h.inode i
    · rw [h.nlink_eq] at hn
      refine Or.inr ⟨hn, ?_⟩
      rcases h.inode i with hj | ⟨-, hj⟩
      · rw [hi, hj]
      · rw [hi, hj]

theorem same_of_type (h : Freed s t) (ht : type t i ≠ .free) : t.dinodes i = s.dinodes i := by
  rcases h.inode i with hi | ⟨-, hi⟩
  · exact hi
  · unfold type at ht
    rw [hi] at ht
    exact absurd rfl ht

theorem same_of_linked (h : Freed s t) (hn : nlink s i ≠ 0) : t.dinodes i = s.dinodes i :=
  (h.inode i).resolve_right fun hi => hn hi.1

theorem type_eq (h : Freed s t) (ht : type t i ≠ .free) : type s i = type t i := by
  unfold type
  rw [h.same_of_type ht]

theorem entries_eq (h : Freed s t) (ht : type t i ≠ .free) : entries s i = entries t i := by
  unfold entries
  rw [h.same_of_type ht]

theorem type_of_linked (h : Freed s t) (hn : nlink s i ≠ 0) : type t i = type s i := by
  unfold type
  rw [h.same_of_linked hn]

theorem withNlink (h : Freed s t) (hn : nlink s i ≠ 0) (k : ℤ) :
    Freed (withNlink s i k) (withNlink t i k) where
  births := h.births
  inode := by
    intro j
    by_cases hj : j = i
    · subst hj
      left
      change Function.update t.dinodes j _ j = Function.update s.dinodes j _ j
      rw [Function.update_self, Function.update_self, h.nlink_eq, h.same_of_linked hn]
    · change Function.update t.dinodes i _ j = Function.update s.dinodes i _ j ∨
        (Function.update s.dinodes i _ j).nlink = 0 ∧ Function.update t.dinodes i _ j =
          { Function.update s.dinodes i _ j with type := .free, entries := [] }
      rw [Function.update_of_ne hj, Function.update_of_ne hj]
      exact h.inode j

end Freed

/-! One entry more or less -/

theorem withNlink_zero (s : Fs) (i : ℕ) : withNlink s i 0 = s := by
  have hsame : { s.dinodes i with nlink := nlink s i + 0 } = s.dinodes i := by
    rw [add_zero]
    rfl
  rw [SystemCalls.withNlink, setDinode, hsame, Function.update_eq_self]

theorem withNlink_back (s : Fs) (i : ℕ) {k l : ℤ} (h : k + l = 0) :
    withNlink (withNlink s i k) i l = s := by
  have hself : (withNlink s i k).dinodes i = { s.dinodes i with nlink := nlink s i + k } :=
    Function.update_self _ _ _
  have hlink : nlink (withNlink s i k) i = nlink s i + k := nlink_setDinode_self _ _ _
  have hsum : nlink s i + k + l = (s.dinodes i).nlink := by
    unfold nlink
    omega
  rw [SystemCalls.withNlink, hself, hlink, hsum]
  unfold setDinode SystemCalls.withNlink setDinode
  simp only [Function.update_idem, Function.update_eq_self]

theorem nlink_withNlink (s : Fs) (i : ℕ) (k : ℤ) (j : ℕ) :
    nlink (withNlink s i k) j = nlink s j + if j = i then k else 0 := by
  by_cases hj : j = i
  · subst hj
    rw [if_pos rfl]
    exact nlink_setDinode_self _ _ _
  · rw [if_neg hj, add_zero]
    exact nlink_setDinode_ne _ hj

/-- The entry of link(), and its count. -/
def newLink (u : Fs) (dp : ℕ) (name : Name) (i : ℕ) : Fs :=
  setEntry (withNlink u i 1) dp (findEmpty (entries u dp) 0) ⟨i, name, u.births i⟩

/-- The free inode `i` becomes `d`, with an entry in `dp`. -/
def newInode (u : Fs) (dp : ℕ) (name : Name) (i : ℕ) (d : Dinode) : Fs :=
  setEntry (withNlink (made u i d) dp (if d.type = .dir then 1 else 0)) dp
    (findEmpty (entries u dp) 0) ⟨i, name, u.births i + 1⟩

/-- What a new directory `i` in `dp` contains. -/
def dots (u : Fs) (i dp : ℕ) : List Dirent :=
  [⟨i, ['.'], u.births i + 1⟩, ⟨dp, ['.', '.'], u.births dp⟩]

/-- unlink() of the entry at `off` in `dp`, which is for `i`. -/
def removed (u : Fs) (dp off i : ℕ) : Fs :=
  withNlink (withNlink (setEntry u dp off ⟨0, [], 0⟩) dp (if type u i = .dir then -1 else 0)) i (-1)

theorem type_newLink (u : Fs) (dp : ℕ) (name : Name) (i j : ℕ) :
    type (newLink u dp name i) j = type u j := by
  rw [newLink, type_setEntry, type_withNlink]

theorem nlink_newLink (u : Fs) (dp : ℕ) (name : Name) (i j : ℕ) :
    nlink (newLink u dp name i) j = nlink u j + if j = i then 1 else 0 := by
  rw [newLink, nlink_setEntry, nlink_withNlink]

theorem entries_newLink_self (u : Fs) (dp : ℕ) (name : Name) (i : ℕ) :
    entries (newLink u dp name i) dp =
      writeEntry (entries u dp) (findEmpty (entries u dp) 0) ⟨i, name, u.births i⟩ := by
  rw [newLink, entries_setEntry_self, entries_withNlink]

theorem entries_newLink_ne (name : Name) (i : ℕ) (h : d ≠ dp) :
    entries (newLink u dp name i) d = entries u d := by
  rw [newLink, entries_setEntry_ne _ _ h, entries_withNlink]

theorem type_removed (u : Fs) (dp off i j : ℕ) : type (removed u dp off i) j = type u j := by
  rw [removed, type_withNlink, type_withNlink, type_setEntry]

theorem nlink_removed (u : Fs) (dp off i j : ℕ) : nlink (removed u dp off i) j =
    nlink u j + (if j = dp then if type u i = .dir then -1 else 0 else 0) +
      if j = i then -1 else 0 := by
  rw [removed, nlink_withNlink, nlink_withNlink, nlink_setEntry]

theorem entries_removed_self (u : Fs) (dp off i : ℕ) :
    entries (removed u dp off i) dp = writeEntry (entries u dp) off ⟨0, [], 0⟩ := by
  rw [removed, entries_withNlink, entries_withNlink, entries_setEntry_self]

theorem entries_removed_ne (off i : ℕ) (h : d ≠ dp) :
    entries (removed u dp off i) d = entries u d := by
  rw [removed, entries_withNlink, entries_withNlink, entries_setEntry_ne _ _ h]

section NewInode

variable (u : Fs) (dp : ℕ) (name : Name) (x : Dinode)

theorem type_newInode_self : type (newInode u dp name i x) i = x.type := by
  rw [newInode, type_setEntry, type_withNlink, type_made_self]

theorem type_newInode_ne (h : j ≠ i) : type (newInode u dp name i x) j = type u j := by
  rw [newInode, type_setEntry, type_withNlink]
  exact type_setDinode_ne x h

theorem nlink_newInode_self (h : i ≠ dp) : nlink (newInode u dp name i x) i = x.nlink := by
  rw [newInode, nlink_setEntry, nlink_withNlink, if_neg h, add_zero]
  exact nlink_setDinode_self u i x

theorem nlink_newInode_ne (h : j ≠ i) : nlink (newInode u dp name i x) j =
    nlink u j + if j = dp then if x.type = .dir then 1 else 0 else 0 := by
  rw [newInode, nlink_setEntry, nlink_withNlink]
  congr 1
  exact nlink_setDinode_ne x h

theorem entries_newInode_parent (h : i ≠ dp) : entries (newInode u dp name i x) dp =
    writeEntry (entries u dp) (findEmpty (entries u dp) 0) ⟨i, name, u.births i + 1⟩ := by
  rw [newInode, entries_setEntry_self, entries_withNlink]
  congr 1
  exact entries_setDinode_ne x (Ne.symm h)

theorem entries_newInode_self (h : i ≠ dp) : entries (newInode u dp name i x) i = x.entries := by
  rw [newInode, entries_setEntry_ne _ _ h, entries_withNlink]
  exact entries_setDinode_self u i x

theorem entries_newInode_ne (h : d ≠ dp) (hi : d ≠ i) :
    entries (newInode u dp name i x) d = entries u d := by
  rw [newInode, entries_setEntry_ne _ _ h, entries_withNlink]
  exact entries_setDinode_ne x hi

end NewInode

/-! Lists of entries -/

/-- The inode numbers in a list of entries. -/
def inums (des : List Dirent) : Multiset ℕ := ((des.map Dirent.inum).filter (· ≠ 0) : List ℕ)

theorem inums_cons_free {e : Dirent} (h : e.inum = 0) : inums (e :: des) = inums des := by
  rw [inums, List.map_cons, List.filter_cons_of_neg (by simpa using h)]
  rfl

theorem inums_cons {e : Dirent} (h : e.inum ≠ 0) : inums (e :: des) = e.inum ::ₘ inums des := by
  rw [inums, List.map_cons, List.filter_cons_of_pos (by simpa using h)]
  rfl

theorem mem_inums : i ∈ inums des ↔ i ≠ 0 ∧ ∃ e ∈ des, e.inum = i := by
  rw [inums, Multiset.mem_coe, List.mem_filter, List.mem_map, decide_eq_true_iff]
  exact and_comm

theorem findEmpty_succ (des : List Dirent) (off : ℕ) :
    findEmpty des (off + 1) = findEmpty des off + 1 := by
  induction des generalizing off with
  | nil => rfl
  | cons e des ih =>
    unfold findEmpty
    split
    · rfl
    · exact ih (off + 1)

theorem findEntry_succ (name : Name) (des : List Dirent) (off : ℕ) :
    findEntry name des (off + 1) = (findEntry name des off).map fun x => (x.1, x.2 + 1) := by
  induction des generalizing off with
  | nil => rfl
  | cons e des ih =>
    unfold findEntry
    split
    · exact ih (off + 1)
    · split
      · rfl
      · exact ih (off + 1)

theorem writeEntry_succ (e : Dirent) (des : List Dirent) (off : ℕ) (x : Dirent) :
    writeEntry (e :: des) (off + 1) x = e :: writeEntry des off x := by
  unfold writeEntry
  by_cases h : off < des.length
  · rw [if_pos h]
    exact if_pos (Nat.succ_lt_succ h)
  · rw [if_neg h]
    exact if_neg fun hlt => h (Nat.lt_of_succ_lt_succ hlt)

theorem mem_writeEntry {e x : Dirent} (h : e ∈ writeEntry des off x) : e ∈ des ∨ e = x := by
  unfold writeEntry at h
  split at h
  · exact List.mem_or_eq_of_mem_set h
  · exact (List.mem_append.mp h).imp_right List.mem_singleton.mp

theorem inums_add {x : Dirent} (hx : x.inum ≠ 0) (des : List Dirent) :
    inums (writeEntry des (findEmpty des 0) x) = x.inum ::ₘ inums des := by
  induction des with
  | nil => exact inums_cons hx
  | cons e des ih =>
    unfold findEmpty
    by_cases he : e.inum = 0
    · rw [if_pos he, inums_cons_free he]
      exact inums_cons hx
    · rw [if_neg he, findEmpty_succ, writeEntry_succ, inums_cons he, ih, inums_cons he,
        Multiset.cons_swap]

theorem inums_clear (h : findEntry name des 0 = some (i, off)) :
    inums des = i ::ₘ inums (writeEntry des off ⟨0, [], 0⟩) := by
  induction des generalizing off with
  | nil => cases h
  | cons e des ih =>
    -- the entry is further on
    have hlater : findEntry name des 1 = some (i, off) → ∃ k, off = k + 1 ∧
        inums des = i ::ₘ inums (writeEntry des k ⟨0, [], 0⟩) := by
      intro h
      rw [findEntry_succ] at h
      obtain ⟨⟨j, k⟩, hk, heq⟩ := Option.map_eq_some_iff.mp h
      cases heq
      exact ⟨k, rfl, ih hk⟩
    unfold findEntry at h
    split at h
    next he =>
      obtain ⟨k, rfl, hk⟩ := hlater h
      rw [writeEntry_succ, inums_cons_free he, inums_cons_free he, hk]
    next he =>
      split at h
      next =>
        cases h
        rw [inums_cons he]
        exact congrArg _ (inums_cons_free (e := ⟨0, [], 0⟩) rfl).symm
      next =>
        obtain ⟨k, rfl, hk⟩ := hlater h
        rw [writeEntry_succ, inums_cons he, inums_cons he, hk, Multiset.cons_swap]

/-- A directory `d`: "." and ".." in their places, and `rest`. -/
structure Shaped (d p : ℕ) (rest des : List Dirent) : Prop where
  places : ∃ b b', des = ⟨d, ['.'], b⟩ :: ⟨p, ['.', '.'], b'⟩ :: rest
  self : d ≠ 0
  parent : p ≠ 0
  names : ∀ e ∈ rest, e.inum ≠ 0 → e.name ≠ ['.']

namespace Shaped

variable {p : ℕ}

theorem add (h : Shaped d p rest des) (hnone : findEntry name des 0 = none) (hi : i ≠ 0)
    (b : ℕ) : ∃ rest', inums rest' = i ::ₘ inums rest ∧
      Shaped d p rest' (writeEntry des (findEmpty des 0) ⟨i, name, b⟩) := by
  obtain ⟨b₁, b₂, rfl⟩ := h.places
  have hname : name ≠ ['.'] := by
    rintro rfl
    unfold findEntry at hnone
    rw [if_neg h.self, if_pos rfl] at hnone
    cases hnone
  have hempty : findEmpty (⟨d, ['.'], b₁⟩ :: ⟨p, ['.', '.'], b₂⟩ :: rest) 0 =
      findEmpty rest 0 + 1 + 1 := by
    rw [findEmpty, if_neg h.self, findEmpty, if_neg h.parent, findEmpty_succ, findEmpty_succ]
  refine ⟨writeEntry rest (findEmpty rest 0) ⟨i, name, b⟩, inums_add hi rest, ?_⟩
  rw [hempty, writeEntry_succ, writeEntry_succ]
  refine ⟨⟨b₁, b₂, rfl⟩, h.self, h.parent, ?_⟩
  intro e he hne
  rcases mem_writeEntry he with he | rfl
  · exact h.names e he hne
  · exact hname

theorem clear (h : Shaped d p rest des) (hfound : findEntry name des 0 = some (i, off))
    (hdot : name ≠ ['.']) (hdots : name ≠ ['.', '.']) : ∃ rest', inums rest = i ::ₘ inums rest' ∧
      Shaped d p rest' (writeEntry des off ⟨0, [], 0⟩) := by
  obtain ⟨b₁, b₂, rfl⟩ := h.places
  rw [findEntry, if_neg h.self, if_neg hdot, findEntry, if_neg h.parent, if_neg hdots,
    findEntry_succ, findEntry_succ, Option.map_map] at hfound
  obtain ⟨⟨j, k⟩, hk, heq⟩ := Option.map_eq_some_iff.mp hfound
  cases heq
  refine ⟨writeEntry rest k ⟨0, [], 0⟩, inums_clear hk, ?_⟩
  change Shaped d p _ (writeEntry _ (k + 1 + 1) _)
  rw [writeEntry_succ, writeEntry_succ]
  refine ⟨⟨b₁, b₂, rfl⟩, h.self, h.parent, ?_⟩
  intro e he hne
  rcases mem_writeEntry he with he | rfl
  · exact h.names e he hne
  · exact absurd rfl hne

end Shaped

end TreeChanges
