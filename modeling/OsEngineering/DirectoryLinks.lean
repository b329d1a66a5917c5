import OsEngineering.LinkGraph
import OsEngineering.TreeChanges

/-! What link counts and entries have to do with each other. Each change of the tree counts as
many links as it makes or removes. -/
namespace DirectoryLinks

open DirectoryTree PathWalk SystemCalls FailedCalls LinkGraph TreeChanges

/-- The inodes that the directory `d` names, "." and ".." aside. -/
def kids (s : Fs) (d : ℕ) : Multiset ℕ :=
  if type s d = .dir then inums ((entries s d).drop 2) else 0

def dotdot (s : Fs) (d : ℕ) : ℕ := ((entries s d)[1]?.map Dirent.inum).getD 0

abbrev IsDir (s : Fs) (i : ℕ) : Prop := type s i = .dir

/-- One for each entry, for the ".." of each subdirectory, and for that of the root. -/
def weight (n : ℕ) (s : Fs) (i : ℕ) : ℕ :=
  names (Finset.range n) (kids s) i + below (kids s) (IsDir s) i + if i = ROOTINO then 1 else 0

/-- `n` is the number of inodes. -/
structure Tree (n : ℕ) (s : Fs) : Prop where
  bound : ∀ i, type s i ≠ .free → 0 < i ∧ i < n
  free : ∀ i, type s i = .free → nlink s i = 0
  shape : ∀ d, type s d = .dir → ∃ p rest, Shaped d p rest (entries s d)
  links : ∀ i, 0 < i → (weight n s i : ℤ) ≤ nlink s i
  root : type s ROOTINO = .dir

variable {n : ℕ} {s t u m : Fs} {c d dp i j off p : ℕ} {name : Name} {rest : List Dirent}
  {x : Dinode}

theorem kids_shaped (hd : type s d = .dir) (h : Shaped d p rest (entries s d)) :
    kids s d = inums rest := by
  obtain ⟨b, b', heq⟩ := h.places
  rw [kids, if_pos hd, heq]
  rfl

theorem dotdot_shaped (h : Shaped d p rest (entries s d)) : dotdot s d = p := by
  obtain ⟨b, b', heq⟩ := h.places
  rw [dotdot, heq]
  rfl

theorem kids_not_dir (h : type s d ≠ .dir) : kids s d = 0 := if_neg h

theorem dir_of_mem (h : i ∈ kids s d) : type s d = .dir := by
  by_contra hd
  rw [kids_not_dir hd] at h
  exact Multiset.notMem_zero i h

theorem pos_of_mem (hi : i ∈ kids s d) : 0 < i := by
  have hd := dir_of_mem hi
  rw [kids, if_pos hd] at hi
  exact Nat.pos_of_ne_zero (mem_inums.mp hi).1

theorem kids_congr (ht : type t d = type s d) (he : entries t d = entries s d) :
    kids t d = kids s d := by
  rw [kids, kids, ht, he]

theorem dotdot_congr (he : entries t d = entries s d) : dotdot t d = dotdot s d := by
  rw [dotdot, dotdot, he]

namespace Tree

theorem nonneg (h : Tree n s) (i : ℕ) : 0 ≤ nlink s i := by
  by_cases hi : 0 < i
  · have := h.links i hi
    omega
  · have hfree : type s i = .free := by
      by_contra hne
      exact hi (h.bound i hne).1
    rw [h.free i hfree]

theorem type_of_linked (h : Tree n s) (hi : nlink s i ≠ 0) : type s i ≠ .free :=
  fun hfree => hi (h.free i hfree)

theorem dir_lt (h : Tree n s) (hd : type s d = .dir) : d ∈ Finset.range n := by
  have hne : type s d ≠ .free := by
    rw [hd]
    decide
  exact Finset.mem_range.mpr (h.bound d hne).2

theorem linked_of_mem (h : Tree n s) (hi : i ∈ kids s d) : 0 < nlink s i := by
  have hpos := pos_of_mem hi
  have hnames := names_pos (h.dir_lt (dir_of_mem hi)) hi
  have hlinks := h.links i hpos
  unfold weight at hlinks
  omega

theorem root_linked (h : Tree n s) : 0 < nlink s ROOTINO := by
  have hlinks := h.links ROOTINO Nat.one_pos
  rw [weight, if_pos rfl] at hlinks
  omega

theorem not_named (h : Tree n s) (hi : type s i = .free) (d : ℕ) : i ∉ kids s d := by
  intro hmem
  have hpos := h.linked_of_mem hmem
  rw [h.free i hi] at hpos
  exact lt_irrefl 0 hpos

theorem names_free (h : Tree n s) (hi : type s i = .free) :
    names (Finset.range n) (kids s) i = 0 := by
  by_contra hne
  obtain ⟨d, -, hmem⟩ := named_by (Nat.pos_of_ne_zero hne)
  exact h.not_named hi d hmem

end Tree

/-! Freed inodes -/

theorem kids_freed (h : Freed s t) (d : ℕ) : kids t d ≤ kids s d := by
  by_cases hd : type t d = .dir
  · have hne : type t d ≠ .free := by
      rw [hd]
      decide
    rw [kids_congr (h.type_eq hne).symm (h.entries_eq hne).symm]
  · rw [kids_not_dir hd]
    exact Multiset.zero_le _

theorem dir_freed (h : Freed s t) (hd : type t d = .dir) : type s d = .dir := by
  have hne : type t d ≠ .free := by
    rw [hd]
    decide
  rw [h.type_eq hne, hd]

theorem weight_freed (h : Freed s t) (i : ℕ) : weight n t i ≤ weight n s i :=
  Nat.add_le_add_right (Nat.add_le_add (names_mono (kids_freed h) i)
    (below_mono i (kids_freed h i) fun _ hd => dir_freed h hd)) _

theorem entries_freed (h : Freed s t) (hd : type t d = .dir) : entries t d = entries s d := by
  have hne : type t d ≠ .free := by
    rw [hd]
    decide
  exact (h.entries_eq hne).symm

theorem Tree.freed (ht : Tree n s) (h : Freed s t) : Tree n t where
  bound := by
    intro i hi
    apply ht.bound i
    rwa [h.type_eq hi]
  free := by
    intro i hi
    rw [h.nlink_eq]
    by_contra hn
    rw [h.type_of_linked hn] at hi
    exact hn (ht.free i hi)
  shape := by
    intro d hd
    rw [entries_freed h hd]
    exact ht.shape d (dir_freed h hd)
  links := by
    intro i hi
    have hlinks := ht.links i hi
    have hweight := weight_freed (n := n) h i
    rw [h.nlink_eq]
    omega
  root := by
    have hn := ht.root_linked
    rw [h.type_of_linked (by omega)]
    exact ht.root

/-! One entry more -/

/-- `m` has the entries of `u`, and one more for `i` in `dp`. -/
structure Added (u m : Fs) (dp i : ℕ) : Prop where
  new : kids m dp = i ::ₘ kids u dp
  old : ∀ d, d ≠ dp → kids m d = kids u d
  types : ∀ d, ∀ c ∈ kids u d, IsDir m c ↔ IsDir u c

theorem Added.names (h : Added u m dp i) (hdp : dp ∈ Finset.range n) (j : ℕ) :
    names (Finset.range n) (kids m) j =
      names (Finset.range n) (kids u) j + if j = i then 1 else 0 :=
  names_add hdp h.new h.old j

theorem Added.weight (h : Added u m dp i) (hdp : dp ∈ Finset.range n) (j : ℕ) :
    weight n m j = weight n u j + (if j = i then 1 else 0) +
      if j = dp ∧ type m i = .dir then 1 else 0 := by
  have hnames := h.names hdp j
  have hbelow : below (kids m) (IsDir m) j = below (kids u) (IsDir u) j +
      if j = dp ∧ type m i = .dir then 1 else 0 := below_add h.new h.old h.types j
  unfold DirectoryLinks.weight
  rw [hnames, hbelow]
  omega

theorem Added.mem (h : Added u m dp i) (hc : c ∈ kids m d) : c = i ∧ d = dp ∨ c ∈ kids u d := by
  by_cases hd : d = dp
  · subst hd
    rw [h.new] at hc
    exact (Multiset.mem_cons.mp hc).imp_left fun hc => ⟨hc, rfl⟩
  · rw [h.old d hd] at hc
    exact Or.inr hc

theorem Added.keeps (h : Added u m dp i) (hc : c ∈ kids u d) : c ∈ kids m d := by
  by_cases hd : d = dp
  · subst hd
    rw [h.new]
    exact Multiset.mem_cons_of_mem hc
  · rwa [h.old d hd]

/-- link() makes an entry for an inode of a file. -/
structure Links (u : Fs) (dp : ℕ) (name : Name) (i : ℕ) : Prop where
  dir : type u dp = .dir
  none : findEntry name (entries u dp) 0 = none
  file : type u i ≠ .dir
  used : type u i ≠ .free

theorem Tree.add_shaped (ht : Tree n u) (hdir : type u dp = .dir)
    (hnone : findEntry name (entries u dp) 0 = none) (hi : i ≠ 0) (b : ℕ) :
    ∃ q rest', inums rest' = i ::ₘ kids u dp ∧ q = dotdot u dp ∧
      Shaped dp q rest' (writeEntry (entries u dp) (findEmpty (entries u dp) 0) ⟨i, name, b⟩) := by
  obtain ⟨q, rest, hshape⟩ := ht.shape dp hdir
  obtain ⟨rest', hinums, hnew⟩ := hshape.add hnone hi b
  refine ⟨q, rest', ?_, (dotdot_shaped hshape).symm, hnew⟩
  rw [hinums, kids_shaped hdir hshape]

namespace Links

variable (h : Links u dp name i)

include h

theorem pos (ht : Tree n u) : i ≠ 0 := Nat.pos_iff_ne_zero.mp (ht.bound i h.used).1

theorem shaped (ht : Tree n u) : ∃ q rest', inums rest' = i ::ₘ kids u dp ∧ q = dotdot u dp ∧
    Shaped dp q rest' (entries (newLink u dp name i) dp) := by
  rw [entries_newLink_self]
  exact ht.add_shaped h.dir h.none (h.pos ht) _

theorem added (ht : Tree n u) : Added u (newLink u dp name i) dp i where
  new := by
    obtain ⟨q, rest', hinums, -, hshape⟩ := h.shaped ht
    rw [kids_shaped (by rw [type_newLink]; exact h.dir) hshape, hinums]
  old := fun d hd => kids_congr (type_newLink _ _ _ _ _) (entries_newLink_ne name i hd)
  types := by
    intro d c _
    unfold IsDir
    rw [type_newLink]

theorem dotdot_eq (ht : Tree n u) (d : ℕ) : dotdot (newLink u dp name i) d = dotdot u d := by
  by_cases hd : d = dp
  · subst hd
    obtain ⟨q, rest', -, hq, hshape⟩ := h.shaped ht
    rw [dotdot_shaped hshape, hq]
  · exact dotdot_congr (entries_newLink_ne name i hd)

theorem tree (ht : Tree n u) : Tree n (newLink u dp name i) where
  bound := by
    intro j hj
    rw [type_newLink] at hj
    exact ht.bound j hj
  free := by
    intro j hj
    rw [type_newLink] at hj
    have hne : j ≠ i := by
      rintro rfl
      exact h.used hj
    rw [nlink_newLink, if_neg hne, add_zero]
    exact ht.free j hj
  shape := by
    intro d hd
    rw [type_newLink] at hd
    by_cases hdp : d = dp
    · subst hdp
      obtain ⟨q, rest', -, -, hshape⟩ := h.shaped ht
      exact ⟨q, rest', hshape⟩
    · rw [entries_newLink_ne name i hdp]
      exact ht.shape d hd
  links := by
    intro j hj
    have hlinks := ht.links j hj
    have hnot : ¬ (j = dp ∧ type u i = .dir) := fun hand => h.file hand.2
    rw [(h.added ht).weight (ht.dir_lt h.dir), nlink_newLink, type_newLink, if_neg hnot]
    split
    · omega
    · omega
  root := by
    rw [type_newLink]
    exact ht.root

end Links

/-- create() makes a new inode and its entry. -/
structure Births (n : ℕ) (u : Fs) (dp : ℕ) (name : Name) (i : ℕ) (x : Dinode) : Prop where
  dir : type u dp = .dir
  none : findEntry name (entries u dp) 0 = none
  free : type u i = .free
  bound : 0 < i ∧ i < n
  used : x.type ≠ .free
  nlink : x.nlink = 1
  dots : x.type = .dir → x.entries = dots u i dp

namespace Births

variable (h : Births n u dp name i x)

include h

theorem ne : i ≠ dp := by
  rintro rfl
  have hdir := h.dir
  rw [h.free] at hdir
  cases hdir

theorem ne_root (ht : Tree n u) : ROOTINO ≠ i := by
  rintro rfl
  have hroot := ht.root
  rw [h.free] at hroot
  cases hroot

theorem shaped (ht : Tree n u) : ∃ q rest', inums rest' = i ::ₘ kids u dp ∧ q = dotdot u dp ∧
    Shaped dp q rest' (entries (newInode u dp name i x) dp) := by
  rw [entries_newInode_parent u dp name x h.ne]
  exact ht.add_shaped h.dir h.none (Nat.pos_iff_ne_zero.mp h.bound.1) _

theorem shaped_new (ht : Tree n u) (hx : x.type = .dir) :
    Shaped i dp [] (entries (newInode u dp name i x) i) := by
  have hdp : dp ≠ 0 := Nat.pos_iff_ne_zero.mp (ht.bound dp (by rw [h.dir]; decide)).1
  rw [entries_newInode_self u dp name x h.ne, h.dots hx]
  refine ⟨⟨_, _, rfl⟩, Nat.pos_iff_ne_zero.mp h.bound.1, hdp, ?_⟩
  intro e he
  cases he

theorem type_parent : type (newInode u dp name i x) dp = .dir := by
  rw [type_newInode_ne u dp name x (Ne.symm h.ne)]
  exact h.dir

theorem added (ht : Tree n u) : Added u (newInode u dp name i x) dp i where
  new := by
    obtain ⟨q, rest', hinums, -, hshape⟩ := h.shaped ht
    rw [kids_shaped h.type_parent hshape, hinums]
  old := by
    intro d hd
    by_cases hdi : d = i
    · subst hdi
      have hfree : type u d ≠ .dir := by
        rw [h.free]
        decide
      rw [kids_not_dir hfree]
      by_cases hx : x.type = .dir
      · exact kids_shaped ((type_newInode_self u dp name x).trans hx) (h.shaped_new ht hx)
      · exact kids_not_dir (by rwa [type_newInode_self])
    · exact kids_congr (type_newInode_ne u dp name x hdi) (entries_newInode_ne u dp name x hd hdi)
  types := by
    intro d c hc
    have hne : c ≠ i := by
      rintro rfl
      exact ht.not_named h.free d hc
    unfold IsDir
    rw [type_newInode_ne u dp name x hne]

theorem dotdot_ne (ht : Tree n u) (hd : d ≠ i) :
    dotdot (newInode u dp name i x) d = dotdot u d := by
  by_cases hdp : d = dp
  · subst hdp
    obtain ⟨q, rest', -, hq, hshape⟩ := h.shaped ht
    rw [dotdot_shaped hshape, hq]
  · exact dotdot_congr (entries_newInode_ne u dp name x hdp hd)

theorem tree (ht : Tree n u) : Tree n (newInode u dp name i x) where
  bound := by
    intro j hj
    by_cases hji : j = i
    · rw [hji]
      exact h.bound
    · rw [type_newInode_ne u dp name x hji] at hj
      exact ht.bound j hj
  free := by
    intro j hj
    by_cases hji : j = i
    · rw [hji, type_newInode_self] at hj
      exact absurd hj h.used
    · rw [type_newInode_ne u dp name x hji] at hj
      have hdp : j ≠ dp := by
        rintro rfl
        rw [h.dir] at hj
        cases hj
      rw [nlink_newInode_ne u dp name x hji, if_neg hdp, add_zero]
      exact ht.free j hj
  shape := by
    intro d hd
    by_cases hdi : d = i
    · subst hdi
      rw [type_newInode_self] at hd
      exact ⟨dp, [], h.shaped_new ht hd⟩
    · rw [type_newInode_ne u dp name x hdi] at hd
      by_cases hdp : d = dp
      · subst hdp
        obtain ⟨q, rest', -, -, hshape⟩ := h.shaped ht
        exact ⟨q, rest', hshape⟩
      · rw [entries_newInode_ne u dp name x hdp hdi]
        exact ht.shape d hd
  links := by
    intro j hj
    have hlinks := ht.links j hj
    rw [(h.added ht).weight (ht.dir_lt h.dir), type_newInode_self]
    by_cases hji : j = i
    · subst hji
      have hnot : ¬ (j = dp ∧ x.type = .dir) := fun hand => h.ne hand.1
      rw [ht.free j h.free] at hlinks
      rw [nlink_newInode_self u dp name x h.ne, h.nlink, if_pos rfl, if_neg hnot]
      omega
    · rw [nlink_newInode_ne u dp name x hji, if_neg hji]
      by_cases hdp : j = dp
      · by_cases hx : x.type = .dir
        · rw [if_pos ⟨hdp, hx⟩, if_pos hdp, if_pos hx]
          omega
        · rw [if_neg fun hand => hx hand.2, if_pos hdp, if_neg hx]
          omega
      · rw [if_neg fun hand => hdp hand.1, if_neg hdp]
        omega
  root := by
    rw [type_newInode_ne u dp name x (h.ne_root ht)]
    exact ht.root

end Births

/-! One entry less -/

/-- unlink() removes an entry. -/
structure Removes (u : Fs) (dp : ℕ) (name : Name) (off i : ℕ) : Prop where
  dir : type u dp = .dir
  found : findEntry name (entries u dp) 0 = some (i, off)
  dot : name ≠ ['.']
  dots : name ≠ ['.', '.']
  ne : i ≠ dp
  linked : 0 < nlink u i
  empty : type u i = .dir → isdirempty (entries u i) = true

theorem kids_empty (h : isdirempty (entries s d) = true) : kids s d = 0 := by
  by_cases hd : type s d = .dir
  · rw [kids, if_pos hd]
    apply Multiset.eq_zero_of_forall_notMem
    intro i hi
    obtain ⟨hne, e, he, rfl⟩ := mem_inums.mp hi
    exact hne (by simpa using List.all_eq_true.mp h e he)
  · exact kids_not_dir hd

namespace Removes

variable (h : Removes u dp name off i)

include h

theorem shaped (ht : Tree n u) : ∃ q rest', kids u dp = i ::ₘ inums rest' ∧ q = dotdot u dp ∧
    Shaped dp q rest' (entries (removed u dp off i) dp) := by
  obtain ⟨q, rest, hshape⟩ := ht.shape dp h.dir
  obtain ⟨rest', hinums, hnew⟩ := hshape.clear h.found h.dot h.dots
  rw [entries_removed_self]
  refine ⟨q, rest', ?_, (dotdot_shaped hshape).symm, hnew⟩
  rw [kids_shaped h.dir hshape, hinums]

theorem added (ht : Tree n u) : Added (removed u dp off i) u dp i where
  new := by
    obtain ⟨q, rest', hkids, -, hshape⟩ := h.shaped ht
    rw [hkids, kids_shaped (by rw [type_removed]; exact h.dir) hshape]
  old := fun d hd =>
    (kids_congr (type_removed u dp off i d) (entries_removed_ne off i hd)).symm
  types := by
    intro d c _
    unfold IsDir
    rw [type_removed]

theorem mem (ht : Tree n u) : i ∈ kids u dp := by
  rw [(h.added ht).new]
  exact Multiset.mem_cons_self i _

theorem dotdot_eq (ht : Tree n u) (d : ℕ) : dotdot (removed u dp off i) d = dotdot u d := by
  by_cases hd : d = dp
  · subst hd
    obtain ⟨q, rest', -, hq, hshape⟩ := h.shaped ht
    rw [dotdot_shaped hshape, hq]
  · exact dotdot_congr (entries_removed_ne off i hd)

/-- The links that are given up. -/
theorem count (ht : Tree n u) (j : ℕ) : (weight n u j : ℤ) - nlink u j =
    weight n (removed u dp off i) j - nlink (removed u dp off i) j := by
  have hweight := (h.added ht).weight (ht.dir_lt (d := dp) h.dir) j
  rw [hweight, nlink_removed]
  by_cases hdp : j = dp
  · have hji : j ≠ i := fun hji => h.ne (hji.symm.trans hdp)
    by_cases hd : type u i = .dir
    · rw [if_neg hji, if_pos ⟨hdp, hd⟩, if_pos hdp, if_pos hd, if_neg hji]
      omega
    · have hnot : ¬ (j = dp ∧ type u i = .dir) := fun hand => hd hand.2
      rw [if_neg hji, if_neg hnot, if_pos hdp, if_neg hd, if_neg hji]
      omega
  · have hnot : ¬ (j = dp ∧ type u i = .dir) := fun hand => hdp hand.1
    rw [if_neg hnot, if_neg hdp]
    split
    · omega
    · omega

theorem tree (ht : Tree n u) : Tree n (removed u dp off i) where
  bound := by
    intro j hj
    rw [type_removed] at hj
    exact ht.bound j hj
  free := by
    intro j hj
    rw [type_removed] at hj
    have hdp : j ≠ dp := by
      rintro rfl
      rw [h.dir] at hj
      cases hj
    have hji : j ≠ i := by
      rintro rfl
      have hlinked := h.linked
      rw [ht.free j hj] at hlinked
      exact lt_irrefl 0 hlinked
    rw [nlink_removed, if_neg hdp, if_neg hji, add_zero, add_zero]
    exact ht.free j hj
  shape := by
    intro d hd
    rw [type_removed] at hd
    by_cases hdp : d = dp
    · subst hdp
      obtain ⟨q, rest', -, -, hshape⟩ := h.shaped ht
      exact ⟨q, rest', hshape⟩
    · rw [entries_removed_ne off i hdp]
      exact ht.shape d hd
  links := by
    intro j hj
    have hlinks := ht.links j hj
    have hcount := h.count ht j
    omega
  root := by
    rw [type_removed]
    exact ht.root

end Removes

end DirectoryLinks
