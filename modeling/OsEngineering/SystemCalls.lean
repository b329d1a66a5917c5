import OsEngineering.InodeReferences

/-! What each system call makes of the directory tree: one change of it at most, after which
inodes without links and holders are freed. -/
namespace SystemCalls

open FaultState KernelParams DirectoryTree PathWalk InodeReferences

variable {s t u v : Fs} {i j : ℕ} {tmp L : List ℕ} {E : Fault → Prop}

/-! Changes of one inode. -/

theorem type_setDinode_self (s : Fs) (i : ℕ) (d : Dinode) : type (setDinode s i d) i = d.type := by
  simp only [type, setDinode, Function.update_self]

theorem type_setDinode_ne (d : Dinode) (h : j ≠ i) : type (setDinode s i d) j = type s j := by
  simp only [type, setDinode, Function.update_of_ne h]

theorem entries_setDinode_self (s : Fs) (i : ℕ) (d : Dinode) :
    entries (setDinode s i d) i = d.entries := by
  simp only [entries, setDinode, Function.update_self]

theorem entries_setDinode_ne (d : Dinode) (h : j ≠ i) :
    entries (setDinode s i d) j = entries s j := by
  simp only [entries, setDinode, Function.update_of_ne h]

theorem type_setEntry (s : Fs) (dp off : ℕ) (de : Dirent) (j : ℕ) :
    type (setEntry s dp off de) j = type s j := by
  by_cases hj : j = dp
  · subst hj
    exact type_setDinode_self _ _ _
  · exact type_setDinode_ne _ hj

theorem entries_setEntry_self (s : Fs) (dp off : ℕ) (de : Dirent) :
    entries (setEntry s dp off de) dp = writeEntry (entries s dp) off de :=
  entries_setDinode_self _ _ _

theorem entries_setEntry_ne {dp : ℕ} (off : ℕ) (de : Dirent) (h : j ≠ dp) :
    entries (setEntry s dp off de) j = entries s j :=
  entries_setDinode_ne _ h

/-- The state after addNlink. -/
def withNlink (s : Fs) (i : ℕ) (n : ℤ) : Fs :=
  setDinode s i { s.dinodes i with nlink := nlink s i + n }

theorem addNlink_run (s : Fs) (i : ℕ) (n : ℤ) : addNlink i n s = .ok ((), withNlink s i n) := rfl

theorem type_withNlink (s : Fs) (i : ℕ) (n : ℤ) (j : ℕ) :
    type (withNlink s i n) j = type s j := by
  by_cases hj : j = i
  · subst hj
    exact type_setDinode_self _ _ _
  · exact type_setDinode_ne _ hj

theorem entries_withNlink (s : Fs) (i : ℕ) (n : ℤ) (j : ℕ) :
    entries (withNlink s i n) j = entries s j := by
  by_cases hj : j = i
  · subst hj
    exact entries_setDinode_self _ _ _
  · exact entries_setDinode_ne _ hj

theorem mid_setEntry (h : Mid tmp L s) {dp : ℕ} (hd : type s dp = .dir) (off : ℕ) (de : Dirent) :
    Mid tmp L (setEntry s dp off de) := by
  have ht : type s dp ≠ .free := by
    rw [hd]
    decide
  exact h.setDinode (fun _ => ht) fun _ hn => h.orphans dp ht hn

theorem mid_withNlink (h : Mid tmp L s) (hi : i ∈ tmp) (hL : i ∈ L) (ht : type s i ≠ .free)
    (n : ℤ) : Mid tmp L (withNlink s i n) :=
  h.change hi hL ht

end SystemCalls
