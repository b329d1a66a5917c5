import OsEngineering.InodeTypes
import OsEngineering.OpenFiles

/-! What the files that are open for writing refer to, over whole runs. -/
set_option linter.unusedSectionVars false

namespace OpenModes

open ByteBlock TransitionSystem InodeAccounts InodeReuse FreshInodes InodeTypes OpenFiles
open BlockAllocation (T_DEV)
open InodeCache (Dev Dinode Slot Linked)

/-- The struct file a handle belongs to. -/
def Claims (r : Role) (f : FileNo) : Prop :=
  (∃ omode, r = .filed omode f ∨ r = .unlocked omode f) ∨ r = .file f

variable {η : Type*}

/-- The handle has had its inode locked, and the type that was seen then is still there. -/
def Seen (s : State η) (h : η) (j : Slot) (forWriting : Bool) : Prop :=
  Settled s.cache h j ∧ (forWriting = true → (s.cache.icache j).copy.type ≠ T_DIR)

def Kept (s : State η) (h : η) : Role → Prop
  | .call => True
  | .made _ => ∃ j, Settled s.cache h j ∧ (s.cache.icache j).copy.type = T_FILE
  | .checked omode => ∃ j, Seen s h j (writable omode)
  | .filed omode f | .unlocked omode f =>
    (∃ j, Seen s h j (writable omode)) ∧ (s.files f).ref = 1 ∧ (s.files f).type = .none
  | .file f => 0 < (s.files f).ref ∧ (s.files f).type = .inode ∧
    ∃ j, (s.files f).ip = some (h, j) ∧ Seen s h j (s.files f).writable

structure Sound [Fintype η] [DecidableEq η] (s : State η) : Prop where
  accounts : Accounts s.cache
  reuse : Reuse s.cache
  typed : Typed Kind s.cache
  kept : ∀ h, Kept s h (s.role h)
  one : ∀ g h f, Claims (s.role g) f → Claims (s.role h) f → g = h
  free : ∀ f, (s.files f).ref = 0 → (s.files f).type = .none
  owner : ∀ f, 0 < (s.files f).ref → (s.files f).type = .inode →
    ∃ h j, (s.files f).ip = some (h, j) ∧ s.role h = .file f

theorem Opens.not_directory {omode : BitVec 32} {type : Half} (h : Opens omode type)
    (hw : writable omode = true) : type ≠ T_DIR := by
  rintro rfl
  simp only [Opens] at h
  split at h
  · exact absurd h (by decide)
  · have hread : omode = O_RDONLY := by
      by_contra hne
      exact h ⟨trivial, hne⟩
    rw [hread] at hw
    exact absurd hw (by decide)

section Steps

variable [Fintype η] [DecidableEq η]

variable {s t : State η} {h : η} {f : FileNo} {r : Role}

/-- A step of the cache keeps what a handle has seen. -/
theorem Seen.next {e : InodeCache.Event η} {n : ℕ} {j : Slot} {w : Bool} (k : Sound s)
    (he : InodeCache.Enabled s.cache e) (hput : ∀ i, e ≠ .iput h i) (hs : Seen s h j w)
    (ht : t.cache = InodeCache.next n s.cache e) : Seen t h j w := by
  obtain ⟨hsettled, htype⟩ := next_settled k.accounts k.reuse n he hs.1 hput
  rw [Seen, ht]
  exact ⟨hsettled, fun hw => htype.2.1 ▸ hs.2 hw⟩

theorem Kept.next {e : InodeCache.Event η} {n : ℕ} (k : Sound s)
    (he : InodeCache.Enabled s.cache e) (hput : r ≠ .call → ∀ i, e ≠ .iput h i)
    (hk : Kept s h r) (ht : t.cache = InodeCache.next n s.cache e) (hf : t.files = s.files) :
    Kept t h r := by
  cases r with
  | call => trivial
  | made omode =>
    obtain ⟨j, hs, hfile⟩ := hk
    obtain ⟨hsettled, htype⟩ :=
      next_settled k.accounts k.reuse n he hs (hput nofun)
    rw [Kept, ht]
    exact ⟨j, hsettled, htype.2.1.trans hfile⟩
  | checked omode =>
    obtain ⟨j, hs⟩ := hk
    exact ⟨j, hs.next k he (hput nofun) ht⟩
  | filed omode f =>
    obtain ⟨⟨j, hs⟩, hfile⟩ := hk
    rw [Kept, hf]
    exact ⟨⟨j, hs.next k he (hput nofun) ht⟩, hfile⟩
  | unlocked omode f =>
    obtain ⟨⟨j, hs⟩, hfile⟩ := hk
    rw [Kept, hf]
    exact ⟨⟨j, hs.next k he (hput nofun) ht⟩, hfile⟩
  | file f =>
    obtain ⟨href, htype, j, hip, hs⟩ := hk
    rw [Kept, hf]
    exact ⟨href, htype, j, hip, hs.next k he (hput nofun) ht⟩

theorem Kept.congr (hk : Kept s h r) (hc : t.cache = s.cache)
    (hf : ∀ f, Claims r f → t.files f = s.files f) : Kept t h r := by
  cases r with
  | call => trivial
  | made omode => rwa [Kept, hc]
  | checked omode => simpa only [Kept, Seen, hc] using hk
  | filed omode f =>
    have hfile := hf f (Or.inl ⟨omode, Or.inl rfl⟩)
    simpa only [Kept, Seen, hc, hfile] using hk
  | unlocked omode f =>
    have hfile := hf f (Or.inl ⟨omode, Or.inr rfl⟩)
    simpa only [Kept, Seen, hc, hfile] using hk
  | file f =>
    have hfile := hf f (Or.inr rfl)
    simpa only [Kept, Seen, hc, hfile] using hk

/-- A step of the cache. -/
theorem Sound.step (k : Sound s) {e : InodeCache.Event η} {n : ℕ}
    (he : InodeCache.Enabled s.cache e) (hl : Linked s.cache e)
    (hput : ∀ h, s.role h ≠ .call → ∀ i, e ≠ .iput h i)
    (hkind : ∀ g dev type, e = .ialloc g dev type → Kind type)
    (hc : t.cache = InodeCache.next n s.cache e) (hf : t.files = s.files) (hr : t.role = s.role) :
    Sound t := by
  refine
    { accounts := hc ▸ next_accounts k.accounts n he
      reuse := hc ▸ next_reuse k.reuse k.accounts n hl he
      typed := hc ▸ next_typed (Or.inl rfl) k.reuse k.typed he hkind
      kept := ?_
      one := ?_
      free := ?_
      owner := ?_ }
  · intro h
    rw [hr]
    exact (k.kept h).next k he (hput h) hc hf
  · rw [hr]
    exact k.one
  · rw [hf]
    exact k.free
  · rw [hf, hr]
    exact k.owner

/-- A struct file changes, and the handles that belong to it. -/
theorem Sound.change (k : Sound s) {x : File η} (hc : t.cache = s.cache)
    (hf : t.files = Function.update s.files f x)
    (hkept : ∀ g, (t.role g = s.role g ∧ ¬ Claims (s.role g) f) ∨ Kept t g (t.role g))
    (hone : ∀ g h f, Claims (t.role g) f → Claims (t.role h) f → g = h)
    (hfree : x.ref = 0 → x.type = .none)
    (howner : 0 < x.ref → x.type = .inode → ∃ h j, x.ip = some (h, j) ∧ t.role h = .file f)
    (hothers : ∀ f', f' ≠ f → ∀ h, s.role h = .file f' → t.role h = .file f') : Sound t := by
  refine
    { accounts := hc ▸ k.accounts
      reuse := hc ▸ k.reuse
      typed := hc ▸ k.typed
      kept := ?_
      one := hone
      free := ?_
      owner := ?_ }
  · intro g
    rcases hkept g with ⟨hg, hnot⟩ | hg
    · rw [hg]
      refine (k.kept g).congr hc fun f' hf' => ?_
      have hne : f' ≠ f := by
        rintro rfl
        exact hnot hf'
      rw [hf, Function.update_of_ne hne]
    · exact hg
  · intro f' href
    rw [hf] at href ⊢
    by_cases hff : f' = f
    · rw [hff, Function.update_self] at href ⊢
      exact hfree href
    · rw [Function.update_of_ne hff] at href ⊢
      exact k.free f' href
  · intro f' href htype
    rw [hf] at href htype ⊢
    by_cases hff : f' = f
    · rw [hff, Function.update_self] at href htype ⊢
      exact howner href htype
    · rw [Function.update_of_ne hff] at href htype ⊢
      obtain ⟨h, j, hip, hrole⟩ := k.owner f' href htype
      exact ⟨h, j, hip, hothers f' hff h hrole⟩

/-! Each event. -/

theorem one_update (k : Sound s) (hr : t.role = Function.update s.role h r)
    (hnew : ∀ g f, g ≠ h → Claims r f → ¬ Claims (s.role g) f) (g i : η) (f : FileNo)
    (hg : Claims (t.role g) f) (hi : Claims (t.role i) f) : g = i := by
  rw [hr] at hg hi
  by_cases hgh : g = h
  · by_cases hih : i = h
    · rw [hgh, hih]
    · rw [hgh, Function.update_self] at hg
      rw [Function.update_of_ne hih] at hi
      exact absurd hi (hnew i f hih hg)
  · rw [Function.update_of_ne hgh] at hg
    by_cases hih : i = h
    · rw [hih, Function.update_self] at hi
      exact absurd hg (hnew g f hgh hi)
    · rw [Function.update_of_ne hih] at hi
      exact k.one g i f hg hi

theorem not_claims_call (f : FileNo) : ¬ Claims .call f := by
  rintro (⟨omode, hc | hc⟩ | hc) <;> cases hc

theorem not_claims_made (omode : BitVec 32) (f : FileNo) : ¬ Claims (.made omode) f := by
  rintro (⟨omode, hc | hc⟩ | hc) <;> cases hc

theorem not_claims_checked (omode : BitVec 32) (f : FileNo) : ¬ Claims (.checked omode) f := by
  rintro (⟨omode, hc | hc⟩ | hc) <;> cases hc

/-- A struct file that some handle belongs to is in use. -/
theorem Sound.in_use (k : Sound s) (hc : Claims (s.role h) f) : 0 < (s.files f).ref := by
  have hk := k.kept h
  rcases hc with ⟨omode, hr | hr⟩ | hr
  · rw [hr] at hk
    obtain ⟨-, href, -⟩ := hk
    omega
  · rw [hr] at hk
    obtain ⟨-, href, -⟩ := hk
    omega
  · rw [hr] at hk
    exact hk.1

/-- A handle that belongs to no struct file takes another part. -/
theorem Sound.setRole (k : Sound s) (hnot : ∀ f, ¬ Claims (s.role h) f) (hr : ∀ f, ¬ Claims r f)
    (hkept : Kept s h r) : Sound (s.setRole h r) := by
  have hother : ∀ {g}, g ≠ h → (s.setRole h r).role g = s.role g :=
    fun hg => Function.update_of_ne hg _ _
  have hself : (s.setRole h r).role h = r := Function.update_self _ _ _
  refine
    { accounts := k.accounts
      reuse := k.reuse
      typed := k.typed
      kept := ?_
      one := one_update k rfl fun g f _ hc => absurd hc (hr f)
      free := k.free
      owner := ?_ }
  · intro g
    by_cases hg : g = h
    · rw [hg, hself]
      exact hkept.congr rfl fun _ _ => rfl
    · rw [hother hg]
      exact (k.kept g).congr rfl fun _ _ => rfl
  · intro f href htype
    obtain ⟨g, j, hip, hrole⟩ := k.owner f href htype
    have hg : g ≠ h := by
      rintro rfl
      exact hnot f (Or.inr hrole)
    exact ⟨g, j, hip, (hother hg).trans hrole⟩

theorem Sound.panic (k : Sound s) (msg : String) : Sound (s.panic msg) := by
  have hsettled : ∀ {g j}, Settled s.cache g j → Settled (s.panic msg).cache g j :=
    fun hs => ⟨hs.stays, hs.valid, hs.kept⟩
  refine
    { accounts := halt_accounts k.accounts msg
      reuse := halt_reuse k.reuse msg
      typed := ⟨k.typed.disk, k.typed.copy, k.typed.scanning⟩
      kept := ?_
      one := k.one
      free := k.free
      owner := k.owner }
  intro g
  have hk := k.kept g
  change Kept (s.panic msg) g (s.role g)
  cases hr : s.role g with
  | call => trivial
  | made omode =>
    rw [hr] at hk
    obtain ⟨j, hs, htype⟩ := hk
    exact ⟨j, hsettled hs, htype⟩
  | checked omode =>
    rw [hr] at hk
    obtain ⟨j, hs, htype⟩ := hk
    exact ⟨j, hsettled hs, htype⟩
  | filed omode f =>
    rw [hr] at hk
    obtain ⟨⟨j, hs, htype⟩, hfile⟩ := hk
    exact ⟨⟨j, hsettled hs, htype⟩, hfile⟩
  | unlocked omode f =>
    rw [hr] at hk
    obtain ⟨⟨j, hs, htype⟩, hfile⟩ := hk
    exact ⟨⟨j, hsettled hs, htype⟩, hfile⟩
  | file f =>
    rw [hr] at hk
    obtain ⟨href, hinode, j, hip, hs, htype⟩ := hk
    exact ⟨href, hinode, j, hip, hsettled hs, htype⟩

theorem Sound.same (k : Sound s) (hc : t.cache = s.cache) (hf : t.files = s.files)
    (hr : t.role = s.role) : Sound t where
  accounts := hc ▸ k.accounts
  reuse := hc ▸ k.reuse
  typed := hc ▸ k.typed
  kept g := by
    rw [hr]
    exact (k.kept g).congr hc fun f _ => by rw [hf]
  one := hr ▸ k.one
  free := hf ▸ k.free
  owner := by
    rw [hf, hr]
    exact k.owner

/-- The holder of the lock of an inode has it settled. -/
theorem settled_of_locked (k : Sound s) {new : Option Half} {j : Slot}
    (hu : s.cache.use h = .locked new j) : Settled s.cache h j := by
  have hfits := k.reuse.fits h j (on_of_eq hu rfl)
  rw [hu] at hfits
  refine ⟨hu ▸ Or.inr (Or.inl ⟨new, rfl⟩), ?_, ?_⟩
  · cases new with
    | none => exact hfits
    | some type => exact hfits.1
  · intro g hg
    have hlocked : locker (s.cache.use g) = some j := by
      rcases hg with hg | hg | hg <;> exact locker_of_eq hg rfl
    have hgh := k.accounts.locks.sole (locker_of_eq hu rfl) hlocked
    rw [hgh, hu] at hg
    rcases hg with hg | hg | hg <;> cases hg

theorem freeFile_some (hf : freeFile s = some f) : (s.files f).ref = 0 := by
  simpa using List.find?_some hf

theorem Sound.not_claimed (k : Sound s) (hf : (s.files f).ref = 0) (g : η) :
    ¬ Claims (s.role g) f := by
  intro hc
  have hpos := k.in_use hc
  omega

theorem filealloc_sound (k : Sound s) {omode : BitVec 32} (hr : s.role h = .checked omode) :
    Sound (filealloc s h omode) := by
  have hnone : ∀ f, ¬ Claims (s.role h) f := by
    rw [hr]
    exact not_claims_checked omode
  have hk := k.kept h
  rw [hr] at hk
  simp only [filealloc]
  cases hf : freeFile s with
  | none => exact k.setRole hnone not_claims_call trivial
  | some f =>
    have hzero := freeFile_some hf
    have hclaims : ∀ f', Claims (.filed omode f) f' → f' = f := by
      rintro f' (⟨o, hc | hc⟩ | hc)
      · exact ((Role.filed.inj hc).2).symm
      · cases hc
      · cases hc
    refine k.change (f := f) (x := { s.files f with ref := 1 }) rfl rfl ?_ ?_ nofun ?_ ?_
    · intro g
      by_cases hg : g = h
      · refine Or.inr ?_
        rw [hg]
        change Kept _ h (Function.update s.role h (.filed omode f) h)
        rw [Function.update_self]
        obtain ⟨j, hs⟩ := hk
        refine ⟨⟨j, hs⟩, ?_⟩
        change (Function.update s.files f _ f).ref = 1 ∧ (Function.update s.files f _ f).type = .none
        rw [Function.update_self]
        exact ⟨rfl, k.free f hzero⟩
      · exact Or.inl ⟨Function.update_of_ne hg _ _, k.not_claimed hzero g⟩
    · refine one_update k rfl fun g f' _ hc => ?_
      rw [hclaims f' hc]
      exact k.not_claimed hzero g
    · intro _ htype
      exact absurd ((k.free f hzero).symm.trans htype) nofun
    · intro f' _ g hg
      have hgh : g ≠ h := by
        rintro rfl
        exact hnone f' (Or.inr hg)
      exact (Function.update_of_ne hgh _ _).trans hg

theorem giveUp_sound (k : Sound s) {omode : BitVec 32} (hr : s.role h = .filed omode f) :
    Sound ((s.setFile f { s.files f with ref := 0, type := .none }).setRole h .call) := by
  have hclaim : Claims (s.role h) f := Or.inl ⟨omode, Or.inl hr⟩
  refine k.change (f := f) (x := { s.files f with ref := 0, type := .none }) rfl rfl ?_ ?_
    (fun _ => rfl) (fun hpos => absurd hpos (lt_irrefl 0)) ?_
  · intro g
    by_cases hg : g = h
    · refine Or.inr ?_
      rw [hg]
      change Kept _ h (Function.update s.role h .call h)
      rw [Function.update_self]
      trivial
    · exact Or.inl ⟨Function.update_of_ne hg _ _, fun hc => hg (k.one g h f hc hclaim)⟩
  · exact one_update k rfl fun g f' _ hc => absurd hc (not_claims_call f')
  · intro f' hff g hg
    have hgh : g ≠ h := by
      rintro rfl
      exact absurd (hr.symm.trans hg) nofun
    exact (Function.update_of_ne hgh _ _).trans hg

theorem install_sound (k : Sound s) {omode : BitVec 32} {j : Slot}
    (hu : s.cache.use h = .ref none j) (hr : s.role h = .unlocked omode f) :
    Sound (install s h j omode f) := by
  have hclaim : Claims (s.role h) f := Or.inl ⟨omode, Or.inr hr⟩
  have hk := k.kept h
  rw [hr] at hk
  obtain ⟨⟨i, hs⟩, href, -⟩ := hk
  obtain rfl := hs.1.slot (on_of_eq hu rfl)
  have hclaims : ∀ f', Claims (.file f) f' → f' = f := by
    rintro f' (⟨o, hc | hc⟩ | hc)
    · cases hc
    · cases hc
    · exact (Role.file.inj hc).symm
  refine k.change (f := f) (x := { s.files f with
    type := .inode
    ip := some (h, j)
    readable := readable omode
    writable := writable omode }) rfl rfl ?_ ?_ ?_ ?_ ?_
  · intro g
    by_cases hg : g = h
    · refine Or.inr ?_
      rw [hg]
      change Kept _ h (Function.update s.role h (.file f) h)
      rw [Function.update_self, Kept]
      change 0 < (Function.update s.files f _ f).ref ∧ (Function.update s.files f _ f).type = _ ∧
        ∃ j, (Function.update s.files f _ f).ip = some (h, j) ∧
          Seen _ h j (Function.update s.files f _ f).writable
      rw [Function.update_self]
      refine ⟨?_, rfl, j, rfl, hs⟩
      change 0 < (s.files f).ref
      omega
    · exact Or.inl ⟨Function.update_of_ne hg _ _, fun hc => hg (k.one g h f hc hclaim)⟩
  · refine one_update k rfl fun g f' hg hc => ?_
    rw [hclaims f' hc]
    exact fun hc => hg (k.one g h f hc hclaim)
  · intro hzero
    change (s.files f).ref = 0 at hzero
    omega
  · exact fun _ _ => ⟨h, j, rfl, Function.update_self _ _ _⟩
  · intro f' hff g hg
    have hgh : g ≠ h := by
      rintro rfl
      exact absurd (hr.symm.trans hg) nofun
    exact (Function.update_of_ne hgh _ _).trans hg

theorem pipealloc_sound (k : Sound s) (w : Bool) : Sound (pipealloc s w) := by
  simp only [pipealloc]
  cases hf : freeFile s with
  | none => exact k
  | some f =>
    have hzero := freeFile_some hf
    exact k.change (f := f) rfl rfl (fun g => Or.inl ⟨rfl, k.not_claimed hzero g⟩) k.one nofun
      nofun fun _ _ _ hr => hr

/-- The count of a struct file that stays in use. -/
theorem count_sound (k : Sound s) (hpos : 0 < (s.files f).ref) (htype : (s.files f).type ≠ .none)
    {n : ℤ} (hn : 0 < n) : Sound (s.setFile f { s.files f with ref := n }) := by
  refine k.change (f := f) (x := { s.files f with ref := n }) rfl rfl ?_ k.one ?_ ?_ ?_
  · intro g
    by_cases hc : Claims (s.role g) f
    · refine Or.inr ?_
      have hk := k.kept g
      rcases hc with ⟨omode, hr | hr⟩ | hr
      · rw [hr] at hk
        exact absurd hk.2.2 htype
      · rw [hr] at hk
        exact absurd hk.2.2 htype
      · rw [hr] at hk
        change Kept _ g (s.role g)
        rw [hr, Kept]
        change 0 < (Function.update s.files f _ f).ref ∧ (Function.update s.files f _ f).type = _ ∧
          ∃ j, (Function.update s.files f _ f).ip = some (g, j) ∧
            Seen _ g j (Function.update s.files f _ f).writable
        rw [Function.update_self]
        exact ⟨hn, hk.2.1, hk.2.2⟩
    · exact Or.inl ⟨rfl, hc⟩
  · intro hzero
    change n = 0 at hzero
    omega
  · exact fun _ hinode => k.owner f hpos hinode
  · exact fun _ _ _ hr => hr

theorem filedup_sound (k : Sound s) (htype : (s.files f).type ≠ .none) : Sound (filedup s f) := by
  simp only [filedup]
  split
  · exact k.panic _
  · exact count_sound k (by omega) htype (by omega)

theorem fileclose_sound (k : Sound s) (htype : (s.files f).type ≠ .none) :
    Sound (fileclose s f) := by
  simp only [fileclose]
  split
  · exact k.panic _
  split
  · exact count_sound k (by omega) htype ‹_›
  rename_i hpos _
  cases hf : (s.files f).type with
  | none => exact absurd hf htype
  | pipe =>
    have hnot : ∀ g, ¬ Claims (s.role g) f := by
      intro g hc
      have hk := k.kept g
      rcases hc with ⟨omode, hr | hr⟩ | hr
      · rw [hr] at hk
        exact htype hk.2.2
      · rw [hr] at hk
        exact htype hk.2.2
      · rw [hr] at hk
        exact absurd (hf.symm.trans hk.2.1) nofun
    exact k.change (f := f) rfl rfl (fun g => Or.inl ⟨rfl, hnot g⟩) k.one (fun _ => rfl) nofun
      fun _ _ _ hr => hr
  | inode =>
    obtain ⟨h, j, hip, hr⟩ := k.owner f (by omega) hf
    rw [hip]
    refine k.change (f := f) (t := State.setRole (s.setFile f _) h .call) rfl rfl ?_ ?_
      (fun _ => rfl) (fun hpos => absurd hpos (lt_irrefl 0)) ?_
    · intro g
      by_cases hg : g = h
      · refine Or.inr ?_
        rw [hg]
        change Kept _ h (Function.update s.role h .call h)
        rw [Function.update_self]
        trivial
      · exact Or.inl ⟨Function.update_of_ne hg _ _, fun hc => hg (k.one g h f hc (Or.inr hr))⟩
    · exact one_update k rfl fun g f' _ hc => absurd hc (not_claims_call f')
    · intro f' hff g hg
      have hgh : g ≠ h := by
        rintro rfl
        exact hff (Role.file.inj (hg.symm.trans hr))
      exact (Function.update_of_ne hgh _ _).trans hg

theorem iunlock_sound (k : Sound s) {omode : BitVec 32} {j : Slot} {n : ℕ}
    (hrun : s.cache.halted = none) (hu : s.cache.use h = .locked none j)
    (hr : s.role h = .filed omode f) :
    Sound (State.setRole { s with cache := InodeCache.next n s.cache (.iunlock h none j) } h
      (.unlocked omode f)) := by
  have hclaim : Claims (s.role h) f := Or.inl ⟨omode, Or.inl hr⟩
  have hclaims : ∀ f', Claims (.unlocked omode f) f' → f' = f := by
    rintro f' (⟨o, hc | hc⟩ | hc)
    · cases hc
    · exact (Role.unlocked.inj hc).2.symm
    · cases hc
  have ku : Sound { s with cache := InodeCache.next n s.cache (.iunlock h none j) } :=
    k.step (n := n) (e := .iunlock h none j) ⟨hrun, hu⟩ trivial (fun _ _ _ => nofun) nofun rfl rfl
      rfl
  have hk := ku.kept h
  change Kept _ h (s.role h) at hk
  rw [hr] at hk
  refine ku.change (f := f) (x := s.files f) rfl (Function.update_eq_self f s.files).symm ?_ ?_
    (k.free f) ?_ ?_
  · intro g
    by_cases hg : g = h
    · refine Or.inr ?_
      rw [hg]
      change Kept _ h (Function.update s.role h (.unlocked omode f) h)
      rw [Function.update_self]
      exact hk
    · exact Or.inl ⟨Function.update_of_ne hg _ _, fun hc => hg (k.one g h f hc hclaim)⟩
  · refine one_update ku rfl fun g f' hg hc => ?_
    rw [hclaims f' hc]
    exact fun hc => hg (k.one g h f hc hclaim)
  · intro _ htype
    exact absurd (hk.2.2.symm.trans htype) nofun
  · intro f' hff g hg
    have hgh : g ≠ h := by
      rintro rfl
      exact absurd (hr.symm.trans hg) nofun
    exact (Function.update_of_ne hgh _ _).trans hg

/-- A handle with a part of its own is not put. -/
theorem not_iput {e : InodeCache.Event η} (ha : Allowed (s.role (actor e)) e) (h : η)
    (hr : s.role h ≠ .call) (i : Slot) : e ≠ .iput h i := by
  rintro rfl
  change Allowed (s.role h) _ at ha
  cases hrole : s.role h with
  | call => exact hr hrole
  | _ =>
    rw [hrole] at ha
    exact ha

theorem kind_of_allowed {r : Role} {g : η} {dev : Dev} {type : Half}
    (ha : Allowed r (.ialloc g dev type)) : Kind type := by
  cases r with
  | call => exact Or.inr ha
  | _ => exact ha.elim

theorem next_fields (n : ℕ) (s : State η) (e : InodeCache.Event η) :
    (next n s (.cache e)).cache = InodeCache.next n s.cache e ∧
      (next n s (.cache e)).files = s.files ∧ (next n s (.cache e)).role = s.role := by
  cases e <;> exact ⟨rfl, rfl, rfl⟩

theorem next_sound (k : Sound s) {n : ℕ} {e : Event η} (he : Enabled s e) (hn : Named s e) :
    Sound (next n s e) := by
  obtain ⟨hrun, he⟩ := he
  cases e with
  | cache e =>
    obtain ⟨hc, hf, hr⟩ := next_fields n s e
    have hlinked : Linked s.cache e := by
      cases e with
      | iget g dev inum =>
        have ha := he.2
        cases hrole : s.role (actor (.iget g dev inum)) with
        | _ =>
          rw [hrole] at ha
          exact ha.elim
      | _ => trivial
    refine k.step he.1 hlinked (not_iput he.2) ?_ hc hf hr
    rintro g dev type rfl
    exact kind_of_allowed he.2
  | root h =>
    exact k.step (e := .iget h ROOTDEV ROOTINO) (n := n) ⟨hrun, he⟩ hn (fun _ _ _ => nofun) nofun
      rfl rfl rfl
  | dirlookup g h new i inum =>
    exact k.step (e := .iget h _ inum) (n := n) ⟨hrun, he.2.2⟩ hn (fun _ _ _ => nofun) nofun
      rfl rfl rfl
  | dirlink g new i inum => exact k.same rfl rfl rfl
  | unlink g new i inum => exact k.same rfl rfl rfl
  | made h j omode =>
    obtain ⟨hu, hr, -⟩ := he
    have hfits := k.reuse.fits h j (on_of_eq hu rfl)
    rw [hu] at hfits
    refine k.setRole ?_ (not_claims_made omode) ⟨j, settled_of_locked k hu, ?_⟩
    · rw [hr]
      exact not_claims_call
    · rw [hfits.2]
      rfl
  | created h j omode =>
    obtain ⟨-, hr⟩ := he
    have hk := k.kept h
    rw [hr] at hk
    obtain ⟨i, hs, htype⟩ := hk
    refine k.setRole ?_ (not_claims_checked omode) ⟨i, hs, fun _ => ?_⟩
    · rw [hr]
      exact not_claims_made omode
    · rw [htype]
      decide
  | checked h j omode =>
    obtain ⟨hu, hr, ho⟩ := he
    refine k.setRole ?_ (not_claims_checked omode) ⟨j, settled_of_locked k hu, fun hw => Opens.not_directory ho hw⟩
    rw [hr]
    exact not_claims_call
  | filealloc h omode => exact filealloc_sound k he
  | giveUp h omode f => exact giveUp_sound k he
  | iunlock h j omode f => exact iunlock_sound k hrun he.1 he.2
  | install h j omode f => exact install_sound k he.1 he.2
  | pipealloc w => exact pipealloc_sound k w
  | filedup f => exact filedup_sound k he
  | fileclose f => exact fileclose_sound k he
  | filewrite f h j x names =>
    exact k.step (e := .change h none j x) (n := n) ⟨hrun, he.1⟩ trivial (fun _ _ _ => nofun)
      nofun rfl rfl rfl

/-! Whole runs. -/

theorem initial_sound (image : Image) : Sound (initial image : State η) where
  accounts := initial_accounts image.inode
  reuse := initial_reuse image.inode
  typed := ⟨image.kinds, nofun, nofun⟩
  kept _ := trivial
  one _ _ f hc := absurd hc (not_claims_call f)
  free _ _ := rfl
  owner _ hpos := absurd hpos (lt_irrefl 0)

theorem run_sound {ninodes : ℕ} {image : Image} {es : List (Event η)}
    (run : Run (Guarded (machine ninodes).Step Named) (· = initial image) es s) : Sound s := by
  refine run.invariant (I := Sound) ?_ ?_
  · rintro s rfl
    exact initial_sound image
  · rintro s e t k ⟨hn, he, rfl⟩
    exact next_sound k he hn

/-- Where the file of a handle has its inode locked, the disk has the same type. -/
theorem disk_type (k : Sound s) {j : Slot} (hu : s.cache.use h = .locked none j) :
    s.cache.disk (s.cache.icache j).dev (s.cache.icache j).inum = (s.cache.icache j).copy := by
  have hl : locker (s.cache.use h) = some j := locker_of_eq hu rfl
  refine (k.reuse.synced j (k.accounts.refs.pos (on_of_locker hl)) ?_ ?_).symm
  · exact (settled_of_locked k hu).valid
  · refine InodeNumbers.undisturbed_all (InodeNumbers.undisturbed k.accounts hl) ?_ ?_
    · rw [hu]
      exact nofun
    · rw [hu]
      exact nofun

/-- Only dirlink(), sys_unlink() and the end of the inode change what a directory holds. -/
theorem names_kept (k : Sound s) {ninodes : ℕ} {e : Event η}
    (hs : (machine ninodes).Step s e t) {dev : Dev} {inum : ℕ}
    (hdir : (s.cache.disk dev inum).type = T_DIR) (hne : t.names dev inum ≠ s.names dev inum) :
    (∃ g new i n, e = .dirlink g new i n ∨ e = .unlink g new i n) ∨
      ∃ g j, e = .cache (.itrunc g j) := by
  obtain ⟨⟨-, he⟩, rfl⟩ := hs
  cases e with
  | cache e =>
    cases e with
    | itrunc g j => exact Or.inr ⟨g, j, rfl⟩
    | _ => exact absurd rfl hne
  | dirlink g new i n => exact Or.inl ⟨g, new, i, n, Or.inl rfl⟩
  | unlink g new i n => exact Or.inl ⟨g, new, i, n, Or.inr rfl⟩
  | filewrite f h j x names =>
    obtain ⟨hu, hr, hw⟩ := he
    have hk := k.kept h
    rw [hr] at hk
    obtain ⟨-, -, i, -, hs, htype⟩ := hk
    obtain rfl := hs.slot (on_of_eq hu rfl)
    by_cases hkey : dev = (s.cache.icache j).dev ∧ inum = (s.cache.icache j).inum
    · rw [hkey.1, hkey.2, disk_type k hu] at hdir
      exact absurd hdir (htype hw)
    · exact absurd (InodeReuse.put_of_not s.names names hkey) hne
  | filealloc h omode =>
    refine absurd ?_ hne
    simp only [machine, next, filealloc]
    cases freeFile s <;> rfl
  | pipealloc w =>
    refine absurd ?_ hne
    simp only [machine, next, pipealloc]
    cases freeFile s <;> rfl
  | filedup f =>
    refine absurd ?_ hne
    simp only [machine, next, filedup]
    split <;> rfl
  | fileclose f =>
    refine absurd ?_ hne
    simp only [machine, next, fileclose]
    split
    · rfl
    split
    · rfl
    split <;> rfl
  | _ => exact absurd rfl hne

/-- Whatever is open for writing is a file or a device, and no write() changes a directory. -/
structure Protected (ninodes : ℕ) (s : State η) : Prop where
  files : ∀ f, 0 < (s.files f).ref → (s.files f).type = .inode → (s.files f).writable = true →
    ∃ h j, (s.files f).ip = some (h, j) ∧ on (s.cache.use h) = some j ∧
      ((s.cache.icache j).copy.type = T_FILE ∨ (s.cache.icache j).copy.type = T_DEV)
  names : ∀ e t, (machine ninodes).Step s e t → ∀ dev inum,
    (s.cache.disk dev inum).type = T_DIR → t.names dev inum ≠ s.names dev inum →
      (∃ g new i n, e = .dirlink g new i n ∨ e = .unlink g new i n) ∨
        ∃ g j, e = .cache (.itrunc g j)

theorem directories_protected {ninodes : ℕ} {image : Image} {es : List (Event η)}
    (run : Run (Guarded (machine ninodes).Step Named) (· = initial image) es s) :
    Protected ninodes s := by
  have k := run_sound run
  refine ⟨?_, fun e t hs dev inum hdir hne => names_kept k hs hdir hne⟩
  intro f href hinode hw
  obtain ⟨h, j, hip, hr⟩ := k.owner f href hinode
  have hk := k.kept h
  rw [hr] at hk
  obtain ⟨-, -, i, hip', hs, htype⟩ := hk
  obtain ⟨-, rfl⟩ := Prod.mk.inj (Option.some.inj (hip.symm.trans hip'))
  refine ⟨h, j, hip, hs.stays.on, ?_⟩
  have hnonzero : (s.cache.icache j).copy.type ≠ 0 := by
    refine k.reuse.typed j (hs.pos k.accounts) hs.valid fun g hg => ?_
    exact hs.kept g (Or.inr (Or.inr hg))
  rcases k.typed.copy j hs.valid with hz | hd | hfile
  · exact absurd hz hnonzero
  · exact absurd hd (htype hw)
  · exact hfile

end Steps

/-! Two runs. In the second the parent of an unlinked directory is freed, and its name ".." is
of no inode any more. -/

def directory (nlink : Half) : Dinode := ⟨T_DIR, 0, 0, nlink, 512, Vector.replicate 13 59⟩

/-- /a/b and /d. -/
def image : Image where
  inode _ n :=
    if n = 1 then directory 3 else if n = 2 then directory 2
    else if n = 3 ∨ n = 4 then directory 1 else InodeCache.fresh 0
  names _ n :=
    if n = 1 then [1, 1, 2, 4] else if n = 2 then [2, 1, 3] else if n = 3 then [3, 2]
    else if n = 4 then [4, 1] else []
  kinds _ n := by
    split_ifs <;> decide

abbrev Handle := Fin 8

def s0 : Slot := ⟨0, InodeCache.NINODE_pos⟩
def s1 : Slot := ⟨1, by decide⟩
def s2 : Slot := ⟨2, by decide⟩
def s3 : Slot := ⟨3, by decide⟩
def f0 : FileNo := ⟨0, KernelParams.NFILE_pos⟩

def lock (h : Handle) (j : Slot) : List (Event Handle) := [.cache (.ilock h none j)]

def load (h : Handle) (j : Slot) : List (Event Handle) :=
  [.cache (.ilock h none j), .cache (.load h none j)]

def unlock (h : Handle) (j : Slot) : List (Event Handle) := [.cache (.iunlock h none j)]

def put (h : Handle) (j : Slot) : List (Event Handle) :=
  [.cache (.iput h j), .cache (.releasesleep h j), .cache (.decrement h j)]

def setLinks (h : Handle) (new : Option Half) (j : Slot) (nlink : Half) : List (Event Handle) :=
  [.cache (.change h new j (directory nlink)), .cache (.iupdate h j)]

/-- open("/d/x", O_CREATE|O_RDWR) and a write(), with nobody else. -/
def writeX : List (Event Handle) :=
  [.root 0] ++ load 0 s0 ++ [.dirlookup 0 4 none s0 4] ++ unlock 0 s0 ++ put 0 s0 ++ load 4 s1 ++
  [.cache (.ialloc 5 ROOTDEV T_FILE), .cache (.scan 5 ROOTDEV T_FILE 1),
   .cache (.scan 5 ROOTDEV T_FILE 2), .cache (.scan 5 ROOTDEV T_FILE 3),
   .cache (.scan 5 ROOTDEV T_FILE 4), .cache (.scan 5 ROOTDEV T_FILE 5),
   .cache (.igetNew 5 ROOTDEV T_FILE 5), .cache (.ilock 5 (some T_FILE) s0),
   .cache (.load 5 (some T_FILE) s0), .made 5 s0 (O_CREATE ||| O_RDWR)] ++
  setLinks 5 (some T_FILE) s0 1 ++
  [.created 5 s0 (O_CREATE ||| O_RDWR), .dirlink 4 none s1 5] ++ unlock 4 s1 ++ put 4 s1 ++
  [.filealloc 5 (O_CREATE ||| O_RDWR), .iunlock 5 s0 (O_CREATE ||| O_RDWR) f0,
   .install 5 s0 (O_CREATE ||| O_RDWR) f0] ++ lock 5 s0 ++
  [.filewrite f0 5 s0 (directory 1) [], .cache (.iupdate 5 s0)] ++ unlock 5 s0

theorem directories_protected_writeX :
    Protected 6 ((machine 6).exec (initial image) writeX) ∧
      (((machine 6).exec (initial image) writeX).files f0).writable = true ∧
      (((machine 6).exec (initial image) writeX).files f0).ip = some (5, s0) := by
  refine ⟨directories_protected (Machine.Valid.guarded_run ?_), ?_⟩
  · decide +kernel
  · decide +kernel

/-- iput() of an inode without links that others refer to. -/
def putShared (h : Handle) (j : Slot) : List (Event Handle) :=
  [.cache (.iput h j), .cache (.check h j), .cache (.releasesleep h j), .cache (.decrement h j)]

def putLast (h : Handle) (j : Slot) : List (Event Handle) :=
  [.cache (.iput h j), .cache (.check h j), .cache (.itrunc h j), .cache (.clear h j),
   .cache (.invalidate h j), .cache (.releasesleep h j), .cache (.decrement h j)]

/-- chdir("/a/b"), with / the current directory of this process and of another. -/
def chdirB : List (Event Handle) :=
  [.root 7, .root 6, .root 0] ++ load 0 s0 ++ [.dirlookup 0 1 none s0 2] ++ unlock 0 s0 ++
  put 0 s0 ++ load 1 s1 ++ [.dirlookup 1 2 none s1 3] ++ unlock 1 s1 ++ put 1 s1 ++ load 2 s2 ++
  unlock 2 s2 ++ put 6 s0

/-- unlink("/a/b") -/
def unlinkB : List (Event Handle) :=
  [.root 0] ++ lock 0 s0 ++ [.dirlookup 0 1 none s0 2] ++ unlock 0 s0 ++ put 0 s0 ++ load 1 s1 ++
  unlock 1 s1 ++ lock 1 s1 ++ [.dirlookup 1 3 none s1 3] ++ lock 3 s2 ++ [.unlink 1 none s1 3] ++
  setLinks 1 none s1 1 ++ unlock 1 s1 ++ put 1 s1 ++ setLinks 3 none s2 0 ++ unlock 3 s2 ++
  putShared 3 s2

/-- unlink("/a") -/
def unlinkA : List (Event Handle) :=
  [.root 0] ++ lock 0 s0 ++ unlock 0 s0 ++ lock 0 s0 ++ [.dirlookup 0 1 none s0 2] ++ load 1 s1 ++
  [.unlink 0 none s0 2] ++ setLinks 0 none s0 2 ++ unlock 0 s0 ++ put 0 s0 ++
  setLinks 1 none s1 0 ++ unlock 1 s1 ++ putLast 1 s1

/-- open("/d/x", O_CREATE|O_RDWR) up to the end of the loop in ialloc(). -/
def openX : List (Event Handle) :=
  [.root 0] ++ lock 0 s0 ++ [.dirlookup 0 4 none s0 4] ++ unlock 0 s0 ++ put 0 s0 ++ load 4 s1 ++
  unlock 4 s1 ++ lock 4 s1 ++
  [.cache (.ialloc 5 ROOTDEV T_FILE), .cache (.scan 5 ROOTDEV T_FILE 1),
   .cache (.scan 5 ROOTDEV T_FILE 2)]

/-- chdir("..") by the process in /a/b, which finds a file and puts it. -/
def chdirUp : List (Event Handle) :=
  [.cache (.idup 0 2 s2)] ++ lock 0 s2 ++ [.dirlookup 0 1 none s2 2] ++ unlock 0 s2 ++
  putShared 0 s2 ++ load 1 s3 ++ unlock 1 s3 ++ putLast 1 s3

/-- mkdir("/z") -/
def mkdirZ : List (Event Handle) :=
  [.root 0] ++ lock 0 s0 ++ unlock 0 s0 ++ lock 0 s0 ++
  [.cache (.ialloc 1 ROOTDEV T_DIR), .cache (.scan 1 ROOTDEV T_DIR 1),
   .cache (.scan 1 ROOTDEV T_DIR 2), .cache (.igetNew 1 ROOTDEV T_DIR 2),
   .cache (.ilock 1 (some T_DIR) s3), .cache (.load 1 (some T_DIR) s3)] ++
  setLinks 1 (some T_DIR) s3 1 ++ setLinks 0 none s0 3 ++
  [.dirlink 1 none s3 2, .dirlink 1 none s3 1, .dirlink 0 none s0 2] ++ unlock 0 s0 ++ put 0 s0 ++
  unlock 1 s3 ++ put 1 s3

/-- The rest of the open(), which gets the new directory for its file. -/
def openEnd : List (Event Handle) :=
  [.cache (.igetNew 5 ROOTDEV T_FILE 2), .cache (.ilock 5 (some T_FILE) s3),
   .cache (.load 5 (some T_FILE) s3), .made 5 s3 (O_CREATE ||| O_RDWR)] ++
  setLinks 5 (some T_FILE) s3 1 ++
  [.created 5 s3 (O_CREATE ||| O_RDWR), .dirlink 4 none s1 2] ++ unlock 4 s1 ++ put 4 s1 ++
  [.filealloc 5 (O_CREATE ||| O_RDWR), .iunlock 5 s3 (O_CREATE ||| O_RDWR) f0,
   .install 5 s3 (O_CREATE ||| O_RDWR) f0]

def staleParent : List (Event Handle) :=
  chdirB ++ unlinkB ++ unlinkA ++ openX ++ chdirUp ++ mkdirZ ++ openEnd

def reached : State Handle := (machine 5).exec (initial image) staleParent

/-- A directory is open for writing. -/
theorem directory_writable :
    Run (machine 5).Step (· = initial image) staleParent reached ∧
      0 < (reached.files f0).ref ∧ (reached.files f0).type = .inode ∧
      (reached.files f0).writable = true ∧ (reached.files f0).ip = some (5, s3) ∧
      (reached.cache.icache s3).copy.type = T_DIR := by
  refine ⟨Machine.Valid.run ?_, ?_⟩
  · decide +kernel
  · decide +kernel

end OpenModes
