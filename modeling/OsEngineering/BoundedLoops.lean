import OsEngineering.PageFrames
import OsEngineering.UserProcesses

/-! The loops of vm.c and exec.c over pages end within the rounds they are given, for sizes up to
KERNBASE. -/
namespace BoundedLoops

open ByteBlock FaultState PageTables PageFrames UserProcesses
open PageTableMappings (PGROUNDUP_mod)

variable {img : KernelImage} {d : PageDir} {α : Type}

abbrev Ends (c : VM α) : Prop := Faults (fun e => e ≠ .loop) c

theorem ends_kalloc : Ends kalloc := by
  intro s e h
  cases h

theorem ends_modify (f : Kmem → Kmem) : Ends (modify f) := by
  intro s e h
  cases h

theorem ends_get : Ends (get : VM Kmem) := by
  intro s e h
  cases h

theorem ends_panic (msg : String) : Ends (PageTables.panic msg : VM α) := faults_throw nofun

theorem ends_null : Ends (throw .null : VM α) := faults_throw nofun

theorem ends_kfree (f : Frame) : Ends (kfree img f) := by
  simp only [kfree]
  split
  · exact ends_panic _
  · apply faults_bind (ends_modify _)
    intro _
    exact ends_modify _

theorem ends_walkpgdir (d : PageDir) (va : Word) (alloc : Bool) : Ends (walkpgdir d va alloc) := by
  simp only [walkpgdir]
  split
  · exact faults_pure _
  · split
    · exact faults_pure _
    · apply faults_bind ends_kalloc
      intro r
      cases r with
      | none => exact faults_pure _
      | some f => exact faults_pure _

theorem ends_mapFrom (perm : Word) (k : ℕ) (d : PageDir) (a pa : Word) :
    Ends (mapFrom perm k d a pa) := by
  induction k generalizing d a pa with
  | zero =>
    rw [mapFrom]
    apply faults_bind (ends_walkpgdir d a true)
    intro r
    cases r with
    | none => exact faults_pure _
    | some e =>
      dsimp only
      split
      · exact ends_panic _
      · exact faults_pure _
  | succ k ih =>
    rw [mapFrom]
    apply faults_bind (ends_walkpgdir d a true)
    intro r
    cases r with
    | none => exact faults_pure _
    | some e =>
      dsimp only
      split
      · exact ends_panic _
      · exact ih _ _ _

theorem ends_mappages (d : PageDir) (va size pa perm : Word) :
    Ends (mappages d va size pa perm) := ends_mapFrom _ _ _ _ _

/-! Loops over pages: with `k` rounds left they get past the end. -/

theorem next_page {a n : Word} (h : a < n) (hn : n ≤ KERNBASE) :
    (a + PGSIZE).toNat = a.toNat + 4096 := by
  have hbase : KERNBASE.toNat = 2147483648 := rfl
  have hsize : PGSIZE.toNat = 4096 := rfl
  rw [BitVec.lt_def] at h
  rw [BitVec.le_def] at hn
  rw [BitVec.toNat_add, hsize]
  omega

theorem past {a n : Word} (h : n.toNat ≤ a.toNat + 0 * 4096) : ¬ a < n := by
  rw [BitVec.lt_def]
  omega

theorem enough_rounds (a n : Word) : n.toNat ≤ a.toNat + bound * 4096 := by
  have hn := n.isLt
  have hbound : bound * 4096 = 4294967296 := rfl
  rw [hbound]
  omega

theorem ends_deallocFrom {oldsz : Word} (hold : oldsz ≤ KERNBASE) {k : ℕ} (d : PageDir)
    {a : Word} (ha : a.toNat % 4096 = 0) (hk : oldsz.toNat ≤ a.toNat + k * 4096) :
    Ends (deallocFrom img oldsz k d a) := by
  induction k generalizing d a with
  | zero =>
    simp only [deallocFrom]
    rw [if_neg (past hk)]
    exact faults_pure _
  | succ k ih =>
    simp only [deallocFrom]
    split
    · next hlt =>
      have hnext := next_page hlt hold
      have hpage : ∀ e, Ends (deallocFrom img oldsz k e (a + PGSIZE)) := fun e =>
        ih e (by omega) (by omega)
      apply faults_bind (ends_walkpgdir d a false)
      intro r
      cases r with
      | none =>
        have hlow : a.toNat < KERNBASE.toNat := BitVec.lt_def.mp (below_kernbase hlt hold)
        have hjump := nextTable_toNat hlow
        exact ih d (by omega) (by omega)
      | some _ =>
        dsimp only
        split
        · split
          · exact ends_panic _
          · apply faults_bind (ends_kfree _)
            intro _
            exact hpage _
        · exact hpage d
    · exact faults_pure _

theorem ends_deallocuvm (d : PageDir) {oldsz : Word} (hold : oldsz ≤ KERNBASE) (newsz : Word) :
    Ends (deallocuvm img d oldsz newsz) := by
  simp only [deallocuvm]
  split
  · exact faults_pure _
  · apply faults_bind
    · exact ends_deallocFrom hold d (PGROUNDUP_mod newsz) (enough_rounds _ _)
    · intro _
      exact faults_pure _

theorem ends_freevm (d : PageDir) : Ends (freevm img d) := by
  have htables : ∀ d is, Ends (freeTables img d is) := by
    intro d is
    induction is with
    | nil => exact faults_pure _
    | cons i is ih =>
      simp only [freeTables]
      split
      · apply faults_bind (ends_kfree _)
        intro _
        exact ih
      · exact ih
  apply faults_bind (ends_deallocuvm d (BitVec.le_refl _) 0)
  intro r
  apply faults_bind (htables _ _)
  intro _
  exact ends_kfree _

theorem ends_setupkvm : Ends (setupkvm img) := by
  have hall : ∀ ks d, Ends (mapAll img ks d) := by
    intro ks
    induction ks with
    | nil => exact fun d => faults_pure _
    | cons k ks ih =>
      intro d
      apply faults_bind (ends_mappages _ _ _ _ _)
      intro r
      obtain ⟨e, ok⟩ := r
      cases ok with
      | true => exact ih e
      | false =>
        apply faults_bind (ends_freevm e)
        intro _
        exact faults_pure _
  apply faults_bind ends_kalloc
  intro r
  cases r with
  | none => exact faults_pure _
  | some f => exact hall _ _

theorem ends_allocFrom {oldsz newsz : Word} (hnew : newsz ≤ KERNBASE) {k : ℕ} (d : PageDir)
    {a : Word} (hk : newsz.toNat ≤ a.toNat + k * 4096) :
    Ends (allocFrom img oldsz newsz k d a) := by
  induction k generalizing d a with
  | zero =>
    simp only [allocFrom]
    rw [if_neg (past hk)]
    exact faults_pure _
  | succ k ih =>
    simp only [allocFrom]
    split
    · next hlt =>
      have hnext := next_page hlt hnew
      apply faults_bind ends_kalloc
      intro r
      cases r with
      | none =>
        apply faults_bind (ends_deallocuvm d hnew oldsz)
        intro _
        exact faults_pure _
      | some mem =>
        apply faults_bind (ends_modify _)
        intro _
        apply faults_bind (ends_mappages _ _ _ _ _)
        intro r
        obtain ⟨e, ok⟩ := r
        cases ok with
        | true => exact ih e (by omega)
        | false =>
          apply faults_bind (ends_deallocuvm e hnew oldsz)
          intro _
          apply faults_bind (ends_kfree mem)
          intro _
          exact faults_pure _
    · exact faults_pure _

theorem ends_allocuvm (d : PageDir) (oldsz newsz : Word) : Ends (allocuvm img d oldsz newsz) := by
  simp only [allocuvm]
  split
  · exact faults_pure _
  · next hnew =>
    split
    · exact faults_pure _
    · exact ends_allocFrom (BitVec.le_of_lt (BitVec.not_le.mp hnew)) d (enough_rounds _ _)

theorem ends_copyFrom {pgdir : PageDir} {sz : Word} (hsz : sz ≤ KERNBASE) {k : ℕ} (d : PageDir)
    {i : Word} (hk : sz.toNat ≤ i.toNat + k * 4096) : Ends (copyFrom img pgdir sz k d i) := by
  induction k generalizing d i with
  | zero =>
    simp only [copyFrom]
    rw [if_neg (past hk)]
    exact faults_pure _
  | succ k ih =>
    simp only [copyFrom]
    split
    · next hlt =>
      have hnext := next_page hlt hsz
      apply faults_bind (ends_walkpgdir pgdir i false)
      intro r
      cases r with
      | none => exact ends_panic _
      | some _ =>
        dsimp only
        split
        · exact ends_panic _
        · apply faults_bind ends_kalloc
          intro r
          cases r with
          | none =>
            apply faults_bind (ends_freevm d)
            intro _
            exact faults_pure _
          | some mem =>
            apply faults_bind ends_get
            intro _
            apply faults_bind (ends_modify _)
            intro _
            apply faults_bind (ends_mappages _ _ _ _ _)
            intro r
            obtain ⟨e, ok⟩ := r
            cases ok with
            | true => exact ih e (by omega)
            | false =>
              apply faults_bind (ends_kfree mem)
              intro _
              apply faults_bind (ends_freevm e)
              intro _
              exact faults_pure _
    · exact faults_pure _

theorem ends_copyuvm (pgdir : PageDir) {sz : Word} (hsz : sz ≤ KERNBASE) :
    Ends (copyuvm img pgdir sz) := by
  apply faults_bind ends_setupkvm
  intro r
  cases r with
  | none => exact faults_pure _
  | some d => exact ends_copyFrom hsz d (enough_rounds _ _)

theorem ends_loadFrom (d : PageDir) (addr : Word) (readi : Reader) (offset : Word) {sz : Word}
    (hsz : sz ≤ KERNBASE) {k : ℕ} {i : Word} (hk : sz.toNat ≤ i.toNat + k * 4096) :
    Ends (loadFrom d addr readi offset sz k i) := by
  induction k generalizing i with
  | zero =>
    simp only [loadFrom]
    rw [if_neg (past hk)]
    exact faults_pure _
  | succ k ih =>
    simp only [loadFrom]
    split
    · next hlt =>
      have hnext := next_page hlt hsz
      apply faults_bind (ends_walkpgdir d (addr + i) false)
      intro r
      cases r with
      | none => exact ends_panic _
      | some _ =>
        dsimp only
        generalize (if sz - i < PGSIZE then sz - i else PGSIZE) = n
        cases readi (offset + i) n with
        | none => exact faults_pure _
        | some bytes =>
          apply faults_bind (ends_modify _)
          intro _
          split
          · exact ih (by omega)
          · exact faults_pure _
    · exact faults_pure _

theorem ends_loaduvm (d : PageDir) (addr : Word) (readi : Reader) (offset : Word) {sz : Word}
    (hsz : sz ≤ KERNBASE) : Ends (loaduvm d addr readi offset sz) := by
  simp only [loaduvm]
  split
  · exact ends_panic _
  · exact ends_loadFrom d addr readi offset hsz (enough_rounds _ _)

/-! exec.c -/

theorem ends_clearpteu (d : PageDir) (uva : Word) : Ends (clearpteu d uva) := by
  apply faults_bind (ends_walkpgdir d uva false)
  intro r
  cases r with
  | none => exact ends_panic _
  | some e => exact faults_pure _

theorem ends_uva2ka (d : PageDir) (uva : Word) : Ends (uva2ka d uva) := by
  apply faults_bind (ends_walkpgdir d uva false)
  intro r
  cases r with
  | none => exact ends_null
  | some e =>
    dsimp only
    split <;> exact faults_pure _

theorem ends_copyoutFrom (d : PageDir) {k : ℕ} (va : Word) {buf : List Byte}
    (hk : buf.length ≤ k) : Ends (copyoutFrom d k va buf) := by
  induction k generalizing va buf with
  | zero =>
    simp only [copyoutFrom]
    rw [if_pos (List.eq_nil_of_length_eq_zero (Nat.le_zero.mp hk))]
    exact faults_pure _
  | succ k ih =>
    simp only [copyoutFrom]
    split
    · exact faults_pure _
    · next hbuf =>
      apply faults_bind (ends_uva2ka d _)
      intro r
      cases r with
      | none => exact faults_pure _
      | some f =>
        apply faults_bind (ends_modify _)
        intro _
        apply ih
        have hpos := List.length_pos_iff.mpr hbuf
        have hoff : (va - PGROUNDDOWN va).toNat < 4096 := by
          have hva := va.isLt
          rw [BitVec.toNat_sub, PageTableMappings.PGROUNDDOWN_toNat]
          omega
        rw [List.length_drop]
        omega

theorem ends_copyout (d : PageDir) (va : Word) (buf : List Byte) : Ends (copyout d va buf) :=
  ends_copyoutFrom d va (le_refl _)

theorem ends_pushArgs (d : PageDir) (argc : ℕ) (args : List (List Byte)) (sp : Word) :
    Ends (pushArgs d argc args sp) := by
  induction args generalizing argc sp with
  | nil => exact faults_pure _
  | cons arg args ih =>
    simp only [pushArgs]
    split
    · exact faults_pure _
    · apply faults_bind (ends_copyout d _ _)
      intro ok
      cases ok with
      | false => exact faults_pure _
      | true =>
        apply faults_bind (ih _ _)
        intro r
        cases r with
        | none => exact faults_pure _
        | some x => exact faults_pure _

theorem ends_bad (d : PageDir) : Ends (bad img d) := by
  apply faults_bind (ends_freevm d)
  intro _
  exact faults_pure _

theorem ends_buildStack (argv : List (List Byte)) (entry : Word) (d : PageDir) (sz : Word) :
    Ends (buildStack img argv entry d sz) := by
  apply faults_bind (ends_allocuvm d _ _)
  intro r
  obtain ⟨e, n⟩ := r
  dsimp only
  split
  · exact ends_bad e
  · apply faults_bind (ends_clearpteu e _)
    intro e'
    apply faults_bind (ends_pushArgs e' _ _ _)
    intro r
    cases r with
    | none => exact ends_bad e'
    | some x =>
      apply faults_bind (ends_copyout e' _ _)
      intro ok
      cases ok with
      | false => exact ends_bad e'
      | true => exact faults_pure _

/-- allocuvm() fails for what reaches KERNBASE. -/
theorem allocuvm_below {oldsz newsz : Word} {r : PageDir × Word} {s t : Kmem}
    (h : allocuvm img d oldsz newsz s = .ok (r, t)) (hr : r.2 ≠ 0) : newsz < KERNBASE := by
  by_contra hnew
  rw [allocuvm, if_pos (BitVec.not_lt.mp hnew)] at h
  cases h
  exact hr rfl

theorem ends_loadSegments (readi : Reader) (k : ℕ) (off : Word) (d : PageDir) (sz : Word) :
    Ends (loadSegments img readi k off d sz) := by
  induction k generalizing off d sz with
  | zero => exact faults_pure _
  | succ k ih =>
    simp only [loadSegments]
    split
    · exact faults_pure _
    · split
      · exact ih _ _ _
      · split
        · exact faults_pure _
        · next hfile =>
          split
          · exact faults_pure _
          · next hover =>
            apply faults_bind_run (ends_allocuvm d _ _)
            rintro ⟨e, n⟩ ⟨s, t, hrun⟩
            dsimp only
            split
            · exact faults_pure _
            · next hn =>
              have hlow := allocuvm_below hrun hn
              split
              · exact faults_pure _
              · apply faults_bind (ends_loaduvm e _ readi _ ?_)
                · intro ok
                  cases ok with
                  | false => exact faults_pure _
                  | true => exact ih _ _ _
                · -- the segment ends below KERNBASE, so its part in the file does
                  rw [BitVec.lt_def, BitVec.toNat_add] at hover hlow
                  rw [BitVec.lt_def] at hfile
                  rw [BitVec.le_def]
                  omega

theorem ends_exec (file : Option Reader) (argv : List (List Byte)) :
    Ends (UserProcesses.exec img file argv) := by
  cases file with
  | none => exact faults_pure _
  | some readi =>
    simp only [UserProcesses.exec]
    split
    · exact faults_pure _
    · split
      · exact faults_pure _
      · apply faults_bind ends_setupkvm
        intro r
        cases r with
        | none => exact faults_pure _
        | some d =>
          apply faults_bind (ends_loadSegments readi _ _ d 0)
          intro r
          obtain ⟨e, sz⟩ := r
          cases sz with
          | none => exact ends_bad e
          | some sz => exact ends_buildStack argv _ e sz

theorem ends_copyProc {cur : Proc} (hsz : cur.sz ≤ KERNBASE) : Ends (copyProc img cur) := by
  apply faults_bind ends_kalloc
  intro r
  cases r with
  | none => exact faults_pure _
  | some kstack =>
    apply faults_bind (ends_copyuvm _ hsz)
    intro r
    cases r with
    | none =>
      apply faults_bind (ends_kfree kstack)
      intro _
      exact faults_pure _
    | some d => exact faults_pure _

end BoundedLoops
