import OsEngineering.PageFrames
import OsEngineering.UserProcesses

/-! What exec() and fork() take from the free list is the new page table, with the kernel stack of
a child; when they fail it has all gone back. -/
namespace ProcessFrames

open ByteBlock FaultState FramedTriples PageTables PageTableMappings PageFrames UserProcesses

variable {all : Supply} {img : KernelImage}

/-! Code that fills pages. -/

theorem walkpgdir_neutral (d : PageDir) (va : Word) : Neutral all (walkpgdir d va false) := by
  rw [walkpgdir_false]
  exact triple_pure rfl

theorem loadFrom_neutral (d : PageDir) (addr : Word) (readi : Reader) (offset sz : Word) (k : ℕ)
    (i : Word) : Neutral all (loadFrom d addr readi offset sz k i) := by
  induction k generalizing i with
  | zero =>
    apply triple_ite
    · intro _
      exact triple_throw _
    · intro _
      exact triple_pure rfl
  | succ k ih =>
    apply triple_ite
    · intro _
      apply triple_keep (walkpgdir_neutral d _)
      intro r
      cases r with
      | none => apply panic_spec
      | some _ =>
        dsimp only
        split
        · exact triple_pure rfl
        · apply triple_keep (store_neutral _ _ _)
          intro _
          apply triple_ite
          · intro _
            exact ih _
          · intro _
            exact triple_pure rfl
    · intro _
      exact triple_pure rfl

theorem loaduvm_neutral (d : PageDir) (addr : Word) (readi : Reader) (offset sz : Word) :
    Neutral all (loaduvm d addr readi offset sz) := by
  apply triple_ite
  · intro _
    apply panic_spec
  · intro _
    exact loadFrom_neutral d addr readi offset sz bound 0

theorem uva2ka_neutral (d : PageDir) (uva : Word) : Neutral all (uva2ka d uva) := by
  apply triple_keep (walkpgdir_neutral d uva)
  intro r
  cases r with
  | none => exact triple_throw _
  | some _ =>
    apply triple_ite
    · intro _
      exact triple_pure rfl
    · intro _
      exact triple_pure rfl

theorem copyoutFrom_neutral (d : PageDir) (k : ℕ) (va : Word) (buf : List Byte) :
    Neutral all (copyoutFrom d k va buf) := by
  induction k generalizing va buf with
  | zero =>
    apply triple_ite
    · intro _
      exact triple_pure rfl
    · intro _
      exact triple_throw _
  | succ k ih =>
    apply triple_ite
    · intro _
      exact triple_pure rfl
    · intro _
      apply triple_keep (uva2ka_neutral d _)
      intro r
      cases r with
      | none => exact triple_pure rfl
      | some f =>
        apply triple_keep (store_neutral _ _ _)
        intro _
        exact ih _ _

theorem copyout_neutral (d : PageDir) (va : Word) (buf : List Byte) :
    Neutral all (copyout d va buf) := copyoutFrom_neutral d buf.length va buf

theorem pushArgs_neutral (d : PageDir) (argc : ℕ) (args : List (List Byte)) (sp : Word) :
    Neutral all (pushArgs d argc args sp) := by
  induction args generalizing argc sp with
  | nil => exact triple_pure rfl
  | cons arg args ih =>
    apply triple_ite
    · intro _
      exact triple_pure rfl
    · intro _
      apply triple_keep (copyout_neutral d _ _)
      intro ok
      apply triple_ite
      · intro _
        apply triple_keep (ih _ _)
        intro r
        cases r with
        | none => exact triple_pure rfl
        | some _ => exact triple_pure rfl
      · intro _
        exact triple_pure rfl

/-! exec() and fork(). -/

theorem loadSegments_spec (readi : Reader) (k : ℕ) (off : Word) (d : PageDir) (sz : Word) :
    Spec all (frames d) (loadSegments img readi k off d sz) fun r => frames r.1 := by
  induction k generalizing off d sz with
  | zero => exact triple_pure rfl
  | succ k ih =>
    simp only [loadSegments]
    split
    · exact triple_pure rfl
    · apply triple_ite
      · intro _
        exact ih _ _ _
      · intro _
        apply triple_ite
        · intro _
          exact triple_pure rfl
        · intro _
          apply triple_ite
          · intro _
            exact triple_pure rfl
          · intro _
            apply triple_bind (allocuvm_spec d sz _)
            intro r
            obtain ⟨e, n⟩ := r
            apply triple_ite
            · intro _
              exact triple_pure rfl
            · intro _
              apply triple_ite
              · intro _
                exact triple_pure rfl
              · intro _
                apply triple_keep (loaduvm_neutral e _ _ _ _)
                intro ok
                apply triple_ite
                · intro _
                  exact ih _ _ _
                · intro _
                  exact triple_pure rfl

def imageFrames : Option Image → Multiset Frame
  | none => 0
  | some im => frames im.pgdir

theorem bad_spec (d : PageDir) : Spec all (frames d) (bad img d) imageFrames := by
  apply triple_give (add_zero _).symm (freevm_spec d)
  intro _
  exact triple_pure rfl

theorem buildStack_spec (argv : List (List Byte)) (entry : Word) (d : PageDir) (sz : Word) :
    Spec all (frames d) (buildStack img argv entry d sz) imageFrames := by
  apply triple_bind (allocuvm_spec d _ _)
  intro r
  obtain ⟨e, n⟩ := r
  apply triple_ite
  · intro _
    exact bad_spec e
  · intro _
    apply triple_bind (clearpteu_spec e _)
    intro e
    apply triple_keep (pushArgs_neutral e _ _ _)
    intro r
    cases r with
    | none => exact bad_spec e
    | some r =>
      obtain ⟨sp, ptrs⟩ := r
      apply triple_keep (copyout_neutral e _ _)
      intro ok
      apply triple_ite
      · intro _
        exact triple_pure rfl
      · intro _
        exact bad_spec e

theorem exec_spec (file : Option Reader) (argv : List (List Byte)) :
    Spec all 0 (UserProcesses.exec img file argv) imageFrames := by
  cases file with
  | none => exact triple_pure rfl
  | some readi =>
    simp only [UserProcesses.exec]
    split
    · exact triple_pure rfl
    · apply triple_ite
      · intro _
        exact triple_pure rfl
      · intro _
        apply triple_bind setupkvm_spec
        intro r
        cases r with
        | none => exact triple_pure rfl
        | some d =>
          apply triple_bind (loadSegments_spec readi _ _ d 0)
          intro r
          obtain ⟨e, n⟩ := r
          cases n with
          | none => exact bad_spec e
          | some sz => exact buildStack_spec argv _ e sz

/-- What a live or zombie process has. -/
def procFrames : Option Proc → Multiset Frame
  | none => 0
  | some proc => {proc.kstack} + frames proc.pgdir

def childFrames : Option (Frame × PageDir) → Multiset Frame
  | none => 0
  | some (kstack, d) => {kstack} + frames d

theorem copyProc_spec {cur : Proc} (hsz : cur.sz ≤ KERNBASE) :
    Spec all 0 (copyProc img cur) childFrames := by
  apply triple_bind kalloc_spec
  intro r
  cases r with
  | none => exact triple_pure rfl
  | some kstack =>
    apply triple_take (copyuvm_spec cur.pgdir hsz)
    intro r
    cases r with
    | none =>
      apply triple_give (add_comm _ _) (kfree_spec kstack)
      intro _
      exact triple_pure rfl
    | some d => exact triple_pure (add_comm _ _)

end ProcessFrames
