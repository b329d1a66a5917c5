import OsEngineering.ProcessGrowth

/-! What the lazy sys_sbrk() leaves of the memory that a process gives up: it moves the size and
never touches the page table, and trap() kills whoever touches a page that is not there. -/
namespace SbrkShrink

open ByteBlock FaultState PageTables PageTableMappings PageClearing PageMapping KernelMap
open UserProcesses

/-- What user code reads at `va`; it does not get past a page fault. -/
def userRead (d : PageDir) (m : Kmem) (va : Word) : Option Byte :=
  if accessible d va then some (byte (m.mem (frameOf d va)) (va.toNat % 4096)) else none

/-- Stores of user code reach the frames of accessible pages only. -/
def UserStores (d : PageDir) (m m' : Kmem) : Prop :=
  ∀ f, (∀ b, accessible d b → frameOf d b ≠ f) → m'.mem f = m.mem f

/-- sbrk(-k) releases memory: nothing from the new size on stays accessible, and whole pages that
a later sbrk(n) covers read as zero. -/
structure Releases (s : State) (p : Slot) (cur : Proc) (k : Word) : Prop where
  gone : ∀ cur', (sysSbrk s p cur (-k)).procs p = some cur' →
    ∀ va, up cur'.sz.toNat ≤ va.toNat → va < KERNBASE → ¬ accessible cur'.pgdir va
  zero : ∀ cur' m n cur'', (sysSbrk s p cur (-k)).procs p = some cur' →
    UserStores cur'.pgdir s.kmem m → 0 < n.toInt →
    (sysSbrk { sysSbrk s p cur (-k) with kmem := m } p cur' n).procs p = some cur'' →
    ∀ va, up cur'.sz.toNat ≤ va.toNat → (page va + 1) * 4096 ≤ cur''.sz.toNat →
      userRead cur''.pgdir m va = some 0

variable {s : State} {p : Slot} {cur cur' : Proc} {k n : Word}

theorem sysSbrk_proc (s : State) (p : Slot) (cur : Proc) (n : Word) :
    (sysSbrk s p cur n).procs p = some { cur with sz := cur.sz + n } := by
  simp only [sysSbrk, State.put, Function.update_self]

theorem shrunk_size (hk : k ≤ cur.sz) : (cur.sz + -k).toNat = cur.sz.toNat - k.toNat := by
  have hlt := cur.sz.isLt
  rw [BitVec.le_def] at hk
  rw [BitVec.toNat_add, BitVec.toNat_neg]
  omega

theorem stores_refl (d : PageDir) (m : Kmem) : UserStores d m m := fun _ _ => rfl

/-- A page that stays absent does not read as zero. -/
theorem releases_size (hkernel : ∀ va, KERNBASE ≤ va → ¬ accessible cur.pgdir va)
    (hle : k ≤ cur.sz) (h : Releases s p cur k) : 2 ^ 32 - 8192 < cur.sz.toNat - k.toNat := by
  by_contra hsmall
  have hsize := shrunk_size hle
  generalize hz : cur.sz.toNat - k.toNat = z at hsmall hsize
  -- one whole page more
  have hup : z ≤ up z ∧ up z < z + 4096 ∧ up z % 4096 = 0 := by
    simp only [up]
    omega
  have hva : (BitVec.ofNat 32 (up z)).toNat = up z := by
    rw [BitVec.toNat_ofNat]
    omega
  have hn : (BitVec.ofNat 32 (up z + 4096 - z)).toNat = up z + 4096 - z := by
    rw [BitVec.toNat_ofNat]
    omega
  have hpos : 0 < (BitVec.ofNat 32 (up z + 4096 - z)).toInt := by
    rw [BitVec.toInt_eq_toNat_cond, hn]
    split <;> omega
  have hnew : (cur.sz + -k + BitVec.ofNat 32 (up z + 4096 - z)).toNat = up z + 4096 := by
    rw [BitVec.toNat_add, hsize, hn]
    omega
  have hread := h.zero _ s.kmem _ _ (sysSbrk_proc s p cur (-k)) (stores_refl _ _) hpos
    (sysSbrk_proc _ p _ _) (BitVec.ofNat 32 (up z)) (by rw [hva, hsize]) (by
      simp only [page, hva, hnew]
      omega)
  have hgone := h.gone _ (sysSbrk_proc s p cur (-k)) (BitVec.ofNat 32 (up z)) (by rw [hva, hsize])
  have haccess : accessible cur.pgdir (BitVec.ofNat 32 (up z)) := by
    by_contra hno
    rw [userRead, if_neg hno] at hread
    cases hread
  by_cases hlow : BitVec.ofNat 32 (up z) < KERNBASE
  · exact hgone hlow haccess
  · exact hkernel _ (BitVec.not_lt.mp hlow) haccess

/-- Nothing is released: the property holds just where no growth can cover a whole page. -/
theorem sbrk_releases_iff (s : State) (p : Slot) (cur : Proc) (k : Word)
    (hkernel : ∀ va, KERNBASE ≤ va → ¬ accessible cur.pgdir va) (hle : k ≤ cur.sz) :
    Releases s p cur k ↔ 2 ^ 32 - 8192 < cur.sz.toNat - k.toNat := by
  constructor
  · exact releases_size hkernel hle
  · intro hlarge
    have hsize := shrunk_size hle
    have hup : 2 ^ 32 - 4096 ≤ up (cur.sz.toNat - k.toNat) := by
      simp only [up]
      omega
    constructor
    · intro cur' hcur va hva hlow
      rw [sysSbrk_proc] at hcur
      cases hcur
      rw [hsize] at hva
      have hbase : va.toNat < 2147483648 := hlow
      omega
    · intro cur' m n cur'' hcur _ _ hcur' va hva hwhole
      rw [sysSbrk_proc] at hcur
      cases hcur
      rw [hsize] at hva
      have hlt := cur''.sz.isLt
      simp only [page] at hwhole
      omega

/-! A process that gives up the second of its two pages. -/

def alone : State := ⟨⟨[], [], fun _ => zeros⟩, fun _ => some ProcessGrowth.small, none⟩

theorem small_kernel (va : Word) (hva : KERNBASE ≤ va) :
    ¬ accessible ProcessGrowth.small.pgdir va := by
  rintro ⟨hpres, -⟩
  have hbase : 2147483648 ≤ va.toNat := hva
  have hpage := (twoPages_present va).mp hpres
  simp only [page] at hpage
  omega

theorem sbrk_releases_iff_small :
    Releases alone initproc ProcessGrowth.small 4096 ↔
      2 ^ 32 - 8192 < ProcessGrowth.small.sz.toNat - (4096 : Word).toNat :=
  sbrk_releases_iff alone initproc ProcessGrowth.small 4096 small_kernel (by decide)

/-- Page 4096 is below the old size only, and user code still has it. -/
theorem sbrk_keeps_page : ¬ Releases alone initproc ProcessGrowth.small 4096 := by
  intro h
  have hsame : ∀ va, accessible ProcessGrowth.small.pgdir va → up 4096 ≤ va.toNat →
      va < KERNBASE → False := fun va haccess hva hlow =>
    h.gone _ (sysSbrk_proc _ _ _ _) va hva hlow haccess
  exact hsame 4096 (by decide) (by decide) (by decide)

end SbrkShrink
