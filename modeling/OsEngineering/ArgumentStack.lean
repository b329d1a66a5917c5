import OsEngineering.ExecCall
import OsEngineering.UserProcessSteps
import Mathlib.Data.List.Forall2
import Mathlib.Data.List.GetD

/-! The arguments that exec() pushes: nothing compares the stack pointer with the bottom of the
stack, but a copy that leaves the stack page meets the guard page or the end of the user memory. -/
namespace ArgumentStack

open ByteBlock FaultState PageTables PageTableMappings PageFrames PageClearing KernelMap
open PageMapping PageTableFaults PageGrowth CopyOut UserProcesses ElfLoading

variable {img : KernelImage} {d : PageDir} {sz sp va : Word} {buf : List Byte} {s t u : Kmem}

/-! Reading user memory -/

/-- The byte at the user address `a`. -/
def read (d : PageDir) (m : Kmem) (a : ℕ) : Byte := byteAt m (phys d (BitVec.ofNat 32 a))

/-- The word at the user address `a`. -/
def readWord (d : PageDir) (m : Kmem) (a : ℕ) : Word :=
  read d m (a + 3) ++ read d m (a + 2) ++ read d m (a + 1) ++ read d m a

/-! The stack page -/

/-- The user pages are those of [0, sz) without the guard page below the stack page. -/
structure StackPage (d : PageDir) (sz : Word) : Prop where
  low : sz < KERNBASE
  room : 8192 ≤ sz.toNat
  aligned : sz.toNat % 4096 = 0
  user : ∀ b, accessible d b ↔
    b.toNat < sz.toNat ∧ ¬ (sz.toNat - 8192 ≤ b.toNat ∧ b.toNat < sz.toNat - 4096)

def stackFrame (d : PageDir) (sz : Word) : Frame := frameOf d (sz - PGSIZE)

theorem StackPage.bounds (h : StackPage d sz) : sz.toNat < 2147483648 := h.low

theorem StackPage.bottom (h : StackPage d sz) : (sz - PGSIZE).toNat = sz.toNat - 4096 := by
  have hroom := h.room
  have hsize : PGSIZE.toNat = 4096 := rfl
  rw [BitVec.toNat_sub_of_le (by rw [BitVec.le_def]; omega), hsize]

theorem StackPage.phys_in {a : ℕ} (h : StackPage d sz) (hlo : sz.toNat - 4096 ≤ a)
    (hhi : a < sz.toNat) : phys d (BitVec.ofNat 32 a) = (stackFrame d sz, a % 4096) := by
  have hbound := h.bounds
  have hroom := h.room
  have haligned := h.aligned
  have hbottom := h.bottom
  have ha : (BitVec.ofNat 32 a).toNat = a := by
    rw [BitVec.toNat_ofNat]
    omega
  have hpage : page (BitVec.ofNat 32 a) = page (sz - PGSIZE) := by
    rw [page, page, ha, hbottom]
    omega
  rw [phys, ha, stackFrame, frameOf, frameOf, pte_congr d hpage]

theorem toNat_at32 {i : ℕ} (h : va.toNat + i < 2 ^ 32) : (at32 va i).toNat = va.toNat + i := by
  rw [at32, BitVec.toNat_add, BitVec.toNat_ofNat]
  omega

/-! Which copies succeed -/

theorem open_of_copyout (h : copyout d va buf s = .ok (true, t)) : Open d va buf.length := by
  by_contra hopen
  obtain ⟨i, hi, hbefore, hno⟩ := first_hole hopen
  obtain ⟨hstop, hnull⟩ := copyoutFrom_stop (Nat.le_refl _) hi hbefore hno s
  cases htable : d.pde (PDX (at32 va i)) with
  | none =>
    have hrun := hnull htable
    rw [copyout] at h
    rw [h] at hrun
    cases hrun
  | some tab =>
    obtain ⟨t', hrun⟩ := hstop (by rw [htable]; rfl)
    rw [copyout] at h
    rw [h] at hrun
    cases hrun

theorem align_toNat (w : Word) : (w &&& ~~~(3 : Word)).toNat = w.toNat / 4 * 4 := by
  have hmask : ~~~(3 : Word) = BitVec.allOnes 32 <<< 2 := by decide
  rw [hmask]
  exact mask_toNat w 2

/-- A copy of `len` bytes that ends just below `sp` is in the stack page, or not accessible: it
would go through the guard page, or wrap around through the end of the user memory. -/
theorem push_inside {len : ℕ} (h : StackPage d sz) (hlo : sz.toNat - 4096 ≤ sp.toNat)
    (hhi : sp.toNat ≤ sz.toNat) (hlen : 0 < len)
    (hopen : Open d ((sp - BitVec.ofNat 32 len) &&& ~~~(3 : Word)) len) :
    sz.toNat - 4096 ≤ ((sp - BitVec.ofNat 32 len) &&& ~~~(3 : Word)).toNat ∧
      ((sp - BitVec.ofNat 32 len) &&& ~~~(3 : Word)).toNat + len ≤ sp.toNat ∧
      ((sp - BitVec.ofNat 32 len) &&& ~~~(3 : Word)).toNat % 4 = 0 := by
  have hbound := h.bounds
  have hroom := h.room
  have hnat := align_toNat (sp - BitVec.ofNat 32 len)
  generalize (sp - BitVec.ofNat 32 len) &&& ~~~(3 : Word) = p at *
  have hsub : (sp - BitVec.ofNat 32 len).toNat = (2 ^ 32 - len % 2 ^ 32 + sp.toNat) % 2 ^ 32 := by
    rw [BitVec.toNat_sub, BitVec.toNat_ofNat]
  rw [hsub] at hnat
  have hfirst := (h.user _).mp (hopen 0 hlen)
  rw [at32_zero] at hfirst
  -- no byte of the copy is at `sz` or in the guard page
  have hend : ¬ (p.toNat + len > sz.toNat) := by
    intro hover
    have hacc := (h.user _).mp (hopen (sz.toNat - p.toNat) (by omega))
    rw [toNat_at32 (by omega)] at hacc
    omega
  have hguard : ¬ (p.toNat < sz.toNat - 8192 ∧ sz.toNat - 8192 < p.toNat + len) := by
    intro hover
    have hacc := (h.user _).mp (hopen (sz.toNat - 8192 - p.toNat) (by omega))
    rw [toNat_at32 (by omega)] at hacc
    omega
  have hmod : p.toNat % 4 = 0 := by omega
  by_cases hfit : len ≤ sp.toNat
  · omega
  · omega

/-! What a copy into the stack page does -/

/-- No byte outside of the frame of the stack page has changed. -/
def SameOutside (d : PageDir) (sz : Word) (s t : Kmem) : Prop :=
  ∀ x : Frame × ℕ, x.2 < 4096 → x.1 ≠ stackFrame d sz → byteAt t x = byteAt s x

theorem SameOutside.trans (h : SameOutside d sz s t) (g : SameOutside d sz t u) :
    SameOutside d sz s u := fun x hx hf => (g x hx hf).trans (h x hx hf)

theorem copy_page (h : StackPage d sz) (hlo : sz.toNat - 4096 ≤ va.toNat)
    (hhi : va.toNat + buf.length ≤ sz.toNat) (hrun : copyout d va buf s = .ok (true, t)) :
    SameOutside d sz s t ∧ ∀ a, sz.toNat - 4096 ≤ a → a < sz.toNat → read d t a =
      if va.toNat ≤ a ∧ a < va.toNat + buf.length then buf.getD (a - va.toNat) 0
      else read d s a := by
  have hbound := h.bounds
  have hroom := h.room
  have haligned := h.aligned
  obtain ⟨t', hrun', -, hbyte⟩ := copyoutFrom_all (Nat.le_refl _) (open_of_copyout hrun) s
  rw [copyout] at hrun
  rw [hrun] at hrun'
  cases hrun'
  have hphys : ∀ i < buf.length,
      phys d (at32 va i) = (stackFrame d sz, (va.toNat + i) % 4096) := by
    intro i hi
    have hat : at32 va i = BitVec.ofNat 32 (va.toNat + i) := by
      rw [← BitVec.toNat_inj, toNat_at32 (by omega), BitVec.toNat_ofNat]
      omega
    rw [hat, h.phys_in (by omega) (by omega)]
  constructor
  · intro x hx hf
    rcases hbyte x hx with ⟨i, hi, rfl, -⟩ | ⟨-, hsame⟩
    · rw [hphys i hi] at hf
      exact absurd rfl hf
    · exact hsame
  · intro a halo hahi
    have ha := h.phys_in halo hahi
    have hlow : (phys d (BitVec.ofNat 32 a)).2 < 4096 := Nat.mod_lt _ (by decide)
    rw [read, read]
    rcases hbyte _ hlow with ⟨i, hi, heq, hval⟩ | ⟨hout, hsame⟩
    · rw [hphys i hi, ha] at heq
      have hoff : (va.toNat + i) % 4096 = a % 4096 := (Prod.ext_iff.mp heq).2
      have hsum : a = va.toNat + i := by omega
      rw [hval, if_pos ⟨by omega, by omega⟩, hsum, Nat.add_sub_cancel_left]
    · rw [hsame, if_neg]
      rintro ⟨hge, hlt⟩
      apply hout (a - va.toNat) (by omega)
      rw [hphys _ (by omega), ha, Nat.add_sub_cancel' hge]

/-! The argument strings -/

/-- From `hi` downwards: the copies of the strings at their addresses, the last one at `lo`. -/
inductive Stacked (bottom : ℕ) : ℕ → List (List Byte) → List Word → ℕ → Prop where
  | nil {hi : ℕ} : Stacked bottom hi [] [] hi
  | cons {hi lo : ℕ} {arg : List Byte} {args : List (List Byte)} {p : Word} {ptrs : List Word}
      (inside : bottom ≤ p.toNat) (fits : p.toNat + (arg.length + 1) ≤ hi)
      (aligned : p.toNat % 4 = 0) (rest : Stacked bottom p.toNat args ptrs lo) :
      Stacked bottom hi (arg :: args) (p :: ptrs) lo

/-- A copy of the string, with its zero, at `p`. -/
def CopyAt (d : PageDir) (m : Kmem) (arg : List Byte) (p : Word) : Prop :=
  ∀ j ≤ arg.length, read d m (p.toNat + j) = (arg ++ [0]).getD j 0

structure Pushed (d : PageDir) (sz : Word) (args : List (List Byte)) (sp : Word) (s : Kmem)
    (last : Word) (ptrs : List Word) (t : Kmem) : Prop where
  stacked : Stacked (sz.toNat - 4096) sp.toNat args ptrs last.toNat
  copies : List.Forall₂ (CopyAt d t) args ptrs
  above : ∀ a, sp.toNat ≤ a → a < sz.toNat → read d t a = read d s a
  outside : SameOutside d sz s t
  bottom : sz.toNat - 4096 ≤ last.toNat
  top : last.toNat ≤ sp.toNat
  aligned : last.toNat % 4 = 0

theorem pushArgs_run {argc : ℕ} {args : List (List Byte)} {last : Word} {ptrs : List Word}
    (h : StackPage d sz) (hlo : sz.toNat - 4096 ≤ sp.toNat) (hhi : sp.toNat ≤ sz.toNat)
    (halign : sp.toNat % 4 = 0) (hargc : argc ≤ MAXARG)
    (hrun : pushArgs d argc args sp s = .ok (some (last, ptrs), t)) :
    argc + args.length ≤ MAXARG ∧ Pushed d sz args sp s last ptrs t := by
  induction args generalizing argc sp ptrs s with
  | nil =>
    cases hrun
    exact ⟨hargc, .nil, .nil, fun _ _ _ => rfl, fun _ _ _ => rfl, hlo, Nat.le_refl _, halign⟩
  | cons arg args ih =>
    rw [pushArgs] at hrun
    by_cases hmany : MAXARG ≤ argc
    · rw [if_pos hmany] at hrun
      cases hrun
    rw [if_neg hmany] at hrun
    obtain ⟨ok, u, hcopy, hrest⟩ := bind_ok hrun
    cases ok with
    | false => cases hrest
    | true =>
      have hlen : (arg ++ [0]).length = arg.length + 1 := List.length_append
      have hopen := open_of_copyout hcopy
      rw [hlen] at hopen
      obtain ⟨hbottom, hfits, hmod⟩ := push_inside h hlo hhi (Nat.succ_pos _) hopen
      generalize (sp - BitVec.ofNat 32 (arg.length + 1)) &&& ~~~(3 : Word) = p at *
      obtain ⟨r, v, hpush, hend⟩ := bind_ok hrest
      cases r with
      | none => cases hend
      | some x =>
        obtain ⟨last', ptrs'⟩ := x
        cases hend
        obtain ⟨hcount, hp⟩ := ih hbottom (by omega) hmod (by omega) hpush
        obtain ⟨hout, hread⟩ := copy_page h hbottom (by omega) hcopy
        rw [hlen] at hread
        refine ⟨?_, .cons hbottom hfits hmod hp.stacked, .cons ?_ hp.copies, ?_,
          hout.trans hp.outside, hp.bottom, by have := hp.top; omega, hp.aligned⟩
        · rw [List.length_cons]
          omega
        · intro j hj
          rw [hp.above _ (by omega) (by omega), hread _ (by omega) (by omega), if_pos (by omega),
            Nat.add_sub_cancel_left]
        · intro a halo hahi
          rw [hp.above a (by omega) hahi, hread a (by omega) hahi, if_neg (by omega)]

/-! The words below the strings -/

theorem length_wordBytes (ws : List Word) : (ws.flatMap wordBytes).length = 4 * ws.length := by
  induction ws with
  | nil => rfl
  | cons w ws ih =>
    have hfour : (wordBytes w).length = 4 := rfl
    rw [List.flatMap_cons, List.length_append, ih, hfour, List.length_cons]
    omega

theorem getD_wordBytes {ws : List Word} {i j : ℕ} {w : Word} (hw : ws[i]? = some w) (hj : j < 4) :
    (ws.flatMap wordBytes).getD (4 * i + j) 0 = (wordBytes w).getD j 0 := by
  have hfour : ∀ w, (wordBytes w).length = 4 := fun _ => rfl
  induction ws generalizing i with
  | nil => cases hw
  | cons v ws ih =>
    rw [List.flatMap_cons]
    cases i with
    | zero =>
      cases hw
      rw [Nat.mul_zero, Nat.zero_add, List.getD_append _ _ _ _ (by rw [hfour]; exact hj)]
    | succ i =>
      have hrest : 4 * (i + 1) + j - 4 = 4 * i + j := by omega
      rw [List.getD_append_right _ _ _ _ (by rw [hfour]; omega), hfour, hrest]
      exact ih hw

/-- The word `i` of a list of words that has been copied to `va`. -/
theorem readWord_copied {ws : List Word} {i : ℕ} {w : Word} (h : StackPage d sz)
    (hlo : sz.toNat - 4096 ≤ va.toNat) (hhi : va.toNat + 4 * ws.length ≤ sz.toNat)
    (hrun : copyout d va (ws.flatMap wordBytes) s = .ok (true, t)) (hw : ws[i]? = some w) :
    readWord d t (va.toNat + 4 * i) = w := by
  have hlen := length_wordBytes ws
  have hi := (List.getElem?_eq_some_iff.mp hw).1
  obtain ⟨-, hread⟩ := copy_page h hlo (by omega) hrun
  have hbyte : ∀ j < 4, read d t (va.toNat + 4 * i + j) = (wordBytes w).getD j 0 := by
    intro j hj
    have hoff : va.toNat + 4 * i + j - va.toNat = 4 * i + j := by omega
    rw [hread _ (by omega) (by omega), if_pos (by omega), hoff, getD_wordBytes hw hj]
  have hzero := hbyte 0 (by decide)
  rw [Nat.add_zero] at hzero
  rw [readWord, hbyte 3 (by decide), hbyte 2 (by decide), hbyte 1 (by decide), hzero]
  exact bytes_of_word w

/-- The final copy is in the stack page, or its first byte is in the guard page. -/
theorem frame_inside {n : ℕ} {w : Word} (h : StackPage d sz)
    (hlo : sz.toNat - 4096 ≤ sp.toNat) (hhi : sp.toNat ≤ sz.toNat) (hw : w.toNat = n)
    (hn : 0 < n) (hfew : n ≤ 4096) (hopen : Open d (sp - w) n) :
    (sp - w).toNat = sp.toNat - n ∧ sz.toNat - 4096 ≤ sp.toNat - n ∧ n ≤ sp.toNat := by
  have hbound := h.bounds
  have hroom := h.room
  have hle : w ≤ sp := by
    rw [BitVec.le_def]
    omega
  have hsub : (sp - w).toNat = sp.toNat - n := by
    rw [BitVec.toNat_sub_of_le hle, hw]
  have hfirst := (h.user _).mp (hopen 0 hn)
  rw [at32_zero, hsub] at hfirst
  omega

/-! What main() finds -/

/-- The frame of main() at `esp`, the array of pointers above it, and the strings above that. -/
structure ArgumentsAt (d : PageDir) (m : Kmem) (sz esp : Word) (argv : List (List Byte))
    (ptrs : List Word) : Prop where
  aligned : esp.toNat % 4 = 0
  few : argv.length < MAXARG + 1
  bottom : sz.toNat - 4096 ≤ esp.toNat
  top : esp.toNat + 12 + 4 * (argv.length + 1) ≤ sz.toNat
  length : ptrs.length = argv.length
  argcWord : readWord d m (esp.toNat + 4) = BitVec.ofNat 32 argv.length
  argvWord : readWord d m (esp.toNat + 8) = BitVec.ofNat 32 (esp.toNat + 12)
  array : ∀ i p, ptrs[i]? = some p → readWord d m (esp.toNat + 12 + 4 * i) = p
  null : readWord d m (esp.toNat + 12 + 4 * argv.length) = 0
  copies : List.Forall₂ (CopyAt d m) argv ptrs
  below : ∀ x ∈ argv.zip ptrs, esp.toNat + 12 + 4 * (argv.length + 1) ≤ x.2.toNat
  inside : ∀ x ∈ argv.zip ptrs, x.2.toNat + (x.1.length + 1) ≤ sz.toNat
  apart : (argv.zip ptrs).Pairwise fun x y => y.2.toNat + (y.1.length + 1) ≤ x.2.toNat

theorem Stacked.le {bottom hi lo : ℕ} {args : List (List Byte)} {ptrs : List Word}
    (h : Stacked bottom hi args ptrs lo) : lo ≤ hi := by
  induction h with
  | nil => exact Nat.le_refl _
  | cons inside fits aligned rest ih => omega

theorem Stacked.mem {bottom hi lo : ℕ} {args : List (List Byte)} {ptrs : List Word}
    (h : Stacked bottom hi args ptrs lo) {x : List Byte × Word} (hx : x ∈ args.zip ptrs) :
    lo ≤ x.2.toNat ∧ x.2.toNat + (x.1.length + 1) ≤ hi := by
  induction h with
  | nil => cases hx
  | cons inside fits aligned rest ih =>
    rw [List.zip_cons_cons, List.mem_cons] at hx
    rcases hx with rfl | hx
    · exact ⟨rest.le, fits⟩
    · obtain ⟨hlo, hhi⟩ := ih hx
      exact ⟨hlo, by omega⟩

theorem Stacked.apart {bottom hi lo : ℕ} {args : List (List Byte)} {ptrs : List Word}
    (h : Stacked bottom hi args ptrs lo) :
    (args.zip ptrs).Pairwise fun x y => y.2.toNat + (y.1.length + 1) ≤ x.2.toNat := by
  induction h with
  | nil => exact .nil
  | cons inside fits aligned rest ih =>
    rw [List.zip_cons_cons]
    exact .cons (fun y hy => (rest.mem hy).2) ih

theorem copies_kept {bottom hi lo : ℕ} {args : List (List Byte)} {ptrs : List Word}
    (hst : Stacked bottom hi args ptrs lo) (hc : List.Forall₂ (CopyAt d u) args ptrs)
    (hsame : ∀ a, lo ≤ a → a < hi → read d t a = read d u a) :
    List.Forall₂ (CopyAt d t) args ptrs := by
  induction hst with
  | nil => exact .nil
  | cons inside fits aligned rest ih =>
    have hle := rest.le
    cases hc with
    | cons hfirst hrest =>
      refine .cons ?_ (ih hrest fun a halo hahi => hsame a halo (by omega))
      intro j hj
      rw [hsame _ (by omega) (by omega)]
      exact hfirst j hj

theorem readWord_congr {a : ℕ}
    (hsame : ∀ a, sz.toNat - 4096 ≤ a → a < sz.toNat → read d t a = read d u a)
    (hlo : sz.toNat - 4096 ≤ a) (hhi : a + 4 ≤ sz.toNat) : readWord d t a = readWord d u a := by
  rw [readWord, readWord, hsame a (by omega) (by omega), hsame (a + 1) (by omega) (by omega),
    hsame (a + 2) (by omega) (by omega), hsame (a + 3) (by omega) (by omega)]

/-- Only the stack page counts. -/
theorem ArgumentsAt.congr {esp : Word} {argv : List (List Byte)} {ptrs : List Word}
    (h : ArgumentsAt d u sz esp argv ptrs)
    (hsame : ∀ a, sz.toNat - 4096 ≤ a → a < sz.toNat → read d t a = read d u a) :
    ArgumentsAt d t sz esp argv ptrs := by
  have hbottom := h.bottom
  have htop := h.top
  refine { h with argcWord := ?_, argvWord := ?_, array := ?_, null := ?_, copies := ?_ }
  · rw [readWord_congr hsame (by omega) (by omega)]
    exact h.argcWord
  · rw [readWord_congr hsame (by omega) (by omega)]
    exact h.argvWord
  · intro i p hi
    have hlt := (List.getElem?_eq_some_iff.mp hi).1
    rw [h.length] at hlt
    rw [readWord_congr hsame (by omega) (by omega)]
    exact h.array i p hi
  · rw [readWord_congr hsame (by omega) (by omega)]
    exact h.null
  · have hcopies := List.forall₂_iff_zip.mp h.copies
    refine List.forall₂_iff_zip.mpr ⟨hcopies.1, fun {arg p} hx j hj => ?_⟩
    have hlow := h.below (arg, p) hx
    have hhigh := h.inside (arg, p) hx
    dsimp only at hlow hhigh
    rw [hsame _ (by omega) (by omega)]
    exact hcopies.2 hx j hj

theorem pushFrame_arguments {argv : List (List Byte)} {entry : Word} {ptrs : List Word}
    {im : Image} (h : StackPage d sz) (hfew : argv.length ≤ MAXARG)
    (hp : Pushed d sz argv sz s sp ptrs u)
    (hrun : pushFrame img (BitVec.ofNat 32 argv.length) entry d sz sp ptrs u = .ok (some im, t)) :
    im.pgdir = d ∧ im.sz = sz ∧ im.eip = entry ∧ ArgumentsAt d t sz im.esp argv ptrs ∧
      SameOutside d sz s t := by
  have hmax : MAXARG = 32 := rfl
  have hlength := hp.copies.length_eq
  have hargc : (BitVec.ofNat 32 argv.length).toNat = argv.length := by
    rw [BitVec.toNat_ofNat]
    omega
  generalize hgen : BitVec.ofNat 32 argv.length = argc at *
  have hws : (ustack argc sp ptrs).length = argv.length + 4 := by
    simp only [ustack, List.length_append, List.length_cons, List.length_nil]
    omega
  have hsize : ((3 + argc + 1) * 4).toNat = 4 * (argv.length + 4) := by
    have hthree : (3 : Word).toNat = 3 := rfl
    have hone : (1 : Word).toNat = 1 := rfl
    have hfour : (4 : Word).toNat = 4 := rfl
    rw [BitVec.toNat_mul, BitVec.toNat_add, BitVec.toNat_add, hthree, hone, hfour]
    omega
  obtain ⟨ok, v, hcopy, hend⟩ := bind_ok hrun
  cases ok with
  | false => exact (UserProcessSteps.bad_ok hend).elim
  | true =>
    cases hend
    have hopen := open_of_copyout hcopy
    rw [length_wordBytes, hws] at hopen
    obtain ⟨hesp, hbottom, hfits⟩ :=
      frame_inside h hp.bottom hp.top hsize (by omega) (by omega) hopen
    dsimp only
    generalize sp - (3 + argc + 1) * 4 = esp at *
    have hspan : esp.toNat + 4 * (ustack argc sp ptrs).length = sp.toNat := by
      rw [hws, hesp]
      omega
    have hlo : sz.toNat - 4096 ≤ esp.toNat := by
      rw [hesp]
      exact hbottom
    have htop := hp.top
    have hroom : esp.toNat + 4 * (ustack argc sp ptrs).length ≤ sz.toNat := by omega
    have hword : ∀ i w, (ustack argc sp ptrs)[i]? = some w →
        readWord d t (esp.toNat + 4 * i) = w :=
      fun i w hw => readWord_copied h hlo hroom hcopy hw
    obtain ⟨hout, hread⟩ := copy_page h hlo (by rw [length_wordBytes]; exact hroom) hcopy
    rw [length_wordBytes] at hread
    refine ⟨rfl, rfl, rfl, ?_, hp.outside.trans hout⟩
    constructor
    · have := hp.aligned
      omega
    · omega
    · exact hlo
    · omega
    · exact hlength.symm
    · rw [hgen]
      exact hword 1 _ rfl
    · have hptr : sp - (argc + 1) * 4 = BitVec.ofNat 32 (esp.toNat + 12) := by
        have harray : ((argc + 1) * 4).toNat = 4 * (argv.length + 1) := by
          have hone : (1 : Word).toNat = 1 := rfl
          have hfour : (4 : Word).toNat = 4 := rfl
          rw [BitVec.toNat_mul, BitVec.toNat_add, hone, hfour]
          omega
        have hsp := sp.isLt
        rw [← BitVec.toNat_inj, BitVec.toNat_sub_of_le (by rw [BitVec.le_def]; omega), harray,
          BitVec.toNat_ofNat]
        omega
      rw [← hptr]
      exact hword 2 _ rfl
    · intro i p hi
      have hlt := (List.getElem?_eq_some_iff.mp hi).1
      have hat : (ustack argc sp ptrs)[3 + i]? = some p := by
        rw [Nat.add_comm]
        simp only [ustack, List.cons_append, List.nil_append, List.getElem?_cons_succ]
        rw [List.getElem?_append_left hlt]
        exact hi
      have hsum : esp.toNat + 12 + 4 * i = esp.toNat + 4 * (3 + i) := by omega
      rw [hsum]
      exact hword _ _ hat
    · have hat : (ustack argc sp ptrs)[3 + argv.length]? = some 0 := by
        rw [hlength, Nat.add_comm]
        simp only [ustack, List.cons_append, List.nil_append, List.getElem?_cons_succ]
        rw [List.getElem?_append_right (Nat.le_refl _), Nat.sub_self]
        rfl
      have hsum : esp.toNat + 12 + 4 * argv.length = esp.toNat + 4 * (3 + argv.length) := by omega
      rw [hsum]
      exact hword _ _ hat
    · refine copies_kept hp.stacked hp.copies fun a halo hahi => ?_
      rw [hread a (by omega) hahi, if_neg (by omega)]
    · intro x hx
      have hlow := (hp.stacked.mem hx).1
      omega
    · exact fun x hx => (hp.stacked.mem hx).2
    · exact hp.stacked.apart

theorem pushAll_arguments {argv : List (List Byte)} {entry : Word} {im : Image}
    (h : StackPage d sz) (hrun : pushAll img argv entry d sz s = .ok (some im, t)) :
    ∃ ptrs, im.pgdir = d ∧ im.sz = sz ∧ im.eip = entry ∧ ArgumentsAt d t sz im.esp argv ptrs ∧
      SameOutside d sz s t := by
  have haligned := h.aligned
  obtain ⟨r, u, hpush, hend⟩ := bind_ok hrun
  cases r with
  | none => exact (UserProcessSteps.bad_ok hend).elim
  | some x =>
    obtain ⟨sp, ptrs⟩ := x
    obtain ⟨hcount, hp⟩ := pushArgs_run h (Nat.sub_le _ _) (Nat.le_refl _) (by omega)
      (Nat.zero_le _) hpush
    rw [Nat.zero_add] at hcount
    exact ⟨ptrs, pushFrame_arguments h hcount hp hend⟩

/-! What exec() does before the arguments -/

/-- No other user page is in the frame of the stack page. -/
def Unshared (d : PageDir) (sz : Word) : Prop :=
  ∀ b, accessible d b → frameOf d b = stackFrame d sz → page b = page (sz - PGSIZE)

/-- The page below the new size has a frame from the free list. -/
theorem stack_unshared {s₀ : Kmem} {e : PageDir} {top r : Word} (hs : Sane img s₀)
    (h : Loading s₀ d sz s) (hlow : PGROUNDUP sz < KERNBASE)
    (htop : top.toNat = (PGROUNDUP sz).toNat + 8192)
    (hrun : allocuvm img d (PGROUNDUP sz) top s = .ok ((e, r), t)) (hr : r ≠ 0) {b : Word}
    (hb : b < KERNBASE) (hp : e.present b) (hframe : frameOf e b = stackFrame e r) :
    page b = page (r - PGSIZE) := by
  have hsane := owned_sane hs h.owns
  have hround := PGROUNDUP_toNat (Nat.le_of_lt (BitVec.lt_def.mp h.low))
  have hupup : up (PGROUNDUP sz).toNat = up sz.toNat := by
    rw [hround]
    simp only [up]
    omega
  have hpages : Exact d (up (PGROUNDUP sz).toNat) := by
    rw [hupup]
    exact h.pages
  obtain ⟨e', r', t', hrun', hhigh, -, hgrow⟩ :=
    allocuvm_exact img top hlow hpages s hsane.usable hsane.nodup
      fun f hf => owned_apart hs h.owns hf
  rw [hrun] at hrun'
  cases hrun'
  have hnew : top < KERNBASE := by
    rw [← BitVec.not_le]
    exact fun hle => hr (hhigh hle).1
  have hle : PGROUNDUP sz ≤ top := by
    rw [BitVec.le_def]
    omega
  rcases hgrow hle hnew with ⟨rfl, hgrown⟩ | ⟨hzero, -⟩
  · have hrange : ∀ b, InRange (PGROUNDUP sz) r b ↔ _ := inRange_iff (BitVec.le_of_lt hlow)
    have hlast : InRange (PGROUNDUP sz) r (r - PGSIZE) := by
      have hsize : PGSIZE.toNat = 4096 := rfl
      have hbottom : (r - PGSIZE).toNat = r.toNat - 4096 := by
        rw [BitVec.toNat_sub_of_le (by rw [BitVec.le_def]; omega), hsize]
      rw [hrange, page, hbottom]
      simp only [pages]
      omega
    by_cases hin : InRange (PGROUNDUP sz) r b
    · exact hgrown.distinct b (r - PGSIZE) hin hlast hframe
    · -- an old page has a frame of the directory, and those are not free
      have hold := hgrown.old b hin
      have hheld : Holds d (frameOf d b) := holds_page hb ((present_congr hold).mp hp)
      have hsame : frameOf d b = frameOf e b := by rw [frameOf, frameOf, hold]
      rw [hsame, hframe] at hheld
      exact absurd (hgrown.fresh _ hlast) (owned_apart hs h.owns hheld)
  · exact absurd hzero hr


/-- The two pages of the stack; `none` after cleanup. -/
def guardStack (img : KernelImage) (entry : Word) (d : PageDir) (sz : Word) :
    VM (Option (Word × PageDir × Word)) := do
  let r ← allocuvm img d (PGROUNDUP sz) (PGROUNDUP sz + 2 * PGSIZE)
  if r.2 = 0 then do
    freevm img r.1
    pure none
  else do
    let d ← clearpteu r.1 (r.2 - 2 * PGSIZE)
    pure (some (entry, d, r.2))

/-- exec() up to the guard page; `none` after cleanup. -/
def prepare (img : KernelImage) (file : Option Reader) : VM (Option (Word × PageDir × Word)) :=
  match file with
  | none => pure none
  | some readi =>
    match readAll readi 0 52 with
    | none => pure none
    | some bs =>
      if (decodeElf bs).magic ≠ ELF_MAGIC then pure none
      else do
        match ← setupkvm img with
        | none => pure none
        | some d =>
          match ← loadSegments img readi (decodeElf bs).phnum.toNat (decodeElf bs).phoff d 0 with
          | (d, none) => do
            freevm img d
            pure none
          | (d, some sz) => guardStack img (decodeElf bs).entry d sz

theorem exec_prepare (img : KernelImage) (file : Option Reader) (argv : List (List Byte)) :
    exec img file argv = (do
      match ← prepare img file with
      | none => pure none
      | some (entry, d, sz) => pushAll img argv entry d sz) := by
  cases file with
  | none => rfl
  | some readi =>
    rw [exec, prepare]
    cases readAll readi 0 52 with
    | none => rfl
    | some bs =>
      dsimp only
      split
      · rfl
      · rw [bind_assoc]
        congr 1
        funext r
        cases r with
        | none => rfl
        | some d =>
          dsimp only
          rw [bind_assoc]
          congr 1
          funext r
          obtain ⟨e, n⟩ := r
          cases n with
          | none =>
            dsimp only
            rw [bad, bind_assoc]
            rfl
          | some sz =>
            dsimp only
            rw [buildStack_eq, guardStack, bind_assoc]
            congr 1
            funext r
            split
            · rw [bad, bind_assoc]
              rfl
            · rw [bind_assoc]
              rfl

/-- What is there before the arguments. -/
structure Prepared (s₀ : Kmem) (d : PageDir) (sz : Word) (v : Kmem) : Prop where
  owns : Owns d s₀ v
  stack : StackPage d sz
  unshared : Unshared d sz

theorem stack_prepared {s₀ : Kmem} {e : PageDir} {entry entry' size : Word} (hs : Sane img s₀)
    (h : Loading s₀ e size s)
    (hrun : guardStack img entry e size s = .ok (some (entry', d, sz), t)) :
    Prepared s₀ d sz t := by
  rw [guardStack] at hrun
  generalize htop : PGROUNDUP size + 2 * PGSIZE = top at hrun
  obtain ⟨⟨e', r⟩, u, halloc, hrest⟩ := bind_ok hrun
  obtain ⟨e'', r', u', halloc', howns, hgrown⟩ := allocStack_run hs h htop.symm
  rw [halloc] at halloc'
  cases halloc'
  dsimp only at hrest
  by_cases hzero : r = 0
  · rw [if_pos hzero] at hrest
    obtain ⟨⟨⟩, x, -, hend⟩ := bind_ok hrest
    cases hend
  · rw [if_neg hzero] at hrest
    obtain ⟨hsize, hload⟩ := hgrown hzero
    obtain ⟨d', x, hclear, hend⟩ := bind_ok hrest
    cases hend
    have htwo : (2 * PGSIZE).toNat = 8192 := rfl
    have hguardpage : (sz - 2 * PGSIZE).toNat = sz.toNat - 8192 := by
      rw [BitVec.toNat_sub_of_le (by rw [BitVec.le_def]; omega), htwo]
    have hguard : accessible e' (sz - 2 * PGSIZE) := by
      rw [hload.user, hguardpage]
      simp only [up]
      omega
    obtain ⟨d'', hclear', hg⟩ := clearpteu_run hguard.1 u
    have howns' := guarded_owns howns hclear
    rw [hclear] at hclear'
    cases hclear'
    refine ⟨howns' rfl, ⟨hload.low, by omega, by simp only [up] at hsize; omega, ?_⟩, ?_⟩
    · intro b
      rw [hg.access, hload.user, page, page, hguardpage]
      simp only [up] at hsize ⊢
      omega
    · intro b hb hframe
      have hround := PGROUNDUP_toNat (Nat.le_of_lt (BitVec.lt_def.mp h.low))
      have hlow := hload.low
      have hacc := ((hg.access b).mp hb).1
      rw [stackFrame, hg.frame, hg.frame] at hframe
      refine stack_unshared hs h ?_ ?_ halloc hzero (hload.below hacc) hacc.1 hframe
      · rw [BitVec.lt_def] at hlow ⊢
        omega
      · rw [← htop, BitVec.toNat_add, htwo]
        rw [BitVec.lt_def] at hlow
        have hbase : KERNBASE.toNat = 2147483648 := rfl
        omega

theorem prepare_run {file : Option Reader} {entry : Word} (hs : Sane img s)
    (h : prepare img file s = .ok (some (entry, d, sz), t)) : Prepared s d sz t := by
  cases file with
  | none => cases h
  | some readi =>
    rw [prepare] at h
    cases hread : readAll readi 0 52 with
    | none =>
      rw [hread] at h
      cases h
    | some bs =>
      rw [hread] at h
      dsimp only at h
      split at h
      · cases h
      · obtain ⟨r, u, hsetup, h⟩ := bind_ok h
        obtain ⟨r', u', hsetup', hr⟩ := setupkvm_run hs.usable
        rw [hsetup] at hsetup'
        cases hsetup'
        cases r with
        | none => cases h
        | some d₀ =>
          have hstart := Loading.start hr.1 hr.2
          obtain ⟨⟨e, n⟩, w, hload, h⟩ := bind_ok h
          cases n with
          | none =>
            dsimp only at h
            obtain ⟨⟨⟩, x, -, hend⟩ := bind_ok h
            cases hend
          | some size =>
            have hloaded := hstart.segments hs hload
            dsimp only at h
            exact stack_prepared hs hloaded h

/-! The whole call -/

/-- The memory `v` before exec() copies the arguments, and `m` after it: with the frames of the
new directory as they are, the old one is freed. -/
structure Copies (img : KernelImage) (argv : List (List Byte)) (s t : ExecCall.State)
    (v m : Kmem) : Prop where
  before : ∃ file entry,
    prepare img file s.kmem = .ok (some (entry, t.caller.pgdir, t.caller.sz), v) ∧
    pushAll img argv entry t.caller.pgdir t.caller.sz v =
      .ok (some ⟨t.caller.pgdir, t.caller.sz, t.caller.eip, t.caller.esp⟩, m)
  after : freevm img s.caller.pgdir m = .ok ((), t.kmem)
  outside : SameOutside t.caller.pgdir t.caller.sz v m

theorem exec_arguments {file : Option Reader} {argv : List (List Byte)} {im : Image}
    (hs : Sane img s) (h : UserProcesses.exec img file argv s = .ok (some im, t)) :
    ∃ entry v ptrs, prepare img file s = .ok (some (entry, im.pgdir, im.sz), v) ∧
      pushAll img argv entry im.pgdir im.sz v = .ok (some im, t) ∧
      Prepared s im.pgdir im.sz v ∧ ArgumentsAt im.pgdir t im.sz im.esp argv ptrs ∧
      SameOutside im.pgdir im.sz v t := by
  rw [exec_prepare] at h
  obtain ⟨r, v, hprep, hpush⟩ := bind_ok h
  cases r with
  | none => cases hpush
  | some x =>
    obtain ⟨entry, d, sz⟩ := x
    have hp := prepare_run hs hprep
    obtain ⟨ptrs, hdir, hsize, -, hargs, hout⟩ := pushAll_arguments hp.stack hpush
    refine ⟨entry, v, ptrs, ?_, ?_, ?_, ?_, ?_⟩
    · rw [hdir, hsize]
      exact hprep
    · rw [hdir, hsize]
      exact hpush
    · rw [hdir, hsize]
      exact hp
    · rw [hdir, hsize]
      exact hargs
    · rw [hdir, hsize]
      exact hout

/-- When exec() returns 0, the new program finds its arguments in the stack page, and no byte
outside of it was written for them. -/
theorem exec_passes_arguments {readi : ℕ → Reader} {p : Fin KernelParams.NPROC}
    {path : DirectoryTree.Path} {argv : List (List Byte)} {s t : ExecCall.State}
    (hs : Sane img s.kmem) (hfs : InodeReferences.Mid [] [] s.fs)
    (hown : ∀ f, Holds s.caller.pgdir f → Usable img f ∧ f ∉ s.kmem.freelist)
    (hrun : ExecCall.exec img readi p path argv s = .ok (0, t)) :
    StackPage t.caller.pgdir t.caller.sz ∧ Unshared t.caller.pgdir t.caller.sz ∧
      (∃ ptrs, ArgumentsAt t.caller.pgdir t.kmem t.caller.sz t.caller.esp argv ptrs) ∧
      ∃ v m, Copies img argv s t v m := by
  obtain ⟨-, -, file, x, m, himage, hend⟩ :=
    wp_ok (ExecCall.exec_returned hfs readi p path argv) hrun
  cases hend with
  | installed im hcaller hfree =>
    obtain ⟨entry, v, ptrs, hprep, hpush, hp, hargs, hout⟩ := exec_arguments hs himage
    obtain ⟨m', hfree', hkept⟩ := freevm_run (fun f hf => (hown f hf).1) m
    rw [hfree] at hfree'
    cases hfree'
    have hstack := hp.stack
    have hroom := hstack.room
    have hbottom := hstack.bottom
    have hlast : accessible im.pgdir (im.sz - PGSIZE) := by
      rw [hstack.user, hbottom]
      omega
    have hlow : im.sz - PGSIZE < KERNBASE := by
      have hbase : KERNBASE.toNat = 2147483648 := rfl
      have hbound := hstack.bounds
      rw [BitVec.lt_def, hbottom]
      omega
    have hheld := hp.owns.holds (holds_page hlow hlast.1)
    have hsame : t.kmem.mem (stackFrame im.pgdir im.sz) = m.mem (stackFrame im.pgdir im.sz) :=
      hkept _ fun hf => (hown _ hf).2 hheld
    have hread : ∀ a, im.sz.toNat - 4096 ≤ a → a < im.sz.toNat →
        read im.pgdir t.kmem a = read im.pgdir m a := by
      intro a halo hahi
      rw [read, read, hstack.phys_in halo hahi, byteAt, byteAt, hsame]
    rw [hcaller]
    refine ⟨hstack, hp.unshared, ⟨ptrs, hargs.congr hread⟩, v, m, ?_, hfree, ?_⟩
    · rw [hcaller]
      exact ⟨file, entry, hprep, hpush⟩
    · rw [hcaller]
      exact hout

/-! A call with memory to spare -/

theorem allocFrom_enough {oldsz newsz a : Word} {n k : ℕ} (hnew : newsz < KERNBASE)
    (ha : a.toNat % 4096 = 0) (hd : Exact d a.toNat) (h : Enough n d s)
    (hn : newsz.toNat ≤ a.toNat + n * 4096) (hk : newsz.toNat ≤ a.toNat + k * 4096) :
    ∃ e t, allocFrom img oldsz newsz k d a s = .ok ((e, newsz), t) := by
  induction k generalizing n d a s with
  | zero =>
    have hstop : ¬ a < newsz := by
      rw [BitVec.lt_def]
      omega
    exact ⟨d, s, by rw [allocFrom, if_neg hstop]; rfl⟩
  | succ k ih =>
    by_cases hmore : a < newsz
    · have hlt := BitVec.lt_def.mp hmore
      have hbase : KERNBASE.toNat = 2147483648 := rfl
      have hbound := BitVec.lt_def.mp hnew
      obtain ⟨m, rfl⟩ : ∃ m, n = m + 1 := ⟨n - 1, by omega⟩
      have hlen := h.free
      obtain ⟨f, fs, hfs, hkalloc⟩ := kalloc_enough h.calm (by omega)
      have h' : Enough m d { s with freelist := fs, mem := Function.update s.mem f zeros } := by
        rw [hfs, List.length_cons] at hlen
        exact ⟨h.calm, by dsimp only; omega⟩
      have hfill : fill f zeros { s with freelist := fs } =
        .ok ((), { s with freelist := fs, mem := Function.update s.mem f zeros }) := rfl
      have hlow : a < KERNBASE := by
        rw [BitVec.lt_def]
        omega
      have habsent : ¬ d.present a := fun hp =>
        absurd ((hd a hlow).mp hp) (Nat.lt_irrefl _)
      obtain ⟨e, t, hmap, he⟩ := page_enough a (V2P f) (PTE_W ||| PTE_U) h' ha habsent
      have hnext : (a + PGSIZE).toNat = a.toNat + 4096 := by
        have hsize : PGSIZE.toNat = 4096 := rfl
        rw [BitVec.toNat_add, hsize]
        omega
      have hexact : Exact e (a + PGSIZE).toNat := by
        rw [hnext]
        exact hd.grow ha (mappages_page ha hmap)
      obtain ⟨e', t', hrest⟩ := ih (by omega) hexact he (by omega) (by omega)
      refine ⟨e', t', ?_⟩
      rw [allocFrom, if_pos hmore, run_bind hkalloc]
      dsimp only
      rw [run_bind hfill, run_bind hmap]
      exact hrest
    · exact ⟨d, s, by rw [allocFrom, if_neg hmore]; rfl⟩

theorem copyout_open (h : Open d va buf.length) (s : Kmem) :
    ∃ t, copyout d va buf s = .ok (true, t) := by
  obtain ⟨t, hrun, -, -⟩ := copyoutFrom_all (Nat.le_refl _) h s
  exact ⟨t, hrun⟩

/-- A range in the stack page. -/
theorem StackPage.opens {len : ℕ} (h : StackPage d sz) (hlo : sz.toNat - 4096 ≤ va.toNat)
    (hhi : va.toNat + len ≤ sz.toNat) : Open d va len := by
  intro i hi
  have hbound := h.bounds
  have hroom := h.room
  rw [h.user, toNat_at32 (by omega)]
  omega

def sh : List Byte := [0x73, 0x68]

theorem pushAll_sh (h : StackPage d 8192) (entry : Word) (s : Kmem) :
    ∃ im t, pushAll img [sh] entry d 8192 s = .ok (some im, t) := by
  have hfirst : (8192 - BitVec.ofNat 32 (sh.length + 1)) &&& ~~~(3 : Word) = 8188 := by decide
  have hargs : ∃ u, pushArgs d 0 [sh] 8192 s = .ok (some (8188, [8188]), u) := by
    have hopen : Open d 8188 (sh ++ [0]).length := h.opens (by decide) (by decide)
    obtain ⟨u, hcopy⟩ := copyout_open hopen s
    refine ⟨u, ?_⟩
    rw [pushArgs, if_neg (by decide), hfirst, run_bind hcopy]
    rfl
  obtain ⟨u, hargs⟩ := hargs
  have hopen : Open d (8188 - (3 + 1 + 1) * 4) ((ustack 1 8188 [8188]).flatMap wordBytes).length :=
    h.opens (by decide) (by decide)
  obtain ⟨t, hcopy⟩ := copyout_open hopen u
  refine ⟨⟨d, 8192, entry, 8188 - (3 + 1 + 1) * 4⟩, t, ?_⟩
  rw [pushAll, run_bind hargs]
  exact run_bind hcopy

theorem buildStack_sh {s₀ : Kmem} (hs : Sane img s₀) (h : Loading s₀ d 0 s) (he : Enough 2 d s)
    (entry : Word) : ∃ im t, buildStack img [sh] entry d 0 s = .ok (some im, t) := by
  have hzero : PGROUNDUP 0 = 0 := by decide
  have htop : PGROUNDUP 0 + 2 * PGSIZE = 8192 := by decide
  have hexact : Exact d (0 : Word).toNat := h.pages
  obtain ⟨e, t, hrun⟩ : ∃ e t, allocFrom img 0 8192 bound d 0 s = .ok ((e, 8192), t) :=
    allocFrom_enough (by decide) rfl hexact he (by decide) (by decide)
  have halloc : allocuvm img d (PGROUNDUP 0) 8192 s = .ok ((e, 8192), t) := by
    rw [hzero, allocuvm, if_neg (by decide), if_neg (by decide), hzero]
    exact hrun
  obtain ⟨e', r, t', halloc', -, hgrown⟩ := allocStack_run hs h htop.symm
  rw [halloc] at halloc'
  cases halloc'
  obtain ⟨-, hload⟩ := hgrown (by decide)
  have hguard : accessible e ((8192 : Word) - 2 * PGSIZE) := (hload.user _).mpr (by decide)
  obtain ⟨d', hclear, -⟩ := clearpteu_run hguard.1 t
  have hp : Prepared s₀ d' 8192 t := by
    have hguarded : guardStack img entry d 0 s = .ok (some (entry, d', 8192), t) := by
      rw [guardStack, htop, run_bind halloc]
      dsimp only
      rw [if_neg (by decide), run_bind hclear]
      rfl
    exact stack_prepared hs h hguarded
  obtain ⟨im, u, hpush⟩ : ∃ im u, pushAll img [sh] entry d' 8192 t = .ok (some im, u) :=
    pushAll_sh hp.stack entry t
  refine ⟨im, u, ?_⟩
  rw [buildStack_eq, htop, run_bind halloc]
  dsimp only
  rw [if_neg (by decide), run_bind hclear]
  exact hpush

/-- An ELF header without program headers. -/
def plainElf : List Byte := [0x7F, 0x45, 0x4C, 0x46] ++ List.replicate 48 0

def freeFrom (n : ℕ) : List Frame := (List.range n).map fun i => BitVec.ofNat 20 (0x500 + i)

theorem mem_freeFrom {n : ℕ} {f : Frame} (hn : n ≤ 2000) (hf : f ∈ freeFrom n) :
    0x500 ≤ f.toNat ∧ f.toNat < 0x500 + n := by
  obtain ⟨i, hi, rfl⟩ := List.mem_map.mp hf
  have hlt := List.mem_range.mp hi
  rw [BitVec.toNat_ofNat]
  omega

theorem nodup_freeFrom {n : ℕ} (hn : n ≤ 2000) : (freeFrom n).Nodup := by
  refine List.Nodup.map_on ?_ List.nodup_range
  intro i hi j hj heq
  have hi' := List.mem_range.mp hi
  have hj' := List.mem_range.mp hj
  have hnat := congrArg BitVec.toNat heq
  rw [BitVec.toNat_ofNat, BitVec.toNat_ofNat] at hnat
  omega

/-- init of two pages, and `n` free ones. -/
def ample (n : ℕ) : ExecCall.State where
  fs := FailedCalls.crowded
  kmem := ⟨freeFrom n, [], fun _ => zeros⟩
  outstanding := 0
  caller := ⟨twoPages, 8192, ['i', 'n', 'i', 't'], 0, 8000⟩

theorem ample_sane {n : ℕ} (hn : n ≤ 2000) : Sane smallKernel (ample n).kmem where
  usable := by
    intro f hf
    obtain ⟨hlo, hhi⟩ := mem_freeFrom hn hf
    have hat := V2P_toNat f
    have hend : smallKernel.kend.toNat = 2148618240 := rfl
    have hbase : KERNBASE.toNat = 2147483648 := rfl
    have hstop : PHYSTOP.toNat = 234881024 := rfl
    refine ⟨?_, ?_, ?_⟩
    · rintro rfl
      exact absurd hlo (by decide)
    · rw [BitVec.le_def, BitVec.toNat_add, hat, hend, hbase]
      omega
    · rw [BitVec.lt_def, hat, hstop]
      omega
  nodup := nodup_freeFrom hn

theorem ample_own {n : ℕ} (hn : n ≤ 2000) (f : Frame) (hf : Holds twoPages f) :
    Usable smallKernel f ∧ f ∉ (ample n).kmem.freelist := by
  have hnot : f.toNat < 0x500 → f ∉ (ample n).kmem.freelist := by
    intro hlt hfree
    have hlo := (mem_freeFrom hn hfree).1
    omega
  rcases twoPages_held hf with rfl | rfl | rfl | rfl
  all_goals exact ⟨⟨by decide, by decide, by decide⟩, hnot (by decide)⟩

theorem root_runs : ∃ u v w, DirectoryTree.namei DirectoryTree.initproc ['/'] FailedCalls.crowded =
    .ok (some 1, u) ∧ DirectoryTree.ilock 1 u = .ok ((), v) ∧
    DirectoryTree.iunlockput 1 v = .ok ((), w) := by
  have hout : ((do
      let r ← DirectoryTree.namei DirectoryTree.initproc ['/']
      DirectoryTree.ilock 1
      DirectoryTree.iunlockput 1
      pure r : DirectoryTree.FsCode (Option ℕ)) FailedCalls.crowded).toOption.map Prod.fst =
      some (some 1) := by decide +kernel
  obtain ⟨r, y, hrun, hr⟩ := run_of_some hout
  cases hr
  obtain ⟨r, u, hnamei, hrest⟩ := bind_ok hrun
  obtain ⟨⟨⟩, v, hlock, hrest⟩ := bind_ok hrest
  obtain ⟨⟨⟩, w, hput, hend⟩ := bind_ok hrest
  cases hend
  exact ⟨u, v, y, hnamei, hlock, hput⟩

theorem exec_sh_run {n : ℕ} (hlo : 1027 ≤ n) (hhi : n ≤ 2000) :
    ∃ t, ExecCall.exec smallKernel (fun _ => fileReader plainElf) DirectoryTree.initproc ['/'] [sh]
      (ample n) = .ok (0, t) := by
  have hs := ample_sane hhi
  have hlen : (ample n).kmem.freelist.length = n := by
    change (freeFrom n).length = n
    rw [freeFrom, List.length_map, List.length_range]
  obtain ⟨u, v, w, hnamei, hlock, hput⟩ := root_runs
  obtain ⟨d, m, hsetup, henough⟩ := setupkvm_enough smallKernel (n := 2) (s := (ample n).kmem) rfl
    (by omega)
  obtain ⟨r, m', hsetup', hr⟩ := setupkvm_run hs.usable
  rw [hsetup] at hsetup'
  cases hsetup'
  have hread : readAll (fileReader plainElf) 0 52 = some plainElf := by decide
  have hnone : (decodeElf plainElf).phnum.toNat = 0 := by decide
  obtain ⟨im, x, hbuild⟩ := buildStack_sh hs (Loading.start hr.1 hr.2) henough
    (decodeElf plainElf).entry
  obtain ⟨y, hfree, -⟩ := freevm_run (fun f hf => (ample_own hhi f hf).1) x
  have hnamei' : ExecCall.onFs (DirectoryTree.namei DirectoryTree.initproc ['/'])
      { ample n with outstanding := 1 } = .ok (some 1, { ample n with outstanding := 1, fs := u }) :=
    zoom_run hnamei
  have hlock' : ExecCall.onFs (DirectoryTree.ilock 1) { ample n with outstanding := 1, fs := u } =
      .ok ((), { ample n with outstanding := 1, fs := v }) := zoom_run hlock
  have hsetup' : ExecCall.onKmem (setupkvm smallKernel) { ample n with outstanding := 1, fs := v } =
      .ok (some d, { ample n with outstanding := 1, fs := v, kmem := m }) := zoom_run hsetup
  have hload' : ExecCall.onKmem (loadSegments smallKernel (fileReader plainElf) 0
      (decodeElf plainElf).phoff d 0) { ample n with outstanding := 1, fs := v, kmem := m } =
        .ok ((d, some 0), { ample n with outstanding := 1, fs := v, kmem := m }) := zoom_run rfl
  have hput' : ExecCall.onFs (DirectoryTree.iunlockput 1)
      { ample n with outstanding := 1, fs := v, kmem := m } =
        .ok ((), { ample n with outstanding := 1, fs := w, kmem := m }) := zoom_run hput
  generalize hbs : buildStack smallKernel [sh] (decodeElf plainElf).entry d 0 = build at hbuild
  have hbuild' : ExecCall.onKmem build { ample n with fs := w, kmem := m } =
      .ok (some im, { ample n with fs := w, kmem := x }) := zoom_run hbuild
  have hmagic : ¬ (decodeElf plainElf).magic ≠ ELF_MAGIC := by decide
  obtain ⟨t, hcommit⟩ : ∃ t, ExecCall.commit smallKernel ['/'] im
      { ample n with fs := w, kmem := x } = .ok (0, t) := ExecCall.commit_run hfree
  refine ⟨t, ?_⟩
  rw [ExecCall.exec]
  refine (run_bind (modify_run _ _)).trans ?_
  refine (run_bind hnamei').trans ?_
  dsimp only
  refine (run_bind hlock').trans ?_
  rw [hread]
  dsimp only
  rw [if_neg hmagic]
  refine (run_bind hsetup').trans ?_
  rw [hnone]
  refine (run_bind hload').trans ?_
  dsimp only
  rw [hbs]
  refine (run_bind hput').trans ?_
  refine (run_bind (modify_run _ _)).trans ?_
  refine (run_bind hbuild').trans ?_
  exact hcommit

theorem exec_passes_arguments_sh : ∃ t, ExecCall.exec smallKernel (fun _ => fileReader plainElf)
    DirectoryTree.initproc ['/'] [sh] (ample 1100) = .ok (0, t) ∧
      StackPage t.caller.pgdir t.caller.sz ∧ Unshared t.caller.pgdir t.caller.sz ∧
      (∃ ptrs, ArgumentsAt t.caller.pgdir t.kmem t.caller.sz t.caller.esp [sh] ptrs) ∧
      ∃ v m, Copies smallKernel [sh] (ample 1100) t v m := by
  obtain ⟨t, hrun⟩ := exec_sh_run (n := 1100) (by decide) (by decide)
  exact ⟨t, hrun, exec_passes_arguments (ample_sane (by decide)) FailedCalls.crowded_mid
    (ample_own (by decide)) hrun⟩

end ArgumentStack
