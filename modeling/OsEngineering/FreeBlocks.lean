import OsEngineering.BlockOwnership
import Mathlib.Data.Finset.Card
import Mathlib.Data.Finset.Range

/-! The free blocks of the disk: balloc() takes one, and fails only when none is left. -/
namespace FreeBlocks

open ByteBlock FaultState KernelParams ResourceLedger BlockAllocation BlockSlots BlockOwnership

instance (sb : Superblock) (s : Fs) (b : ℕ) : Decidable (used sb s b) :=
  inferInstanceAs (Decidable (_ ∧ _))

def freeBlocks (sb : Superblock) (s : Fs) : Finset ℕ :=
  (Finset.range sb.size).filter fun b => ¬ used sb s b

def outOfBlocks : Fault := .panic "balloc: out of blocks"

variable {sb : Superblock} {s t : Fs} {b : ℕ}

theorem mem_freeBlocks : b ∈ freeBlocks sb s ↔ b < sb.size ∧ ¬ used sb s b := by
  rw [freeBlocks, Finset.mem_filter, Finset.mem_range]

theorem findFree_none {v : DiskBlock} {k bi : ℕ} (h : findFree sb v b k bi = none) {r : ℕ}
    (hlow : bi ≤ r) (hr : r < bi + k) (hsize : b + r < sb.size) : bit v r = true := by
  induction k generalizing bi with
  | zero => omega
  | succ k ih =>
    unfold findFree at h
    rw [if_pos (by omega)] at h
    split at h
    · cases h
    next hbit =>
      obtain rfl | hne := Nat.eq_or_lt_of_le hlow
      · simpa using hbit
      · exact ih h hne (by omega)

theorem ballocFrom_error {k : ℕ} {e : Fault} (hb : b % BPB = 0) (hk : sb.size < b + k * BPB)
    (h : ballocFrom sb k b s = .error e) :
    e = outOfBlocks ∧ ∀ c, b ≤ c → c < sb.size → used sb s c := by
  induction k generalizing b with
  | zero =>
    cases h
    exact ⟨rfl, fun c hc hlt => by omega⟩
  | succ k ih =>
    unfold ballocFrom at h
    split at h
    next hlt =>
      have hread : bread (b / BPB + sb.bmapstart) s =
        .ok (s.disk (b / BPB + sb.bmapstart), s) := rfl
      rw [run_bind hread] at h
      cases hnone : findFree sb (s.disk (b / BPB + sb.bmapstart)) b BPB 0 with
      | some bi =>
        rw [hnone] at h
        cases h
      | none =>
        rw [hnone] at h
        have hnext : (b + BPB) % BPB = 0 := by
          rw [Nat.add_mod_right]
          exact hb
        obtain ⟨he, hrest⟩ := ih hnext (by rw [Nat.succ_mul] at hk; omega) h
        refine ⟨he, fun c hc hcs => ?_⟩
        by_cases hin : c < b + BPB
        · have hdiv : c / BPB = b / BPB := by
            unfold BPB at hb hin ⊢
            omega
          have hmod : b + c % BPB = c := by
            unfold BPB at hb hin ⊢
            omega
          have hlt' : c % BPB < 0 + BPB := by
            unfold BPB
            omega
          refine ⟨hcs, ?_⟩
          rw [hdiv]
          exact findFree_none hnone (Nat.zero_le _) hlt' (by omega)
        · exact hrest c (by omega) hcs
    next hge =>
      cases h
      exact ⟨rfl, fun c hc hlt => by omega⟩

theorem balloc_error {e : Fault} (h : balloc sb s = .error e) :
    e = outOfBlocks ∧ freeBlocks sb s = ∅ := by
  unfold balloc at h
  rw [run_bind (get_run s)] at h
  obtain h | ⟨c, u, -, h⟩ := bind_error h
  · have hk : sb.size < 0 + (sb.size / BPB + 1) * BPB := by
      have hpos : BPB = 4096 := rfl
      rw [hpos]
      omega
    obtain ⟨he, hall⟩ := ballocFrom_error (by decide) hk h
    refine ⟨he, Finset.eq_empty_of_forall_notMem fun c hc => ?_⟩
    obtain ⟨hlt, hfree⟩ := mem_freeBlocks.mp hc
    exact hfree (hall c (Nat.zero_le _) hlt)
  · cases h

/-- The block that balloc() returns. -/
structure Taken (sb : Superblock) (s : Fs) (b : ℕ) (t : Fs) : Prop where
  fresh : Fresh sb s b t
  inodes : ∀ j < sb.ninodes, inode sb t j = inode sb s j
  free : freeBlocks sb t = (freeBlocks sb s).erase b
  mem : b ∈ freeBlocks sb s

theorem Fresh.unused (h : Fresh sb s b t) (hs : Consistent sb s) : ¬ used sb s b := by
  intro hu
  have hlow := h.low
  obtain ⟨x, hx⟩ | hmeta := (hs.exact.used_iff b).mp hu
  · exact h.exact.apart x b ((ref_congr h.slots x b).mpr hx) (Or.inl rfl)
  · omega

theorem Fresh.used_iff (h : Fresh sb s b t) (hs : Consistent sb s) (c : ℕ) :
    used sb t c ↔ c = b ∨ used sb s c := by
  have hrefs : (∃ x, Ref sb t x c) ↔ ∃ x, Ref sb s x c :=
    exists_congr fun x => ref_congr h.slots x c
  rw [h.exact.used_iff, hs.exact.used_iff, hrefs]
  exact or_left_comm

/-- balloc() succeeds unless the disk is full. -/
theorem balloc_taken (h : Consistent sb s) {Short : Prop}
    (hroom : ¬ Short → (freeBlocks sb s).Nonempty) :
    wp (balloc sb) (fun b t => Taken sb s b t) (fun e => e = outOfBlocks ∧ Short) s := by
  have hfresh := h.balloc
  unfold wp at *
  cases hrun : balloc sb s with
  | error e =>
    obtain ⟨he, hempty⟩ := balloc_error hrun
    refine ⟨he, by_contra fun hshort => ?_⟩
    exact (Finset.not_nonempty_iff_eq_empty.mpr hempty) (hroom hshort)
  | ok p =>
    obtain ⟨b, t⟩ := p
    rw [hrun] at hfresh
    have hfresh : Fresh sb s b t := hfresh
    have hunused := Fresh.unused hfresh h
    refine ⟨hfresh, ?_, ?_, mem_freeBlocks.mpr ⟨hfresh.lt, hunused⟩⟩
    · intro j hj
      unfold balloc at hrun
      rw [run_bind (get_run s)] at hrun
      obtain ⟨c, u, hfrom, hrest⟩ := bind_ok hrun
      obtain ⟨hlt, -, rfl⟩ := wp_ok (ballocFrom_wp _ 0 (by decide)) hfrom
      cases hrest
      have hdisk : inode sb (takeBlock sb s b) j = inode sb s j := by
        unfold takeBlock
        rw [inode_putBlock _ (bmapstart_le hfresh.lt hfresh.low).1 hj,
          inode_putBlock _ (Nat.le_add_left _ _) hj]
      exact hdisk
    · ext c
      rw [Finset.mem_erase, mem_freeBlocks, mem_freeBlocks, Fresh.used_iff hfresh h]
      tauto

theorem Taken.card (h : Taken sb s b t) :
    (freeBlocks sb t).card + 1 = (freeBlocks sb s).card := by
  rw [h.free]
  exact Finset.card_erase_add_one h.mem

theorem freeBlocks_congr (h : ∀ c, used sb t c ↔ used sb s c) :
    freeBlocks sb t = freeBlocks sb s := by
  ext c
  rw [mem_freeBlocks, mem_freeBlocks, h c]

end FreeBlocks
