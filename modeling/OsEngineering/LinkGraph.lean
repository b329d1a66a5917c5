import Mathlib.Algebra.BigOperators.Group.Finset.Piecewise
import Mathlib.Algebra.Order.BigOperators.Group.Finset
import Mathlib.Data.Multiset.Count
import OsEngineering.FiniteTally

/-! Nodes that name other nodes, as directories do: how often each one is named, and how many of
the nodes that it names are inner nodes. Where an inner node is named once and knows by whom,
the inner nodes below a node are those that lead up to it. -/
namespace LinkGraph

open Finset FiniteTally

variable {α : Type*} [DecidableEq α]

/-- How often `i` is named by the nodes in `N`. -/
def names (N : Finset α) (kids : α → Multiset α) (i : α) : ℕ := ∑ d ∈ N, (kids d).count i

/-- How many inner nodes `i` names. -/
def below (kids : α → Multiset α) (inner : α → Prop) [DecidablePred inner] (i : α) : ℕ :=
  (kids i).countP inner

section Names

variable {N : Finset α} {kids kids' : α → Multiset α} {c d i : α}

theorem count_le_names (hd : d ∈ N) : (kids d).count i ≤ names N kids i :=
  le_sum (fun d => (kids d).count i) hd

theorem names_pos (hd : d ∈ N) (hi : i ∈ kids d) : 0 < names N kids i :=
  (Multiset.count_pos.mpr hi).trans_le (count_le_names hd)

theorem named_by (h : 0 < names N kids i) : ∃ d ∈ N, i ∈ kids d := by
  by_contra hno
  have hzero : names N kids i = 0 := by
    apply sum_eq_zero
    intro d hd
    exact Multiset.count_eq_zero.mpr fun hi => hno ⟨d, hd, hi⟩
  omega

theorem names_mono (h : ∀ d, kids' d ≤ kids d) (i : α) : names N kids' i ≤ names N kids i :=
  sum_le_sum fun d _ => Multiset.count_le_of_le i (h d)

/-- One more name, of `c` in `d`. -/
theorem names_add (hd : d ∈ N) (hnew : kids' d = c ::ₘ kids d) (hold : ∀ x, x ≠ d → kids' x = kids x)
    (i : α) : names N kids' i = names N kids i + if i = c then 1 else 0 := by
  have h := sum_change (f := fun x => (kids x).count i) (g := fun x => (kids' x).count i) hd
    fun x _ hx => by rw [hold x hx]
  rw [hnew, Multiset.count_cons] at h
  unfold names
  omega

end Names

section Below

variable {kids kids' : α → Multiset α} {inner inner' : α → Prop} [DecidablePred inner]
  [DecidablePred inner'] {c d : α}

omit [DecidableEq α] in
theorem below_congr (i : α) (hk : kids' i = kids i) (h : ∀ x ∈ kids i, inner' x ↔ inner x) :
    below kids' inner' i = below kids inner i := by
  unfold below
  rw [hk]
  apply Multiset.countP_congr rfl
  intro x hx
  exact propext (h x hx)

omit [DecidableEq α] in
theorem below_mono (i : α) (hk : kids' i ≤ kids i) (h : ∀ x, inner' x → inner x) :
    below kids' inner' i ≤ below kids inner i := by
  unfold below
  refine (Multiset.countP_le_of_le inner' hk).trans ?_
  rw [Multiset.countP_eq_card_filter, Multiset.countP_eq_card_filter]
  exact Multiset.card_le_card (Multiset.monotone_filter_right _ h)

theorem below_add (hnew : kids' d = c ::ₘ kids d) (hold : ∀ x, x ≠ d → kids' x = kids x)
    (h : ∀ i, ∀ x ∈ kids i, inner' x ↔ inner x) (i : α) :
    below kids' inner' i = below kids inner i + if i = d ∧ inner' c then 1 else 0 := by
  by_cases hi : i = d
  · subst hi
    have hsame : (kids i).countP inner' = (kids i).countP inner := by
      apply Multiset.countP_congr rfl
      intro x hx
      exact propext (h i x hx)
    rw [below, below, hnew, Multiset.countP_cons, hsame]
    congr 1
    exact if_congr (by rw [eq_self_iff_true, true_and]) rfl rfl
  · rw [below_congr i (hold i hi) (h i), if_neg fun hand => hi hand.1, add_zero]

end Below

section Up

variable {N : Finset α} {kids : α → Multiset α} {inner linked : α → Prop} [DecidablePred inner]
  [DecidablePred linked] {up : α → α} {root c : α}

theorem count_unnamed (hN : ∀ d, kids d ≠ 0 → d ∈ N) (h : names N kids c = 0) (i : α) :
    (kids i).count c = 0 := by
  apply Multiset.count_eq_zero.mpr
  intro hmem
  have hne : kids i ≠ 0 := by
    intro hnil
    rw [hnil] at hmem
    exact Multiset.notMem_zero c hmem
  have hpos := names_pos (hN i hne) hmem
  omega

/-- A node that is named once stands where it leads up to. -/
theorem count_named (h : names N kids c = 1)
    (hup : ∀ d, c ∈ kids d → up c = d) (i : α) :
    (kids i).count c = if up c = i then 1 else 0 := by
  have hpos : 0 < names N kids c := by omega
  obtain ⟨d, hd, hmem⟩ := named_by hpos
  have hcd := hup d hmem
  by_cases hi : up c = i
  · have hone := Multiset.count_pos.mpr hmem
    have hle : (kids d).count c ≤ names N kids c := count_le_names hd
    rw [if_pos hi, ← hi, hcd]
    omega
  · rw [if_neg hi]
    apply Multiset.count_eq_zero.mpr
    intro hmem
    exact hi (hup i hmem)

/-- The inner nodes that `i` names, counted from below. `root` is the only linked inner node
that no node names. -/
theorem below_eq_card (hN : ∀ d, kids d ≠ 0 → d ∈ N) (hin : ∀ c, inner c → c ∈ N)
    (hnames : ∀ c, inner c → names N kids c = if linked c ∧ c ≠ root then 1 else 0)
    (hup : ∀ d c, c ∈ kids d → inner c → up c = d)
    (hroot : inner root ∧ linked root) (htop : up root = root) (i : α) :
    below kids inner i + (if i = root then 1 else 0) =
      (N.filter fun c => inner c ∧ linked c ∧ up c = i).card := by
  have hcount : below kids inner i = ∑ c ∈ N, if inner c then (kids i).count c else 0 := by
    rw [below, Multiset.countP_eq_card_filter, ← Multiset.sum_count_eq_card (s := N)]
    · apply sum_congr rfl
      intro c _
      rw [Multiset.count_filter]
    · intro c hc
      exact hin c (Multiset.mem_filter.mp hc).2
  have hone : (if i = root then 1 else 0) = ∑ c ∈ N, if c = root ∧ i = root then 1 else 0 := by
    rw [sum_eq_single root]
    · exact if_congr (by rw [eq_self_iff_true, true_and]) rfl rfl
    · exact fun c _ hc => if_neg fun hand => hc hand.1
    · exact fun hno => absurd (hin root hroot.1) hno
  rw [hcount, hone, card_filter, ← sum_add_distrib]
  apply sum_congr rfl
  intro c _
  by_cases hc : inner c
  · have hname := hnames c hc
    rw [if_pos hc]
    by_cases hlink : linked c ∧ c ≠ root
    · rw [if_pos hlink] at hname
      have hnot : ¬ (c = root ∧ i = root) := fun hand => hlink.2 hand.1
      rw [count_named hname (fun d hd => hup d c hd hc) i, if_neg hnot, add_zero]
      exact if_congr ⟨fun h => ⟨hc, hlink.1, h⟩, fun h => h.2.2⟩ rfl rfl
    · rw [if_neg hlink] at hname
      rw [count_unnamed hN hname i, zero_add]
      apply if_congr _ rfl rfl
      constructor
      · rintro ⟨rfl, rfl⟩
        exact ⟨hc, hroot.2, htop⟩
      · rintro ⟨-, hl, rfl⟩
        have hcr : c = root := by
          by_contra hne
          exact hlink ⟨hl, hne⟩
        subst hcr
        exact ⟨rfl, htop⟩
  · have hnot : ¬ (c = root ∧ i = root) := by
      rintro ⟨rfl, -⟩
      exact hc hroot.1
    rw [if_neg hc, if_neg hnot, if_neg fun hand => hc hand.1]

end Up

end LinkGraph
