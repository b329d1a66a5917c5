import Mathlib.Logic.Basic

/-! Slots that own resources. A resource has at most one owner, and it is marked as used
exactly while a slot owns it or the code that took it still holds it. -/
namespace ResourceLedger

structure Exact {S B : Type*} (refs : S → B → Prop) (held used : B → Prop) : Prop where
  owner : ∀ x y b, refs x b → refs y b → x = y
  single : ∀ x b c, refs x b → refs x c → b = c
  apart : ∀ x b, refs x b → ¬ held b
  used_iff : ∀ b, used b ↔ (∃ x, refs x b) ∨ held b

namespace Exact

variable {S B : Type*} {refs refs' : S → B → Prop} {held held' used used' : B → Prop}

theorem congr (h : Exact refs held used) (hr : ∀ x b, refs' x b ↔ refs x b)
    (hh : ∀ b, held' b ↔ held b) (hu : ∀ b, used' b ↔ used b) : Exact refs' held' used' where
  owner := by
    intro x y b hx hy
    exact h.owner x y b ((hr x b).mp hx) ((hr y b).mp hy)
  single := by
    intro x b c hb hc
    exact h.single x b c ((hr x b).mp hb) ((hr x c).mp hc)
  apart := by
    intro x b hx hb
    exact h.apart x b ((hr x b).mp hx) ((hh b).mp hb)
  used_iff := by
    intro b
    rw [hu, h.used_iff, hh]
    simp only [hr]

theorem used_of_refs (h : Exact refs held used) {x : S} {b : B} (hx : refs x b) : used b :=
  (h.used_iff b).mpr (Or.inl ⟨x, hx⟩)

theorem not_refs (h : Exact refs held used) {b : B} (hb : ¬ used b) (x : S) : ¬ refs x b :=
  fun hx => hb (h.used_of_refs hx)

/-- An unused resource is marked and held. -/
theorem take (h : Exact refs held used) {b : B} (hb : ¬ used b) :
    Exact refs (fun c => c = b ∨ held c) (fun c => c = b ∨ used c) where
  owner := h.owner
  single := h.single
  apart := by
    rintro x c hx (rfl | hc)
    · exact h.not_refs hb x hx
    · exact h.apart x c hx hc
  used_iff := by
    intro c
    rw [h.used_iff]
    exact or_left_comm

/-- A held resource goes into an empty slot. -/
theorem assign (h : Exact refs held used) {x : S} {b : B} (hb : held b)
    (hx : ∀ c, ¬ refs x c) :
    Exact (fun y c => (y = x ∧ c = b) ∨ refs y c) (fun c => c ≠ b ∧ held c) used where
  owner := by
    rintro y z c (⟨rfl, rfl⟩ | hy) (⟨rfl, hc⟩ | hz)
    · rfl
    · exact absurd hb (h.apart z _ hz)
    · exact absurd hb (hc ▸ h.apart y c hy)
    · exact h.owner y z c hy hz
  single := by
    rintro y c d (⟨rfl, rfl⟩ | hy) (⟨hyx, rfl⟩ | hz)
    · rfl
    · exact absurd hz (hx d)
    · exact absurd (hyx ▸ hy) (hx c)
    · exact h.single y c d hy hz
  apart := by
    rintro y c (⟨rfl, rfl⟩ | hy) ⟨hc, hheld⟩
    · exact hc rfl
    · exact h.apart y c hy hheld
  used_iff := by
    intro c
    rw [h.used_iff]
    constructor
    · rintro (⟨y, hy⟩ | hc)
      · exact Or.inl ⟨y, Or.inr hy⟩
      · by_cases hcb : c = b
        · exact Or.inl ⟨x, Or.inl ⟨rfl, hcb⟩⟩
        · exact Or.inr ⟨hcb, hc⟩
    · rintro (⟨y, ⟨-, rfl⟩ | hy⟩ | ⟨-, hc⟩)
      · exact Or.inr hb
      · exact Or.inl ⟨y, hy⟩
      · exact Or.inr hc

/-- The resource of a slot is unmarked, and the slot no longer counts. -/
theorem free (h : Exact refs held used) {x : S} {b : B} (hx : refs x b) :
    Exact (fun y c => y ≠ x ∧ refs y c) held (fun c => c ≠ b ∧ used c) where
  owner := by
    rintro y z c ⟨-, hy⟩ ⟨-, hz⟩
    exact h.owner y z c hy hz
  single := by
    rintro y c d ⟨-, hc⟩ ⟨-, hd⟩
    exact h.single y c d hc hd
  apart := by
    rintro y c ⟨-, hy⟩
    exact h.apart y c hy
  used_iff := by
    intro c
    rw [h.used_iff]
    constructor
    · rintro ⟨hcb, ⟨y, hy⟩ | hc⟩
      · refine Or.inl ⟨y, fun hyx => hcb ?_, hy⟩
        subst hyx
        exact h.single y c b hy hx
      · exact Or.inr hc
    · rintro (⟨y, hyx, hy⟩ | hc)
      · refine ⟨fun hcb => hyx ?_, Or.inl ⟨y, hy⟩⟩
        subst hcb
        exact h.owner y x c hy hx
      · refine ⟨fun hcb => ?_, Or.inr hc⟩
        subst hcb
        exact h.apart x c hx hc

end Exact

end ResourceLedger
