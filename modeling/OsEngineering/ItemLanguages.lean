import Mathlib.Computability.Language

/-! Languages of sequences of items. An item is a class of symbols, taken once or any number of
times. -/
namespace ItemLanguages

open Language Computability

variable {α : Type*}

/-- The words of one symbol of the class. -/
def single (p : Set α) : Language α := {w | ∃ a ∈ p, w = [a]}

structure Item (α : Type*) where
  symbols : Set α
  star : Bool

def Item.lang (i : Item α) : Language α := if i.star then (single i.symbols)∗ else single i.symbols

/-- The concatenations of words of the items, in their order. -/
def lang (items : List (Item α)) : Language α := (items.map Item.lang).prod

variable {p : Set α} {items : List (Item α)} {w : List α}

theorem mem_single : w ∈ single p ↔ ∃ a ∈ p, w = [a] := Iff.rfl

/-- A word of a starred class is a word over the class. -/
theorem mem_star : w ∈ (single p)∗ ↔ ∀ a ∈ w, a ∈ p := by
  constructor
  · intro h a ha
    obtain ⟨L, rfl, hL⟩ := Language.mem_kstar.mp h
    obtain ⟨y, hy, hay⟩ := List.mem_flatten.mp ha
    obtain ⟨b, hb, rfl⟩ := mem_single.mp (hL y hy)
    rcases List.mem_singleton.mp hay
    exact hb
  · intro h
    refine Language.mem_kstar.mpr ⟨w.map fun a => [a], ?_, fun y hy => ?_⟩
    · exact (List.flatMap_singleton' w).symm.trans (List.flatMap_def ..)
    · obtain ⟨a, ha, rfl⟩ := List.mem_map.mp hy
      exact ⟨a, h a ha, rfl⟩

theorem mem_lang_one :
    w ∈ lang (⟨p, false⟩ :: items) ↔ ∃ a ∈ p, ∃ v ∈ lang items, w = a :: v := by
  change w ∈ single p * lang items ↔ _
  rw [Language.mem_mul]
  constructor
  · rintro ⟨u, ⟨a, ha, rfl⟩, v, hv, rfl⟩
    exact ⟨a, ha, v, hv, rfl⟩
  · rintro ⟨a, ha, v, hv, rfl⟩
    exact ⟨[a], ⟨a, ha, rfl⟩, v, hv, rfl⟩

theorem mem_lang_star :
    w ∈ lang (⟨p, true⟩ :: items) ↔ ∃ u v, (∀ a ∈ u, a ∈ p) ∧ v ∈ lang items ∧ w = u ++ v := by
  change w ∈ (single p)∗ * lang items ↔ _
  rw [Language.mem_mul]
  constructor
  · rintro ⟨u, hu, v, hv, rfl⟩
    exact ⟨u, v, mem_star.mp hu, hv, rfl⟩
  · rintro ⟨u, v, hu, hv, rfl⟩
    exact ⟨u, mem_star.mpr hu, v, hv, rfl⟩

end ItemLanguages
