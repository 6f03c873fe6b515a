import Mathlib.Tactic.Common

/-!
# Checking the first match

A search that picks the first item of a key and then checks it, where any item of the key would do.
What it misses are the items that are shadowed by an earlier one.
-/

namespace FirstMatch

variable {α : Type*} (matching : α → Bool) (good : α → Prop)

/-- The first match is not good, and a later one is. -/
def Shadowed (items : List α) : Prop :=
  ∃ front item rear, items = front ++ item :: rear ∧ (∀ a ∈ front, matching a = false) ∧
    matching item = true ∧ ¬good item ∧ ∃ a ∈ rear, matching a = true ∧ good a

variable {matching good} {items : List α}

theorem exists_find?_eq_some (h : ∃ a ∈ items, matching a = true) :
    ∃ item, items.find? matching = some item := by
  obtain ⟨a, ha, hmatch⟩ := h
  exact Option.isSome_iff_exists.mp (List.find?_isSome.mpr ⟨a, ha, hmatch⟩)

theorem find?_eq_some {item : α} : items.find? matching = some item ↔
    matching item = true ∧ ∃ front rear, items = front ++ item :: rear ∧
      ∀ a ∈ front, matching a = false := by
  simp only [List.find?_eq_some_iff_append, Bool.not_eq_eq_eq_not, Bool.not_true]

/-- The check of the first match passes where some match is good and none is shadowed. -/
theorem first_good_iff : (∃ item, items.find? matching = some item ∧ good item) ↔
    (∃ a ∈ items, matching a = true ∧ good a) ∧ ¬Shadowed matching good items := by
  constructor
  · intro ⟨item, hfind, hgood⟩
    refine ⟨⟨item, List.mem_of_find?_eq_some hfind, List.find?_some hfind, hgood⟩, ?_⟩
    intro ⟨front, first, rear, hitems, hfront, hfirst, hbad, _⟩
    have hsame : items.find? matching = some first :=
      find?_eq_some.mpr ⟨hfirst, front, rear, hitems, hfront⟩
    obtain rfl := Option.some.inj (hfind.symm.trans hsame)
    exact hbad hgood
  · intro ⟨⟨a, ha, hmatch, hgood⟩, hshadowed⟩
    obtain ⟨item, hfind⟩ := exists_find?_eq_some ⟨a, ha, hmatch⟩
    refine ⟨item, hfind, ?_⟩
    by_contra hbad
    obtain ⟨hitem, front, rear, rfl, hfront⟩ := find?_eq_some.mp hfind
    refine hshadowed ⟨front, item, rear, rfl, hfront, hitem, hbad, a, ?_, hmatch, hgood⟩
    -- the good match is neither before the first one nor the first one itself
    cases List.mem_append.mp ha with
    | inl hbefore => exact absurd ((hfront a hbefore).symm.trans hmatch) nofun
    | inr hafter =>
        cases List.mem_cons.mp hafter with
        | inl hsame => exact absurd (hsame ▸ hgood) hbad
        | inr hrear => exact hrear

end FirstMatch
