import Mathlib.Algebra.BigOperators.Group.List.Basic
import Mathlib.Algebra.BigOperators.Ring.List
import Mathlib.Algebra.Order.BigOperators.Group.List
import Mathlib.Algebra.Order.Field.Basic

/-!
# Weighted means

The mean of a list of values, each with a weight. It does not depend on the order of the list, it
does not see what has no weight, and it lies between any two bounds of the values.
-/

namespace WeightedMean

variable {α K : Type*} [Field K]

/-- The weights. -/
def total (weight : α → K) (as : List α) : K := (as.map weight).sum

/-- The values, each as often as its weight says. -/
def weighted (weight value : α → K) (as : List α) : K := (as.map fun a => weight a * value a).sum

variable {weight value : α → K} {as bs : List α}

theorem total_perm (h : as.Perm bs) : total weight as = total weight bs := (h.map weight).sum_eq

theorem weighted_perm (h : as.Perm bs) : weighted weight value as = weighted weight value bs :=
  (h.map _).sum_eq

/-- What has no weight adds nothing. -/
theorem total_append (h : ∀ b ∈ bs, weight b = 0) :
    total weight (as ++ bs) = total weight as := by
  have hzero : (bs.map weight).sum = 0 := by
    apply List.sum_eq_zero
    intro x hx
    obtain ⟨b, hb, rfl⟩ := List.mem_map.mp hx
    exact h b hb
  rw [total, List.map_append, List.sum_append, hzero, add_zero]
  rfl

theorem weighted_append (h : ∀ b ∈ bs, weight b = 0) :
    weighted weight value (as ++ bs) = weighted weight value as := by
  have hzero : (bs.map fun b => weight b * value b).sum = 0 := by
    apply List.sum_eq_zero
    intro x hx
    obtain ⟨b, hb, rfl⟩ := List.mem_map.mp hx
    rw [h b hb, zero_mul]
  rw [weighted, List.map_append, List.sum_append, hzero, add_zero]
  rfl

/-- A loop that adds up both. -/
theorem foldl_eq (weight value : α → K) (as : List α) (num den : K) : as.foldl
    (fun acc a => (acc.1 + weight a * value a, acc.2 + weight a)) (num, den) =
      (num + weighted weight value as, den + total weight as) := by
  induction as generalizing num den with
  | nil => simp [weighted, total]
  | cons a as ih =>
      rw [List.foldl_cons, ih]
      simp only [weighted, total, List.map_cons, List.sum_cons, add_assoc]

section Bounds

variable [LinearOrder K] [IsStrictOrderedRing K] {low high : K}

theorem le_weighted (hweight : ∀ a ∈ as, 0 ≤ weight a) (hvalue : ∀ a ∈ as, low ≤ value a) :
    low * total weight as ≤ weighted weight value as := by
  rw [total, mul_comm, ← List.sum_map_mul_right, weighted]
  apply List.sum_le_sum
  intro a ha
  exact mul_le_mul_of_nonneg_left (hvalue a ha) (hweight a ha)

theorem weighted_le (hweight : ∀ a ∈ as, 0 ≤ weight a) (hvalue : ∀ a ∈ as, value a ≤ high) :
    weighted weight value as ≤ high * total weight as := by
  rw [total, mul_comm, ← List.sum_map_mul_right, weighted]
  apply List.sum_le_sum
  intro a ha
  exact mul_le_mul_of_nonneg_left (hvalue a ha) (hweight a ha)

/-- A mean lies between the bounds of what it is a mean of. -/
theorem mean_mem (hweight : ∀ a ∈ as, 0 ≤ weight a)
    (hvalue : ∀ a ∈ as, low ≤ value a ∧ value a ≤ high) (hpos : 0 < total weight as) :
    low ≤ weighted weight value as / total weight as ∧
      weighted weight value as / total weight as ≤ high := by
  rw [le_div_iff₀ hpos, div_le_iff₀ hpos]
  exact ⟨le_weighted hweight fun a ha => (hvalue a ha).1,
    weighted_le hweight fun a ha => (hvalue a ha).2⟩

end Bounds

end WeightedMean
