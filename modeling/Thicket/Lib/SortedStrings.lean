import Thicket.Lib.Serde
import Thicket.Lib.Utf8
import Mathlib.Data.List.Dedup
import Mathlib.Data.List.Nodup

/-!
# Sorted collections of strings

A sorted map or set lists its keys from the smallest to the largest, and sorting what it was built
from gives the same list. It does not matter whether strings are compared by character or by byte.
-/

namespace Serde

open Cbor (utf8)

theorem compare_eq_lt {a b : String} : compare a b = .lt ↔ a < b :=
  compareOfLessAndEq_eq_lt

theorem BTreeSet.toList_sorted (set : BTreeSet String) :
    set.toList.Pairwise fun a b => a < b :=
  Std.ExtTreeSet.ordered_toList.imp compare_eq_lt.mp

theorem BTreeMap.toList_sorted {β : Type} (map : BTreeMap String β) :
    map.toList.Pairwise fun a b => a.1 < b.1 :=
  Std.ExtTreeMap.ordered_keys_toList.imp compare_eq_lt.mp

/-- The elements come in the order of their bytes. -/
theorem BTreeSet.toList_utf8_sorted (set : BTreeSet String) :
    set.toList.Pairwise fun a b => utf8 a < utf8 b :=
  set.toList_sorted.imp Utf8.utf8_lt_utf8.mpr

theorem BTreeMap.toList_utf8_sorted {β : Type} (map : BTreeMap String β) :
    map.toList.Pairwise fun a b => utf8 a.1 < utf8 b.1 :=
  map.toList_sorted.imp Utf8.utf8_lt_utf8.mpr

/-- Two lists that rise by a key and have the same elements are equal. -/
theorem eq_of_rising {β : Type} (key : β → String) {xs ys : List β}
    (hx : xs.Pairwise fun a b => key a < key b) (hy : ys.Pairwise fun a b => key a < key b)
    (hmem : ∀ a, a ∈ xs ↔ a ∈ ys) : xs = ys := by
  have hnodup {zs : List β} (hz : zs.Pairwise fun a b => key a < key b) : zs.Nodup := by
    apply hz.imp
    rintro a b hlt rfl
    exact String.lt_irrefl _ hlt
  have hperm : xs.Perm ys := (List.perm_ext_iff_of_nodup (hnodup hx) (hnodup hy)).mpr hmem
  refine hperm.eq_of_pairwise ?_ hx hy
  intro a b _ _ hab hba
  exact absurd hba (String.lt_asymm hab)

theorem toList_ofList_set (items : List String) :
    (Std.ExtTreeSet.ofList items : BTreeSet String).toList =
      items.dedup.mergeSort fun a b => decide (a ≤ b) := by
  have hsorted : (items.dedup.mergeSort fun a b => decide (a ≤ b)).Pairwise
      fun a b => decide (a ≤ b) = true := by
    apply List.pairwise_mergeSort
    · intro a b c hab hbc
      rw [decide_eq_true_eq] at hab hbc ⊢
      exact String.le_trans hab hbc
    · intro a b
      rw [Bool.or_eq_true, decide_eq_true_eq, decide_eq_true_eq]
      exact String.le_total a b
  have hnodup : (items.dedup.mergeSort fun a b => decide (a ≤ b)).Nodup :=
    (List.mergeSort_perm _ _).nodup_iff.mpr (List.nodup_dedup items)
  apply eq_of_rising id (BTreeSet.toList_sorted _)
  · apply (hsorted.and hnodup).imp
    rintro a b ⟨hle, hne⟩
    rw [decide_eq_true_eq] at hle
    exact String.not_le.mp fun hge => hne (String.le_antisymm hle hge)
  · intro a
    rw [Std.ExtTreeSet.mem_toList, Std.ExtTreeSet.mem_ofList, List.contains_iff_mem,
      (List.mergeSort_perm _ _).mem_iff, List.mem_dedup]

variable {β : Type} {entries : List (String × β)}

theorem mem_toList_ofList_map (h : (entries.map Prod.fst).Nodup) {e : String × β} :
    e ∈ (Std.ExtTreeMap.ofList entries : BTreeMap String β).toList ↔ e ∈ entries := by
  have hdistinct : entries.Pairwise fun a b => ¬compare a.1 b.1 = .eq := by
    apply (List.pairwise_map.mp h).imp
    intro a b hne heq
    exact hne (Std.LawfulEqCmp.eq_of_compare heq)
  have hget {k : String} {v : β} (hmem : (k, v) ∈ entries) :
      (Std.ExtTreeMap.ofList entries : BTreeMap String β)[k]? = some v :=
    Std.ExtTreeMap.getElem?_ofList_of_mem Std.ReflCmp.compare_self hdistinct hmem
  obtain ⟨k, v⟩ := e
  rw [Std.ExtTreeMap.mem_toList_iff_getElem?_eq_some]
  refine ⟨fun hsome => ?_, hget⟩
  by_cases hkey : k ∈ entries.map Prod.fst
  · obtain ⟨⟨k, v'⟩, hmem, rfl⟩ := List.mem_map.mp hkey
    obtain rfl : v = v' := Option.some.inj (hsome.symm.trans (hget hmem))
    exact hmem
  · have hcontains : (entries.map Prod.fst).contains k = false := by simpa using hkey
    rw [Std.ExtTreeMap.getElem?_ofList_of_contains_eq_false hcontains] at hsome
    cases hsome

/-- Entries with distinct keys that are sorted by an order that looks at the keys first. -/
theorem toList_ofList_map (h : (entries.map Prod.fst).Nodup) {sorted : List (String × β)}
    (hperm : sorted.Perm entries) (hsorted : sorted.Pairwise fun a b => a.1 ≤ b.1) :
    (Std.ExtTreeMap.ofList entries : BTreeMap String β).toList = sorted := by
  have hkeys : sorted.Pairwise fun a b => a.1 ≠ b.1 :=
    List.pairwise_map.mp ((hperm.map Prod.fst).nodup_iff.mpr h)
  apply eq_of_rising Prod.fst (BTreeMap.toList_sorted _)
  · apply (hsorted.and hkeys).imp
    rintro a b ⟨hle, hne⟩
    exact String.not_le.mp fun hge => hne (String.le_antisymm hle hge)
  · intro e
    rw [mem_toList_ofList_map h, hperm.mem_iff]

end Serde
