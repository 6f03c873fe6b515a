import Thicket.Lib.OrderedDict
import Mathlib.Algebra.BigOperators.Group.List.Basic
import Mathlib.Tactic.Abel

/-!
# Totals by key

Amounts are added up under their keys, in a dictionary. Under a key is then the sum of its amounts,
whatever their order, and the totals of all keys add up to all that was added.
-/

namespace Tally

variable {κ M : Type} [DecidableEq κ] [AddCommMonoid M]

def add (d : OrderedDict κ M) (e : κ × M) : OrderedDict κ M :=
  d.put e.1 ((d.get? e.1).getD 0 + e.2)

/-- The sum of the amounts of a key. -/
def total (entries : List (κ × M)) (k : κ) : M :=
  ((entries.filter fun e => e.1 = k).map Prod.snd).sum

def sum (d : OrderedDict κ M) : M := (d.entries.map Prod.snd).sum

variable {entries entries' : List (κ × M)} {d : OrderedDict κ M} {k : κ}

theorem total_cons (e : κ × M) (entries : List (κ × M)) (k : κ) :
    total (e :: entries) k = (if e.1 = k then e.2 else 0) + total entries k := by
  rw [total, List.filter_cons]
  by_cases hk : e.1 = k
  · simp [hk, total]
  · simp [hk, total]

theorem total_perm (h : entries.Perm entries') (k : κ) : total entries k = total entries' k :=
  ((h.filter _).map _).sum_eq

theorem total_of_not_mem (h : k ∉ entries.map Prod.fst) : total entries k = 0 := by
  rw [total, List.filter_eq_nil_iff.mpr]
  · rfl
  · intro e he hkey
    exact h (List.mem_map.mpr ⟨e, he, of_decide_eq_true hkey⟩)

theorem get?_add (d : OrderedDict κ M) (e : κ × M) (k : κ) :
    (add d e).get? k = if k = e.1 then some ((d.get? k).getD 0 + e.2) else d.get? k := by
  rw [add, OrderedDict.get?_put]
  by_cases hk : k = e.1
  · rw [if_pos hk, if_pos hk, hk]
  · rw [if_neg hk, if_neg hk]

theorem get?_foldl_add (entries : List (κ × M)) (d : OrderedDict κ M) (k : κ) :
    (entries.foldl add d).get? k =
      if k ∈ entries.map Prod.fst then some ((d.get? k).getD 0 + total entries k)
      else d.get? k := by
  induction entries generalizing d with
  | nil => rfl
  | cons e entries ih =>
      rw [List.foldl_cons, ih, get?_add, total_cons]
      by_cases hk : k = e.1
      · subst hk
        have hmem : e.1 ∈ (e :: entries).map Prod.fst := List.mem_cons_self
        rw [if_pos rfl, if_pos rfl, if_pos hmem, Option.getD_some, add_assoc]
        split_ifs with hmem
        · rfl
        · rw [total_of_not_mem hmem, add_zero]
      · rw [if_neg hk, if_neg (Ne.symm hk), zero_add]
        simp only [List.map_cons, List.mem_cons, hk, false_or]

theorem get?_tally (entries : List (κ × M)) (k : κ) : (entries.foldl add .empty).get? k =
    if k ∈ entries.map Prod.fst then some (total entries k) else none := by
  rw [get?_foldl_add]
  congr 2
  exact zero_add _

omit [AddCommMonoid M] in
theorem lookup_of_not_mem {entries : List (κ × M)} (h : k ∉ entries.map Prod.fst) (m : M) :
    entries.map (OrderedDict.setEntry k m) = entries := by
  apply (List.map_congr_left _).trans (List.map_id entries)
  intro e he
  exact if_neg fun hk => h (List.mem_map.mpr ⟨e, he, hk⟩)

theorem sum_setEntry (hnodup : (entries.map Prod.fst).Nodup) (hk : k ∈ entries.map Prod.fst)
    (m : M) : ((entries.map (OrderedDict.setEntry k ((entries.lookup k).getD 0 + m))).map
      Prod.snd).sum = (entries.map Prod.snd).sum + m := by
  induction entries with
  | nil => cases hk
  | cons e entries ih =>
      obtain ⟨k', m'⟩ := e
      obtain ⟨hfresh, hnodup⟩ := List.nodup_cons.mp hnodup
      by_cases hk' : k' = k
      · subst hk'
        rw [List.lookup_cons_self, List.map_cons, lookup_of_not_mem hfresh]
        simp only [OrderedDict.setEntry, if_true, List.map_cons, List.sum_cons, Option.getD_some]
        abel
      · have hne : (k == k') = false := beq_eq_false_iff_ne.mpr (Ne.symm hk')
        have hmem : k ∈ entries.map Prod.fst := (List.mem_cons.mp hk).resolve_left (Ne.symm hk')
        have hrest := ih hnodup hmem
        rw [List.lookup_cons, hne]
        simp only [OrderedDict.setEntry, hk', if_false, List.map_cons, List.sum_cons] at hrest ⊢
        rw [hrest]
        abel

theorem sum_add (d : OrderedDict κ M) (e : κ × M) : sum (add d e) = sum d + e.2 := by
  rw [add, sum]
  by_cases hk : e.1 ∈ d.keys
  · rw [OrderedDict.put, dif_pos hk]
    exact sum_setEntry d.nodup hk e.2
  · have hnone := OrderedDict.get?_eq_none.mpr hk
    rw [OrderedDict.entries_put_fresh _ hnone, hnone, List.map_append, List.sum_append, sum]
    simp

theorem sum_foldl_add (entries : List (κ × M)) (d : OrderedDict κ M) :
    sum (entries.foldl add d) = sum d + (entries.map Prod.snd).sum := by
  induction entries generalizing d with
  | nil => exact (add_zero _).symm
  | cons e entries ih =>
      rw [List.foldl_cons, ih, sum_add, List.map_cons, List.sum_cons, add_assoc]

/-- **The totals add up.** -/
theorem sum_tally (entries : List (κ × M)) :
    sum (entries.foldl add .empty) = (entries.map Prod.snd).sum := by
  rw [sum_foldl_add]
  exact zero_add _

end Tally
