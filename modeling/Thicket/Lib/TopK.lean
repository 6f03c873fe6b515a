import Mathlib.Data.List.Nodup
import Mathlib.Order.Bounds.Basic
import Mathlib.Order.MinMax

/-!
# The best `k`

Sorting candidates by falling score and keeping the first `k` selects the best `k` of them. Which of
several equally scored candidates are kept depends on the order they came in, but their scores do
not: any two selections from the same candidates have the same scores in the same order.
-/

namespace TopK

variable {α σ : Type} [LinearOrder σ] (score : α → σ)

/-- `best` are `k` of the candidates, or all of them, best first, and none that was left out is
better. -/
structure Selects (candidates : List α) (k : Nat) (best : List α) : Prop where
  sorted : best.Pairwise fun a b => score b ≤ score a
  bounds : ∃ rest, (best ++ rest).Perm candidates ∧ ∀ a ∈ best, ∀ b ∈ rest, score b ≤ score a
  length : best.length = min k candidates.length

def sortByScore (candidates : List α) : List α :=
  candidates.mergeSort fun a b => decide (score b ≤ score a)

theorem score_trans (a b c : α) (hab : decide (score b ≤ score a) = true)
    (hbc : decide (score c ≤ score b) = true) : decide (score c ≤ score a) = true := by
  rw [decide_eq_true_eq] at hab hbc ⊢
  exact le_trans hbc hab

theorem score_total (a b : α) :
    (decide (score b ≤ score a) || decide (score a ≤ score b)) = true := by
  rw [Bool.or_eq_true, decide_eq_true_eq, decide_eq_true_eq]
  exact le_total _ _

theorem sortByScore_sorted (candidates : List α) :
    (sortByScore score candidates).Pairwise fun a b => score b ≤ score a := by
  have hsorted : (sortByScore score candidates).Pairwise fun a b => decide (score b ≤ score a) :=
    List.pairwise_mergeSort (score_trans score) (score_total score) _
  simpa using hsorted

theorem selects_take (candidates : List α) (k : Nat) :
    Selects score candidates k ((sortByScore score candidates).take k) := by
  have hsorted := sortByScore_sorted score candidates
  have hsplit := List.take_append_drop k (sortByScore score candidates)
  rw [← hsplit, List.pairwise_append] at hsorted
  obtain ⟨hbest, -, hcross⟩ := hsorted
  refine ⟨hbest, ⟨_, ?_, hcross⟩, ?_⟩
  · rw [hsplit]
    exact List.mergeSort_perm _ _
  · rw [List.length_take, sortByScore, List.length_mergeSort]

omit score in
/-- A fold of `max` is the best of its scores and of the one it starts from. -/
theorem isGreatest_foldl_max (scores : List σ) (start : σ) :
    IsGreatest (insert start {s | s ∈ scores}) (scores.foldl max start) := by
  induction scores generalizing start with
  | nil => simp [IsGreatest, upperBounds]
  | cons s scores ih =>
      obtain ⟨hmem, hupper⟩ := ih (max start s)
      have hstart : max start s ≤ scores.foldl max (max start s) := hupper (Set.mem_insert _ _)
      refine ⟨?_, ?_⟩
      · rcases hmem with heq | hmem
        · rw [List.foldl_cons, heq]
          rcases max_choice start s with hmax | hmax <;> simp [hmax]
        · exact .inr (List.mem_cons_of_mem _ hmem)
      · intro x hx
        rcases hx with rfl | hx
        · exact (le_max_left _ _).trans hstart
        · rcases List.mem_cons.mp hx with rfl | hx
          · exact (le_max_right _ _).trans hstart
          · exact hupper (.inr hx)

variable {score} {candidates candidates' : List α} {k : Nat} {best best' : List α} {a b : α}

/-- Of two candidates that are equally good the one that comes first is selected first. -/
theorem mem_take_of_before (hnodup : candidates.Nodup) (hbefore : [a, b].Sublist candidates)
    (hle : score b ≤ score a) (hb : b ∈ (sortByScore score candidates).take k) :
    a ∈ (sortByScore score candidates).take k := by
  have hsorted : [a, b].Sublist (sortByScore score candidates) :=
    List.pair_sublist_mergeSort (score_trans score) (score_total score) (decide_eq_true hle) hbefore
  have hperm : (sortByScore score candidates).Perm candidates := List.mergeSort_perm _ _
  have hdisjoint := (hperm.nodup_iff.mpr hnodup)
  rw [← List.take_append_drop k (sortByScore score candidates)] at hsorted hdisjoint
  obtain ⟨front, rear, hsplit, hfront, hrear⟩ := List.sublist_append_iff.mp hsorted
  cases front with
  | nil =>
      rw [List.nil_append] at hsplit
      have hin : b ∈ (sortByScore score candidates).drop k := by
        apply hrear.subset
        rw [← hsplit]
        simp
      exact absurd hin (List.disjoint_of_nodup_append hdisjoint hb)
  | cons c front =>
      rw [List.cons_append, List.cons.injEq] at hsplit
      rw [hsplit.1]
      exact hfront.subset List.mem_cons_self

theorem Selects.of_perm (h : Selects score candidates k best)
    (hperm : candidates.Perm candidates') :
    Selects score candidates' k best := by
  obtain ⟨rest, hrest, hcross⟩ := h.bounds
  refine ⟨h.sorted, ⟨rest, hrest.trans hperm, hcross⟩, ?_⟩
  rw [← hperm.length_eq]
  exact h.length

theorem Selects.mem (h : Selects score candidates k best) (ha : a ∈ best) : a ∈ candidates := by
  obtain ⟨rest, hrest, -⟩ := h.bounds
  exact hrest.mem_iff.mp (List.mem_append_left _ ha)

theorem Selects.le_of_not_mem (h : Selects score candidates k best) (ha : a ∈ best)
    (hb : b ∈ candidates) (hout : b ∉ best) : score b ≤ score a := by
  obtain ⟨rest, hrest, hcross⟩ := h.bounds
  have hmem := List.mem_append.mp (hrest.mem_iff.mpr hb)
  exact hcross a ha b (hmem.resolve_left hout)

theorem Selects.nodup (h : Selects score candidates k best) (hnodup : candidates.Nodup) :
    best.Nodup := by
  obtain ⟨rest, hrest, -⟩ := h.bounds
  exact (hrest.nodup_iff.mpr hnodup).of_append_left

/-- What is left out of the best `k` leaves `k` of them. -/
theorem Selects.length_of_not_mem (h : Selects score candidates k best) (ha : a ∈ candidates)
    (hout : a ∉ best) : best.length = k := by
  obtain ⟨rest, hrest, -⟩ := h.bounds
  have hmem := List.mem_append.mp (hrest.mem_iff.mpr ha)
  have hpos : 0 < rest.length := List.length_pos_of_mem (hmem.resolve_left hout)
  have hlength := hrest.length_eq
  have hbound := h.length
  rw [List.length_append] at hlength
  omega

/-- A selection of what is scored alike. -/
theorem Selects.map {β : Type} {score' : β → σ} (h : Selects score candidates k best) (f : α → β)
    (hscore : ∀ a ∈ candidates, score' (f a) = score a) :
    Selects score' (candidates.map f) k (best.map f) := by
  obtain ⟨rest, hrest, hcross⟩ := h.bounds
  refine ⟨?_, ⟨rest.map f, ?_, ?_⟩, ?_⟩
  · rw [List.pairwise_map]
    apply List.Pairwise.imp_of_mem _ h.sorted
    intro a b ha hb hle
    rwa [hscore a (h.mem ha), hscore b (h.mem hb)]
  · rw [← List.map_append]
    exact hrest.map f
  · intro fa hfa fb hfb
    obtain ⟨a, ha, rfl⟩ := List.mem_map.mp hfa
    obtain ⟨b, hb, rfl⟩ := List.mem_map.mp hfb
    rw [hscore a (h.mem ha), hscore b (hrest.mem_iff.mp (List.mem_append_right _ hb))]
    exact hcross a ha b hb
  · rw [List.length_map, List.length_map]
    exact h.length

/-- A selection starts a list of all candidates sorted by score. -/
theorem Selects.exists_sorted (h : Selects score candidates k best) : ∃ all : List α,
    all.Perm candidates ∧ all.Pairwise (fun a b => score b ≤ score a) ∧ all.take k = best := by
  obtain ⟨rest, hrest, hcross⟩ := h.bounds
  have hperm : (sortByScore score rest).Perm rest := List.mergeSort_perm _ _
  refine ⟨best ++ sortByScore score rest, ?_, ?_, ?_⟩
  · exact (List.Perm.append_left best hperm).trans hrest
  · rw [List.pairwise_append]
    refine ⟨h.sorted, sortByScore_sorted score rest, ?_⟩
    intro a ha b hb
    exact hcross a ha b (hperm.mem_iff.mp hb)
  · have hlen := h.length
    have hall := hrest.length_eq
    rw [List.length_append] at hall
    by_cases hk : k ≤ best.length
    · rw [List.take_append_of_le_length hk, List.take_of_length_le (by omega)]
    · have hnil : rest = [] := List.eq_nil_of_length_eq_zero (by omega)
      rw [hnil, sortByScore, List.mergeSort_nil, List.append_nil, List.take_of_length_le (by omega)]

/-- **Same scores.** Two selections from the same candidates differ only in which of equally scored
candidates they hold and in their order. -/
theorem Selects.scores_eq (h : Selects score candidates k best)
    (h' : Selects score candidates k best') : best.map score = best'.map score := by
  obtain ⟨all, hall, hsorted, rfl⟩ := h.exists_sorted
  obtain ⟨all', hall', hsorted', rfl⟩ := h'.exists_sorted
  have hperm : (all.map score).Perm (all'.map score) := (hall.trans hall'.symm).map score
  have heq : all.map score = all'.map score := by
    have hantisymm : ∀ a b : σ, a ∈ all.map score → b ∈ all'.map score → b ≤ a → a ≤ b → a = b :=
      fun a b _ _ hba hab => le_antisymm hab hba
    exact List.Perm.eq_of_pairwise hantisymm (List.pairwise_map.mpr hsorted)
      (List.pairwise_map.mpr hsorted') hperm
  rw [List.map_take, List.map_take, heq]

end TopK
