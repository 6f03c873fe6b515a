import Mathlib.Data.List.Basic
import Mathlib.Algebra.Order.Group.Nat
import Mathlib.Tactic.Common

/-!
# Chunks of a list

A list cut into pieces of a given size, the last one as long as what is left. A list that is not empty
has no empty piece, so the first pieces join to as much as another number of them only if they are as
many.
-/

universe u

variable {α : Type u}

/-- `l.chunks(size)`, and `[l[i : i + size] for i in range(0, len(l), size)]`. -/
def chunks (size : Nat) (l : List α) : List (List α) :=
  (List.range ((l.length + size - 1) / size)).map fun i => (l.drop (size * i)).take size

namespace Chunks

variable {size : Nat} {l : List α}

theorem length_chunks (size : Nat) (l : List α) :
    (chunks size l).length = (l.length + size - 1) / size := by
  simp [chunks]

theorem chunks_nil (hsize : 0 < size) : chunks size ([] : List α) = [] := by
  have hcount : ([].length (α := α) + size - 1) / size = 0 := by
    rw [List.length_nil]
    exact Nat.div_eq_of_lt (by omega)
  rw [chunks, hcount]
  rfl

/-- The first piece, and the pieces of the rest. -/
theorem chunks_of_ne_nil (hsize : 0 < size) (hl : l ≠ []) :
    chunks size l = l.take size :: chunks size (l.drop size) := by
  have hpos : 0 < l.length := List.length_pos_iff.mpr hl
  have hcount : (l.length + size - 1) / size =
      ((l.drop size).length + size - 1) / size + 1 := by
    rw [List.length_drop]
    by_cases hle : l.length ≤ size
    · have hone : (l.length + size - 1) / size = 1 := by
        rw [Nat.div_eq_iff hsize]
        omega
      have hzero : (l.length - size + size - 1) / size = 0 := by
        rw [Nat.div_eq_of_lt]
        omega
      rw [hone, hzero]
    · have heq : l.length + size - 1 = (l.length - size + size - 1) + size := by omega
      rw [heq, Nat.add_div_right _ hsize]
  rw [chunks, hcount, List.range_succ_eq_map, List.map_cons, List.map_map]
  congr 1
  rw [chunks]
  apply List.map_congr_left
  intro i _
  change (l.drop (size * (i + 1))).take size = ((l.drop size).drop (size * i)).take size
  rw [List.drop_drop]
  congr 2
  rw [Nat.mul_add, Nat.mul_one, Nat.add_comm]

/-- Strong induction by taking off one piece at a time. -/
theorem chunk_induction (hsize : 0 < size) {motive : List α → Prop} (hnil : motive [])
    (hstep : ∀ l, l ≠ [] → motive (l.drop size) → motive l) (l : List α) : motive l := by
  induction hn : l.length using Nat.strong_induction_on generalizing l with
  | _ n ih =>
      by_cases hl : l = []
      · rw [hl]
        exact hnil
      · have hpos : 0 < l.length := List.length_pos_iff.mpr hl
        apply hstep l hl
        apply ih (l.drop size).length _ _ rfl
        rw [List.length_drop]
        omega

theorem flatten_chunks (hsize : 0 < size) (l : List α) : (chunks size l).flatten = l := by
  induction l using chunk_induction hsize with
  | hnil =>
      rw [chunks_nil hsize]
      rfl
  | hstep l hl ih =>
      rw [chunks_of_ne_nil hsize hl, List.flatten_cons, ih, List.take_append_drop]

theorem length_le_of_mem {chunk : List α} (h : chunk ∈ chunks size l) : chunk.length ≤ size := by
  obtain ⟨i, -, rfl⟩ := List.mem_map.mp h
  rw [List.length_take]
  exact Nat.min_le_left _ _

theorem ne_nil_of_mem (hsize : 0 < size) {chunk : List α} (h : chunk ∈ chunks size l) :
    chunk ≠ [] := by
  induction l using chunk_induction hsize with
  | hnil =>
      rw [chunks_nil hsize] at h
      cases h
  | hstep l hl ih =>
      rw [chunks_of_ne_nil hsize hl] at h
      rcases List.mem_cons.mp h with rfl | h
      · rw [ne_eq, List.take_eq_nil_iff, not_or]
        exact ⟨by omega, hl⟩
      · exact ih h

/-! ### Joining some of the pieces -/

theorem length_flatten_take_lt {pieces : List (List α)} (hne : ∀ piece ∈ pieces, piece ≠ [])
    {m n : Nat} (hlt : m < n) (hn : n ≤ pieces.length) :
    (pieces.take m).flatten.length < (pieces.take n).flatten.length := by
  have hsplit : pieces.take n = pieces.take m ++ (pieces.take n).drop m := by
    have htake : pieces.take m = (pieces.take n).take m := by
      rw [List.take_take, Nat.min_eq_left (by omega)]
    rw [htake, List.take_append_drop]
  have hrest : ((pieces.take n).drop m).flatten ≠ [] := by
    have hlen : 0 < ((pieces.take n).drop m).length := by
      rw [List.length_drop, List.length_take]
      omega
    obtain ⟨piece, hpiece⟩ := List.exists_mem_of_length_pos hlen
    intro hnil
    exact hne piece (List.mem_of_mem_take (List.mem_of_mem_drop hpiece))
      (List.flatten_eq_nil_iff.mp hnil piece hpiece)
  have hpos := List.length_pos_iff.mpr hrest
  rw [hsplit, List.flatten_append, List.length_append]
  omega

/-- Non-empty pieces join to the same list only if they are as many. -/
theorem eq_of_flatten_take_eq {pieces : List (List α)} (hne : ∀ piece ∈ pieces, piece ≠ [])
    {m n : Nat} (hm : m ≤ pieces.length) (hn : n ≤ pieces.length)
    (heq : (pieces.take m).flatten = (pieces.take n).flatten) : m = n := by
  have hlen := congrArg List.length heq
  rcases Nat.lt_trichotomy m n with hlt | heq | hlt
  · have := length_flatten_take_lt hne hlt hn
    omega
  · exact heq
  · have := length_flatten_take_lt hne hlt hm
    omega

end Chunks
