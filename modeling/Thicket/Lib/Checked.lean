import Mathlib.Tactic.NormNum
import Thicket.Lib.Raising

/-!
# Code that can panic

A Rust function that returns a `Result` stops early with an error or by a panic. A sum that does not
fit a `usize` panics, and so does an index outside of what is indexed. What there is to index is
shorter than `2 ^ 63`, so a sum of a position in it and a small number fits.
-/

namespace Checked

variable {α ε : Type}

/-- How a function stops without a value. -/
inductive Stop (ε : Type) where
  | error (e : ε)
  | panic
  deriving DecidableEq

/-- `&[T]`, of at most `isize::MAX` elements. -/
abbrev Slice (α : Type) := { xs : List α // xs.length < 2 ^ 63 }

/-- `if c { return Err(e) }` -/
def stopIf (c : Prop) [Decidable c] (e : ε) : Except (Stop ε) Unit :=
  if c then .error (.error e) else .ok ()

/-- `a + b` -/
def add (a b : Nat) : Except (Stop ε) Nat := if a + b < 2 ^ 64 then .ok (a + b) else .error .panic

/-- `&xs[start..stop]` -/
def slice (xs : List α) (start stop : Nat) : Except (Stop ε) (List α) :=
  if start ≤ stop ∧ stop ≤ xs.length then .ok (xs.extract start stop) else .error .panic

/-- `xs.try_into().unwrap()`, for an array of `n` elements. -/
def toArray (n : Nat) (xs : List α) : Except (Stop ε) (Vector α n) :=
  if h : xs.length = n then .ok ⟨xs.toArray, h⟩ else .error .panic

/-! ### What does not panic -/

variable {xs : List α} {a b start stop n : Nat}

theorem add_ok (h : a + b < 2 ^ 64) : (add a b : Except (Stop ε) Nat) = .ok (a + b) := if_pos h

theorem slice_ok (hstart : start ≤ stop) (hstop : stop ≤ xs.length) :
    (slice xs start stop : Except (Stop ε) (List α)) = .ok (xs.extract start stop) :=
  if_pos ⟨hstart, hstop⟩

theorem toArray_ok (h : xs.length = n) :
    (toArray n xs : Except (Stop ε) (Vector α n)) = .ok ⟨xs.toArray, h⟩ := dif_pos h

/-! ### What a slice is -/

theorem length_extract (hstop : stop ≤ xs.length) :
    (xs.extract start stop).length = stop - start := by
  rw [List.extract_eq_take_drop, List.length_take, List.length_drop]
  omega

theorem drop_eq_extract_append (hstart : start ≤ stop) :
    xs.drop start = xs.extract start stop ++ xs.drop stop := by
  have hdrop : xs.drop stop = (xs.drop start).drop (stop - start) := by
    rw [List.drop_drop]
    congr 1
    omega
  rw [List.extract_eq_take_drop, hdrop, List.take_append_drop]

end Checked
