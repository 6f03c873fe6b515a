import Mathlib.Data.List.Basic

/-!
# Linked chains

A chain of items in which every item is sealed together with the tag of the item before it, the
first one together with a root tag. An item does not carry the earlier ones, only a tag, so what a
tag pins down has to be read back along the links. When a tag seals one item in one context over one
previous tag, and never is the root tag, it pins down the whole chain up to its item.
-/

namespace LinkedChain

variable {κ α τ : Type*} (tag : α → τ) (Seals : κ → τ → α → Prop)

/-- Every item is sealed in the context `c` over the tag before it, the first over `prev`. -/
def Linked (c : κ) : τ → List α → Prop
  | _, [] => True
  | prev, x :: xs => Seals c prev x ∧ Linked c (tag x) xs

/-- What sealing promises: a tag names one context, one previous tag and one item, and is not the
root tag. -/
structure Binding (root : τ) : Prop where
  inj : ∀ {c d : κ} {p q : τ} {x y : α}, Seals c p x → Seals d q y → tag x = tag y →
    c = d ∧ p = q ∧ x = y
  ne_root : ∀ {c : κ} {p : τ} {x : α}, Seals c p x → tag x ≠ root

variable {tag Seals} {c d : κ} {root : τ} {xs ys : List α} {i j : Nat} {x y : α}

theorem Linked.seals_zero {prev : τ} (h : Linked tag Seals c prev xs) (hx : xs[0]? = some x) :
    Seals c prev x := by
  cases xs with
  | nil => simp at hx
  | cons z zs =>
      obtain rfl : z = x := by simpa using hx
      exact h.1

theorem Linked.seals_succ {prev : τ} (h : Linked tag Seals c prev xs) (hx : xs[i + 1]? = some x) :
    ∃ z, xs[i]? = some z ∧ Seals c (tag z) x := by
  induction xs generalizing prev i with
  | nil => simp at hx
  | cons z zs ih =>
      rw [List.getElem?_cons_succ] at hx
      cases i with
      | zero => exact ⟨z, rfl, h.2.seals_zero hx⟩
      | succ i => exact ih h.2 hx

theorem Linked.seals {prev : τ} (h : Linked tag Seals c prev xs) (hx : xs[i]? = some x) :
    ∃ p, Seals c p x := by
  cases i with
  | zero => exact ⟨prev, h.seals_zero hx⟩
  | succ i => exact (h.seals_succ hx).imp' tag fun _ hz => hz.2

theorem Linked.append_of_getLast? {prev : τ} (h : Linked tag Seals c prev xs)
    (hy : xs.getLast? = some y) (hx : Seals c (tag y) x) : Linked tag Seals c prev (xs ++ [x]) := by
  induction xs generalizing prev with
  | nil => simp at hy
  | cons z zs ih =>
      cases zs with
      | nil =>
          obtain rfl : z = y := by simpa using hy
          exact ⟨h.1, hx, trivial⟩
      | cons w ws => exact ⟨h.1, ih h.2 hy⟩

theorem take_succ_of_getElem? (hx : xs[i]? = some x) : xs.take (i + 1) = xs.take i ++ [x] := by
  rw [List.take_add_one, hx]
  rfl

/-- **No splicing.** Two linked chains that carry the same tag carry it at the same position, in the
same context, and agree on every item up to there. -/
theorem Linked.prefix_eq (hbind : Binding tag Seals root) (hxs : Linked tag Seals c root xs)
    (hys : Linked tag Seals d root ys) (hx : xs[i]? = some x) (hy : ys[j]? = some y)
    (htag : tag x = tag y) : i = j ∧ c = d ∧ xs.take (i + 1) = ys.take (j + 1) := by
  induction i generalizing j x y with
  | zero =>
      have hsx := hxs.seals_zero hx
      cases j with
      | zero =>
          obtain ⟨rfl, -, rfl⟩ := hbind.inj hsx (hys.seals_zero hy) htag
          rw [take_succ_of_getElem? hx, take_succ_of_getElem? hy]
          exact ⟨rfl, rfl, rfl⟩
      | succ j =>
          -- an inner item is sealed over a tag, the head over the root, which is no tag
          obtain ⟨z, hz, hsy⟩ := hys.seals_succ hy
          obtain ⟨-, hroot, -⟩ := hbind.inj hsx hsy htag
          obtain ⟨p, hsz⟩ := hys.seals hz
          exact absurd hroot.symm (hbind.ne_root hsz)
  | succ i ih =>
      obtain ⟨w, hw, hsx⟩ := hxs.seals_succ hx
      cases j with
      | zero =>
          obtain ⟨-, hroot, -⟩ := hbind.inj hsx (hys.seals_zero hy) htag
          obtain ⟨p, hsw⟩ := hxs.seals hw
          exact absurd hroot (hbind.ne_root hsw)
      | succ j =>
          obtain ⟨z, hz, hsy⟩ := hys.seals_succ hy
          obtain ⟨hctx, hprev, rfl⟩ := hbind.inj hsx hsy htag
          obtain ⟨rfl, -, htake⟩ := ih hw hz hprev
          rw [take_succ_of_getElem? hx, take_succ_of_getElem? hy, htake]
          exact ⟨rfl, hctx, rfl⟩

end LinkedChain
