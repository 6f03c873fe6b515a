import Thicket.Lib.Forest

/-!
# Walks along references

Code that follows references recurses without a bound of its own. Here it is given fuel and is cut
off when that is used up. It terminates if from some fuel on it is not cut off and its outcome is
one, and it does so along the references of a forest.
-/

/-- Code that returns, raises or is cut off. -/
abbrev Walk (ε α : Type) := ExceptT ε Option α

namespace Walk

variable {ε α β κ δ : Type}

def cutOff : Walk ε α := ExceptT.mk none

/-- A step that does not recurse. -/
def ofExcept (x : Except ε α) : Walk ε α := ExceptT.mk (some x)

def Terminates (walk : Nat → Walk ε α) : Prop :=
  ∃ fuel outcome, ∀ n, fuel ≤ n → walk n = ofExcept outcome

theorem terminates_ofExcept (x : Except ε α) : Terminates fun _ => ofExcept x :=
  ⟨0, x, fun _ _ => rfl⟩

theorem terminates_pure (a : α) : Terminates fun _ => (pure a : Walk ε α) :=
  terminates_ofExcept (.ok a)

theorem Terminates.of_succ {walk : Nat → Walk ε α} (h : Terminates fun n => walk (n + 1)) :
    Terminates walk := by
  obtain ⟨fuel, outcome, h⟩ := h
  refine ⟨fuel + 1, outcome, ?_⟩
  intro n hn
  obtain ⟨n, rfl⟩ := Nat.exists_eq_add_of_le' (show 1 ≤ n by omega)
  exact h n (by omega)

theorem Terminates.bind {walk : Nat → Walk ε α} {next : Nat → α → Walk ε β}
    (h : Terminates walk) (hnext : ∀ a, Terminates fun n => next n a) :
    Terminates fun n => walk n >>= next n := by
  obtain ⟨fuel, outcome, h⟩ := h
  cases outcome with
  | error e =>
      refine ⟨fuel, .error e, ?_⟩
      intro n hn
      show (walk n >>= next n) = _
      rw [h n hn]
      rfl
  | ok a =>
      obtain ⟨more, outcome, hmore⟩ := hnext a
      refine ⟨max fuel more, outcome, ?_⟩
      intro n hn
      show (walk n >>= next n) = _
      rw [h n (by omega), ← hmore n (by omega)]
      rfl

theorem Terminates.mapM {keys : List κ} {walk : Nat → κ → Walk ε α}
    (h : ∀ k ∈ keys, Terminates fun n => walk n k) : Terminates fun n => keys.mapM (walk n) := by
  induction keys with
  | nil => exact terminates_pure []
  | cons k keys ih =>
      obtain ⟨hk, hkeys⟩ := List.forall_mem_cons.mp h
      simp only [List.mapM_cons]
      exact hk.bind fun a => (ih hkeys).bind fun rest => terminates_pure (a :: rest)

variable {children : κ → List κ} {walk : Nat → List κ → δ → Walk ε α}

/-- A walk that recurses into the references of each key it is given. -/
def Recurses (children : κ → List κ) (walk : Nat → List κ → δ → Walk ε α) : Prop :=
  ∀ keys, (∀ k ∈ keys, ∀ d, Terminates fun n => walk n (children k) d) →
    ∀ d, Terminates fun n => walk n keys d

/-- Along the references of a forest a walk terminates. -/
theorem Recurses.terminates (h : Recurses children walk) {forest : Forest κ}
    (hfollows : forest.Follows children) (d : δ) : Terminates fun n => walk n forest.roots d := by
  have hbelow : ∀ k ∈ forest.roots, ∀ d, Terminates fun n => walk n (children k) d := by
    clear d
    induction forest with
    | nil => exact nofun
    | node root below beside ihBelow ihBeside =>
        obtain ⟨hroots, hbelow, hbeside⟩ := Forest.follows_node.mp hfollows
        intro k hk
        rcases List.mem_cons.mp hk with rfl | hk
        · rw [← hroots]
          exact h below.roots (ihBelow hbelow)
        · exact ihBeside hbeside k hk
  exact h forest.roots hbelow d

end Walk
