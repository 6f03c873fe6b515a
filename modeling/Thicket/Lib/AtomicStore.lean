import Thicket.Lib.HashMap

/-!
# Stores with atomic operations

A key-value store of which all that is known is what a load returns: what the last save under the
key left there.
-/

structure AtomicStore (κ ν : Type) where
  State : Type
  empty : State
  load : State → κ → Option ν
  save : State → κ → ν → State
  load_empty : ∀ k, load empty k = none
  load_save_self : ∀ s k v, load (save s k v) k = some v
  load_save_of_ne : ∀ s k k' v, k' ≠ k → load (save s k v) k' = load s k'

namespace AtomicStore

variable {κ ν : Type} (store : AtomicStore κ ν)

theorem load_save [DecidableEq κ] (s : store.State) (k k' : κ) (v : ν) :
    store.load (store.save s k v) k' = if k' = k then some v else store.load s k' := by
  by_cases hk : k' = k
  · rw [if_pos hk, hk, store.load_save_self]
  · rw [if_neg hk, store.load_save_of_ne s k k' v hk]

/-- A hash map is one. -/
def ofHashMap (κ ν : Type) [Ord κ] [Std.TransOrd κ] [Std.LawfulEqOrd κ] [DecidableEq κ] :
    AtomicStore κ ν where
  State := HashMap κ ν
  empty := ∅
  load s k := s[k]?
  save s k v := s.insert k v
  load_empty k := by simp
  load_save_self s k v := by simp
  load_save_of_ne s k k' v h := by rw [HashMap.getElem?_insert, if_neg h]

end AtomicStore
