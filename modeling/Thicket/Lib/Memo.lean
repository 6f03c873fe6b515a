import Thicket.Lib.OrderedDict

/-!
# Memoized calls

A call returns what the table holds under its key; where the table holds nothing, it runs and its
result is recorded. So a sequence of calls that starts over on the table of its first calls replays
these and runs only what it had not reached.
-/

namespace Memo

variable {κ ν ν' : Type}

structure Outcome (κ ν : Type) where
  key : κ
  ran : Bool
  value : ν
  deriving DecidableEq

def Outcome.map (f : ν → ν') (o : Outcome κ ν) : Outcome κ ν' :=
  { key := o.key, ran := o.ran, value := f o.value }

/-- The same calls again, after the first `r` were recorded: the keys are the same, just the other
calls run that ran before, and what was recorded is returned. -/
def Resumes (rel : ν → ν' → Prop) (r : Nat) (full : List (Outcome κ ν))
    (resumed : List (Outcome κ ν')) : Prop :=
  resumed.length = full.length ∧ ∀ (i : Nat) (before : Outcome κ ν) (after : Outcome κ ν'),
    full[i]? = some before → resumed[i]? = some after →
      after.key = before.key ∧ (after.ran = true ↔ r ≤ i ∧ before.ran = true) ∧
        (i < r → rel before.value after.value)

theorem Resumes.keys {rel : ν → ν' → Prop} {r : Nat} {full : List (Outcome κ ν)}
    {resumed : List (Outcome κ ν')} (h : Resumes rel r full resumed) :
    resumed.map Outcome.key = full.map Outcome.key := by
  apply List.ext_getElem
  · rw [List.length_map, List.length_map, h.1]
  · intro i hi hi'
    rw [List.length_map] at hi hi'
    rw [List.getElem_map, List.getElem_map]
    exact (h.2 i _ _ (List.getElem?_eq_getElem hi') (List.getElem?_eq_getElem hi)).1

theorem Resumes.map {r : Nat} {full resumed : List (Outcome κ ν)} (h : Resumes Eq r full resumed)
    {μ μ' : Type} {f : ν → μ} {g : ν → μ'} {rel : μ → μ' → Prop} (hrel : ∀ v, rel (f v) (g v)) :
    Resumes rel r (full.map (.map f)) (resumed.map (.map g)) := by
  refine ⟨by rw [List.length_map, List.length_map, h.1], ?_⟩
  intro i before after hbefore hafter
  rw [List.getElem?_map, Option.map_eq_some_iff] at hbefore hafter
  obtain ⟨b, hb, rfl⟩ := hbefore
  obtain ⟨a, ha, rfl⟩ := hafter
  obtain ⟨hkey, hran, hvalue⟩ := h.2 i b a hb ha
  refine ⟨hkey, hran, fun hi => ?_⟩
  change rel (f b.value) (g a.value)
  rw [hvalue hi]
  exact hrel a.value

variable [DecidableEq κ]

def call (d : OrderedDict κ ν) (k : κ) (v : ν) : OrderedDict κ ν × Outcome κ ν :=
  match d.get? k with
  | some w => (d, { key := k, ran := false, value := w })
  | none => (d.put k v, { key := k, ran := true, value := v })

variable {d : OrderedDict κ ν} {k : κ} {v : ν}

@[simp] theorem call_key : (call d k v).2.key = k := by
  rw [call]
  cases d.get? k <;> rfl

theorem call_ran : (call d k v).2.ran = true ↔ d.get? k = none := by
  rw [call]
  cases d.get? k <;> simp

theorem call_value {w : ν} (h : d.get? k = some w) : (call d k v).2.value = w := by
  rw [call, h]

theorem get?_call_self : (call d k v).1.get? k = some (call d k v).2.value := by
  rw [call]
  cases hget : d.get? k with
  | some w => exact hget
  | none => exact (OrderedDict.get?_put d k k v).trans (if_pos rfl)

theorem get?_call_of_ne {k' : κ} (h : k' ≠ k) : (call d k v).1.get? k' = d.get? k' := by
  rw [call]
  cases d.get? k with
  | some w => rfl
  | none => exact (OrderedDict.get?_put d k k' v).trans (if_neg h)

def table (d : OrderedDict κ ν) : List (κ × ν) → OrderedDict κ ν
  | [] => d
  | (k, v) :: items => table (call d k v).1 items

def outcomes (d : OrderedDict κ ν) : List (κ × ν) → List (Outcome κ ν)
  | [] => []
  | (k, v) :: items => (call d k v).2 :: outcomes (call d k v).1 items

variable {items items' : List (κ × ν)}

theorem table_append (d : OrderedDict κ ν) (items items' : List (κ × ν)) :
    table d (items ++ items') = table (table d items) items' := by
  induction items generalizing d with
  | nil => rfl
  | cons item items ih => exact ih _

theorem get?_table_of_some {w : ν} (h : d.get? k = some w) (items : List (κ × ν)) :
    (table d items).get? k = some w := by
  induction items generalizing d with
  | nil => exact h
  | cons item items ih =>
      apply ih
      by_cases hk : k = item.1
      · subst hk
        rw [get?_call_self, call_value h]
      · rwa [get?_call_of_ne hk]

/-- What is in the table was there or has been called. -/
theorem get?_table_eq_none : (table d items).get? k = none ↔
    d.get? k = none ∧ k ∉ items.map Prod.fst := by
  induction items generalizing d with
  | nil => simp [table]
  | cons item items ih =>
      rw [table, ih, List.map_cons, List.mem_cons, not_or]
      by_cases hk : k = item.1
      · subst hk
        simp [get?_call_self]
      · rw [get?_call_of_ne hk]
        simp [hk]

theorem length_outcomes (d : OrderedDict κ ν) (items : List (κ × ν)) :
    (outcomes d items).length = items.length := by
  induction items generalizing d with
  | nil => rfl
  | cons item items ih => rw [outcomes, List.length_cons, List.length_cons, ih]

theorem keys_outcomes (d : OrderedDict κ ν) (items : List (κ × ν)) :
    (outcomes d items).map Outcome.key = items.map Prod.fst := by
  induction items generalizing d with
  | nil => rfl
  | cons item items ih => rw [outcomes, List.map_cons, List.map_cons, ih, call_key]

theorem getElem?_outcomes (d : OrderedDict κ ν) (items : List (κ × ν)) (i : Nat) :
    (outcomes d items)[i]? =
      items[i]?.map fun item => (call (table d (items.take i)) item.1 item.2).2 := by
  induction items generalizing d i with
  | nil => rfl
  | cons item items ih =>
      cases i with
      | zero => rfl
      | succ i => exact ih _ i

/-- **Starting over.** -/
theorem resumes (hkeys : items'.map Prod.fst = items.map Prod.fst) (r : Nat) :
    Resumes Eq r (outcomes .empty items) (outcomes (table .empty (items.take r)) items') := by
  refine ⟨?_, ?_⟩
  · rw [length_outcomes, length_outcomes, ← List.length_map Prod.fst, hkeys, List.length_map]
  · intro i before after hbefore hafter
    rw [getElem?_outcomes, Option.map_eq_some_iff] at hbefore hafter
    obtain ⟨⟨k, v⟩, hitem, rfl⟩ := hbefore
    obtain ⟨⟨k', v'⟩, hitem', rfl⟩ := hafter
    have hkey : (items.map Prod.fst)[i]? = some k := by
      rw [List.getElem?_map, hitem]
      rfl
    obtain rfl : k' = k := by
      rw [← hkeys, List.getElem?_map, hitem'] at hkey
      exact Option.some.inj hkey
    refine ⟨by rw [call_key, call_key], ?_, ?_⟩
    · rw [call_ran, call_ran, get?_table_eq_none, get?_table_eq_none, get?_table_eq_none,
        List.map_take, List.map_take, List.map_take, hkeys]
      have hempty : (OrderedDict.empty : OrderedDict κ ν).get? k' = none := rfl
      simp only [hempty, true_and]
      constructor
      · rintro ⟨hrecorded, hearlier⟩
        refine ⟨?_, hearlier⟩
        by_contra hlt
        apply hrecorded
        apply List.mem_of_getElem? (i := i)
        rw [List.getElem?_take_of_lt (by omega), hkey]
      · rintro ⟨hle, hearlier⟩
        refine ⟨fun hmem => hearlier ?_, hearlier⟩
        exact (List.take_sublist_take_left hle).subset hmem
    · intro hi
      obtain ⟨rest, hrest⟩ : ∃ rest, items.take r = items.take i ++ (k', v) :: rest := by
        refine ⟨(items.take r).drop (i + 1), ?_⟩
        have htake : (items.take r)[i]? = some (k', v) := by
          rw [List.getElem?_take_of_lt hi, hitem]
        obtain ⟨hlen, hget⟩ := List.getElem?_eq_some_iff.mp htake
        have hdrop := List.drop_eq_getElem_cons hlen
        rw [hget] at hdrop
        rw [← hdrop]
        have hsplit := (List.take_append_drop i (items.take r)).symm
        rwa [List.take_take, Nat.min_eq_left (Nat.le_of_lt hi)] at hsplit
      have hrecorded : (table .empty (items.take r)).get? k' =
          some (call (table .empty (items.take i)) k' v).2.value := by
        rw [hrest, table_append, table]
        exact get?_table_of_some get?_call_self rest
      exact (call_value (get?_table_of_some hrecorded _)).symm

end Memo
