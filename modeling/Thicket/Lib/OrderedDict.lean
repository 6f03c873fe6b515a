import Mathlib.Data.List.Basic
import Mathlib.Data.List.Induction
import Mathlib.Data.List.Nodup

/-!
# Dictionaries in insertion order

An assignment to a new key appends an entry, an assignment to a key that is there replaces its value
in place. The keys are distinct.
-/

structure OrderedDict (κ ν : Type) where
  entries : List (κ × ν)
  nodup : (entries.map Prod.fst).Nodup
  deriving DecidableEq

namespace OrderedDict

variable {κ ν : Type}

theorem ext {d d' : OrderedDict κ ν} (h : d.entries = d'.entries) : d = d' := by
  cases d
  cases h
  rfl

def empty : OrderedDict κ ν := ⟨[], List.nodup_nil⟩

def keys (d : OrderedDict κ ν) : List κ := d.entries.map Prod.fst

variable [DecidableEq κ]

def get? (d : OrderedDict κ ν) (k : κ) : Option ν := d.entries.lookup k

theorem get?_eq_some {d : OrderedDict κ ν} {k : κ} {v : ν} :
    d.get? k = some v ↔ (k, v) ∈ d.entries := by
  obtain ⟨entries, hnodup⟩ := d
  rw [get?]
  induction entries with
  | nil => simp
  | cons e entries ih =>
      obtain ⟨k', v'⟩ := e
      obtain ⟨hfresh, hnodup⟩ := List.nodup_cons.mp hnodup
      rw [List.lookup_cons, List.mem_cons]
      by_cases hk : k = k'
      · subst hk
        have hrest : (k, v) ∉ entries := fun hmem => hfresh (List.mem_map.mpr ⟨_, hmem, rfl⟩)
        simp [hrest, eq_comm]
      · have hne : (k == k') = false := beq_eq_false_iff_ne.mpr hk
        simp only [hne, Prod.mk.injEq, hk, false_and, false_or]
        exact ih hnodup

theorem get?_eq_none {d : OrderedDict κ ν} {k : κ} : d.get? k = none ↔ k ∉ d.keys := by
  rw [Option.eq_none_iff_forall_not_mem, keys, List.mem_map]
  constructor
  · rintro h ⟨⟨k', v⟩, hmem, rfl⟩
    exact h v (get?_eq_some.mpr hmem)
  · intro h v hv
    exact h ⟨(k, v), get?_eq_some.mp hv, rfl⟩

def setEntry (k : κ) (v : ν) (e : κ × ν) : κ × ν := if e.1 = k then (e.1, v) else e

theorem map_setEntry_keys (entries : List (κ × ν)) (k : κ) (v : ν) :
    (entries.map (setEntry k v)).map Prod.fst = entries.map Prod.fst := by
  rw [List.map_map]
  apply List.map_congr_left
  intro e _
  simp only [Function.comp_apply, setEntry]
  split_ifs <;> rfl

/-- `d[k] = v` -/
def put (d : OrderedDict κ ν) (k : κ) (v : ν) : OrderedDict κ ν :=
  if h : k ∈ d.keys then ⟨d.entries.map (setEntry k v), by rw [map_setEntry_keys]; exact d.nodup⟩
  else ⟨d.entries ++ [(k, v)], by
    rw [List.map_append]
    apply List.Nodup.append d.nodup (List.nodup_singleton k)
    exact List.disjoint_singleton.mpr h⟩

theorem entries_put_fresh {d : OrderedDict κ ν} {k : κ} (v : ν) (h : d.get? k = none) :
    (d.put k v).entries = d.entries ++ [(k, v)] := by
  rw [put, dif_neg (get?_eq_none.mp h)]

theorem lookup_map_setEntry (entries : List (κ × ν)) (k k' : κ) (v : ν) :
    (entries.map (setEntry k v)).lookup k' =
      if k' = k then (entries.lookup k).map fun _ => v else entries.lookup k' := by
  induction entries with
  | nil => split_ifs <;> rfl
  | cons e entries ih =>
      obtain ⟨k₀, v₀⟩ := e
      rw [List.map_cons, setEntry, List.lookup_cons]
      by_cases hk₀ : k₀ = k
      · subst hk₀
        by_cases hk' : k' = k₀
        · subst hk'
          simp
        · have hne : (k' == k₀) = false := beq_eq_false_iff_ne.mpr hk'
          simp only [if_true, List.lookup_cons, hne, ih, hk', if_false]
      · rw [if_neg hk₀, List.lookup_cons, ih]
        by_cases hk' : k' = k
        · subst hk'
          have hne : (k' == k₀) = false := beq_eq_false_iff_ne.mpr (Ne.symm hk₀)
          simp only [hne, if_true]
        · rw [if_neg hk', if_neg hk', List.lookup_cons]

theorem get?_put (d : OrderedDict κ ν) (k k' : κ) (v : ν) :
    (d.put k v).get? k' = if k' = k then some v else d.get? k' := by
  by_cases hk : k ∈ d.keys
  · have hsome : ∃ w, d.entries.lookup k = some w := by
      apply Option.ne_none_iff_exists'.mp
      intro hnone
      exact get?_eq_none.mp hnone hk
    obtain ⟨w, hw⟩ := hsome
    rw [put, dif_pos hk, get?, lookup_map_setEntry, hw]
    rfl
  · rw [put, dif_neg hk, get?, List.lookup_append]
    by_cases hk' : k' = k
    · subst hk'
      have hnone : d.entries.lookup k' = none := get?_eq_none.mpr hk
      rw [hnone, if_pos rfl]
      simp
    · have hne : (k' == k) = false := beq_eq_false_iff_ne.mpr hk'
      rw [if_neg hk', get?, List.lookup_cons, hne]
      exact Option.or_none

/-- `{k: v for k, v in entries}` -/
def ofList (entries : List (κ × ν)) : OrderedDict κ ν :=
  entries.foldl (fun d e => d.put e.1 e.2) empty

theorem entries_foldl_put (entries : List (κ × ν)) (d : OrderedDict κ ν)
    (hnodup : ((d.entries ++ entries).map Prod.fst).Nodup) :
    (entries.foldl (fun d e => d.put e.1 e.2) d).entries = d.entries ++ entries := by
  induction entries generalizing d with
  | nil => simp
  | cons e entries ih =>
      have hfresh : d.get? e.1 = none := by
        apply get?_eq_none.mpr
        intro hmem
        rw [List.map_append, List.map_cons] at hnodup
        exact (List.nodup_append.mp hnodup).2.2 _ hmem _ List.mem_cons_self rfl
      have hput := entries_put_fresh e.2 hfresh
      rw [List.foldl_cons, ih]
      · rw [hput, List.append_assoc]
        rfl
      · rw [hput, List.append_assoc]
        exact hnodup

theorem ofList_entries (d : OrderedDict κ ν) : ofList d.entries = d :=
  ext (entries_foldl_put d.entries empty d.nodup)

/-! ### Comprehensions -/

theorem keys_put (d : OrderedDict κ ν) (k : κ) (v : ν) :
    (d.put k v).keys = if k ∈ d.keys then d.keys else d.keys ++ [k] := by
  rw [put]
  split_ifs with hk
  · rw [keys, map_setEntry_keys, keys]
  · rw [keys, List.map_append, keys]
    rfl

theorem ofList_append (entries : List (κ × ν)) (e : κ × ν) :
    ofList (entries ++ [e]) = (ofList entries).put e.1 e.2 := by
  rw [ofList, List.foldl_append]
  rfl

/-- Of several values under one key the last one is kept. -/
theorem get?_ofList (entries : List (κ × ν)) (k : κ) :
    (ofList entries).get? k = entries.reverse.lookup k := by
  induction entries using List.reverseRecOn with
  | nil => rfl
  | append_singleton entries e ih =>
      rw [ofList_append, get?_put, ih, List.reverse_append, List.reverse_singleton,
        List.singleton_append, List.lookup_cons]
      by_cases hk : k = e.1
      · subst hk
        simp
      · rw [if_neg hk, beq_eq_false_iff_ne.mpr hk]

/-- It stands where the key was first. -/
theorem keys_ofList (entries : List (κ × ν)) :
    (ofList entries).keys = (entries.map Prod.fst).eraseDups := by
  induction entries using List.reverseRecOn with
  | nil => rfl
  | append_singleton entries e ih =>
      rw [ofList_append, keys_put, ih, List.map_append, List.eraseDups_append, List.map_singleton,
        List.removeAll]
      by_cases hk : e.1 ∈ entries.map Prod.fst
      · rw [if_pos (List.mem_eraseDups.mpr hk)]
        simp [hk]
      · rw [if_neg fun hmem => hk (List.mem_eraseDups.mp hmem)]
        simp [hk, List.eraseDups_cons]

/-- Dictionaries with the same keys in the same order and the same values under them are the same.
-/
theorem ext_get? {d d' : OrderedDict κ ν} (hkeys : d.keys = d'.keys)
    (h : ∀ k, d.get? k = d'.get? k) : d = d' := by
  apply ext
  have hlength : d.entries.length = d'.entries.length := by
    have hlen := congrArg List.length hkeys
    rwa [keys, keys, List.length_map, List.length_map] at hlen
  apply List.ext_getElem hlength
  intro i hi hi'
  have hkey : d.entries[i].1 = d'.entries[i].1 := by
    have hget : d.keys[i]? = d'.keys[i]? := by rw [hkeys]
    rw [keys, keys, List.getElem?_map, List.getElem?_map, List.getElem?_eq_getElem hi,
      List.getElem?_eq_getElem hi'] at hget
    exact Option.some.inj hget
  have hvalue : d.get? d.entries[i].1 = some d.entries[i].2 :=
    get?_eq_some.mpr (List.getElem_mem hi)
  have hvalue' : d'.get? d'.entries[i].1 = some d'.entries[i].2 :=
    get?_eq_some.mpr (List.getElem_mem hi')
  rw [h, hkey, hvalue'] at hvalue
  exact Prod.ext hkey (Option.some.inj hvalue).symm

section FirstOf

variable {α : Type} (key : α → κ)

/-- The first item of each key. -/
def firstOf (items : List α) : List α := items.eraseDupsBy fun a b => key a == key b

theorem firstOf_cons (a : α) (items : List α) :
    firstOf key (a :: items) = a :: firstOf key (items.filter fun b => !key b == key a) := by
  rw [firstOf, List.eraseDupsBy_cons, firstOf]
  congr 3
  funext b
  cases key b == key a <;> rfl

theorem map_firstOf (items : List α) : (firstOf key items).map key = (items.map key).eraseDups := by
  induction hn : items.length using Nat.strongRecOn generalizing items with
  | ind n ih =>
      cases items with
      | nil => rfl
      | cons a items =>
          rw [List.length_cons] at hn
          have hfilter := List.length_filter_le (fun b => !key b == key a) items
          rw [firstOf_cons, List.map_cons, List.map_cons, List.eraseDups_cons, List.filter_map,
            ih _ (by omega) _ rfl]
          rfl

theorem find?_firstOf (items : List α) (k : κ) :
    (firstOf key items).find? (fun a => key a == k) = items.find? fun a => key a == k := by
  induction hn : items.length using Nat.strongRecOn generalizing items with
  | ind n ih =>
      cases items with
      | nil => rfl
      | cons a items =>
          rw [List.length_cons] at hn
          have hfilter := List.length_filter_le (fun b => !key b == key a) items
          rw [firstOf_cons, List.find?_cons, List.find?_cons, ih _ (by omega) _ rfl]
          cases hk : key a == k with
          | true => rfl
          | false =>
              have hne : ∀ b, key b = k → key b ≠ key a := by
                intro b hb heq
                rw [← heq, hb, beq_self_eq_true] at hk
                cases hk
              rw [List.find?_filter]
              show List.find? _ items = List.find? _ items
              congr 1
              funext b
              by_cases hb : key b = k
              · simp [hb, (hb ▸ hne b hb : k ≠ key a)]
              · simp [hb]

theorem nodup_firstOf (items : List α) : ((firstOf key items).map key).Nodup := by
  have hkeys := (ofList (items.map fun a => (key a, a))).nodup
  rw [← keys, keys_ofList, List.map_map] at hkeys
  rw [map_firstOf]
  exact hkeys

theorem firstOf_sublist (items : List α) : (firstOf key items).Sublist items := by
  induction hn : items.length using Nat.strongRecOn generalizing items with
  | ind n ih =>
      cases items with
      | nil => exact List.Sublist.refl _
      | cons a items =>
          rw [List.length_cons] at hn
          have hfilter := List.length_filter_le (fun b => !key b == key a) items
          rw [firstOf_cons]
          exact ((ih _ (by omega) _ rfl).trans List.filter_sublist).cons_cons a

end FirstOf

/-! ### Inclusion -/

/-- Every entry of `d` is one of `d'`. -/
def Within (d d' : OrderedDict κ ν) : Prop := ∀ k v, d.get? k = some v → d'.get? k = some v

theorem Within.refl (d : OrderedDict κ ν) : d.Within d := fun _ _ h => h

theorem Within.trans {d d' d'' : OrderedDict κ ν} (h : d.Within d') (h' : d'.Within d'') :
    d.Within d'' := fun k v hget => h' k v (h k v hget)

/-- A new key leaves the others as they are. -/
theorem within_put {d : OrderedDict κ ν} {k : κ} (v : ν) (h : d.get? k = none) :
    d.Within (d.put k v) := by
  intro k' v' hget
  rw [get?_put, if_neg]
  · exact hget
  · rintro rfl
    rw [h] at hget
    cases hget

/-! ### Mapping the values -/

section Map

variable {ν' : Type} (f : ν → ν')

omit [DecidableEq κ] in
theorem keys_map_entries (entries : List (κ × ν)) :
    (entries.map fun e => (e.1, f e.2)).map Prod.fst = entries.map Prod.fst := by
  rw [List.map_map]
  rfl

def mapValues (d : OrderedDict κ ν) : OrderedDict κ ν' :=
  ⟨d.entries.map fun e => (e.1, f e.2), by
    rw [keys_map_entries]
    exact d.nodup⟩

theorem get?_mapValues (d : OrderedDict κ ν) (k : κ) :
    (d.mapValues f).get? k = (d.get? k).map f := by
  obtain ⟨entries, hnodup⟩ := d
  change (entries.map fun e => (e.1, f e.2)).lookup k = (entries.lookup k).map f
  clear hnodup
  induction entries with
  | nil => rfl
  | cons e entries ih =>
      rw [List.map_cons, List.lookup_cons, List.lookup_cons, ih]
      cases k == e.1 <;> rfl

theorem mapValues_put {d : OrderedDict κ ν} {k : κ} (v : ν) (h : d.get? k = none) :
    (d.put k v).mapValues f = (d.mapValues f).put k (f v) := by
  apply ext
  have hmap : (d.mapValues f).get? k = none := by
    rw [get?_mapValues, h]
    rfl
  rw [entries_put_fresh (f v) hmap]
  simp only [mapValues, entries_put_fresh v h, List.map_append, List.map_cons, List.map_nil]

end Map

end OrderedDict
