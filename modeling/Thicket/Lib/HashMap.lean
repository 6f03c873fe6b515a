import Std.Data.ExtTreeMap
import Std.Data.ExtTreeMap.Lemmas

/-!
# Hash maps

A hash map is its lookups: the order in which an iterator visits the entries is not a function of
them, so what code collects from an iteration is taken for every order the entries can come in.
-/

/-- A map seen through its lookups; `κ` is ordered only so that equal maps are equal terms. -/
abbrev HashMap (κ ν : Type) [Ord κ] := Std.ExtTreeMap κ ν

namespace HashMap

variable {κ ν : Type} [Ord κ] [Std.TransOrd κ]

/-- `values` is what `map.values()` yields, in some order. -/
def Yields (map : HashMap κ ν) (values : List ν) : Prop :=
  values.Perm (map.toList.map Prod.snd)

/-- `map.retain(|_, v| keep(v))` -/
def retain (map : HashMap κ ν) (keep : ν → Bool) : HashMap κ ν := map.filter fun _ v => keep v

theorem getElem?_retain (map : HashMap κ ν) (keep : ν → Bool) (k : κ) :
    (map.retain keep)[k]? = map[k]?.filter keep := by
  simp [retain]

theorem Yields.retain {map : HashMap κ ν} {values : List ν} (h : map.Yields values)
    (keep : ν → Bool) : (map.retain keep).Yields (values.filter keep) := by
  have hlist : (map.retain keep).toList.map Prod.snd = (map.toList.map Prod.snd).filter keep := by
    rw [HashMap.retain, Std.ExtTreeMap.toList_filter, List.filter_map]
    rfl
  rw [Yields, hlist]
  exact h.filter keep

/-- Where two maps retain the same, whatever order one yields its retained values in, the other
yields them in that order too. -/
theorem Yields.exists_filter_eq {map map' : HashMap κ ν} {values : List ν} {keep : ν → Bool}
    (h : map.Yields values) (hsame : map.retain keep = map'.retain keep) :
    ∃ values', map'.Yields values' ∧ values'.filter keep = values.filter keep := by
  have hall : map'.Yields (map'.toList.map Prod.snd) := List.Perm.refl _
  let dropped := (map'.toList.map Prod.snd).filter fun v => !keep v
  refine ⟨values.filter keep ++ dropped, ?_, ?_⟩
  · have hkept := h.retain keep
    rw [hsame] at hkept
    have hperm := List.Perm.append_right dropped (hkept.trans (hall.retain keep).symm)
    exact hperm.trans (List.filter_append_perm keep _)
  · simp [dropped, List.filter_append, List.filter_filter]

variable [Std.LawfulEqOrd κ] [DecidableEq κ]

omit [DecidableEq κ] in
theorem retain_eq_retain {map map' : HashMap κ ν} {keep : ν → Bool}
    (h : ∀ k : κ, map[k]?.filter keep = map'[k]?.filter keep) :
    map.retain keep = map'.retain keep := by
  apply Std.ExtTreeMap.ext_getElem?
  intro k
  rw [getElem?_retain, getElem?_retain, h k]

theorem getElem?_insert (map : HashMap κ ν) (k k' : κ) (v : ν) :
    (map.insert k v)[k']? = if k' = k then some v else map[k']? := by
  rw [Std.ExtTreeMap.getElem?_insert]
  simp only [Std.LawfulEqCmp.compare_eq_iff_eq, @eq_comm _ k]

theorem getElem?_erase (map : HashMap κ ν) (k k' : κ) :
    (map.erase k)[k']? = if k' = k then none else map[k']? := by
  rw [Std.ExtTreeMap.getElem?_erase]
  simp only [Std.LawfulEqCmp.compare_eq_iff_eq, @eq_comm _ k]

omit [DecidableEq κ] in
/-- An iteration yields what the map holds and nothing else. -/
theorem Yields.mem_iff {map : HashMap κ ν} {values : List ν} (h : map.Yields values) {v : ν} :
    v ∈ values ↔ ∃ k : κ, map[k]? = some v := by
  rw [List.Perm.mem_iff h]
  simp only [List.mem_map, Prod.exists, exists_eq_right,
    Std.ExtTreeMap.mem_toList_iff_getElem?_eq_some]

omit [DecidableEq κ] in
/-- Values that show their keys are yielded once each. -/
theorem Yields.nodup_map {map : HashMap κ ν} {values : List ν} {key : ν → κ} (h : map.Yields values)
    (hkey : ∀ (k : κ) (v : ν), map[k]? = some v → key v = k) : (values.map key).Nodup := by
  have hkeys : (map.toList.map Prod.snd).map key = map.keys := by
    rw [List.map_map, ← Std.ExtTreeMap.map_fst_toList_eq_keys]
    apply List.map_congr_left
    intro e he
    exact hkey e.1 e.2 (Std.ExtTreeMap.mem_toList_iff_getElem?_eq_some.mp he)
  rw [(List.Perm.map key h).nodup_iff, hkeys]
  exact Std.ExtTreeMap.nodup_keys

end HashMap
