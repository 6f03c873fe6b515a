import Thicket.Lib.HashMap

/-!
# Caches whose entries expire

An entry is a value and the time it is served until. What a cache serves is what it was once filled
with, so a property of what is put in, for as long as it is served, is a property of every answer.
-/

/-- Values, each with the time from which on it is not served any more. -/
abbrev TtlCache (κ ν τ : Type) [Ord κ] := HashMap κ (ν × τ)

namespace TtlCache

variable {κ ν τ : Type} [Ord κ] [Std.TransOrd κ]

/-- Every entry is good for its key until it expires. -/
def Holds (good : κ → ν → τ → Prop) (cache : TtlCache κ ν τ) : Prop :=
  ∀ k v expires, cache[k]? = some (v, expires) → good k v expires

variable {cache : TtlCache κ ν τ} {k : κ} {now : τ} {v : ν} {good : κ → ν → τ → Prop}

theorem holds_empty : Holds good (∅ : TtlCache κ ν τ) := by
  intro k v expires h
  rw [Std.ExtTreeMap.getElem?_empty] at h
  cases h

theorem Holds.insert_iff [Std.LawfulEqOrd κ] [DecidableEq κ] (h : Holds good cache) (v : ν)
    (expires : τ) : Holds good (cache.insert k (v, expires)) ↔ good k v expires := by
  constructor
  · intro hinserted
    refine hinserted k v expires ?_
    rw [HashMap.getElem?_insert, if_pos rfl]
  · intro hgood k' v' expires' hentry
    rw [HashMap.getElem?_insert] at hentry
    by_cases hk : k' = k
    · rw [if_pos hk] at hentry
      obtain ⟨rfl, rfl⟩ := Prod.mk.inj (Option.some.inj hentry)
      exact hk ▸ hgood
    · rw [if_neg hk] at hentry
      exact h k' v' expires' hentry

variable [LT τ] [DecidableLT τ] {fetched : Option (ν × τ)}

def fresh? (cache : TtlCache κ ν τ) (k : κ) (now : τ) : Option ν :=
  match cache[k]? with
  | some (v, expires) => if now < expires then some v else none
  | none => none

/-- Serve a fresh entry; without one, serve what was fetched and keep it. -/
def serve (cache : TtlCache κ ν τ) (k : κ) (now : τ) (fetched : Option (ν × τ)) :
    TtlCache κ ν τ × Option ν :=
  match cache.fresh? k now with
  | some v => (cache, some v)
  | none =>
      match fetched with
      | some (v, expires) => (cache.insert k (v, expires), some v)
      | none => (cache, none)

theorem fresh?_eq_some :
    cache.fresh? k now = some v ↔ ∃ expires, cache[k]? = some (v, expires) ∧ now < expires := by
  rw [fresh?]
  cases hentry : cache[k]? with
  | none => simp
  | some entry =>
      obtain ⟨w, expires⟩ := entry
      by_cases hfresh : now < expires
      · simp only [hfresh, if_true, Option.some.injEq, Prod.mk.injEq]
        exact ⟨fun h => ⟨expires, ⟨h, rfl⟩, hfresh⟩, fun ⟨_, h, _⟩ => h.1⟩
      · simp [hfresh]

theorem serve_of_fresh (h : cache.fresh? k now = some v) :
    cache.serve k now fetched = (cache, some v) := by
  simp only [serve, h]

theorem serve_of_not_fresh (h : cache.fresh? k now = none) (v : ν) (expires : τ) :
    cache.serve k now (some (v, expires)) = (cache.insert k (v, expires), some v) := by
  simp only [serve, h]

theorem serve_nothing (h : cache.fresh? k now = none) :
    cache.serve k now none = (cache, none) := by
  simp only [serve, h]

/-- An answer is a fresh entry, or there is none and it was just fetched. -/
theorem serve_eq_some (h : (cache.serve k now fetched).2 = some v) :
    (∃ expires, cache[k]? = some (v, expires) ∧ now < expires) ∨
      cache.fresh? k now = none ∧ ∃ expires, fetched = some (v, expires) := by
  cases hfresh : cache.fresh? k now with
  | some w =>
      rw [serve_of_fresh hfresh] at h
      obtain rfl := Option.some.inj h
      exact .inl (fresh?_eq_some.mp hfresh)
  | none =>
      refine .inr ⟨rfl, ?_⟩
      cases fetched with
      | none =>
          rw [serve_nothing hfresh] at h
          cases h
      | some entry =>
          obtain ⟨w, expires⟩ := entry
          rw [serve_of_not_fresh hfresh] at h
          obtain rfl := Option.some.inj h
          exact ⟨expires, rfl⟩

/-- The cache stays good exactly when what is fetched on a miss is. -/
theorem Holds.serve_iff [Std.LawfulEqOrd κ] [DecidableEq κ] (h : Holds good cache) :
    Holds good (cache.serve k now fetched).1 ↔
      (cache.fresh? k now = none → ∀ v expires, fetched = some (v, expires) → good k v expires) := by
  cases hfresh : cache.fresh? k now with
  | some w =>
      rw [serve_of_fresh hfresh]
      exact iff_of_true h fun hmiss => absurd hmiss (Option.some_ne_none w)
  | none =>
      cases fetched with
      | none =>
          rw [serve_nothing hfresh]
          exact iff_of_true h fun _ v expires hfetched => absurd hfetched.symm (Option.some_ne_none _)
      | some entry =>
          obtain ⟨w, expires⟩ := entry
          rw [serve_of_not_fresh hfresh, h.insert_iff]
          constructor
          · rintro hgood - v expires' hfetched
            obtain ⟨rfl, rfl⟩ := Prod.mk.inj (Option.some.inj hfetched)
            exact hgood
          · intro hgood
            exact hgood rfl w expires rfl

end TtlCache
