import Thicket.Lib.HashMap
import Mathlib.Logic.Function.Basic
import Mathlib.Tactic.Common

/-!
# Tables of waiters

A table files a waiter under a key until it has its answer. The table is exact when it holds an
entry for each waiter that is still owed one and for nobody else. Each way to change the table keeps
that under a condition of its own, and only under it.
-/

namespace WaiterTable

variable {κ : Type} [Ord κ] [Std.TransOrd κ]

/-- `waiting n` is the key that waiter `n` waits under, if it does. -/
def Exact (table : HashMap κ Nat) (waiting : Nat → Option κ) : Prop :=
  ∀ (key : κ) (n : Nat), table[key]? = some n ↔ waiting n = some key

theorem exact_empty : Exact (∅ : HashMap κ Nat) fun _ => none := by
  intro key n
  simp

variable [Std.LawfulEqOrd κ] [DecidableEq κ] {table : HashMap κ Nat} {waiting : Nat → Option κ}
  {key : κ} {n : Nat}

/-- A waiter can be filed where nobody else is. -/
theorem Exact.register_iff (h : Exact table waiting) (hnew : waiting n = none) :
    Exact (table.insert key n) (Function.update waiting n (some key)) ↔ table[key]? = none := by
  constructor
  · intro hexact
    by_contra hsome
    obtain ⟨m, hm⟩ := Option.ne_none_iff_exists'.mp hsome
    have hmn : m ≠ n := by
      rintro rfl
      rw [(h key m).mp hm] at hnew
      cases hnew
    -- the one that was replaced waits on
    have hreplaced := (hexact key m).mpr (by rw [Function.update_of_ne hmn, (h key m).mp hm])
    rw [HashMap.getElem?_insert, if_pos rfl] at hreplaced
    exact hmn (Option.some.inj hreplaced).symm
  · intro hnone k m
    rw [HashMap.getElem?_insert]
    by_cases hm : m = n
    · subst hm
      rw [Function.update_self]
      split_ifs with hk
      · exact iff_of_true rfl (congrArg some hk.symm)
      · refine iff_of_false ?_ fun heq => hk (Option.some.inj heq).symm
        intro hfiled
        rw [(h k m).mp hfiled] at hnew
        cases hnew
    · rw [Function.update_of_ne hm]
      split_ifs with hk
      · refine iff_of_false (fun heq => hm (Option.some.inj heq).symm) ?_
        intro hwaits
        rw [← hk, (h k m).mpr hwaits] at hnone
        cases hnone
      · exact h k m

/-- A key can be taken out for the waiter that waits under it, if for anybody. -/
theorem Exact.withdraw_iff (h : Exact table waiting) (hkey : ∀ k, waiting n = some k → k = key) :
    Exact (table.erase key) (Function.update waiting n none) ↔
      ∀ m, table[key]? = some m → m = n := by
  constructor
  · intro hexact m hm
    by_contra hmn
    have hkept := (hexact key m).mpr (by rw [Function.update_of_ne hmn, (h key m).mp hm])
    rw [HashMap.getElem?_erase, if_pos rfl] at hkept
    cases hkept
  · intro hown k m
    rw [HashMap.getElem?_erase]
    by_cases hm : m = n
    · subst hm
      rw [Function.update_self]
      split_ifs with hk
      · exact iff_of_false nofun nofun
      · refine iff_of_false ?_ nofun
        intro hfiled
        exact hk (hkey k ((h k m).mp hfiled))
    · rw [Function.update_of_ne hm]
      split_ifs with hk
      · refine iff_of_false nofun ?_
        intro hwaits
        exact hm (hown m (hk ▸ (h k m).mpr hwaits))
      · exact h k m

omit [Std.LawfulEqOrd κ] [DecidableEq κ] in
/-- Who leaves without touching the table must not have been waiting. -/
theorem Exact.leave_iff (h : Exact table waiting) :
    Exact table (Function.update waiting n none) ↔ waiting n = none := by
  constructor
  · intro hexact
    by_contra hsome
    obtain ⟨k, hk⟩ := Option.ne_none_iff_exists'.mp hsome
    have hleft := (hexact k n).mp ((h k n).mpr hk)
    rw [Function.update_self] at hleft
    cases hleft
  · intro hnone
    rw [← hnone, Function.update_eq_self]
    exact h

/-- An answered waiter is taken out. -/
theorem Exact.answer (h : Exact table waiting) (hn : table[key]? = some n) :
    Exact (table.erase key) (Function.update waiting n none) := by
  apply (h.withdraw_iff ?_).mpr
  · intro m hm
    exact Option.some.inj (hm.symm.trans hn)
  · intro k hk
    rw [(h key n).mp hn] at hk
    exact (Option.some.inj hk).symm

end WaiterTable
