import Mathlib.Data.Int.Order.Basic
import Mathlib.Data.List.Lex
import Mathlib.Data.List.Pairwise
import Mathlib.Data.Nat.Basic
import Mathlib.Data.Prod.Lex
import Mathlib.Data.String.Basic
import Thicket.Lib.Result
import Thicket.Py.Value

/-!
# Sorting by a key

`sorted` compares keys with `<` and raises where that raises. Numbers, byte strings, strings and
lists can each be compared among themselves. What is compared on lists is their first difference, so
where comparisons succeed they are those of a linear order, however deep the lists are.
-/

namespace Thicket.Py

open Cbor (Bytes)
open Result

/-- Two keys that can be compared, whichever comes first. -/
def comparable (a b : Value) : Bool := (Value.lt a b).isOk && (Value.lt b a).isOk

theorem comparable_comm (a b : Value) : comparable a b = comparable b a := Bool.and_comm _ _

/-- `sorted(values, key=key)` -/
def sortedBy (key : Value → Except Exc Value) (values : List Value) : Except Exc (List Value) := do
  let keyed ← values.mapM fun v => do return (← key v, v)
  if keyed.Pairwise fun a b => comparable a.1 b.1 then
    return (keyed.mergeSort fun a b => !valueOr (Value.lt b.1 a.1) false).map Prod.snd
  else .error .typeError

/-! ### A linear order -/

/-- Where a value that nests less than `n` deep stands among those it can be compared with. -/
def Rank : Nat → Type
  | 0 => Unit
  | n + 1 => ℤ ×ₗ (List ℕ ×ₗ (String ×ₗ List (Rank n)))

noncomputable instance Rank.linearOrder : (n : Nat) → LinearOrder (Rank n)
  | 0 => inferInstanceAs (LinearOrder Unit)
  | n + 1 =>
      haveI := linearOrder n
      inferInstanceAs (LinearOrder (ℤ ×ₗ (List ℕ ×ₗ (String ×ₗ List (Rank n)))))

namespace Rank

variable {n : Nat}

/-- A value has one of these; the others are left as they are in every value. -/
def mk (m : ℤ) (bs : List ℕ) (s : String) (items : List (Rank n)) : Rank (n + 1) :=
  toLex (m, toLex (bs, toLex (s, items)))

variable {m m' : ℤ} {bs bs' : List ℕ} {s s' : String} {items items' : List (Rank n)}

theorem mk_lt_mk : mk m bs s items < mk m' bs' s' items' ↔
    m < m' ∨ m = m' ∧ (bs < bs' ∨ bs = bs' ∧ (s < s' ∨ s = s' ∧ items < items')) := by
  show (toLex (m, toLex (bs, toLex (s, items))) : ℤ ×ₗ (List ℕ ×ₗ (String ×ₗ List (Rank n)))) <
    toLex (m', toLex (bs', toLex (s', items'))) ↔ _
  simp only [Prod.Lex.toLex_lt_toLex]

theorem mk_inj : mk m bs s items = mk m' bs' s' items' ↔
    m = m' ∧ bs = bs' ∧ s = s' ∧ items = items' := by
  show (toLex (m, toLex (bs, toLex (s, items))) : ℤ ×ₗ (List ℕ ×ₗ (String ×ₗ List (Rank n)))) =
    toLex (m', toLex (bs', toLex (s', items'))) ↔ _
  simp only [toLex_inj, Prod.mk.injEq]

end Rank

def rank : (n : Nat) → Value → Rank n
  | 0, _ => ()
  | _ + 1, .bool b => .mk (if b then 1 else 0) [] "" []
  | _ + 1, .int m => .mk m [] "" []
  | _ + 1, .bytes bs => .mk 0 (bs.map UInt8.toNat) "" []
  | _ + 1, .str s => .mk 0 [] s []
  | n + 1, .list items => .mk 0 [] "" (items.map (rank n))
  | _ + 1, .none => .mk 0 [] "" []
  | _ + 1, .dict _ => .mk 0 [] "" []

theorem rank_of_asInt (n : Nat) {v : Value} {m : Int} (h : v.asInt = some m) :
    rank (n + 1) v = .mk m [] "" [] := by
  cases v with
  | bool b => cases h; rfl
  | int k => cases h; rfl
  | _ => cases h

theorem eqItems_map {α : Type} {f : Value → α} (hf : ∀ a b, Value.eq a b = true → f a = f b)
    {as bs : List Value} (h : Value.eqItems as bs = true) : as.map f = bs.map f := by
  induction as generalizing bs with
  | nil =>
      cases bs with
      | nil => rfl
      | cons b bs => cases h
  | cons a as ih =>
      cases bs with
      | nil => cases h
      | cons b bs =>
          rw [Value.eqItems, Bool.and_eq_true] at h
          rw [List.map_cons, List.map_cons, hf a b h.1, ih h.2]

/-- Values that are equal have one rank. -/
theorem rank_of_eq (n : Nat) {a b : Value} (h : Value.eq a b = true) : rank n a = rank n b := by
  induction n generalizing a b with
  | zero => rfl
  | succ n ih =>
      cases a with
      | none => cases b <;> first | rfl | cases h
      | bool x =>
          have hb : b.asInt = some (if x then 1 else 0) := by simpa [Value.eq] using h
          rw [rank_of_asInt n hb, rank_of_asInt n (show (Value.bool x).asInt = _ from rfl)]
      | int m =>
          have hb : b.asInt = some m := by simpa [Value.eq] using h
          rw [rank_of_asInt n hb, rank_of_asInt n (show (Value.int m).asInt = _ from rfl)]
      | bytes bs =>
          cases b with
          | bytes cs =>
              obtain rfl : bs = cs := by simpa [Value.eq] using h
              rfl
          | _ => cases h
      | str s =>
          cases b with
          | str t =>
              obtain rfl : s = t := by simpa [Value.eq] using h
              rfl
          | _ => cases h
      | list items =>
          cases b with
          | list others =>
              rw [Value.eq] at h
              rw [rank, rank, eqItems_map (fun a b => ih) h]
          | _ => cases h
      | dict entries => cases b <;> first | rfl | cases h

theorem map_toNat_lt {bs cs : Bytes} : bs.map UInt8.toNat < cs.map UInt8.toNat ↔ bs < cs := by
  induction bs generalizing cs with
  | nil => cases cs <;> simp
  | cons b bs ih =>
      cases cs with
      | nil => simp
      | cons c cs =>
          rw [List.map_cons, List.map_cons, List.cons_lt_cons_iff, List.cons_lt_cons_iff, ih,
            UInt8.lt_iff_toNat_lt, UInt8.toNat_inj]

/-- A comparison that succeeds is that of the ranks. -/
structure Compares (n : Nat) (a b : Value) (before : Bool) : Prop where
  lt_iff : before = true ↔ rank n a < rank n b
  eq_of_rank : rank n a = rank n b → Value.eq a b = true

theorem eq_of_asInt {a b : Value} {m : Int} (ha : a.asInt = some m) (hb : b.asInt = some m) :
    Value.eq a b = true := by
  cases a with
  | bool x =>
      obtain rfl := Option.some.inj ha
      simpa [Value.eq] using hb
  | int k =>
      obtain rfl := Option.some.inj ha
      simpa [Value.eq] using hb
  | _ => cases ha

theorem compares_numbers (n : Nat) {a b : Value} {k m : Int} (ha : a.asInt = some k)
    (hb : b.asInt = some m) : Compares (n + 1) a b (decide (k < m)) := by
  constructor
  · rw [rank_of_asInt n ha, rank_of_asInt n hb, Rank.mk_lt_mk]
    simp
  · intro heq
    rw [rank_of_asInt n ha, rank_of_asInt n hb] at heq
    obtain ⟨rfl, -⟩ := Rank.mk_inj.mp heq
    exact eq_of_asInt ha hb

theorem compares_str (n : Nat) (s t : String) :
    Compares (n + 1) (.str s) (.str t) (decide (s < t)) := by
  constructor
  · rw [decide_eq_true_iff, rank, rank, Rank.mk_lt_mk]
    simp only [lt_self_iff_false, true_and, false_or, and_false, or_false]
  · intro heq
    obtain ⟨-, -, rfl, -⟩ := Rank.mk_inj.mp heq
    exact eq_str_iff.mpr rfl

theorem compares_bytes (n : Nat) (bs cs : Bytes) :
    Compares (n + 1) (.bytes bs) (.bytes cs) (decide (bs < cs)) := by
  constructor
  · rw [decide_eq_true_iff, rank, rank, Rank.mk_lt_mk, map_toNat_lt]
    simp only [lt_self_iff_false, true_and, false_or, and_false, or_false]
  · intro heq
    obtain ⟨-, hbytes, -, -⟩ := Rank.mk_inj.mp heq
    have hinj : Function.Injective UInt8.toNat := fun a b h => UInt8.toNat_inj.mp h
    obtain rfl := List.map_injective_iff.mpr hinj hbytes
    exact eq_bytes_iff.mpr rfl

theorem asInt_of_lt {a b : Value} {k : Int} {before : Bool} (ha : a.asInt = some k)
    (h : Value.lt a b = .ok before) : ∃ m, b.asInt = some m ∧ before = decide (k < m) := by
  cases a with
  | bool x =>
      obtain rfl := Option.some.inj ha
      cases b with
      | bool y => exact ⟨_, rfl, (Except.ok.inj h).symm⟩
      | int m => exact ⟨_, rfl, (Except.ok.inj h).symm⟩
      | _ => cases h
  | int n =>
      obtain rfl := Option.some.inj ha
      cases b with
      | bool y => exact ⟨_, rfl, (Except.ok.inj h).symm⟩
      | int m => exact ⟨_, rfl, (Except.ok.inj h).symm⟩
      | _ => cases h
  | _ => cases ha

/-- What decides is the first place where the items are not equal. -/
theorem compares_items {n : Nat} {as bs : List Value} {before : Bool}
    (hitems : ∀ a ∈ as, ∀ b x, Value.lt a b = .ok x → Compares n a b x)
    (h : Value.ltItems as bs = .ok before) :
    (before = true ↔ as.map (rank n) < bs.map (rank n)) ∧
      (as.map (rank n) = bs.map (rank n) → Value.eqItems as bs = true) := by
  induction as generalizing bs with
  | nil =>
      cases bs with
      | nil =>
          obtain rfl := Except.ok.inj h
          simp [Value.eqItems]
      | cons b bs =>
          obtain rfl := Except.ok.inj h
          simp
  | cons a as ih =>
      cases bs with
      | nil =>
          obtain rfl := Except.ok.inj h
          simp
      | cons b bs =>
          rw [Value.ltItems] at h
          rw [List.map_cons, List.map_cons, List.cons_lt_cons_iff, List.cons.injEq, Value.eqItems]
          by_cases heq : Value.eq a b = true
          · rw [if_pos heq] at h
            obtain ⟨hlt, hsame⟩ := ih (fun a ha => hitems a (List.mem_cons_of_mem _ ha)) h
            simp only [rank_of_eq n heq, lt_self_iff_false, true_and, false_or, heq, Bool.true_and]
            exact ⟨hlt, hsame⟩
          · rw [if_neg heq] at h
            have hcompares := hitems a List.mem_cons_self b before h
            have hne : rank n a ≠ rank n b := fun hrank => heq (hcompares.eq_of_rank hrank)
            simp only [hne, false_and, or_false]
            exact ⟨hcompares.lt_iff, False.elim⟩

theorem compares_list {n : Nat} {as bs : List Value} {before : Bool}
    (hitems : ∀ a ∈ as, ∀ b x, Value.lt a b = .ok x → Compares n a b x)
    (h : Value.ltItems as bs = .ok before) : Compares (n + 1) (.list as) (.list bs) before := by
  obtain ⟨hlt, hsame⟩ := compares_items hitems h
  constructor
  · rw [hlt, rank, rank, Rank.mk_lt_mk]
    simp only [lt_self_iff_false, true_and, false_or]
  · intro heq
    obtain ⟨-, -, -, hmap⟩ := Rank.mk_inj.mp heq
    exact hsame hmap

/-- The induction is on how deep `a` is nested. -/
theorem compares_of_lt {n : Nat} {a b : Value} {before : Bool} (hsize : sizeOf a ≤ n)
    (h : Value.lt a b = .ok before) : Compares n a b before := by
  induction n generalizing a b before with
  | zero => cases a <;> simp at hsize
  | succ n ih =>
      cases a with
      | str s =>
          cases b with
          | str t =>
              obtain rfl := Except.ok.inj h
              exact compares_str n s t
          | _ => cases h
      | bytes bs =>
          cases b with
          | bytes cs =>
              obtain rfl := Except.ok.inj h
              exact compares_bytes n bs cs
          | _ => cases h
      | list items =>
          cases b with
          | list others =>
              rw [Value.lt] at h
              apply compares_list _ h
              intro a ha b x hx
              have hlt := List.sizeOf_lt_of_mem ha
              rw [Value.list.sizeOf_spec] at hsize
              exact ih (by omega) hx
          | _ => cases h
      | none => cases h
      | dict entries => cases h
      | bool x =>
          obtain ⟨m, hm, rfl⟩ := asInt_of_lt (show (Value.bool x).asInt = some _ from rfl) h
          exact compares_numbers n rfl hm
      | int k =>
          obtain ⟨m, hm, rfl⟩ := asInt_of_lt (show (Value.int k).asInt = some _ from rfl) h
          exact compares_numbers n rfl hm

/-! ### What is sorted -/

section

variable {key : Value → Except Exc Value} {keyOf : Value → Value} {values : List Value} {n : Nat}

theorem valueOr_lt {a b : Value} (hsize : sizeOf a ≤ n)
    (h : (Value.lt a b).isOk = true ∨ a = b) :
    valueOr (Value.lt a b) false = decide (rank n a < rank n b) := by
  cases hlt : Value.lt a b with
  | ok before =>
      have hiff := (compares_of_lt hsize hlt).lt_iff
      rw [valueOr, Bool.eq_iff_iff, hiff, decide_eq_true_iff]
  | error e =>
      rw [hlt] at h
      obtain rfl := h.resolve_left nofun
      simp [valueOr]

/-- On keys that can be compared, sorting follows the ranks. -/
theorem mergeSort_eq (hn : ∀ v ∈ values, sizeOf (keyOf v) ≤ n)
    (h : values.Pairwise fun a b => comparable (keyOf a) (keyOf b)) :
    values.mergeSort (fun a b => !valueOr (Value.lt (keyOf b) (keyOf a)) false) =
      values.mergeSort fun a b => decide (rank n (keyOf a) ≤ rank n (keyOf b)) := by
  have hsymm : Std.Symm fun a b : Value =>
      comparable (keyOf a) (keyOf b) = true ∨ keyOf a = keyOf b := by
    constructor
    intro a b hab
    apply hab.imp
    · intro hc
      rwa [comparable_comm]
    · exact Eq.symm
  have hall := (h.imp .inl).forall_of_forall (R := fun a b =>
    comparable (keyOf a) (keyOf b) = true ∨ keyOf a = keyOf b) fun _ _ => .inr rfl
  have hle : ∀ a ∈ values, ∀ b ∈ values, (!valueOr (Value.lt (keyOf b) (keyOf a)) false) =
      decide (rank n (keyOf a) ≤ rank n (keyOf b)) := by
    intro a ha b hb
    have hok : (Value.lt (keyOf b) (keyOf a)).isOk = true ∨ keyOf b = keyOf a := by
      rcases hall hb ha with hc | hc
      · exact .inl (Bool.and_eq_true_iff.mp hc).1
      · exact .inr hc
    rw [valueOr_lt (hn b hb) hok, Bool.eq_iff_iff]
    simp
  have hsame := List.map_mergeSort (f := id)
    (s := fun a b => decide (rank n (keyOf a) ≤ rank n (keyOf b))) hle
  rw [List.map_id, List.map_id] at hsame
  exact hsame

theorem exists_sizeOf_le (keyOf : Value → Value) (values : List Value) :
    ∃ n, ∀ v ∈ values, sizeOf (keyOf v) ≤ n := by
  induction values with
  | nil => exact ⟨0, nofun⟩
  | cons v values ih =>
      obtain ⟨n, hn⟩ := ih
      refine ⟨max (sizeOf (keyOf v)) n, ?_⟩
      intro w hw
      rcases List.mem_cons.mp hw with rfl | hw
      · exact Nat.le_max_left _ _
      · exact (hn w hw).trans (Nat.le_max_right _ _)

/-- Nothing comes before a smaller one. -/
theorem pairwise_mergeSort_lt (h : values.Pairwise fun a b => comparable (keyOf a) (keyOf b)) :
    (values.mergeSort fun a b => !valueOr (Value.lt (keyOf b) (keyOf a)) false).Pairwise
      fun a b => Value.lt (keyOf b) (keyOf a) ≠ .ok true := by
  obtain ⟨n, hn⟩ := exists_sizeOf_le keyOf values
  rw [mergeSort_eq hn h]
  have hsorted : (values.mergeSort fun a b =>
      decide (rank n (keyOf a) ≤ rank n (keyOf b))).Pairwise
        fun a b => decide (rank n (keyOf a) ≤ rank n (keyOf b)) := by
    apply List.pairwise_mergeSort
    · intro a b c hab hbc
      rw [decide_eq_true_iff] at hab hbc ⊢
      exact hab.trans hbc
    · intro a b
      rw [← Bool.decide_or, decide_eq_true_iff]
      exact le_total _ _
  apply hsorted.imp_of_mem
  intro a b ha hb hle hlt
  have hbn := hn b (List.mem_mergeSort.mp hb)
  have hrank := (compares_of_lt hbn hlt).lt_iff.mp rfl
  exact absurd (of_decide_eq_true hle) (not_le_of_gt hrank)

theorem sortedBy_eq (hkey : ∀ v ∈ values, key v = .ok (keyOf v)) : sortedBy key values =
    if values.Pairwise fun a b => comparable (keyOf a) (keyOf b) then
      .ok (values.mergeSort fun a b => !valueOr (Value.lt (keyOf b) (keyOf a)) false)
    else .error .typeError := by
  have hkeyed : values.mapM (fun v => do return (← key v, v)) =
      (.ok (values.map fun v => (keyOf v, v)) : Except Exc _) := by
    apply mapM_eq_ok
    intro v hv
    rw [hkey v hv]
    rfl
  rw [sortedBy, hkeyed]
  show (if (values.map fun v => (keyOf v, v)).Pairwise _ then _ else _) = _
  simp only [List.pairwise_map]
  split_ifs
  · have hsort := List.map_mergeSort (l := values) (f := fun v => (keyOf v, v))
      (r := fun a b => !valueOr (Value.lt (keyOf b) (keyOf a)) false)
      (s := fun a b => !valueOr (Value.lt b.1 a.1) false) fun _ _ _ _ => rfl
    have hsnd : Prod.snd ∘ (fun v => (keyOf v, v)) = id := rfl
    show Except.ok _ = _
    rw [← hsort, List.map_map, hsnd, List.map_id]
  · rfl

theorem perm_of_sortedBy {sorted : List Value} (h : sortedBy key values = .ok sorted) :
    sorted.Perm values := by
  obtain ⟨keyed, hkeyed, -⟩ := bind_eq_ok.mp h
  have hkey : ∀ v ∈ values, key v = .ok (valueOr (key v) .none) := by
    intro v hv
    obtain ⟨entry, hentry⟩ := ok_of_mapM hkeyed v hv
    obtain ⟨k, hk, -⟩ := bind_eq_ok.mp hentry
    rw [hk]
    rfl
  rw [sortedBy_eq hkey] at h
  split_ifs at h
  obtain rfl := Except.ok.inj h
  exact List.mergeSort_perm _ _

end

end Thicket.Py
