import Thicket.Core.Wire
import Thicket.Py.Federation
import Thicket.Py.Wire

/-!
# Values of the core in Python

What the built-in operations and the shared helpers of the SDK do on the dictionaries that values of
the core decode to.
-/

namespace Thicket.Py

open Cbor (Bytes)
open Result Serde

variable {crypto : Crypto}

/-! ### Checks that return `False` -/

@[simp] theorem returnFalse_iff {c : Bool} {x : Except Exc Bool} :
    (if c = true then pure false else x) = .ok true ↔ c = false ∧ x = .ok true := by
  cases c <;> simp [pure, Except.pure]

/-- A computed condition that has to hold for the function to go on. -/
@[simp] theorem exists_passed {x : Except Exc Bool} {p : Prop} :
    (∃ b, x = .ok b ∧ (!b) = false ∧ p) ↔ x = .ok true ∧ p := by
  simp

/-! ### Values -/

@[simp] theorem eq_bytes (a b : Bytes) : Value.eq (.bytes a) (.bytes b) = decide (a = b) := by
  rw [Value.eq]
  exact beq_eq_decide _ _

@[simp] theorem eq_str (a b : String) : Value.eq (.str a) (.str b) = decide (a = b) := by
  rw [Value.eq]
  exact beq_eq_decide _ _

theorem of_list {α : Type} [Serialize α] (items : List α) :
    Value.of items = .list (items.map Value.of) := by
  simp only [Value.of, toCbor, Value.ofItem, Value.ofItems_eq_map, List.map_map]
  rfl

theorem of_set (set : BTreeSet String) : Value.of set = .list (set.toList.map .str) := by
  simp only [Value.of, toCbor, Value.ofItem, Value.ofItems_eq_map, List.map_map, Function.comp_def]

theorem of_map (map : BTreeMap String String) :
    Value.of map = .dict (map.toList.map fun (k, v) => (.str k, .str v)) := by
  simp only [Value.of, toCbor, Value.ofItem, Value.ofEntries_eq_map, List.map_map,
    Function.comp_def]

/-- `(map or {})` -/
theorem orElse_map (map : BTreeMap String String) :
    (Value.of map).orElse (.dict []) = Value.of map := by
  rw [of_map]
  unfold Value.orElse
  cases map.toList <;> rfl

theorem find?_toList (map : BTreeMap String String) (key : String) :
    map.toList.find? (fun e => e.1 = key) = map[key]?.map fun v => (key, v) := by
  cases hfind : map.toList.find? fun e => e.1 = key with
  | none =>
      cases hget : map[key]? with
      | none => rfl
      | some v =>
          have hmem := Std.ExtTreeMap.mem_toList_iff_getElem?_eq_some.mpr hget
          simpa using List.find?_eq_none.mp hfind _ hmem
  | some e =>
      obtain ⟨k, v⟩ := e
      have hmem := Std.ExtTreeMap.mem_toList_iff_getElem?_eq_some.mp (List.mem_of_find?_eq_some hfind)
      obtain rfl : k = key := by simpa using List.find?_some hfind
      rw [hmem]
      rfl

/-- A lookup among the entries of a string map is a lookup in the map. -/
theorem get_map (map : BTreeMap String String) (key : String) :
    (Value.of map).get (.str key) .none = .ok ((map[key]?.map Value.str).getD .none) := by
  have hfind : (map.toList.map fun e => (Value.str e.1, Value.str e.2)).find?
        (fun e => e.1.eq (.str key)) = (map[key]?).map fun v => (.str key, .str v) := by
    rw [List.find?_map]
    simp only [Function.comp_def, eq_str, find?_toList, Option.map_map]
  rw [of_map]
  simp only [Value.get, Value.isHashable, if_true, hfind, Option.map_map, Function.comp_def]

/-! ### Structures -/

section Structures

variable {α : Type} [Serialize α] (name : String)

/-- The entries of a structure's dictionary. -/
def entriesOf (fs : List (String × Cbor.Value)) : List (Value × Value) :=
  fs.map fun f => (.str f.1, .ofItem f.2)

theorem ofItem_struct (fs : List (String × Cbor.Value)) :
    Value.ofItem (struct fs) = .dict (entriesOf fs) := by
  simp only [struct, Value.ofItem, Value.ofEntries_eq_map, List.map_map]
  rfl

theorem of_struct {a : α} {fs : List (String × Cbor.Value)} (h : toCbor a = struct fs) :
    Value.of a = .dict (entriesOf fs) := by
  rw [Value.of, h, ofItem_struct]

@[simp] theorem entriesOf_append (fs gs : List (String × Cbor.Value)) :
    entriesOf (fs ++ gs) = entriesOf fs ++ entriesOf gs := List.map_append

@[simp] theorem entriesOf_field (a : α) : entriesOf (field name a) = [(.str name, .of a)] := by
  rfl

/-- The keyword argument for an optional field. -/
def Value.ofOption (a : Option α) : Value := a.elim .none Value.of

/-- An argument is left out with the field, since no field is written as null. -/
@[simp] theorem entriesOf_optionalField [Deserialize α] [LawfulDeserialize α] [NonNull α]
    (a : Option α) : entriesOf (optionalField name a) = optionalEntry name (.ofOption a) := by
  cases a with
  | none => rfl
  | some a =>
      have hnull : toCbor a ≠ .null := by
        intro hnull
        have hview := ofCbor_view .cbor a
        rw [Format.view, hnull, NonNull.ofCbor_null] at hview
        cases hview
      change [(Value.str name, Value.of a)] = optionalEntry name (.of a)
      unfold Value.of
      cases htoCbor : toCbor a with
      | null => exact absurd htoCbor hnull
      | bool b => rfl
      | uint n => rfl
      | bytes bs => rfl
      | text s => rfl
      | array items => rfl
      | map entries => rfl

end Structures

/-! ### Signatures -/

/-- Both sides sign the same bytes. -/
theorem signingInput_of {α : Type} [Serialize α] {domain : String} {a : α} {msg : Bytes} :
    signingInput domain (.of a) = .ok msg ↔ signingBytes domain a = .ok msg := by
  simp only [signingInput, signingBytes, bind_eq_ok, pure_eq_ok, okOr_eq_ok, Value.of,
    encode_ofItem]

theorem verifySig_iff {pub msg sig : Bytes} :
    verifySig crypto (.bytes pub) msg (.bytes sig) = true ↔
      verifySignature crypto pub msg sig = .ok () := by
  change (verifyRaw crypto pub msg sig).isOk = true ↔ verifyRaw crypto pub msg sig = .ok ()
  cases verifyRaw crypto pub msg sig with
  | error e => exact ⟨fun h => absurd h Bool.false_ne_true, fun h => nomatch h⟩
  | ok u => exact ⟨fun _ => rfl, fun _ => rfl⟩

/-! ### Times -/

theorem intLt_u64 (m n : UInt64) : Value.intLt m.toNat (.int n.toNat) = .ok (decide (m < n)) := by
  simp [Value.intLt, Value.asInt, UInt64.lt_iff_toNat_lt]

theorem intGt_u64 (m n : UInt64) : Value.intGt m.toNat (.int n.toNat) = .ok (decide (m > n)) := by
  simp [Value.intGt, Value.asInt, UInt64.lt_iff_toNat_lt]

/-! ### Endorsements -/

section Endorsement

variable {e : KeyEndorsement}

theorem endorsement_workingPub :
    (Value.of e).getItem "working_pub" = .ok (.bytes e.workingPub) := by
  simp [Value.of, Value.getItem_struct, Value.ofItem]

theorem endorsement_notBefore :
    (Value.of e).getItem "not_before" = .ok (.int e.notBefore.toNat) := by
  simp [Value.of, Value.getItem_struct, Value.ofItem]

theorem endorsement_notAfter :
    (Value.of e).getItem "not_after" = .ok (.int e.notAfter.toNat) := by
  simp [Value.of, Value.getItem_struct, Value.ofItem]

theorem endorsement_rootSig : (Value.of e).getItem "root_sig" = .ok (.bytes e.rootSig) := by
  simp [Value.of, Value.getItem_struct, Value.ofItem]

end Endorsement

theorem nextEndorsement_of (signer : Bytes) (endorsements : List KeyEndorsement) :
    nextEndorsement (.bytes signer) (endorsements.map .of) =
      .ok ((endorsements.find? fun e => e.workingPub == signer).map .of) := by
  induction endorsements with
  | nil => rfl
  | cons e endorsements ih =>
      rw [List.map_cons, nextEndorsement, endorsement_workingPub]
      simp only [bind, Except.bind, eq_bytes, ih, List.find?_cons, beq_eq_decide]
      cases decide (e.workingPub = signer) <;> rfl

theorem of_endorsementView (e : KeyEndorsement) : Value.of e.view = .dict [
    (.str "working_pub", .bytes e.workingPub), (.str "not_before", .int e.notBefore.toNat),
    (.str "not_after", .int e.notAfter.toNat)] := by
  rfl

end Thicket.Py
