import Thicket.Lib.Cbor
import Std.Data.ExtTreeMap
import Std.Data.ExtTreeSet
import Std.Data.ExtTreeMap.Lemmas
import Std.Data.ExtTreeSet.Lemmas

/-!
# Derived serialization into CBOR

What a derived serializer does with a value: a structure is a map from its field names, in
declaration order, a skipped optional field leaves no entry, an ordered set is the array of its
elements in order and an ordered map is the map of its entries in key order. A type is serialized
lawfully when the data item determines the value.
-/

namespace Serde

open Cbor

/-- A sorted set; two are equal when they have the same elements. -/
abbrev BTreeSet (α : Type) [Ord α] := Std.ExtTreeSet α

/-- A map sorted by key; two are equal when they have the same entries. -/
abbrev BTreeMap (α β : Type) [Ord α] := Std.ExtTreeMap α β

class Serialize (α : Type) where
  toCbor : α → Value

export Serialize (toCbor)

class LawfulSerialize (α : Type) [Serialize α] : Prop where
  toCbor_injective : ∀ {a b : α}, toCbor a = toCbor b → a = b

export LawfulSerialize (toCbor_injective)

attribute [simp] Serialize.toCbor

/-- A structure is the map from its field names to its fields. -/
def struct (fields : List (String × Value)) : Value :=
  .map (fields.map fun (name, value) => (.text name, value))

section Fields

variable {α : Type} [Serialize α] {name name' : String}

def field (name : String) (a : α) : List (String × Value) := [(name, toCbor a)]

/-- `skip_serializing_if = "Option::is_none"`. -/
def optionalField (name : String) : Option α → List (String × Value)
  | some a => [(name, toCbor a)]
  | none => []

/-- `skip_serializing_if = "skip"`. -/
def fieldUnless (skip : α → Bool) (name : String) (a : α) : List (String × Value) :=
  if skip a then [] else field name a

/-- The values a structure writes under a name. -/
def named (name : String) (fs : List (String × Value)) : List Value :=
  (fs.filter fun f => f.1 == name).map Prod.snd

@[simp] theorem named_append (fs gs : List (String × Value)) :
    named name (fs ++ gs) = named name fs ++ named name gs := by
  simp [named]

@[simp] theorem named_field (a : α) :
    named name (field name' a) = if name' = name then [toCbor a] else [] := by
  by_cases h : name' = name <;> simp [named, field, h]

@[simp] theorem named_optionalField (a : Option α) :
    named name (optionalField name' a) = if name' = name then a.toList.map toCbor else [] := by
  cases a with
  | none => simp [named, optionalField]
  | some a => exact named_field a

@[simp] theorem named_fieldUnless (skip : α → Bool) (a : α) :
    named name (fieldUnless skip name' a) =
      if name' = name then (if skip a then [] else [toCbor a]) else [] := by
  by_cases h : skip a
  · simp [fieldUnless, named, h]
  · rw [fieldUnless, if_neg h, if_neg h]
    exact named_field a

/-- A structure that writes nothing under a name does not start with it. -/
theorem ne_cons_of_named {fs : List (String × Value)} (h : named name fs = []) (value : Value)
    (rest : List (String × Value)) : fs ≠ (name, value) :: rest := by
  rintro rfl
  simp [named] at h

theorem struct_injective {fs gs : List (String × Value)} (h : struct fs = struct gs) : fs = gs := by
  simp only [struct, Value.map.injEq] at h
  refine List.map_injective_iff.mpr ?_ h
  rintro ⟨name, value⟩ ⟨name', value'⟩ heq
  simpa using heq

variable [LawfulSerialize α]

/-- Equal structures agree on their first field and on the rest. -/
theorem field_append_inj {name : String} {a b : α} {fs gs : List (String × Value)}
    (h : field name a ++ fs = field name b ++ gs) : a = b ∧ fs = gs := by
  simp only [field, List.singleton_append, List.cons.injEq, Prod.mk.injEq, true_and] at h
  exact ⟨toCbor_injective h.1, h.2⟩

theorem field_inj {name : String} {a b : α} (h : field name a = field name b) : a = b := by
  simp only [field, List.cons.injEq, Prod.mk.injEq, true_and, and_true] at h
  exact toCbor_injective h

/-- An optional field is read off as long as the rest of the structure does not start with its
name. -/
theorem optionalField_append_inj {name : String} {a b : Option α} {fs gs : List (String × Value)}
    (hfs : ∀ value rest, fs ≠ (name, value) :: rest)
    (hgs : ∀ value rest, gs ≠ (name, value) :: rest)
    (h : optionalField name a ++ fs = optionalField name b ++ gs) : a = b ∧ fs = gs := by
  cases a with
  | none =>
      cases b with
      | none => exact ⟨rfl, h⟩
      | some b => exact absurd h (hfs _ _)
  | some a =>
      cases b with
      | none => exact absurd h.symm (hgs _ _)
      | some b =>
          obtain ⟨rfl, hrest⟩ := field_append_inj (a := a) (b := b) h
          exact ⟨rfl, hrest⟩

theorem optionalField_inj {a b : Option α} (h : optionalField name a = optionalField name b) :
    a = b := by
  have hnil : ∀ value rest, ([] : List (String × Value)) ≠ (name, value) :: rest := by simp
  refine (optionalField_append_inj hnil hnil ?_).1
  rw [h]

/-- A field that is skipped at one value only is read off like an optional one. -/
theorem fieldUnless_append_inj {skip : α → Bool} {name : String} {a b : α}
    {fs gs : List (String × Value)} (hskip : ∀ a b, skip a → skip b → a = b)
    (hfs : ∀ value rest, fs ≠ (name, value) :: rest)
    (hgs : ∀ value rest, gs ≠ (name, value) :: rest)
    (h : fieldUnless skip name a ++ fs = fieldUnless skip name b ++ gs) : a = b ∧ fs = gs := by
  by_cases ha : skip a <;> by_cases hb : skip b <;>
    simp only [fieldUnless, ha, hb, if_true, if_false, Bool.false_eq_true, List.nil_append] at h
  · exact ⟨hskip a b ha hb, h⟩
  · exact absurd h (hfs _ _)
  · exact absurd h.symm (hgs _ _)
  · exact field_append_inj h

end Fields

/-! ### Scalars and collections -/

instance : Serialize String := ⟨.text⟩

instance : LawfulSerialize String := ⟨Value.text.inj⟩

/-- `serde_bytes`. -/
instance : Serialize Bytes := ⟨.bytes⟩

instance : LawfulSerialize Bytes := ⟨Value.bytes.inj⟩

instance : Serialize UInt64 := ⟨fun n => .uint n.toNat⟩

instance : LawfulSerialize UInt64 := ⟨fun h => UInt64.toNat_inj.mp (Value.uint.inj h)⟩

instance : Serialize UInt32 := ⟨fun n => .uint n.toNat⟩

instance : LawfulSerialize UInt32 := ⟨fun h => UInt32.toNat_inj.mp (Value.uint.inj h)⟩

instance : Serialize Bool := ⟨.bool⟩

instance : LawfulSerialize Bool := ⟨Value.bool.inj⟩

section Collections

variable {α β : Type} [Serialize α] [Serialize β]

instance : Serialize (List α) := ⟨fun items => .array (items.map toCbor)⟩

instance [LawfulSerialize α] : LawfulSerialize (List α) where
  toCbor_injective h :=
    List.map_injective_iff.mpr (fun _ _ => toCbor_injective) (Value.array.inj h)

variable [Ord α] [Std.TransOrd α]

instance : Serialize (BTreeSet α) := ⟨fun set => .array (set.toList.map toCbor)⟩

instance [LawfulSerialize α] : LawfulSerialize (BTreeSet α) where
  toCbor_injective h := Std.ExtTreeSet.toList_inj.mp
    (List.map_injective_iff.mpr (fun _ _ => toCbor_injective) (Value.array.inj h))

instance : Serialize (BTreeMap α β) :=
  ⟨fun map => .map (map.toList.map fun (key, value) => (toCbor key, toCbor value))⟩

instance [LawfulSerialize α] [LawfulSerialize β] : LawfulSerialize (BTreeMap α β) where
  toCbor_injective h := by
    refine Std.ExtTreeMap.toList_inj.mp (List.map_injective_iff.mpr ?_ (Value.map.inj h))
    rintro ⟨key, value⟩ ⟨key', value'⟩ heq
    simp only [Prod.mk.injEq] at heq
    exact Prod.ext (toCbor_injective heq.1) (toCbor_injective heq.2)

end Collections

end Serde
