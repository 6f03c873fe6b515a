import Thicket.Lib.Deserialize
import Thicket.Lib.Json

/-!
# Serialization into JSON

The same data items as JSON text: a byte string becomes an array of numbers and a map needs text
keys. What is read from the text a value is written as is the value's JSON view.
-/

namespace Serde

open Cbor

mutual

def toJson : Value → Option Json.Value
  | .null => some .null
  | .bool b => some (.bool b)
  | .uint n => some (.number n)
  | .bytes bs => some (.array (bs.map fun b => .number b.toNat))
  | .text s => some (.string s)
  | .array items => (toJsonItems items).map .array
  | .map entries => (toJsonMembers entries).map .object

def toJsonItems : List Value → Option (List Json.Value)
  | [] => some []
  | item :: items => do return (← toJson item) :: (← toJsonItems items)

def toJsonMembers : List (Value × Value) → Option (List (String × Json.Value))
  | [] => some []
  | (.text name, value) :: entries => do
      return (name, ← toJson value) :: (← toJsonMembers entries)
  | _ :: _ => none

end

mutual

def ofJson : Json.Value → Value
  | .null => .null
  | .bool b => .bool b
  | .number n => .uint n
  | .string s => .text s
  | .array items => .array (ofJsonItems items)
  | .object members => .map (ofJsonMembers members)

def ofJsonItems : List Json.Value → List Value
  | [] => []
  | item :: items => ofJson item :: ofJsonItems items

def ofJsonMembers : List (String × Json.Value) → List (Value × Value)
  | [] => []
  | (name, value) :: members => (.text name, ofJson value) :: ofJsonMembers members

end

/-- `serde_json::to_string`. -/
def toJsonString {α : Type} [Serialize α] (a : α) : Option String :=
  (toJson (toCbor a)).map Json.print

/-- `serde_json::from_str`. -/
def fromJsonString {α : Type} [Deserialize α] (s : String) : Option α := do
  ofCbor (ofJson (← Json.parse s))

/-! ### What is read is the view -/

theorem ofJsonItems_numbers (bs : Bytes) :
    ofJsonItems (bs.map fun b => .number b.toNat) = bs.map fun b => .uint b.toNat := by
  induction bs with
  | nil => rfl
  | cons b bs ih => simp [ofJsonItems, ofJson, ih]

mutual

theorem ofJson_toJson : ∀ {v : Value} {j : Json.Value}, toJson v = some j → ofJson j = jsonView v
  | .null, j, h | .bool b, j, h | .uint n, j, h | .text s, j, h => by
    cases h
    simp [ofJson, jsonView]
  | .bytes bs, j, h => by
    cases h
    rw [ofJson, jsonView, ofJsonItems_numbers]
  | .array items, j, h => by
    obtain ⟨js, hjs, rfl⟩ := Option.map_eq_some_iff.mp h
    rw [ofJson, jsonView, ofJsonItems_toJsonItems hjs]
  | .map entries, j, h => by
    obtain ⟨js, hjs, rfl⟩ := Option.map_eq_some_iff.mp h
    rw [ofJson, jsonView, ofJsonMembers_toJsonMembers hjs]

theorem ofJsonItems_toJsonItems : ∀ {items : List Value} {js : List Json.Value},
    toJsonItems items = some js → ofJsonItems js = jsonItems items
  | [], js, h => by
    cases h
    rfl
  | item :: items, js, h => by
    simp only [toJsonItems, Option.pure_def, Option.bind_eq_bind, Option.bind_eq_some_iff,
      Option.some.injEq] at h
    obtain ⟨j, hj, js, hjs, rfl⟩ := h
    rw [ofJsonItems, jsonItems, ofJson_toJson hj, ofJsonItems_toJsonItems hjs]

theorem ofJsonMembers_toJsonMembers : ∀ {entries : List (Value × Value)}
    {js : List (String × Json.Value)}, toJsonMembers entries = some js →
    ofJsonMembers js = jsonEntries entries
  | [], js, h => by
    cases h
    rfl
  | (.text name, value) :: entries, js, h => by
    simp only [toJsonMembers, Option.pure_def, Option.bind_eq_bind, Option.bind_eq_some_iff,
      Option.some.injEq] at h
    obtain ⟨j, hj, js, hjs, rfl⟩ := h
    rw [ofJsonMembers, jsonEntries, ofJson_toJson hj, ofJsonMembers_toJsonMembers hjs]
    simp [jsonView]

end

/-- **Round trip.** What is written as text is read back. -/
theorem fromJsonString_toJsonString {α : Type} [Serialize α] [Deserialize α] [LawfulDeserialize α]
    {a : α} {s : String} (h : toJsonString a = some s) : fromJsonString s = some a := by
  obtain ⟨j, hj, rfl⟩ := Option.map_eq_some_iff.mp h
  rw [fromJsonString, Json.parse_print, Option.bind_eq_bind, Option.bind_some, ofJson_toJson hj]
  exact ofCbor_view .json a

/-! ### What can be written -/

/-- The values of a type have JSON forms: no map of theirs has a key other than text. -/
class JsonWritable (α : Type) [Serialize α] : Prop where
  toJson_isSome : ∀ a : α, (toJson (toCbor a)).isSome = true

export JsonWritable (toJson_isSome)

theorem toJsonItems_isSome {items : List Value} (h : ∀ item ∈ items, (toJson item).isSome = true) :
    (toJsonItems items).isSome = true := by
  induction items with
  | nil => rfl
  | cons item items ih =>
      rw [List.forall_mem_cons] at h
      obtain ⟨j, hj⟩ := Option.isSome_iff_exists.mp h.1
      obtain ⟨js, hjs⟩ := Option.isSome_iff_exists.mp (ih h.2)
      simp [toJsonItems, hj, hjs]

theorem toJsonMembers_isSome {entries : List (Value × Value)}
    (h : ∀ e ∈ entries, (∃ name, e.1 = .text name) ∧ (toJson e.2).isSome = true) :
    (toJsonMembers entries).isSome = true := by
  induction entries with
  | nil => rfl
  | cons e entries ih =>
      rw [List.forall_mem_cons] at h
      obtain ⟨⟨⟨name, hname⟩, hvalue⟩, hrest⟩ := h
      obtain ⟨key, value⟩ := e
      obtain rfl : key = .text name := hname
      obtain ⟨j, hj⟩ := Option.isSome_iff_exists.mp hvalue
      obtain ⟨js, hjs⟩ := Option.isSome_iff_exists.mp (ih hrest)
      simp only at hj
      simp [toJsonMembers, hj, hjs]

theorem toJson_struct {fs : List (String × Value)}
    (h : ∀ f ∈ fs, (toJson f.2).isSome = true) : (toJson (struct fs)).isSome = true := by
  have hmembers : (toJsonMembers (fs.map fun f => (.text f.1, f.2))).isSome = true := by
    apply toJsonMembers_isSome
    intro e he
    obtain ⟨f, hf, rfl⟩ := List.mem_map.mp he
    exact ⟨⟨f.1, rfl⟩, h f hf⟩
  rw [struct, toJson, Option.isSome_map]
  exact hmembers

section Instances

variable {α : Type} [Serialize α] [JsonWritable α]

theorem forall_mem_field {name : String} {a : α} :
    ∀ f ∈ field name a, (toJson f.2).isSome = true := by
  intro f hf
  rw [List.mem_singleton.mp hf]
  exact toJson_isSome a

theorem forall_mem_optionalField {name : String} {a : Option α} :
    ∀ f ∈ optionalField name a, (toJson f.2).isSome = true := by
  cases a with
  | none => exact fun f hf => absurd hf List.not_mem_nil
  | some a => exact forall_mem_field

instance : JsonWritable String := ⟨fun _ => rfl⟩

instance : JsonWritable Bytes := ⟨fun _ => rfl⟩

instance : JsonWritable UInt64 := ⟨fun _ => rfl⟩

instance : JsonWritable (List α) where
  toJson_isSome items := by
    show ((toJsonItems (items.map toCbor)).map Json.Value.array).isSome = true
    rw [Option.isSome_map]
    apply toJsonItems_isSome
    intro item hitem
    obtain ⟨a, -, rfl⟩ := List.mem_map.mp hitem
    exact toJson_isSome a

instance : JsonWritable (BTreeMap String α) where
  toJson_isSome map := by
    show ((toJsonMembers (map.toList.map fun e => (toCbor e.1, toCbor e.2))).map
      Json.Value.object).isSome = true
    rw [Option.isSome_map]
    apply toJsonMembers_isSome
    intro e he
    obtain ⟨⟨key, value⟩, -, rfl⟩ := List.mem_map.mp he
    exact ⟨⟨key, rfl⟩, toJson_isSome value⟩

end Instances

theorem toJsonString_isSome {α : Type} [Serialize α] [JsonWritable α] (a : α) :
    ∃ s, toJsonString a = some s := by
  apply Option.isSome_iff_exists.mp
  rw [toJsonString, Option.isSome_map]
  exact toJson_isSome a

end Serde
