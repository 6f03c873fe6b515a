import Thicket.Lib.CborDecode
import Thicket.Lib.Serde
import Mathlib.Data.List.Forall2

/-!
# Derived deserialization

What a derived deserializer does with a data item: a structure is read from a map by field name,
entries it does not know are ignored, a known field may occur only once, and a missing one is an
error unless it has a default. A type is deserialized lawfully when a value is read back from what
it is written as, in either of the two formats.
-/

namespace Serde

open Cbor

class Deserialize (α : Type) where
  ofCbor : Value → Option α

export Deserialize (ofCbor)

attribute [simp] Deserialize.ofCbor

/-- `ciborium::into_writer`. -/
def intoWriter {α : Type} [Serialize α] (a : α) : Option Bytes := Cbor.encode (toCbor a)

/-- `ciborium::from_reader`: the first item of the input; what follows it is not read. -/
def fromReader {α : Type} [Deserialize α] (bytes : Bytes) : Option α := do
  let (item, _) ← Cbor.decode bytes
  ofCbor item

theorem mapM_eq_some {α β : Type} {f : α → Option β} {as : List α} {bs : List β} :
    as.mapM f = some bs ↔ List.Forall₂ (fun a b => f a = some b) as bs := by
  induction as generalizing bs with
  | nil => simp [eq_comm]
  | cons a as ih =>
      rw [List.mapM_cons, List.forall₂_cons_left_iff]
      simp only [Option.bind_eq_bind, Option.bind_eq_some_iff, Option.pure_def, Option.some.injEq, ih]
      constructor
      · intro h
        obtain ⟨b, hb, bs', hbs, heq⟩ := h
        exact ⟨b, bs', hb, hbs, heq.symm⟩
      · intro h
        obtain ⟨b, bs', hb, hbs, heq⟩ := h
        exact ⟨b, hb, bs', hbs, heq.symm⟩

theorem exists_of_mapM {α β : Type} {f : α → Option β} {as : List α} {bs : List β} {a : α}
    (h : as.mapM f = some bs) (ha : a ∈ as) : ∃ b, f a = some b := by
  have hpairs := mapM_eq_some.mp h
  clear h
  induction hpairs with
  | nil => cases ha
  | @cons a' b as bs hab _ ih =>
      rcases List.mem_cons.mp ha with rfl | ha
      · exact ⟨b, hab⟩
      · exact ih ha

/-! ### The two formats -/

mutual

/-- A value as JSON shows it: a byte string is an array of numbers. -/
def jsonView : Value → Value
  | .bytes bs => .array (bs.map fun b => .uint b.toNat)
  | .array items => .array (jsonItems items)
  | .map entries => .map (jsonEntries entries)
  | .null => .null
  | .bool b => .bool b
  | .uint n => .uint n
  | .text s => .text s

def jsonItems : List Value → List Value
  | [] => []
  | item :: items => jsonView item :: jsonItems items

def jsonEntries : List (Value × Value) → List (Value × Value)
  | [] => []
  | (key, value) :: entries => (jsonView key, jsonView value) :: jsonEntries entries

end

theorem jsonItems_eq_map (items : List Value) : jsonItems items = items.map jsonView := by
  induction items with
  | nil => rfl
  | cons item items ih => rw [jsonItems, List.map_cons, ih]

theorem jsonEntries_eq_map (entries : List (Value × Value)) :
    jsonEntries entries = entries.map fun e => (jsonView e.1, jsonView e.2) := by
  induction entries with
  | nil => rfl
  | cons entry entries ih => rw [jsonEntries, List.map_cons, ih]

inductive Format where
  | cbor
  | json

/-- What a value written in a format is read as. -/
def Format.view : Format → Value → Value
  | cbor, v => v
  | json, v => jsonView v

namespace Format

variable (format : Format)

@[simp] theorem view_null : format.view .null = .null := by
  cases format <;> simp [view, jsonView]

@[simp] theorem view_bool (b : Bool) : format.view (.bool b) = .bool b := by
  cases format <;> simp [view, jsonView]

@[simp] theorem view_uint (n : Nat) : format.view (.uint n) = .uint n := by
  cases format <;> simp [view, jsonView]

@[simp] theorem view_text (s : String) : format.view (.text s) = .text s := by
  cases format <;> simp [view, jsonView]

@[simp] theorem view_array (items : List Value) :
    format.view (.array items) = .array (items.map format.view) := by
  cases format with
  | cbor =>
      have hview : view cbor = id := rfl
      rw [hview, List.map_id, id]
  | json => simp [view, jsonView, jsonItems_eq_map]

@[simp] theorem view_map (entries : List (Value × Value)) :
    format.view (.map entries) = .map (entries.map fun e => (format.view e.1, format.view e.2)) := by
  cases format with
  | cbor => simp [view]
  | json => simp [view, jsonView, jsonEntries_eq_map]

end Format

class LawfulDeserialize (α : Type) [Serialize α] [Deserialize α] : Prop where
  ofCbor_view : ∀ (format : Format) (a : α), ofCbor (format.view (toCbor a)) = some a

export LawfulDeserialize (ofCbor_view)

attribute [simp] LawfulDeserialize.ofCbor_view

/-- A value whose reader does not take null, so that it can be told from an absent one. -/
class NonNull (α : Type) [Deserialize α] : Prop where
  ofCbor_null : ofCbor .null = (none : Option α)

/-! ### Fields -/

/-- The field a map key names. -/
def fieldName : Value → Option Bytes
  | .text name => some (utf8 name)
  | .bytes name => some name
  | _ => none

abbrev Fields := List (Bytes × Value)

def fields : Value → Option Fields
  | .map entries => entries.mapM fun e => (fieldName e.1).map fun name => (name, e.2)
  | _ => none

namespace Fields

def get (self : Fields) (name : String) : List Value :=
  (self.filter fun f => f.1 == utf8 name).map Prod.snd

variable {α : Type} [Deserialize α]

def required (self : Fields) (name : String) : Option α :=
  match self.get name with
  | [value] => ofCbor value
  | _ => none

/-- `default`. -/
def defaulted (self : Fields) (name : String) (default : α) : Option α :=
  match self.get name with
  | [] => some default
  | [value] => ofCbor value
  | _ => none

theorem required_eq_some {self : Fields} {name : String} {a : α} :
    self.required name = some a ↔ ∃ item, self.get name = [item] ∧ ofCbor item = some a := by
  rw [required]
  split
  next item hget => simp [hget]
  next hother =>
      apply iff_of_false (by simp)
      intro h
      obtain ⟨item, hget, -⟩ := h
      exact hother item hget

end Fields

/-- A text names the field that it is. -/
theorem mem_get_of_mem {entries : List (Value × Value)} {fs : Fields} {name : String} {item : Value}
    (h : fields (.map entries) = some fs) (hmem : (.text name, item) ∈ entries) :
    item ∈ fs.get name := by
  have hpairs := mapM_eq_some.mp h
  clear h
  induction hpairs with
  | nil => cases hmem
  | @cons entry f entries fs hentry _ ih =>
      rw [Fields.get, List.filter_cons]
      rcases List.mem_cons.mp hmem with rfl | hmem
      · obtain rfl : (utf8 name, item) = f := by simpa [fieldName] using hentry
        simp
      · have hrest : item ∈ (fs.filter fun f => f.1 == utf8 name).map Prod.snd := ih hmem
        split
        · exact List.mem_cons_of_mem _ hrest
        · exact hrest

/-- The value of a field is written in the map. -/
theorem exists_entry_of_get {entries : List (Value × Value)} {fs : Fields} {name : String}
    {item : Value} (h : fields (.map entries) = some fs) (hmem : item ∈ fs.get name) :
    ∃ e ∈ entries, e.2 = item := by
  obtain ⟨f, hf, rfl⟩ := List.mem_map.mp hmem
  have hfs := (List.mem_filter.mp hf).1
  have hpairs := mapM_eq_some.mp h
  clear h hmem hf
  induction hpairs with
  | nil => cases hfs
  | @cons entry f' entries fs hentry _ ih =>
      rcases List.mem_cons.mp hfs with rfl | hfs
      · obtain ⟨name, -, hname⟩ := Option.map_eq_some_iff.mp hentry
        rw [← hname]
        exact ⟨entry, List.mem_cons_self, rfl⟩
      · obtain ⟨e, he, heq⟩ := ih hfs
        exact ⟨e, List.mem_cons_of_mem _ he, heq⟩

/-- Where a map can be encoded, so can its fields. -/
theorem isSome_encode_of_get {item value : Value} {fs : Fields} {name : String}
    (h : fields item = some fs) (hitem : (encode item).isSome = true) (hget : fs.get name = [value]) :
    (encode value).isSome = true := by
  cases item with
  | map entries =>
      obtain ⟨e, he, rfl⟩ := exists_entry_of_get h (by rw [hget]; exact List.mem_singleton_self _)
      exact ((isSome_encode_map.mp hitem).2 e he).2
  | _ => cases h

section Fields

variable {α : Type} [Serialize α] {name : String}

/-- What a reader sees of a structure written in a format. -/
def written (format : Format) (fs : List (String × Value)) : Fields :=
  fs.map fun f => (utf8 f.1, format.view f.2)

@[simp] theorem fields_view_struct (format : Format) (fs : List (String × Value)) :
    fields (format.view (struct fs)) = some (written format fs) := by
  simp only [struct, Format.view_map, fields, List.map_map, written]
  induction fs with
  | nil => rfl
  | cons f fs ih => simp_all [fieldName]

/-- A derived reader of a structure goes on with what it sees of the fields. -/
theorem fields_bind {β : Type} (format : Format) (fs : List (String × Value))
    (next : Fields → Option β) :
    (fields (format.view (struct fs)) >>= next) = next (written format fs) := by
  rw [fields_view_struct]
  rfl

theorem get_written (format : Format) (fs : List (String × Value)) :
    (written format fs).get name = (named name fs).map format.view := by
  have hname : ∀ f : String × Value, (utf8 f.1 == utf8 name) = (f.1 == name) := by
    intro f
    rw [Bool.eq_iff_iff, beq_iff_eq, beq_iff_eq]
    exact ⟨utf8_injective, congrArg utf8⟩
  simp [Fields.get, written, named, List.filter_map, Function.comp_def, hname]

variable [Deserialize α] [LawfulDeserialize α] {format : Format} {fs : List (String × Value)} {a : α}

theorem required_of_named (h : named name fs = [toCbor a]) :
    (written format fs).required name = some a := by
  rw [Fields.required, get_written, h]
  exact ofCbor_view format a

theorem defaulted_of_named {default : α} (h : named name fs = [toCbor a]) :
    (written format fs).defaulted name default = some a := by
  rw [Fields.defaulted, get_written, h]
  exact ofCbor_view format a

/-- A field skipped at its default is read back, absent or not. -/
theorem unless_of_named {skip : α → Bool} {default : α} (hskip : skip a → a = default)
    (h : named name fs = if skip a then [] else [toCbor a]) :
    (written format fs).defaulted name default = some a := by
  by_cases ha : skip a
  · rw [if_pos ha] at h
    rw [Fields.defaulted, get_written, h, hskip ha]
    rfl
  · rw [if_neg ha] at h
    exact defaulted_of_named h

end Fields

/-! ### Scalars -/

instance : Deserialize String where
  ofCbor
    | .text s => some s
    | _ => none

instance : LawfulDeserialize String := ⟨fun format a => by simp⟩

instance : NonNull String := ⟨rfl⟩

instance : Deserialize UInt8 where
  ofCbor
    | .uint n => if n < 2 ^ 8 then some (UInt8.ofNat n) else none
    | _ => none

/-- `serde_bytes`, which also takes a sequence of numbers. -/
instance : Deserialize Bytes where
  ofCbor
    | .bytes bs => some bs
    | .array items => items.mapM ofCbor
    | _ => none

instance : Deserialize UInt64 where
  ofCbor
    | .uint n => if n < 2 ^ 64 then some (UInt64.ofNat n) else none
    | _ => none

instance : LawfulDeserialize UInt64 := ⟨fun format a => by simp [UInt64.toNat_lt a]⟩

instance : NonNull UInt64 := ⟨rfl⟩

instance : Deserialize UInt32 where
  ofCbor
    | .uint n => if n < 2 ^ 32 then some (UInt32.ofNat n) else none
    | _ => none

instance : LawfulDeserialize UInt32 := ⟨fun format a => by simp [UInt32.toNat_lt a]⟩

instance : Deserialize Bool where
  ofCbor
    | .bool b => some b
    | _ => none

instance : LawfulDeserialize Bool := ⟨fun format a => by simp⟩

/-- An enumeration without payloads is read from the name of a variant. -/
def unitVariant {α : Type} (variants : List α) (name : α → String) : Value → Option α
  | .text s => variants.find? fun a => name a == s
  | _ => none

/-- A list is read back element by element. -/
theorem mapM_map {α β : Type} {f : α → β} {g : β → Option α} (h : ∀ a, g (f a) = some a)
    (items : List α) : (items.map f).mapM g = some items := by
  induction items with
  | nil => rfl
  | cons a items ih => simp [h, ih]

instance : LawfulDeserialize Bytes where
  ofCbor_view format a := by
    cases format with
    | cbor => rfl
    | json =>
        have hbyte : ∀ b : UInt8, ofCbor (Value.uint b.toNat) = some b := fun b => by
          simp [UInt8.toNat_lt b]
        simp only [Serialize.toCbor, Format.view, jsonView]
        exact mapM_map hbyte a

/-! ### Collections -/

section Collections

variable {α β : Type} [Deserialize α] [Deserialize β]

instance : Deserialize (Option α) where
  ofCbor
    | .null => some none
    | item => (ofCbor item).map some

instance : Deserialize (List α) where
  ofCbor
    | .array items => items.mapM ofCbor
    | _ => none

def entryOfCbor (entry : Value × Value) : Option (α × β) := do
  return (← ofCbor entry.1, ← ofCbor entry.2)

variable [Ord α] [Std.TransOrd α]

instance : Deserialize (BTreeSet α) where
  ofCbor
    | .array items => (items.mapM (ofCbor (α := α))).map fun items => .ofList items
    | _ => none

/-- Of several entries with one key the last one counts. -/
instance : Deserialize (BTreeMap α β) where
  ofCbor
    | .map entries => (entries.mapM (entryOfCbor (α := α))).map fun entries => .ofList entries
    | _ => none

end Collections

section Lawful

variable {α β : Type} [Serialize α] [Serialize β] [Deserialize α] [Deserialize β]
  [LawfulDeserialize α] [LawfulDeserialize β]

/-- What was written is read back, whatever follows it. -/
theorem fromReader_append {a : α} {bytes : Bytes} (h : intoWriter a = some bytes)
    (rest : Bytes) : fromReader (bytes ++ rest) = some a := by
  rw [fromReader, Cbor.decode_encode h rest]
  exact ofCbor_view .cbor a

theorem fromReader_intoWriter {a : α} {bytes : Bytes} (h : intoWriter a = some bytes) :
    fromReader bytes = some a := by
  have hread := fromReader_append h []
  rwa [List.append_nil] at hread

theorem option_view [NonNull α] (format : Format) (a : α) :
    ofCbor (format.view (toCbor a)) = some (some a) := by
  have hread := ofCbor_view format a
  show (match format.view (toCbor a) with
    | .null => some none
    | item => (ofCbor item).map some) = some (some a)
  split
  next hnull =>
    rw [hnull, NonNull.ofCbor_null] at hread
    exact absurd hread.symm (Option.some_ne_none a)
  next => rw [hread, Option.map_some]

theorem optional_of_named [NonNull α] {format : Format} {name : String}
    {fs : List (String × Value)} {a : Option α} (h : named name fs = a.toList.map toCbor) :
    (written format fs).defaulted name none = some a := by
  rw [Fields.defaulted, get_written, h]
  cases a with
  | none => rfl
  | some a => exact option_view format a

instance : LawfulDeserialize (List α) where
  ofCbor_view format a := by
    have hview : ∀ a : α, ofCbor (format.view (toCbor a)) = some a := ofCbor_view format
    simp only [Serialize.toCbor, Format.view_array, List.map_map]
    exact mapM_map hview a

variable [Ord α] [Std.TransOrd α] [Std.LawfulEqOrd α]

omit [Serialize α] [Deserialize α] [LawfulDeserialize α] in
theorem ofList_toList_set (set : BTreeSet α) : Std.ExtTreeSet.ofList set.toList = set := by
  classical
  apply Std.ExtTreeSet.ext_mem
  intro a
  rw [Std.ExtTreeSet.mem_ofList, List.contains_iff_mem, Std.ExtTreeSet.mem_toList]

omit [Serialize α] [Deserialize α] [LawfulDeserialize α] [Serialize β] [Deserialize β]
  [LawfulDeserialize β] in
theorem ofList_toList_map (map : BTreeMap α β) : Std.ExtTreeMap.ofList map.toList = map := by
  classical
  apply Std.ExtTreeMap.ext_getElem?
  intro key
  cases hkey : map[key]? with
  | some value =>
      apply Std.ExtTreeMap.getElem?_ofList_of_mem Std.ReflCmp.compare_self
        Std.ExtTreeMap.distinct_keys_toList
      exact Std.ExtTreeMap.mem_toList_iff_getElem?_eq_some.mpr hkey
  | none =>
      apply Std.ExtTreeMap.getElem?_ofList_of_contains_eq_false
      rw [Std.ExtTreeMap.map_fst_toList_eq_keys, Std.ExtTreeMap.contains_keys,
        Std.ExtTreeMap.contains_eq_isSome_getElem?, hkey]
      rfl

instance : LawfulDeserialize (BTreeSet α) where
  ofCbor_view format a := by
    have hitems := mapM_map (ofCbor_view (α := α) format) a.toList
    simp only [Serialize.toCbor, Format.view_array, List.map_map, Deserialize.ofCbor,
      Function.comp_def]
    rw [hitems, Option.map_some, ofList_toList_set]

instance : LawfulDeserialize (BTreeMap α β) where
  ofCbor_view format a := by
    have hitems := mapM_map (f := fun e : α × β =>
      (format.view (toCbor e.1), format.view (toCbor e.2)))
      (g := entryOfCbor) (fun e => by simp [entryOfCbor]) a.toList
    simp only [Serialize.toCbor, Format.view_map, List.map_map, Deserialize.ofCbor,
      Function.comp_def]
    rw [hitems, Option.map_some, ofList_toList_map]

end Lawful

end Serde
