import Thicket.Lib.Result
import Thicket.Lib.Serde
import Thicket.Py.Value

/-!
# Python values as data items

The two encoders agree: a value that `cbor.encode` writes is the Python form of one data item, and
the bytes are the deterministic encoding of that item.
-/

namespace Thicket.Py

open Cbor (Bytes)

mutual

/-- A data item as a Python value. -/
def Value.ofItem : Cbor.Value → Value
  | .null => .none
  | .bool b => .bool b
  | .uint n => .int n
  | .bytes bs => .bytes bs
  | .text s => .str s
  | .array items => .list (ofItems items)
  | .map entries => .dict (ofEntries entries)

def Value.ofItems : List Cbor.Value → List Value
  | [] => []
  | item :: items => ofItem item :: ofItems items

def Value.ofEntries : List (Cbor.Value × Cbor.Value) → List (Value × Value)
  | [] => []
  | (key, value) :: entries => (ofItem key, ofItem value) :: ofEntries entries

end

/-- A value of the Rust core as Python decodes it. -/
def Value.of {α : Type} [Serde.Serialize α] (a : α) : Value := .ofItem (Serde.toCbor a)

namespace Value

theorem ofItems_eq_map (items : List Cbor.Value) : ofItems items = items.map ofItem := by
  induction items with
  | nil => rfl
  | cons item items ih => rw [ofItems, List.map_cons, ih]

theorem ofEntries_eq_map (entries : List (Cbor.Value × Cbor.Value)) :
    ofEntries entries = entries.map fun e => (ofItem e.1, ofItem e.2) := by
  induction entries with
  | nil => rfl
  | cons entry entries ih => rw [ofEntries, List.map_cons, ih]

end Value

/-! ### Reading structures -/

namespace Value

open Serde

variable (name : String) (fs : List (String × Cbor.Value))

theorem find?_ofEntries : (ofEntries (fs.map fun (key, v) => (.text key, v))).find?
      (fun e => eq e.1 (str name)) = (named name fs).head?.map fun v => (str name, ofItem v) := by
  induction fs with
  | nil => rfl
  | cons f fs ih =>
      obtain ⟨key, v⟩ := f
      rw [List.map_cons, ofEntries]
      by_cases hkey : key = name
      · subst hkey
        simp [named, ofItem, eq]
      · have htail : named name ((key, v) :: fs) = named name fs := by simp [named, hkey]
        rw [htail, List.find?_cons_of_neg, ih]
        simpa [ofItem, eq] using hkey

/-- The first field of the name is what a lookup finds in a structure. -/
theorem getItem_struct : (ofItem (struct fs)).getItem name =
    match named name fs with
    | v :: _ => .ok (ofItem v)
    | [] => .error .keyError := by
  rw [struct, ofItem, getItem, find?_ofEntries]
  cases named name fs <;> rfl

theorem get_struct (default : Value) : (ofItem (struct fs)).get (str name) default =
    .ok (((named name fs).head?.map ofItem).getD default) := by
  rw [struct, ofItem, get, find?_ofEntries]
  cases named name fs <;> rfl

end Value

/-! ### Heads -/

/-- A result that is missing only because a number does not fit. -/
def fits (x : Option Bytes) : Except Exc Bytes :=
  match x with
  | some bytes => .ok bytes
  | none => .error .overflowError

theorem fits_eq_ok {x : Option Bytes} {bytes : Bytes} : fits x = .ok bytes ↔ x = some bytes := by
  cases x <;> simp [fits]

theorem initialByte_eq {major info : Nat} (hinfo : info < 32) :
    UInt8.ofNat (major <<< 5 ||| info) = Cbor.initialByte major info := by
  rw [Cbor.initialByte, ← Nat.shiftLeft_add_eq_or_of_lt (i := 5) hinfo, Nat.shiftLeft_eq]
  congr 1
  omega

theorem encHead_eq (major n : Nat) : encHead major n = fits (Cbor.head major n) := by
  have hpow : (256 ^ 1 = 0x100) ∧ (256 ^ 2 = 0x10000) ∧ (256 ^ 4 = 0x100000000) ∧
      (256 ^ 8 = 2 ^ 64) := by norm_num
  unfold encHead Cbor.head Cbor.argument
  dsimp only
  rw [hpow.1, hpow.2.1, hpow.2.2.1, hpow.2.2.2]
  split_ifs with h0 h1 h2 h4 h8
  · rw [initialByte_eq (by omega)]
    rfl
  · rw [initialByte_eq (by decide)]
    rfl
  · rw [initialByte_eq (by decide)]
    rfl
  · rw [initialByte_eq (by decide)]
    rfl
  · rw [initialByte_eq (by decide)]
    rfl
  · rfl

/-! ### Values -/

mutual

theorem enc_ofItem : ∀ item : Cbor.Value, enc (Value.ofItem item) = fits (Cbor.encode item)
  | .null => rfl
  | .bool b => by cases b <;> rfl
  | .uint n => by
    rw [Value.ofItem, enc, if_neg (by omega), Int.toNat_natCast, encHead_eq, Cbor.encode]
  | .bytes bs => by
    rw [Value.ofItem, enc, encHead_eq, Cbor.encode]
    cases Cbor.head 2 bs.length <;> rfl
  | .text s => by
    rw [Value.ofItem, enc, encHead_eq, Cbor.encode]
    cases Cbor.head 3 (Cbor.utf8 s).length <;> rfl
  | .array items => by
    rw [Value.ofItem, enc, encHead_eq, Cbor.encode, Value.ofItems_eq_map, List.length_map,
      ← Value.ofItems_eq_map, encItems_ofItems items]
    cases Cbor.head 4 items.length <;> cases Cbor.encodeItems items <;> rfl
  | .map entries => by
    rw [Value.ofItem, enc, encHead_eq, Cbor.encode, Value.ofEntries_eq_map, List.length_map,
      ← Value.ofEntries_eq_map, encEntries_ofEntries entries]
    cases Cbor.head 5 entries.length <;> cases Cbor.encodeEntries entries <;> rfl

theorem encItems_ofItems : ∀ items : List Cbor.Value,
    encItems (Value.ofItems items) = fits (Cbor.encodeItems items)
  | [] => rfl
  | item :: items => by
    rw [Value.ofItems, encItems, Cbor.encodeItems, enc_ofItem item, encItems_ofItems items]
    cases Cbor.encode item <;> cases Cbor.encodeItems items <;> rfl

theorem encEntries_ofEntries : ∀ entries : List (Cbor.Value × Cbor.Value),
    encEntries (Value.ofEntries entries) = fits (Cbor.encodeEntries entries)
  | [] => rfl
  | (key, value) :: entries => by
    rw [Value.ofEntries, encEntries, Cbor.encodeEntries, enc_ofItem key, enc_ofItem value,
      encEntries_ofEntries entries]
    cases Cbor.encode key <;> cases Cbor.encode value <;> cases Cbor.encodeEntries entries <;> rfl

end

theorem encode_ofItem {item : Cbor.Value} {bytes : Bytes} :
    encode (Value.ofItem item) = .ok bytes ↔ Cbor.encode item = some bytes := by
  rw [encode, enc_ofItem, fits_eq_ok]

mutual

theorem exists_item_of_enc : ∀ {value : Value} {bytes : Bytes}, enc value = .ok bytes →
    ∃ item, Value.ofItem item = value
  | .none, _, _ => ⟨.null, rfl⟩
  | .bool b, _, _ => ⟨.bool b, rfl⟩
  | .int n, _, h => by
    rw [enc] at h
    split_ifs at h with hneg
    refine ⟨.uint n.toNat, ?_⟩
    rw [Value.ofItem, Int.toNat_of_nonneg (by omega)]
  | .bytes bs, _, _ => ⟨.bytes bs, rfl⟩
  | .str s, _, _ => ⟨.text s, rfl⟩
  | .list items, _, h => by
    simp only [enc, Result.bind_eq_ok] at h
    obtain ⟨_, -, _, hitems, -⟩ := h
    obtain ⟨items', rfl⟩ := exists_items_of_encItems hitems
    exact ⟨.array items', rfl⟩
  | .dict entries, _, h => by
    simp only [enc, Result.bind_eq_ok] at h
    obtain ⟨_, -, _, hentries, -⟩ := h
    obtain ⟨entries', rfl⟩ := exists_entries_of_encEntries hentries
    exact ⟨.map entries', rfl⟩

theorem exists_items_of_encItems : ∀ {items : List Value} {bytes : Bytes},
    encItems items = .ok bytes → ∃ items', Value.ofItems items' = items
  | [], _, _ => ⟨[], rfl⟩
  | item :: items, _, h => by
    simp only [encItems, Result.bind_eq_ok] at h
    obtain ⟨_, hitem, _, hitems, -⟩ := h
    obtain ⟨item', rfl⟩ := exists_item_of_enc hitem
    obtain ⟨items', rfl⟩ := exists_items_of_encItems hitems
    exact ⟨item' :: items', rfl⟩

theorem exists_entries_of_encEntries : ∀ {entries : List (Value × Value)} {bytes : Bytes},
    encEntries entries = .ok bytes → ∃ entries', Value.ofEntries entries' = entries
  | [], _, _ => ⟨[], rfl⟩
  | (key, value) :: entries, _, h => by
    simp only [encEntries, Result.bind_eq_ok] at h
    obtain ⟨_, hkey, _, hvalue, _, hentries, -⟩ := h
    obtain ⟨key', rfl⟩ := exists_item_of_enc hkey
    obtain ⟨value', rfl⟩ := exists_item_of_enc hvalue
    obtain ⟨entries', rfl⟩ := exists_entries_of_encEntries hentries
    exact ⟨(key', value') :: entries', rfl⟩

end

/-- **The encoders agree.** -/
theorem encode_eq_ok {value : Value} {bytes : Bytes} : encode value = .ok bytes ↔
    ∃ item, Value.ofItem item = value ∧ Cbor.encode item = some bytes := by
  constructor
  · intro h
    obtain ⟨item, rfl⟩ := exists_item_of_enc h
    exact ⟨item, rfl, encode_ofItem.mp h⟩
  · rintro ⟨item, rfl, h⟩
    exact encode_ofItem.mpr h

end Thicket.Py
