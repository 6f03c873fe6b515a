import Thicket.Lib.Utf8
import Mathlib.Data.List.Induction

/-!
# Reading CBOR

A reader for the same data model. It takes any definite-length form, shortest or not, returns what
it left unread, and refuses what the data model has no value for: negative integers, tags, floats,
indefinite lengths, text that is not UTF-8. Items nest less deep than the input is long, so the
length of the input bounds the recursion.
-/

namespace Cbor

def ofBigEndian (bytes : Bytes) : Nat := bytes.foldl (fun n byte => n * 256 + byte.toNat) 0

/-- The next `n` bytes. -/
def takeBytes (n : Nat) (input : Bytes) : Option (Bytes × Bytes) :=
  if n ≤ input.length then some (input.take n, input.drop n) else none

def readNumber (width : Nat) (input : Bytes) : Option (Nat × Bytes) := do
  let (bytes, input) ← takeBytes width input
  return (ofBigEndian bytes, input)

def readArgument (info : Nat) (input : Bytes) : Option (Nat × Bytes) :=
  if info < 24 then some (info, input)
  else if info = 24 then readNumber 1 input
  else if info = 25 then readNumber 2 input
  else if info = 26 then readNumber 4 input
  else if info = 27 then readNumber 8 input
  else none

def simple (info : Nat) : Option Value :=
  if info = 20 then some (.bool false)
  else if info = 21 then some (.bool true)
  else if info = 22 then some .null
  else none

section Items

variable {α : Type} (item : Bytes → Option (α × Bytes))

def readItems : Nat → Bytes → Option (List α × Bytes)
  | 0, input => some ([], input)
  | n + 1, input => do
      let (first, input) ← item input
      let (items, input) ← readItems n input
      return (first :: items, input)

def readEntry (input : Bytes) : Option ((α × α) × Bytes) := do
  let (key, input) ← item input
  let (value, input) ← item input
  return ((key, value), input)

end Items

/-- What follows a head, read with `item` for the items inside. -/
def readContents (item : Bytes → Option (Value × Bytes)) (major n : Nat) (input : Bytes) :
    Option (Value × Bytes) :=
  match major with
  | 0 => some (.uint n, input)
  | 2 => do
      let (content, input) ← takeBytes n input
      return (.bytes content, input)
  | 3 => do
      let (content, input) ← takeBytes n input
      return (.text (← Utf8.decode content), input)
  | 4 => do
      let (items, input) ← readItems item n input
      return (.array items, input)
  | 5 => do
      let (entries, input) ← readItems (readEntry item) n input
      return (.map entries, input)
  | _ => none

def decodeItem : Nat → Bytes → Option (Value × Bytes)
  | 0, _ => none
  | _ + 1, [] => none
  | depth + 1, initial :: input =>
      let major := initial.toNat / 32
      let info := initial.toNat % 32
      if major = 7 then (simple info).map fun v => (v, input)
      else do
        let (n, input) ← readArgument info input
        readContents (decodeItem depth) major n input

/-- The first item of the input and what follows it. -/
def decode (input : Bytes) : Option (Value × Bytes) := decodeItem input.length input

/-! ### Reading back what was written -/

theorem takeBytes_append (bytes rest : Bytes) :
    takeBytes bytes.length (bytes ++ rest) = some (bytes, rest) := by
  simp [takeBytes]

theorem ofBigEndian_append (bytes : Bytes) (byte : UInt8) :
    ofBigEndian (bytes ++ [byte]) = ofBigEndian bytes * 256 + byte.toNat := by
  simp [ofBigEndian]

theorem ofBigEndian_bigEndian {width n : Nat} (h : n < 256 ^ width) :
    ofBigEndian (bigEndian width n) = n := by
  induction width generalizing n with
  | zero =>
      rw [pow_zero] at h
      obtain rfl : n = 0 := by omega
      rfl
  | succ width ih =>
      rw [pow_succ] at h
      rw [bigEndian, ofBigEndian_append, ih (by omega), UInt8.toNat_ofNat']
      omega

theorem readNumber_bigEndian {width n : Nat} (h : n < 256 ^ width) (rest : Bytes) :
    readNumber width (bigEndian width n ++ rest) = some (n, rest) := by
  have htake := takeBytes_append (bigEndian width n) rest
  rw [bigEndian_length] at htake
  simp [readNumber, htake, ofBigEndian_bigEndian h]

theorem readArgument_argument {n info : Nat} {arg : Bytes} (h : argument n = some (info, arg))
    (rest : Bytes) : readArgument info (arg ++ rest) = some (n, rest) := by
  unfold argument at h
  split_ifs at h with h0 h1 h2 h4 h8 <;> simp only [Option.some.injEq, Prod.mk.injEq] at h <;>
    obtain ⟨rfl, rfl⟩ := h
  · rw [readArgument, if_pos h0]
    rfl
  · exact readNumber_bigEndian h1 rest
  · exact readNumber_bigEndian h2 rest
  · exact readNumber_bigEndian h4 rest
  · exact readNumber_bigEndian h8 rest

theorem toNat_initialByte {major info : Nat} (hmajor : major < 8) (hinfo : info < 32) :
    (initialByte major info).toNat = 32 * major + info := by
  rw [initialByte, UInt8.toNat_ofNat']
  omega

theorem decodeItem_head {depth major n : Nat} {bytes : Bytes} (h : head major n = some bytes)
    (hmajor : major < 7) (rest : Bytes) :
    decodeItem (depth + 1) (bytes ++ rest) = readContents (decodeItem depth) major n rest := by
  obtain ⟨info, arg, hinfo, harg, rfl⟩ := head_eq_some h
  have hbyte := toNat_initialByte (by omega : major < 8) hinfo
  have hdiv : (initialByte major info).toNat / 32 = major := by omega
  have hmod : (initialByte major info).toNat % 32 = info := by omega
  have hne : major ≠ 7 := by omega
  rw [List.cons_append, decodeItem]
  simp only [hdiv, hmod, if_neg hne, readArgument_argument harg]
  rfl

theorem head_length_pos {major n : Nat} {bytes : Bytes} (h : head major n = some bytes) :
    0 < bytes.length := by
  obtain ⟨info, arg, -, -, rfl⟩ := head_eq_some h
  exact Nat.succ_pos _

/-- An item that is a head followed by `content` is read by reading the content. -/
private theorem decodeItem_append {depth major n : Nat} {a content rest : Bytes} {v : Value}
    (ha : head major n = some a) (hmajor : major < 7) (hdepth : (a ++ content).length ≤ depth)
    (hcontent : ∀ depth, content.length ≤ depth →
      readContents (decodeItem depth) major n (content ++ rest) = some (v, rest)) :
    decodeItem depth (a ++ content ++ rest) = some (v, rest) := by
  have hpos := head_length_pos ha
  rw [List.length_append] at hdepth
  obtain ⟨depth, rfl⟩ : ∃ d, depth = d + 1 := ⟨depth - 1, by omega⟩
  rw [List.append_assoc, decodeItem_head ha hmajor]
  exact hcontent depth (by omega)

mutual

theorem decodeItem_encode : ∀ {v : Value} {bytes : Bytes} {depth : Nat} (rest : Bytes),
    encode v = some bytes → bytes.length ≤ depth →
    decodeItem depth (bytes ++ rest) = some (v, rest)
  | .null, bytes, depth, rest, h, hdepth => by
    cases h
    obtain ⟨depth, rfl⟩ : ∃ d, depth = d + 1 := ⟨depth - 1, by simp at hdepth; omega⟩
    rfl
  | .bool b, bytes, depth, rest, h, hdepth => by
    cases h
    obtain ⟨depth, rfl⟩ : ∃ d, depth = d + 1 := ⟨depth - 1, by simp at hdepth; omega⟩
    cases b <;> rfl
  | .uint n, bytes, depth, rest, h, hdepth => by
    have hempty : decodeItem depth (bytes ++ [] ++ rest) = some (.uint n, rest) :=
      decodeItem_append h (by decide) (by simpa using hdepth) fun _ _ => rfl
    simpa using hempty
  | .bytes bs, bytes, depth, rest, h, hdepth => by
    simp only [encode, Option.pure_def, Option.bind_eq_bind, Option.bind_eq_some_iff,
      Option.some.injEq] at h
    obtain ⟨a, ha, rfl⟩ := h
    refine decodeItem_append ha (by decide) hdepth fun depth _ => ?_
    simp [readContents, takeBytes_append]
  | .text s, bytes, depth, rest, h, hdepth => by
    simp only [encode, Option.pure_def, Option.bind_eq_bind, Option.bind_eq_some_iff,
      Option.some.injEq] at h
    obtain ⟨a, ha, rfl⟩ := h
    refine decodeItem_append ha (by decide) hdepth fun depth _ => ?_
    simp [readContents, takeBytes_append]
  | .array items, bytes, depth, rest, h, hdepth => by
    simp only [encode, Option.pure_def, Option.bind_eq_bind, Option.bind_eq_some_iff,
      Option.some.injEq] at h
    obtain ⟨a, ha, content, hcontent, rfl⟩ := h
    refine decodeItem_append ha (by decide) hdepth fun depth hdepth => ?_
    simp [readContents, readItems_encodeItems rest hcontent hdepth]
  | .map entries, bytes, depth, rest, h, hdepth => by
    simp only [encode, Option.pure_def, Option.bind_eq_bind, Option.bind_eq_some_iff,
      Option.some.injEq] at h
    obtain ⟨a, ha, content, hcontent, rfl⟩ := h
    refine decodeItem_append ha (by decide) hdepth fun depth hdepth => ?_
    simp [readContents, readItems_encodeEntries rest hcontent hdepth]

theorem readItems_encodeItems : ∀ {items : List Value} {bytes : Bytes} {depth : Nat}
    (rest : Bytes), encodeItems items = some bytes → bytes.length ≤ depth →
    readItems (decodeItem depth) items.length (bytes ++ rest) = some (items, rest)
  | [], bytes, depth, rest, h, _ => by
    cases h
    rfl
  | item :: items, bytes, depth, rest, h, hdepth => by
    simp only [encodeItems, Option.pure_def, Option.bind_eq_bind, Option.bind_eq_some_iff,
      Option.some.injEq] at h
    obtain ⟨a, ha, b, hb, rfl⟩ := h
    rw [List.length_append] at hdepth
    have hfirst := decodeItem_encode (b ++ rest) ha (by omega : a.length ≤ depth)
    have htail := readItems_encodeItems rest hb (by omega : b.length ≤ depth)
    simp [readItems, hfirst, htail]

theorem readItems_encodeEntries : ∀ {entries : List (Value × Value)} {bytes : Bytes} {depth : Nat}
    (rest : Bytes), encodeEntries entries = some bytes → bytes.length ≤ depth →
    readItems (readEntry (decodeItem depth)) entries.length (bytes ++ rest) = some (entries, rest)
  | [], bytes, depth, rest, h, _ => by
    cases h
    rfl
  | (key, value) :: entries, bytes, depth, rest, h, hdepth => by
    simp only [encodeEntries, Option.pure_def, Option.bind_eq_bind, Option.bind_eq_some_iff,
      Option.some.injEq] at h
    obtain ⟨a, ha, b, hb, c, hc, rfl⟩ := h
    simp only [List.length_append] at hdepth
    have hkey := decodeItem_encode (b ++ (c ++ rest)) ha (by omega : a.length ≤ depth)
    have hvalue := decodeItem_encode (c ++ rest) hb (by omega : b.length ≤ depth)
    have htail := readItems_encodeEntries rest hc (by omega : c.length ≤ depth)
    simp [readItems, readEntry, hkey, hvalue, htail]

end

/-- **Round trip.** What was written is read back, whatever follows it. -/
theorem decode_encode {v : Value} {bytes : Bytes} (h : encode v = some bytes) (rest : Bytes) :
    decode (bytes ++ rest) = some (v, rest) := by
  apply decodeItem_encode rest h
  rw [List.length_append]
  omega

-- A number in a longer form than it needs, and a byte that is left over.
example : decode [0xa1, 0x61, 0x61, 0x19, 0, 7, 0xff]
    = some (.map [(.text "a", .uint 7)], [0xff]) := by rfl

/-! ### What was read can be written -/

theorem ofBigEndian_lt (bytes : Bytes) : ofBigEndian bytes < 256 ^ bytes.length := by
  induction bytes using List.reverseRecOn with
  | nil => simp [ofBigEndian]
  | append_singleton bytes byte ih =>
      have hbyte := byte.toNat_lt
      rw [ofBigEndian_append, List.length_append, List.length_singleton, pow_succ]
      omega

theorem length_of_takeBytes {n : Nat} {input bytes rest : Bytes}
    (h : takeBytes n input = some (bytes, rest)) : bytes.length = n := by
  rw [takeBytes] at h
  split_ifs at h with hle
  obtain ⟨rfl, -⟩ := Prod.mk.inj (Option.some.inj h)
  exact List.length_take_of_le hle

theorem readNumber_lt {width n : Nat} {input rest : Bytes} (hwidth : width ≤ 8)
    (h : readNumber width input = some (n, rest)) : n < 256 ^ 8 := by
  rw [readNumber, Option.bind_eq_bind, Option.bind_eq_some_iff] at h
  obtain ⟨⟨bytes, input⟩, htake, h⟩ := h
  obtain ⟨rfl, -⟩ := Prod.mk.inj (Option.some.inj h)
  calc ofBigEndian bytes < 256 ^ bytes.length := ofBigEndian_lt bytes
    _ = 256 ^ width := by rw [length_of_takeBytes htake]
    _ ≤ 256 ^ 8 := Nat.pow_le_pow_right (by omega) hwidth

theorem readArgument_lt {info n : Nat} {input rest : Bytes}
    (h : readArgument info input = some (n, rest)) : n < 256 ^ 8 := by
  rw [readArgument] at h
  split_ifs at h with h24
  · obtain ⟨rfl, -⟩ := Prod.mk.inj (Option.some.inj h)
    omega
  all_goals exact readNumber_lt (by omega) h

theorem forall_of_readItems {α : Type} {item : Bytes → Option (α × Bytes)} {p : α → Prop}
    (hitem : ∀ input a rest, item input = some (a, rest) → p a) {n : Nat} {input rest : Bytes}
    {items : List α} (h : readItems item n input = some (items, rest)) :
    items.length = n ∧ ∀ a ∈ items, p a := by
  induction n generalizing input rest items with
  | zero =>
      obtain ⟨rfl, -⟩ := Prod.mk.inj (Option.some.inj h)
      exact ⟨rfl, List.forall_mem_nil _⟩
  | succ n ih =>
      simp only [readItems, Option.bind_eq_bind, Option.bind_eq_some_iff, Option.pure_def,
        Option.some.injEq, Prod.mk.injEq, Prod.exists] at h
      obtain ⟨first, input', hfirst, items', _, hitems', rfl, -⟩ := h
      obtain ⟨hlength, hall⟩ := ih hitems'
      refine ⟨by rw [List.length_cons, hlength], ?_⟩
      exact List.forall_mem_cons.mpr ⟨hitem _ _ _ hfirst, hall⟩

theorem isSome_encode_of_readEntry {item : Bytes → Option (Value × Bytes)}
    (hitem : ∀ input v rest, item input = some (v, rest) → (encode v).isSome = true)
    {input rest : Bytes} {e : Value × Value} (h : readEntry item input = some (e, rest)) :
    (encode e.1).isSome = true ∧ (encode e.2).isSome = true := by
  simp only [readEntry, Option.bind_eq_bind, Option.bind_eq_some_iff, Prod.exists, Option.pure_def,
    Option.some.injEq, Prod.mk.injEq] at h
  obtain ⟨key, _, hkey, value, _, hvalue, rfl, -⟩ := h
  exact ⟨hitem _ _ _ hkey, hitem _ _ _ hvalue⟩

theorem isSome_encode_of_readContents {item : Bytes → Option (Value × Bytes)}
    (hitem : ∀ input v rest, item input = some (v, rest) → (encode v).isSome = true)
    {major n : Nat} {input rest : Bytes} {v : Value} (hn : n < 256 ^ 8)
    (h : readContents item major n input = some (v, rest)) : (encode v).isSome = true := by
  rw [readContents.eq_def] at h
  split at h
  · obtain ⟨rfl, -⟩ := Prod.mk.inj (Option.some.inj h)
    exact (isSome_head 0).mpr hn
  · simp only [Option.bind_eq_bind, Option.bind_eq_some_iff, Prod.exists, Option.pure_def,
      Option.some.injEq, Prod.mk.injEq] at h
    obtain ⟨bs, _, htake, rfl, -⟩ := h
    rw [isSome_encode_bytes, length_of_takeBytes htake]
    exact hn
  · simp only [Option.bind_eq_bind, Option.bind_eq_some_iff, Prod.exists, Option.pure_def,
      Option.some.injEq, Prod.mk.injEq] at h
    obtain ⟨bs, _, htake, s, hdecode, rfl, -⟩ := h
    rw [isSome_encode_text, Utf8.decode_eq_some.mp hdecode, length_of_takeBytes htake]
    exact hn
  · simp only [Option.bind_eq_bind, Option.bind_eq_some_iff, Prod.exists, Option.pure_def,
      Option.some.injEq, Prod.mk.injEq] at h
    obtain ⟨items, _, hitems, rfl, -⟩ := h
    obtain ⟨hlength, hall⟩ := forall_of_readItems hitem hitems
    rw [isSome_encode_array, hlength]
    exact ⟨hn, hall⟩
  · simp only [Option.bind_eq_bind, Option.bind_eq_some_iff, Prod.exists, Option.pure_def,
      Option.some.injEq, Prod.mk.injEq] at h
    obtain ⟨entries, _, hentries, rfl, -⟩ := h
    obtain ⟨hlength, hall⟩ := forall_of_readItems (fun _ _ _ => isSome_encode_of_readEntry hitem)
      hentries
    rw [isSome_encode_map, hlength]
    exact ⟨hn, hall⟩
  · cases h

theorem isSome_encode_of_decodeItem {depth : Nat} {input rest : Bytes} {v : Value}
    (h : decodeItem depth input = some (v, rest)) : (encode v).isSome = true := by
  induction depth generalizing input rest v with
  | zero => cases h
  | succ depth ih =>
      cases input with
      | nil => cases h
      | cons initial input =>
          simp only [decodeItem] at h
          split_ifs at h with hmajor
          · obtain ⟨v', hsimple, hv⟩ := Option.map_eq_some_iff.mp h
            obtain ⟨rfl, -⟩ := Prod.mk.inj hv
            rw [simple] at hsimple
            split_ifs at hsimple <;> rw [← Option.some.inj hsimple] <;> rfl
          · rw [Option.bind_eq_bind, Option.bind_eq_some_iff] at h
            obtain ⟨⟨n, input'⟩, hargument, h⟩ := h
            exact isSome_encode_of_readContents (fun _ _ _ => ih) (readArgument_lt hargument) h

/-- What was read can be written. -/
theorem isSome_encode_of_decode {input rest : Bytes} {v : Value}
    (h : decode input = some (v, rest)) : (encode v).isSome = true :=
  isSome_encode_of_decodeItem h

end Cbor
