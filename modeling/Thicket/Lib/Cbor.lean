import Mathlib.Data.List.Basic
import Mathlib.Tactic.NormNum

/-!
# Deterministic CBOR

The data model of RFC 8949 restricted to what has one deterministic encoding: unsigned integers,
byte and text strings, arrays, maps in a given entry order, booleans and null. Heads are shortest
form and every length is definite. Encoding fails only on an integer or a length that no head can
carry, so a value that encodes has exactly one encoding.

The main result is `encode_append_inj`: an encoding is never a proper prefix of another one, and it
determines the value it came from.
-/

namespace Cbor

abbrev Bytes := List UInt8

/-- A CBOR data item. Map entries keep the order they are written in. -/
inductive Value where
  | null
  | bool (b : Bool)
  | uint (n : Nat)
  | bytes (bs : Bytes)
  | text (s : String)
  | array (items : List Value)
  | map (entries : List (Value × Value))
  deriving Repr

def bigEndian : Nat → Nat → Bytes
  | 0, _ => []
  | width + 1, n => bigEndian width (n / 256) ++ [UInt8.ofNat n]

/-- The additional information of a shortest-form head and the bytes that follow it. -/
def argument (n : Nat) : Option (Nat × Bytes) :=
  if n < 24 then some (n, [])
  else if n < 256 ^ 1 then some (24, bigEndian 1 n)
  else if n < 256 ^ 2 then some (25, bigEndian 2 n)
  else if n < 256 ^ 4 then some (26, bigEndian 4 n)
  else if n < 256 ^ 8 then some (27, bigEndian 8 n)
  else none

/-- The first byte of an item: three bits of major type, five of additional information. -/
def initialByte (major info : Nat) : UInt8 := UInt8.ofNat (32 * major + info)

def head (major n : Nat) : Option Bytes :=
  (argument n).map fun (info, arg) => initialByte major info :: arg

def utf8 (s : String) : Bytes := s.toUTF8.data.toList

mutual

def encode : Value → Option Bytes
  | .null => some [initialByte 7 22]
  | .bool b => some [initialByte 7 (if b then 21 else 20)]
  | .uint n => head 0 n
  | .bytes bs => do return (← head 2 bs.length) ++ bs
  | .text s => do return (← head 3 (utf8 s).length) ++ utf8 s
  | .array items => do return (← head 4 items.length) ++ (← encodeItems items)
  | .map entries => do return (← head 5 entries.length) ++ (← encodeEntries entries)

def encodeItems : List Value → Option Bytes
  | [] => some []
  | item :: items => do return (← encode item) ++ (← encodeItems items)

def encodeEntries : List (Value × Value) → Option Bytes
  | [] => some []
  | (key, value) :: entries => do
      return (← encode key) ++ ((← encode value) ++ (← encodeEntries entries))

end

/-! ### Heads -/

theorem bigEndian_length (width n : Nat) : (bigEndian width n).length = width := by
  induction width generalizing n with
  | zero => rfl
  | succ width ih => simp [bigEndian, ih]

theorem bigEndian_injective {width m n : Nat} (hm : m < 256 ^ width) (hn : n < 256 ^ width)
    (h : bigEndian width m = bigEndian width n) : m = n := by
  induction width generalizing m n with
  | zero =>
      rw [pow_zero] at hm hn
      omega
  | succ width ih =>
      simp only [bigEndian] at h
      obtain ⟨hhigh, hlow⟩ := List.append_inj' h rfl
      rw [pow_succ] at hm hn
      have hquot : m / 256 = n / 256 := ih (by omega) (by omega) hhigh
      have hbyte : m % 256 = n % 256 := by
        have := congrArg UInt8.toNat (List.cons.inj hlow).1
        simpa only [UInt8.toNat_ofNat'] using this
      omega

theorem initialByte_injective {major major' info info' : Nat} (hmajor : major < 8)
    (hmajor' : major' < 8) (hinfo : info < 32) (hinfo' : info' < 32)
    (h : initialByte major info = initialByte major' info') : major = major' ∧ info = info' := by
  have hval := congrArg UInt8.toNat h
  simp only [initialByte, UInt8.toNat_ofNat'] at hval
  omega

theorem argument_info_lt {n info : Nat} {arg : Bytes} (h : argument n = some (info, arg)) :
    info < 32 := by
  unfold argument at h
  split_ifs at h <;> simp only [Option.some.injEq, Prod.mk.injEq] at h <;> omega

/-- A multi-byte argument is determined by its additional information and any input it starts. -/
theorem argument_append_inj {m n info : Nat} {arg arg' rest rest' : Bytes}
    (hm : argument m = some (info, arg)) (hn : argument n = some (info, arg'))
    (h : arg ++ rest = arg' ++ rest') : m = n ∧ rest = rest' := by
  have hwide : ∀ width, m < 256 ^ width → n < 256 ^ width → arg = bigEndian width m →
      arg' = bigEndian width n → m = n ∧ rest = rest' := by
    intro width hm hn harg harg'
    rw [harg, harg'] at h
    obtain ⟨hbytes, hrest⟩ := List.append_inj h (by rw [bigEndian_length, bigEndian_length])
    exact ⟨bigEndian_injective hm hn hbytes, hrest⟩
  unfold argument at hm hn
  split_ifs at hm hn <;>
    simp only [Option.some.injEq, Prod.mk.injEq] at hm hn <;>
    obtain ⟨hinfo, rfl⟩ := hm <;> obtain ⟨hinfo', rfl⟩ := hn <;> try omega
  · exact ⟨hinfo.trans hinfo'.symm, h⟩
  · exact hwide 1 ‹_› ‹_› rfl rfl
  · exact hwide 2 ‹_› ‹_› rfl rfl
  · exact hwide 4 ‹_› ‹_› rfl rfl
  · exact hwide 8 ‹_› ‹_› rfl rfl

theorem head_eq_some {major n : Nat} {bytes : Bytes} (h : head major n = some bytes) :
    ∃ info arg, info < 32 ∧ argument n = some (info, arg) ∧ bytes = initialByte major info :: arg := by
  simp only [head, Option.map_eq_some_iff] at h
  obtain ⟨⟨info, arg⟩, harg, rfl⟩ := h
  exact ⟨info, arg, argument_info_lt harg, harg, rfl⟩

theorem head_append_inj {major m n : Nat} (hmajor : major < 8) {a b rest rest' : Bytes}
    (ha : head major m = some a) (hb : head major n = some b) (h : a ++ rest = b ++ rest') :
    m = n ∧ rest = rest' := by
  obtain ⟨info, arg, hinfo, harg, rfl⟩ := head_eq_some ha
  obtain ⟨info', arg', hinfo', harg', rfl⟩ := head_eq_some hb
  simp only [List.cons_append, List.cons.injEq] at h
  obtain ⟨-, rfl⟩ := initialByte_injective hmajor hmajor hinfo hinfo' h.1
  exact argument_append_inj harg harg' h.2

theorem utf8_injective {s t : String} (h : utf8 s = utf8 t) : s = t := by
  apply String.toByteArray_inj.mp
  apply ByteArray.ext
  exact Array.toList_inj.mp h

/-! ### Data items -/

/-- The major type an item is encoded under. -/
def Value.major : Value → Nat
  | .null => 7
  | .bool _ => 7
  | .uint _ => 0
  | .bytes _ => 2
  | .text _ => 3
  | .array _ => 4
  | .map _ => 5

theorem Value.major_lt (v : Value) : v.major < 8 := by
  cases v <;> simp [Value.major]

private theorem encode_eq_append {major n : Nat} {tail : Option Bytes} {bytes : Bytes}
    (h : (do return (← head major n) ++ (← tail)) = some bytes) :
    ∃ a b, head major n = some a ∧ tail = some b ∧ bytes = a ++ b := by
  simp only [Option.pure_def, Option.bind_eq_bind, Option.bind_eq_some_iff, Option.some.injEq] at h
  obtain ⟨a, ha, b, hb, rfl⟩ := h
  exact ⟨a, b, ha, hb, rfl⟩

/-- The number in an item's head, and what follows the head. -/
private def parts : Value → Nat × Option Bytes
  | .null => (22, some [])
  | .bool b => (if b then 21 else 20, some [])
  | .uint n => (n, some [])
  | .bytes bs => (bs.length, some bs)
  | .text s => ((utf8 s).length, some (utf8 s))
  | .array items => (items.length, encodeItems items)
  | .map entries => (entries.length, encodeEntries entries)

/-- An encoding is a head of the item's major type followed by the item's contents. The simple
values fit in because their additional information is below the first multi-byte head. -/
private theorem encode_parts {v : Value} {bytes : Bytes} (h : encode v = some bytes) :
    ∃ a b, head v.major (parts v).1 = some a ∧ (parts v).2 = some b ∧ bytes = a ++ b := by
  apply encode_eq_append
  rw [← h]
  cases v with
  | null => rfl
  | bool b => cases b <;> rfl
  | uint n => simp [encode, parts, Value.major]
  | bytes bs => simp [encode, parts, Value.major]
  | text s => simp [encode, parts, Value.major]
  | array items => rfl
  | map entries => rfl

/-- Items whose encodings start the same input have the same major type and the same head number,
and their contents start the same input. -/
private theorem encode_append_parts {v w : Value} {a b rest rest' : Bytes}
    (hv : encode v = some a) (hw : encode w = some b) (h : a ++ rest = b ++ rest') :
    v.major = w.major ∧ (parts v).1 = (parts w).1 ∧ ∃ c d, (parts v).2 = some c ∧
      (parts w).2 = some d ∧ c ++ rest = d ++ rest' := by
  obtain ⟨headV, c, hheadV, hc, rfl⟩ := encode_parts hv
  obtain ⟨headW, d, hheadW, hd, rfl⟩ := encode_parts hw
  rw [List.append_assoc, List.append_assoc] at h
  have hmajor : v.major = w.major := by
    obtain ⟨info, arg, hinfo, -, rfl⟩ := head_eq_some hheadV
    obtain ⟨info', arg', hinfo', -, rfl⟩ := head_eq_some hheadW
    exact (initialByte_injective v.major_lt w.major_lt hinfo hinfo' (List.cons.inj h).1).1
  rw [← hmajor] at hheadW
  obtain ⟨hnum, hrest⟩ := head_append_inj v.major_lt hheadV hheadW h
  exact ⟨hmajor, hnum, c, d, hc, hd, hrest⟩

mutual

/-- **Prefix freeness.** Two encodings that start the same input are of the same item, and leave
the same input behind. -/
theorem encode_append_inj : ∀ {v w : Value} {a b rest rest' : Bytes}, encode v = some a →
    encode w = some b → a ++ rest = b ++ rest' → v = w ∧ rest = rest'
  | v, w, a, b, rest, rest', hv, hw, h => by
    obtain ⟨hmajor, hnum, c, d, hc, hd, htail⟩ := encode_append_parts hv hw h
    match v, w with
    | .null, .null | .null, .bool true | .null, .bool false | .bool true, .null
    | .bool false, .null | .bool true, .bool true | .bool true, .bool false
    | .bool false, .bool true | .bool false, .bool false =>
        simp_all [parts]
    | .uint m, .uint n => simp_all [parts]
    | .bytes bs, .bytes cs =>
        cases hc
        cases hd
        obtain ⟨rfl, rfl⟩ := List.append_inj htail hnum
        exact ⟨rfl, rfl⟩
    | .text s, .text t =>
        cases hc
        cases hd
        obtain ⟨hst, rfl⟩ := List.append_inj htail hnum
        exact ⟨congrArg Value.text (utf8_injective hst), rfl⟩
    | .array xs, .array ys =>
        obtain ⟨rfl, rfl⟩ := encodeItems_append_inj hnum hc hd htail
        exact ⟨rfl, rfl⟩
    | .map xs, .map ys =>
        obtain ⟨rfl, rfl⟩ := encodeEntries_append_inj hnum hc hd htail
        exact ⟨rfl, rfl⟩

theorem encodeItems_append_inj : ∀ {xs ys : List Value} {a b rest rest' : Bytes},
    xs.length = ys.length → encodeItems xs = some a → encodeItems ys = some b →
    a ++ rest = b ++ rest' → xs = ys ∧ rest = rest'
  | [], [], a, b, rest, rest', _, ha, hb, h => by
    cases ha
    cases hb
    exact ⟨rfl, h⟩
  | x :: xs, y :: ys, a, b, rest, rest', hlen, ha, hb, h => by
    simp only [encodeItems, Option.pure_def, Option.bind_eq_bind, Option.bind_eq_some_iff,
      Option.some.injEq] at ha hb
    obtain ⟨a, hx, as, hxs, rfl⟩ := ha
    obtain ⟨b, hy, bs, hys, rfl⟩ := hb
    rw [List.append_assoc, List.append_assoc] at h
    obtain ⟨rfl, htail⟩ := encode_append_inj hx hy h
    obtain ⟨rfl, rfl⟩ := encodeItems_append_inj (Nat.succ.inj hlen) hxs hys htail
    exact ⟨rfl, rfl⟩

theorem encodeEntries_append_inj : ∀ {xs ys : List (Value × Value)} {a b rest rest' : Bytes},
    xs.length = ys.length → encodeEntries xs = some a → encodeEntries ys = some b →
    a ++ rest = b ++ rest' → xs = ys ∧ rest = rest'
  | [], [], a, b, rest, rest', _, ha, hb, h => by
    cases ha
    cases hb
    exact ⟨rfl, h⟩
  | (k, v) :: xs, (l, w) :: ys, a, b, rest, rest', hlen, ha, hb, h => by
    simp only [encodeEntries, Option.pure_def, Option.bind_eq_bind, Option.bind_eq_some_iff,
      Option.some.injEq] at ha hb
    obtain ⟨a₁, hk, a₂, hv, as, hxs, rfl⟩ := ha
    obtain ⟨b₁, hl, b₂, hw, bs, hys, rfl⟩ := hb
    simp only [List.append_assoc] at h
    obtain ⟨rfl, hvalue⟩ := encode_append_inj hk hl h
    obtain ⟨rfl, htail⟩ := encode_append_inj hv hw hvalue
    obtain ⟨rfl, rfl⟩ := encodeEntries_append_inj (Nat.succ.inj hlen) hxs hys htail
    exact ⟨rfl, rfl⟩

end

theorem encode_injective {v w : Value} {bytes : Bytes} (hv : encode v = some bytes)
    (hw : encode w = some bytes) : v = w := by
  have hsame : bytes ++ [] = bytes ++ [] := rfl
  exact (encode_append_inj hv hw hsame).1

example : encode (.map [(.text "a", .uint 300), (.text "b", .array [.bool true, .null])])
    = some [0xa2, 0x61, 0x61, 0x19, 1, 44, 0x61, 0x62, 0x82, 0xf5, 0xf6] := by decide

/-! ### What encodes -/

theorem isSome_head (major : Nat) {n : Nat} : (head major n).isSome = true ↔ n < 256 ^ 8 := by
  rw [head, Option.isSome_map, argument]
  split_ifs with h24 h1 h2 h4 h8
  · refine iff_of_true rfl ?_
    omega
  · refine iff_of_true rfl ?_
    omega
  · refine iff_of_true rfl ?_
    omega
  · refine iff_of_true rfl ?_
    omega
  · exact iff_of_true rfl h8
  · exact iff_of_false Bool.false_ne_true h8

theorem isSome_encode_bytes {bs : Bytes} :
    (encode (.bytes bs)).isSome = true ↔ bs.length < 256 ^ 8 := by
  rw [← isSome_head 2, encode]
  cases head 2 bs.length <;> simp

theorem isSome_encode_text {s : String} :
    (encode (.text s)).isSome = true ↔ (utf8 s).length < 256 ^ 8 := by
  rw [← isSome_head 3, encode]
  cases head 3 (utf8 s).length <;> simp

theorem isSome_encodeItems {items : List Value} :
    (encodeItems items).isSome = true ↔ ∀ item ∈ items, (encode item).isSome = true := by
  induction items with
  | nil => simp [encodeItems]
  | cons item items ih =>
      rw [List.forall_mem_cons, ← ih, encodeItems]
      cases encode item <;> cases encodeItems items <;> simp

theorem isSome_encodeEntries {entries : List (Value × Value)} :
    (encodeEntries entries).isSome = true ↔
      ∀ e ∈ entries, (encode e.1).isSome = true ∧ (encode e.2).isSome = true := by
  induction entries with
  | nil => simp [encodeEntries]
  | cons e entries ih =>
      obtain ⟨key, value⟩ := e
      rw [List.forall_mem_cons, ← ih, encodeEntries]
      cases encode key <;> cases encode value <;> cases encodeEntries entries <;> simp

theorem isSome_encode_array {items : List Value} : (encode (.array items)).isSome = true ↔
    items.length < 256 ^ 8 ∧ ∀ item ∈ items, (encode item).isSome = true := by
  rw [← isSome_head 4, ← isSome_encodeItems, encode]
  cases head 4 items.length <;> cases encodeItems items <;> simp

theorem isSome_encode_map {entries : List (Value × Value)} :
    (encode (.map entries)).isSome = true ↔ entries.length < 256 ^ 8 ∧
      ∀ e ∈ entries, (encode e.1).isSome = true ∧ (encode e.2).isSome = true := by
  rw [← isSome_head 5, ← isSome_encodeEntries, encode]
  cases head 5 entries.length <;> cases encodeEntries entries <;> simp

end Cbor
