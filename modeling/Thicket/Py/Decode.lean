import Thicket.Lib.CborDecode
import Thicket.Lib.Result
import Thicket.Py.Value

/-!
# The decoder of the Python SDK

`cbor.decode` walks over the data with an index. A slice stops at the end of the data, the index does
not: what was cut short is only noticed by the next read or at the very end. A dictionary is built by
assignment, so an entry replaces the value of an equal key, and a list or a dictionary as a key is a
`TypeError`.
-/

namespace Thicket.Py

open Cbor (Bytes)
open Result

/-- `data[i]` -/
def byteAt (data : Bytes) (i : Nat) : Except Exc UInt8 := okOr data[i]? .indexError

/-- `data[i : i + n]` -/
def slice (data : Bytes) (i n : Nat) : Bytes := (data.drop i).take n

/-- `int.from_bytes(data[i : i + n], "big")` -/
def fromBytes (data : Bytes) (i n : Nat) : Nat := Cbor.ofBigEndian (slice data i n)

def decSimple (info : Nat) : Except Exc Value :=
  if info = 20 then .ok (.bool false)
  else if info = 21 then .ok (.bool true)
  else if info = 22 then .ok .none
  else .error .valueError

/-- The length or value of a head and the index after it. -/
def decArgument (data : Bytes) (info i : Nat) : Except Exc (Nat × Nat) :=
  if info < 24 then .ok (info, i)
  else if info = 24 then do return ((← byteAt data i).toNat, i + 1)
  else if info = 25 then .ok (fromBytes data i 2, i + 2)
  else if info = 26 then .ok (fromBytes data i 4, i + 4)
  else if info = 27 then .ok (fromBytes data i 8, i + 8)
  else .error .valueError

/-- `d[k] = v` -/
def setItem (d : List (Value × Value)) (k v : Value) : Except Exc (List (Value × Value)) :=
  if k.isHashable then
    if d.any fun e => e.1.eq k then .ok (d.map fun e => if e.1.eq k then (e.1, v) else e)
    else .ok (d ++ [(k, v)])
  else .error .typeError

section Loops

variable (item : Nat → Except Exc (Value × Nat))

def decItems : Nat → Nat → Except Exc (List Value × Nat)
  | 0, i => .ok ([], i)
  | n + 1, i => do
      let (v, i) ← item i
      let (arr, i) ← decItems n i
      return (v :: arr, i)

def decEntries : Nat → Nat → List (Value × Value) → Except Exc (List (Value × Value) × Nat)
  | 0, i, d => .ok (d, i)
  | n + 1, i, d => do
      let (k, i) ← item i
      let (v, i) ← item i
      decEntries n i (← setItem d k v)

end Loops

/-- What follows a head, with `item` for the items inside. -/
def decContents (data : Bytes) (item : Nat → Except Exc (Value × Nat)) (major n i : Nat) :
    Except Exc (Value × Nat) :=
  match major with
  | 0 => .ok (.int n, i)
  | 2 => .ok (.bytes (slice data i n), i + n)
  | 3 => do return (.str (← okOr (Utf8.decode (slice data i n)) .valueError), i + n)
  | 4 => do
      let (arr, i) ← decItems item n i
      return (.list arr, i)
  | 5 => do
      let (d, i) ← decEntries item n i []
      return (.dict d, i)
  | _ => .error .valueError

/-- `_dec`, nested less deep than there are bytes from `i` on: where none is left, `data[i]` fails. -/
def dec (data : Bytes) : Nat → Nat → Except Exc (Value × Nat)
  | 0, _ => .error .indexError
  | depth + 1, i => do
      let b ← byteAt data i
      let major := b.toNat >>> 5
      let info := b.toNat &&& 0x1F
      if major = 7 then return (← decSimple info, i + 1)
      else do
        let (n, i) ← decArgument data info (i + 1)
        decContents data (dec data depth) major n i

def decode (data : Bytes) : Except Exc Value := do
  let (obj, i) ← dec data data.length 0
  if i ≠ data.length then .error .valueError
  else .ok obj

/-! ### What a data item becomes -/

mutual

/-- The value that is built of a data item. -/
def Value.built : Cbor.Value → Except Exc Value
  | .null => .ok .none
  | .bool b => .ok (.bool b)
  | .uint n => .ok (.int n)
  | .bytes bs => .ok (.bytes bs)
  | .text s => .ok (.str s)
  | .array items => do return .list (← builtItems items)
  | .map entries => do return .dict (← builtEntries [] entries)

def Value.builtItems : List Cbor.Value → Except Exc (List Value)
  | [] => .ok []
  | item :: items => do return (← built item) :: (← builtItems items)

def Value.builtEntries (d : List (Value × Value)) :
    List (Cbor.Value × Cbor.Value) → Except Exc (List (Value × Value))
  | [] => .ok d
  | (key, value) :: entries => do
      let k ← built key
      let v ← built value
      builtEntries (← setItem d k v) entries

end

end Thicket.Py
