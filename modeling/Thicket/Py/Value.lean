import Thicket.Lib.Cbor
import Mathlib.Data.List.Dedup
import Mathlib.Data.List.Infix
import Mathlib.Tactic.Common

/-!
# Python values and their wire form

The values that travel on the wire, as Python sees them after `cbor.decode`, with the built-in
operations that the SDK applies to them. An operation that the type of its operand does not allow
raises, and so does looking up a key that is missing.
-/

namespace Thicket.Py

open Cbor (Bytes)

/-- The exceptions that are told apart; `raised` is one of a peer connection. -/
inductive Exc where
  | keyError
  | typeError
  | valueError
  | overflowError
  | attributeError
  | indexError
  | raised
  deriving DecidableEq, Repr

/-- A decoded value. A dictionary keeps its entries in insertion order. -/
inductive Value where
  | none
  | bool (b : Bool)
  | int (n : Int)
  | bytes (bs : Bytes)
  | str (s : String)
  | list (items : List Value)
  | dict (entries : List (Value × Value))

namespace Value

/-- `bool` is a subclass of `int`. -/
def asInt : Value → Option Int
  | bool b => some (if b then 1 else 0)
  | int n => some n
  | _ => Option.none

/-- Whether a value can be a dictionary key or an element of a set. -/
def isHashable : Value → Bool
  | list _ => false
  | dict _ => false
  | _ => true

mutual

/-- `a == b`; dictionaries are compared without regard to order. -/
def eq : Value → Value → Bool
  | none, none => true
  | bytes a, bytes b => a == b
  | str a, str b => a == b
  | list a, list b => eqItems a b
  | dict a, dict b => a.length == b.length && eqEntries a b
  | bool a, b => b.asInt == some (if a then 1 else 0)
  | int a, b => b.asInt == some a
  | _, _ => false

def eqItems : List Value → List Value → Bool
  | [], [] => true
  | a :: as, b :: bs => eq a b && eqItems as bs
  | _, _ => false

def eqEntries : List (Value × Value) → List (Value × Value) → Bool
  | [], _ => true
  | (k, v) :: rest, other => other.any (fun e => eq k e.1 && eq v e.2) && eqEntries rest other

end

/-- `value[key]` for a text key. -/
def getItem (value : Value) (key : String) : Except Exc Value :=
  match value with
  | dict entries =>
      match entries.find? fun e => eq e.1 (str key) with
      | some e => .ok e.2
      | Option.none => .error .keyError
  | _ => .error .typeError

/-- `value.get(key, default)` -/
def get (value key default : Value) : Except Exc Value :=
  match value with
  | dict entries =>
      if key.isHashable then
        .ok (((entries.find? fun e => eq e.1 key).map Prod.snd).getD default)
      else .error .typeError
  | _ => .error .attributeError

/-- `value.items()` -/
def items (value : Value) : Except Exc (List (Value × Value)) :=
  match value with
  | dict entries => .ok entries
  | _ => .error .attributeError

/-- `bool(value)` -/
def truthy : Value → Bool
  | none => false
  | bool b => b
  | int n => n != 0
  | bytes bs => !bs.isEmpty
  | str s => !s.toList.isEmpty
  | list items => !items.isEmpty
  | dict entries => !entries.isEmpty

/-- `value or other` -/
def orElse (value other : Value) : Value := if value.truthy then value else other

/-- `key in value` for a text key. -/
def containsStr (value : Value) (key : String) : Except Exc Bool :=
  match value with
  | list items => .ok (items.any fun item => eq item (str key))
  | dict entries => .ok (entries.any fun e => eq e.1 (str key))
  | str s => .ok (decide (key.toList <:+: s.toList))
  | _ => .error .typeError

mutual

/-- `a < b` -/
def lt : Value → Value → Except Exc Bool
  | str a, str b => .ok (decide (a < b))
  | bytes a, bytes b => .ok (decide (a < b))
  | list a, list b => ltItems a b
  | a, b =>
      match a.asInt, b.asInt with
      | some m, some n => .ok (decide (m < n))
      | _, _ => .error .typeError

def ltItems : List Value → List Value → Except Exc Bool
  | [], bs => .ok !bs.isEmpty
  | _ :: _, [] => .ok false
  | a :: as, b :: bs => if eq a b then ltItems as bs else lt a b

end

/-- `value[-1]` -/
def lastItem : Value → Except Exc Value
  | list items =>
      match items.getLast? with
      | some item => .ok item
      | Option.none => .error .indexError
  | str s =>
      match s.toList.getLast? with
      | some c => .ok (str c.toString)
      | Option.none => .error .indexError
  | bytes bs =>
      match bs.getLast? with
      | some b => .ok (int b.toNat)
      | Option.none => .error .indexError
  | dict entries =>
      match entries.find? fun e => eq e.1 (int (-1)) with
      | some e => .ok e.2
      | Option.none => .error .keyError
  | _ => .error .typeError

/-- `value + [item]` -/
def append (value item : Value) : Except Exc Value :=
  match value with
  | list items => .ok (list (items ++ [item]))
  | _ => .error .typeError

/-- What `for x in value` goes through. -/
def iter : Value → Except Exc (List Value)
  | list items => .ok items
  | dict entries => .ok (entries.map Prod.fst)
  | str s => .ok (s.toList.map fun c => str c.toString)
  | bytes bs => .ok (bs.map fun b => int b.toNat)
  | _ => .error .typeError

def intLt (n : Int) (value : Value) : Except Exc Bool :=
  match value.asInt with
  | some m => .ok (n < m)
  | Option.none => .error .typeError

def intGt (n : Int) (value : Value) : Except Exc Bool :=
  match value.asInt with
  | some m => .ok (n > m)
  | Option.none => .error .typeError

end Value

theorem eq_bytes_iff {v : Value} {bs : Bytes} : v.eq (.bytes bs) = true ↔ v = .bytes bs := by
  cases v <;> simp [Value.eq, Value.asInt]

theorem eq_str_iff {v : Value} {s : String} : v.eq (.str s) = true ↔ v = .str s := by
  cases v <;> simp [Value.eq, Value.asInt]

theorem orElse_dict (entries : List (Value × Value)) :
    (Value.dict entries).orElse (.dict []) = .dict entries := by
  cases entries <;> rfl

/-! ### What the builders take and sort -/

/-- A dictionary from strings to strings; its keys are distinct. -/
structure StrMap where
  entries : List (String × String)
  nodup : (entries.map Prod.fst).Nodup

/-- `a <= b` on pairs of strings. -/
def pairLe (a b : String × String) : Bool := decide (a.1 < b.1 ∨ a.1 = b.1 ∧ a.2 ≤ b.2)

/-- `dict(sorted(m.items()))` -/
def sortedMap (m : StrMap) : Value :=
  .dict ((m.entries.mergeSort pairLe).map fun (k, v) => (.str k, .str v))

/-- `(m or {})` for a map that may be left out. -/
def StrMap.orEmpty (m : Option StrMap) : StrMap := m.getD ⟨[], List.nodup_nil⟩

/-- `sorted(set(items))` -/
def sortedSet (items : List String) : List String :=
  items.dedup.mergeSort fun a b => decide (a ≤ b)

/-- The entry of a keyword argument that is left out of the dictionary when it is `None`. -/
def optionalEntry (key : String) (value : Value) : List (Value × Value) :=
  match value with
  | .none => []
  | value => [(.str key, value)]

/-- `list(items or [])` for a list of strings that may be left out. -/
def strList (items : Option (List String)) : Value := .list ((items.getD []).map .str)

/-! ### `cbor.encode` -/

/-- `_enc_head`; `to_bytes(8, "big")` overflows from `2 ^ 64` on. -/
def encHead (major n : Nat) : Except Exc Bytes :=
  let m := major <<< 5
  if n < 24 then .ok [UInt8.ofNat (m ||| n)]
  else if n < 0x100 then .ok [UInt8.ofNat (m ||| 24), UInt8.ofNat n]
  else if n < 0x10000 then .ok (UInt8.ofNat (m ||| 25) :: Cbor.bigEndian 2 n)
  else if n < 0x100000000 then .ok (UInt8.ofNat (m ||| 26) :: Cbor.bigEndian 4 n)
  else if n < 2 ^ 64 then .ok (UInt8.ofNat (m ||| 27) :: Cbor.bigEndian 8 n)
  else .error .overflowError

mutual

def enc : Value → Except Exc Bytes
  | .none => .ok [0xF6]
  | .bool b => .ok [if b then 0xF5 else 0xF4]
  | .int n => if n < 0 then .error .valueError else encHead 0 n.toNat
  | .bytes bs => do return (← encHead 2 bs.length) ++ bs
  | .str s => do return (← encHead 3 (Cbor.utf8 s).length) ++ Cbor.utf8 s
  | .list items => do return (← encHead 4 items.length) ++ (← encItems items)
  | .dict entries => do return (← encHead 5 entries.length) ++ (← encEntries entries)

def encItems : List Value → Except Exc Bytes
  | [] => .ok []
  | item :: items => do return (← enc item) ++ (← encItems items)

def encEntries : List (Value × Value) → Except Exc Bytes
  | [] => .ok []
  | (k, v) :: entries => do return (← enc k) ++ ((← enc v) ++ (← encEntries entries))

end

def encode (obj : Value) : Except Exc Bytes := enc obj

end Thicket.Py
