import Thicket.Py.Bodies

/-!
# What the codec is given

Besides the values that travel on the wire a caller can hand `cbor.encode` a float, a negative
integer or one that needs more than 64 bits. None of these has a wire form, and wherever one occurs
in an object the encoder raises. Everything else is decoded to what it was.
-/

namespace Thicket.Py

open Cbor (Bytes)
open Result

/-- An object that is passed to the encoder; of a float it sees that it is one. -/
inductive Obj where
  | none
  | bool (b : Bool)
  | int (n : Int)
  | float (bits : UInt64)
  | bytes (bs : Bytes)
  | str (s : String)
  | list (items : List Obj)
  | dict (entries : List (Obj × Obj))

namespace Obj

mutual

/-- `_enc`, with the branch for objects of any other type. -/
def enc : Obj → Except Exc Bytes
  | .none => .ok [0xF6]
  | .bool b => .ok [if b then 0xF5 else 0xF4]
  | .int n => if n < 0 then .error .valueError else encHead 0 n.toNat
  | .bytes bs => do return (← encHead 2 bs.length) ++ bs
  | .str s => do return (← encHead 3 (Cbor.utf8 s).length) ++ Cbor.utf8 s
  | .list items => do return (← encHead 4 items.length) ++ (← encItems items)
  | .dict entries => do return (← encHead 5 entries.length) ++ (← encEntries entries)
  | .float _ => .error .typeError

def encItems : List Obj → Except Exc Bytes
  | [] => .ok []
  | item :: items => do return (← enc item) ++ (← encItems items)

def encEntries : List (Obj × Obj) → Except Exc Bytes
  | [] => .ok []
  | (k, v) :: entries => do return (← enc k) ++ ((← enc v) ++ (← encEntries entries))

end

/-- `encode` -/
def encode (obj : Obj) : Except Exc Bytes := enc obj

/-- A negative integer, an integer from `2 ^ 64` on, or a float occurs in the object. -/
inductive HasForeign : Obj → Prop
  | negative (n : Int) (h : n < 0) : HasForeign (.int n)
  | large (n : Int) (h : 2 ^ 64 ≤ n) : HasForeign (.int n)
  | float (bits : UInt64) : HasForeign (.float bits)
  | item {items : List Obj} (item : Obj) (hmem : item ∈ items) (h : HasForeign item) :
      HasForeign (.list items)
  | key {entries : List (Obj × Obj)} (e : Obj × Obj) (hmem : e ∈ entries) (h : HasForeign e.1) :
      HasForeign (.dict entries)
  | value {entries : List (Obj × Obj)} (e : Obj × Obj) (hmem : e ∈ entries) (h : HasForeign e.2) :
      HasForeign (.dict entries)

end Obj

mutual

/-- A value of the wire as an object. -/
def Value.toObj : Value → Obj
  | .none => .none
  | .bool b => .bool b
  | .int n => .int n
  | .bytes bs => .bytes bs
  | .str s => .str s
  | .list items => .list (toObjs items)
  | .dict entries => .dict (toObjEntries entries)

def Value.toObjs : List Value → List Obj
  | [] => []
  | item :: items => toObj item :: toObjs items

def Value.toObjEntries : List (Value × Value) → List (Obj × Obj)
  | [] => []
  | (key, value) :: entries => (toObj key, toObj value) :: toObjEntries entries

end

/-! ### Values of the wire -/

theorem length_toObjs (items : List Value) : (Value.toObjs items).length = items.length := by
  induction items with
  | nil => rfl
  | cons item items ih => rw [Value.toObjs, List.length_cons, List.length_cons, ih]

theorem length_toObjEntries (entries : List (Value × Value)) :
    (Value.toObjEntries entries).length = entries.length := by
  induction entries with
  | nil => rfl
  | cons e entries ih => rw [Value.toObjEntries, List.length_cons, List.length_cons, ih]

mutual

/-- A value of the wire is encoded as before. -/
theorem enc_toObj : ∀ v : Value, v.toObj.enc = enc v
  | .none | .bool _ | .int _ | .bytes _ | .str _ => rfl
  | .list items => by
    rw [Value.toObj, Obj.enc, enc, length_toObjs, encItems_toObjs]
  | .dict entries => by
    rw [Value.toObj, Obj.enc, enc, length_toObjEntries, encEntries_toObjEntries]

theorem encItems_toObjs : ∀ items : List Value, Obj.encItems (Value.toObjs items) = encItems items
  | [] => rfl
  | item :: items => by
    rw [Value.toObjs, Obj.encItems, encItems, enc_toObj, encItems_toObjs]

theorem encEntries_toObjEntries : ∀ entries : List (Value × Value),
    Obj.encEntries (Value.toObjEntries entries) = encEntries entries
  | [] => rfl
  | (key, value) :: entries => by
    rw [Value.toObjEntries, Obj.encEntries, encEntries, enc_toObj, enc_toObj,
      encEntries_toObjEntries]

end

/-! ### What has no wire form -/

theorem encHead_error (major : Nat) {n : Nat} (h : 2 ^ 64 ≤ n) :
    encHead major n = .error .overflowError := by
  unfold encHead
  dsimp only
  split_ifs
  all_goals first | omega | rfl

/-- A step that follows a failed one is not reached. -/
theorem exists_error_bind {α β : Type} {x : Except Exc α} {f : α → Except Exc β}
    (h : ∀ a, x = .ok a → ∃ e, f a = .error e) : ∃ e, (x >>= f) = .error e := by
  cases x with
  | error e => exact ⟨e, rfl⟩
  | ok a => exact h a rfl

theorem encItems_error {items : List Obj} {item : Obj} (hmem : item ∈ items)
    (h : ∃ e, item.enc = .error e) : ∃ e, Obj.encItems items = .error e := by
  induction items with
  | nil => cases hmem
  | cons x items ih =>
      rw [Obj.encItems]
      rcases List.mem_cons.mp hmem with rfl | hmem
      · obtain ⟨e, he⟩ := h
        rw [he]
        exact ⟨e, rfl⟩
      · obtain ⟨e, he⟩ := ih hmem
        apply exists_error_bind
        intro bytes _
        rw [he]
        exact ⟨e, rfl⟩

theorem encEntries_error {entries : List (Obj × Obj)} {entry : Obj × Obj} (hmem : entry ∈ entries)
    (h : (∃ e, entry.1.enc = .error e) ∨ ∃ e, entry.2.enc = .error e) :
    ∃ e, Obj.encEntries entries = .error e := by
  induction entries with
  | nil => cases hmem
  | cons x entries ih =>
      obtain ⟨key, value⟩ := x
      rw [Obj.encEntries]
      apply exists_error_bind
      intro keyBytes hkey
      apply exists_error_bind
      intro valueBytes hvalue
      rcases List.mem_cons.mp hmem with rfl | hmem
      · rcases h with ⟨e, he⟩ | ⟨e, he⟩
        · cases he.symm.trans hkey
        · cases he.symm.trans hvalue
      · obtain ⟨e, he⟩ := ih hmem
        rw [he]
        exact ⟨e, rfl⟩

theorem enc_list_error {items : List Obj} (h : ∃ e, Obj.encItems items = .error e) :
    ∃ e, (Obj.list items).enc = .error e := by
  obtain ⟨e, he⟩ := h
  rw [Obj.enc]
  apply exists_error_bind
  intro head _
  rw [he]
  exact ⟨e, rfl⟩

theorem enc_dict_error {entries : List (Obj × Obj)}
    (h : ∃ e, Obj.encEntries entries = .error e) : ∃ e, (Obj.dict entries).enc = .error e := by
  obtain ⟨e, he⟩ := h
  rw [Obj.enc]
  apply exists_error_bind
  intro head _
  rw [he]
  exact ⟨e, rfl⟩

/-- What contains something foreign is not encoded, however deep it lies. -/
theorem Obj.HasForeign.raises {obj : Obj} (h : obj.HasForeign) : ∃ e, obj.encode = .error e := by
  unfold encode
  induction h with
  | negative n hn =>
      refine ⟨.valueError, ?_⟩
      rw [enc, if_pos hn]
  | large n hn =>
      refine ⟨.overflowError, ?_⟩
      rw [enc, if_neg (by omega)]
      exact encHead_error 0 (by omega)
  | float bits => exact ⟨.typeError, rfl⟩
  | item item hmem _ ih => exact enc_list_error (encItems_error hmem ih)
  | key entry hmem _ ih => exact enc_dict_error (encEntries_error hmem (.inl ih))
  | value entry hmem _ ih => exact enc_dict_error (encEntries_error hmem (.inr ih))

/-- **Round trip.** A value with no negative integer is encoded, and decoded to itself with the
order of its entries; an object with something foreign in it is not encoded. -/
theorem cbor_round_trip :
    (∀ v : Value, Passable v → ¬HasNegative v →
      ∃ bytes, v.toObj.encode = .ok bytes ∧ decode bytes = .ok v) ∧
    ∀ obj : Obj, obj.HasForeign → ∃ e, obj.encode = .error e := by
  refine ⟨?_, fun obj h => h.raises⟩
  intro v hv hneg
  obtain ⟨bytes, hbytes⟩ := hv.encodes hneg
  refine ⟨bytes, ?_, hv.decode_encode hbytes⟩
  rw [Obj.encode, enc_toObj]
  exact hbytes

def nestedList : Value := .list [.int 300, .none]

theorem passable_nestedList : Passable nestedList := by
  apply Passable.list (by decide)
  intro item hitem
  simp only [List.mem_cons, List.not_mem_nil, or_false] at hitem
  rcases hitem with rfl | rfl
  · exact .int 300 (by decide)
  · exact .none

theorem not_hasNegative_nestedList : ¬HasNegative nestedList := by
  intro h
  apply not_hasNegative_ofItem h (.array [.uint 300, .null])
  simp [Value.ofItem, Value.ofItems, nestedList]

/-- A list with a number and `None`, and one with a float. -/
theorem cbor_round_trip_nested :
    (∃ bytes, nestedList.toObj.encode = .ok bytes ∧ decode bytes = .ok nestedList) ∧
      ∃ e, (Obj.list [.int 300, .float 0]).encode = .error e := by
  refine ⟨cbor_round_trip.1 _ passable_nestedList not_hasNegative_nestedList, ?_⟩
  exact cbor_round_trip.2 _ (.item _ (by simp) (.float 0))

end Thicket.Py
