import Thicket.Lib.CborStrict
import Thicket.Py.Bodies

/-!
# Bytes that are decoded and encoded again

The decoder takes a number and a length in any of the forms a head can have, and of entries with
equal keys it keeps one. What it returns is encoded with the shortest heads and one entry for a key.
So it is exactly the other input that comes back as other bytes.
-/

namespace Thicket.Py

open Cbor (Bytes)
open Result

/-- No map in the item has two keys that Python holds equal. -/
inductive KeysDiffer : Cbor.Value → Prop
  | null : KeysDiffer .null
  | bool (b : Bool) : KeysDiffer (.bool b)
  | uint (n : Nat) : KeysDiffer (.uint n)
  | bytes (bs : Bytes) : KeysDiffer (.bytes bs)
  | text (s : String) : KeysDiffer (.text s)
  | array {items : List Cbor.Value} (hitems : ∀ item ∈ items, KeysDiffer item) :
      KeysDiffer (.array items)
  | map {es : List (Cbor.Value × Cbor.Value)}
      (hdistinct : es.Pairwise fun a b => (Value.ofItem a.1).eq (.ofItem b.1) = false)
      (hkeys : ∀ e ∈ es, KeysDiffer e.1) (hvalues : ∀ e ∈ es, KeysDiffer e.2) :
      KeysDiffer (.map es)

/-- Every head has its shortest form, and no map repeats a key. -/
def Canonical (bytes : Bytes) : Prop :=
  ∃ item, Cbor.decodeStrict bytes = some (item, []) ∧ KeysDiffer item

variable {d d' : List (Value × Value)} {es : List (Cbor.Value × Cbor.Value)} {k v : Value}

/-! ### Entries that are kept -/

theorem setItem_hashable (h : setItem d k v = .ok d') : k.isHashable = true := by
  rw [setItem] at h
  split_ifs at h with hk
  · exact hk
  · exact hk

/-- Only a key that is not there yet makes the dictionary longer. -/
theorem setItem_grows (h : setItem d k v = .ok d') (hlength : d'.length = d.length + 1) :
    d' = d ++ [(k, v)] ∧ ∀ e ∈ d, e.1.eq k = false := by
  rw [setItem] at h
  split_ifs at h with hk hany
  · obtain rfl := Except.ok.inj h
    rw [List.length_map] at hlength
    omega
  · obtain rfl := Except.ok.inj h
    refine ⟨rfl, fun e he => ?_⟩
    rw [Bool.eq_false_iff]
    exact fun heq => hany (List.any_eq_true.mpr ⟨e, he, heq⟩)

/-- The entry that is built of a pair of items. -/
def BuiltEntry (e : Cbor.Value × Cbor.Value) (entry : Value × Value) : Prop :=
  Value.built e.1 = .ok entry.1 ∧ Value.built e.2 = .ok entry.2

theorem length_builtEntries (h : Value.builtEntries d es = .ok d') :
    d'.length ≤ d.length + es.length := by
  induction es generalizing d with
  | nil =>
      obtain rfl := Except.ok.inj h
      exact Nat.le_add_right _ _
  | cons e es ih =>
      simp only [Value.builtEntries, bind_eq_ok] at h
      obtain ⟨k, -, v, -, d'', hset, hrest⟩ := h
      have hfirst := length_setItem hset
      have hmore := ih hrest
      rw [List.length_cons]
      omega

theorem forall_of_builtEntries (h : Value.builtEntries d es = .ok d') :
    ∀ e ∈ es, ∃ entry, BuiltEntry e entry ∧ entry.1.isHashable = true := by
  induction es generalizing d with
  | nil => exact List.forall_mem_nil _
  | cons e es ih =>
      simp only [Value.builtEntries, bind_eq_ok] at h
      obtain ⟨k, hk, v, hv, d'', hset, hrest⟩ := h
      exact List.forall_mem_cons.mpr ⟨⟨(k, v), ⟨hk, hv⟩, setItem_hashable hset⟩, ih hrest⟩

/-- A dictionary that has become longer by all the entries has each of them, with keys that differ.
-/
theorem builtEntries_kept (h : Value.builtEntries d es = .ok d')
    (hlength : d'.length = d.length + es.length) :
    ∃ entries, d' = d ++ entries ∧ List.Forall₂ BuiltEntry es entries ∧
      entries.Pairwise (fun a b => a.1.eq b.1 = false) ∧
      ∀ e ∈ d, ∀ entry ∈ entries, e.1.eq entry.1 = false := by
  induction es generalizing d with
  | nil =>
      obtain rfl := Except.ok.inj h
      exact ⟨[], (List.append_nil d).symm, .nil, .nil, fun _ _ => List.forall_mem_nil _⟩
  | cons e es ih =>
      simp only [Value.builtEntries, bind_eq_ok] at h
      obtain ⟨k, hk, v, hv, d'', hset, hrest⟩ := h
      have hfirst := length_setItem hset
      have hmore := length_builtEntries hrest
      rw [List.length_cons] at hlength
      obtain ⟨rfl, hfresh⟩ := setItem_grows hset (by omega)
      obtain ⟨entries, rfl, hall, hdistinct, hdiffer⟩ := ih hrest (by omega)
      refine ⟨(k, v) :: entries, List.append_assoc d [(k, v)] entries, .cons ⟨hk, hv⟩ hall, ?_, ?_⟩
      · apply List.pairwise_cons.mpr
        exact ⟨hdiffer (k, v) (List.mem_append_right d (List.mem_singleton_self _)), hdistinct⟩
      · intro e he entry hentry
        rcases List.mem_cons.mp hentry with rfl | hentry
        · exact hfresh e he
        · exact hdiffer e (List.mem_append_left _ he) entry hentry

theorem forall_of_builtItems {items : List Cbor.Value} {vs : List Value}
    (h : Value.builtItems items = .ok vs) : ∀ item ∈ items, ∃ v, Value.built item = .ok v := by
  induction items generalizing vs with
  | nil => exact List.forall_mem_nil _
  | cons item items ih =>
      simp only [Value.builtItems, bind_eq_ok, pure_eq_ok] at h
      obtain ⟨v, hv, vs', hvs, rfl⟩ := h
      exact List.forall_mem_cons.mpr ⟨⟨v, hv⟩, ih hvs⟩

/-! ### Items that are kept -/

/-- Without repeated keys a value is built that has the form of the item. -/
theorem KeysDiffer.built_eq {item : Cbor.Value} (h : KeysDiffer item) :
    ∀ v, Value.built item = .ok v → v = .ofItem item := by
  induction h with
  | null => exact fun v hv => (Except.ok.inj hv).symm
  | bool b => exact fun v hv => (Except.ok.inj hv).symm
  | uint n => exact fun v hv => (Except.ok.inj hv).symm
  | bytes bs => exact fun v hv => (Except.ok.inj hv).symm
  | text s => exact fun v hv => (Except.ok.inj hv).symm
  | array _ ih =>
      intro v hv
      simp only [Value.built, bind_eq_ok, pure_eq_ok] at hv
      obtain ⟨vs, hvs, rfl⟩ := hv
      have hitems := builtItems_of fun item hitem => by
        obtain ⟨w, hw⟩ := forall_of_builtItems hvs item hitem
        rw [hw, ih item hitem w hw]
      rw [Except.ok.inj (hvs.symm.trans hitems)]
      rfl
  | map hdistinct _ _ ihkeys ihvalues =>
      intro v hv
      simp only [Value.built, bind_eq_ok, pure_eq_ok] at hv
      obtain ⟨d, hd, rfl⟩ := hv
      have hall := forall_of_builtEntries hd
      have hentries := builtEntries_new (d := [])
        (fun e he => by
          obtain ⟨entry, hbuilt, hhashable⟩ := hall e he
          rw [← ihkeys e he _ hbuilt.1]
          exact hhashable)
        hdistinct (List.forall_mem_nil _)
        (fun e he => by
          obtain ⟨entry, hbuilt, -⟩ := hall e he
          rw [← ihkeys e he _ hbuilt.1, ← ihvalues e he _ hbuilt.2]
          exact hbuilt)
      rw [Except.ok.inj (hd.symm.trans hentries)]
      rfl

mutual

/-- A value that has the form of the item was built without repeated keys. -/
theorem keysDiffer_of_built : ∀ {item : Cbor.Value}, Value.built item = .ok (.ofItem item) →
    KeysDiffer item
  | .null, _ => .null
  | .bool b, _ => .bool b
  | .uint n, _ => .uint n
  | .bytes bs, _ => .bytes bs
  | .text s, _ => .text s
  | .array items, h => by
    simp only [Value.built, bind_eq_ok, pure_eq_ok] at h
    obtain ⟨vs, hvs, heq⟩ := h
    rw [Value.list.inj heq] at hvs
    exact .array (keysDiffer_of_builtItems hvs)
  | .map es, h => by
    simp only [Value.built, bind_eq_ok, pure_eq_ok] at h
    obtain ⟨d, hd, heq⟩ := h
    rw [Value.dict.inj heq] at hd
    have hlength : (Value.ofEntries es).length = es.length := by
      rw [Value.ofEntries_eq_map, List.length_map]
    obtain ⟨entries, hkept, hall, hdistinct, -⟩ :=
      builtEntries_kept hd (hlength.trans (Nat.zero_add _).symm)
    rw [List.nil_append] at hkept
    rw [← hkept] at hall hdistinct
    rw [Value.ofEntries_eq_map, List.pairwise_map] at hdistinct
    have hinner := keysDiffer_of_builtEntries hall
    exact .map hdistinct (fun e he => (hinner e he).1) fun e he => (hinner e he).2

theorem keysDiffer_of_builtItems : ∀ {items : List Cbor.Value},
    Value.builtItems items = .ok (Value.ofItems items) → ∀ item ∈ items, KeysDiffer item
  | [], _ => List.forall_mem_nil _
  | item :: items, h => by
    simp only [Value.builtItems, bind_eq_ok, pure_eq_ok] at h
    obtain ⟨v, hv, vs, hvs, heq⟩ := h
    obtain ⟨rfl, rfl⟩ := List.cons.inj heq
    exact List.forall_mem_cons.mpr ⟨keysDiffer_of_built hv, keysDiffer_of_builtItems hvs⟩

theorem keysDiffer_of_builtEntries : ∀ {es : List (Cbor.Value × Cbor.Value)},
    List.Forall₂ BuiltEntry es (Value.ofEntries es) →
      ∀ e ∈ es, KeysDiffer e.1 ∧ KeysDiffer e.2
  | [], _ => List.forall_mem_nil _
  | (key, value) :: es, h => by
    obtain ⟨hentry, hrest⟩ := List.forall₂_cons.mp h
    have hkey := keysDiffer_of_built hentry.1
    have hvalue := keysDiffer_of_built hentry.2
    exact List.forall_mem_cons.mpr ⟨⟨hkey, hvalue⟩, keysDiffer_of_builtEntries hrest⟩

end

/-! ### Decoding and encoding again -/

/-- **One wire form.** Bytes that are decoded come back from the encoder exactly if they are
canonical, and no two canonical inputs are decoded to one value. -/
theorem encode_decode_iff {bytes : Bytes} (h : decode bytes = .ok v) :
    (encode v = .ok bytes ↔ Canonical bytes) ∧
      ∀ bytes', decode bytes' = .ok v → Canonical bytes → Canonical bytes' → bytes' = bytes := by
  have hiff : ∀ b, decode b = .ok v → (encode v = .ok b ↔ Canonical b) := by
    intro b hb
    obtain ⟨item, hread, hbuilt⟩ := decode_eq_ok.mp hb
    constructor
    · intro hencode
      obtain ⟨item', rfl, hitem⟩ := encode_eq_ok.mp hencode
      have hagain := Cbor.decode_encode hitem []
      rw [List.append_nil] at hagain
      obtain rfl := (Prod.mk.inj (Option.some.inj (hread.symm.trans hagain))).1
      exact ⟨item, (Cbor.decodeStrict_iff hread).mpr hitem, keysDiffer_of_built hbuilt⟩
    · intro hcanonical
      obtain ⟨item', hstrict, hdiffer⟩ := hcanonical
      obtain rfl := Cbor.eq_of_decodeStrict hread hstrict
      rw [hdiffer.built_eq v hbuilt]
      exact encode_eq_ok.mpr ⟨item', rfl, (Cbor.decodeStrict_iff hread).mp hstrict⟩
  refine ⟨hiff bytes h, ?_⟩
  intro bytes' h' hcanonical hcanonical'
  have hfirst := (hiff bytes h).mpr hcanonical
  have hsecond := (hiff bytes' h').mpr hcanonical'
  exact Except.ok.inj (hsecond.symm.trans hfirst)

/-- `{"a": 5}` -/
theorem encode_decode_iff_entry :
    encode (.dict [(.str "a", .int 5)]) = .ok [0xA1, 0x61, 0x61, 0x05] := by
  have hdecode : decode [0xA1, 0x61, 0x61, 0x05] = .ok (.dict [(.str "a", .int 5)]) := rfl
  refine (encode_decode_iff hdecode).1.mpr ⟨.map [(.text "a", .uint 5)], rfl, .map ?_ ?_ ?_⟩
  · exact List.pairwise_singleton _ _
  · exact List.forall_mem_singleton.mpr (.text "a")
  · exact List.forall_mem_singleton.mpr (.uint 5)

/-- Five in two bytes, and a map with the keys `1` and `True`. -/
theorem decoded_noncanonical :
    (decode [0x18, 0x05] = .ok (.int 5) ∧ encode (.int 5) ≠ .ok [0x18, 0x05]) ∧
      decode [0xA2, 0x01, 0x02, 0xF5, 0x03] = .ok (.dict [(.int 1, .int 3)]) ∧
        encode (.dict [(.int 1, .int 3)]) ≠ .ok [0xA2, 0x01, 0x02, 0xF5, 0x03] := by
  refine ⟨⟨rfl, ?_⟩, rfl, ?_⟩
  · intro h
    have hshort : encode (.int 5) = .ok [0x05] := rfl
    cases hshort.symm.trans h
  · intro h
    have hshort : encode (.dict [(.int 1, .int 3)]) = .ok [0xA1, 0x01, 0x03] := rfl
    cases hshort.symm.trans h

end Thicket.Py
