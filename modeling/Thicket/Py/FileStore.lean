import Thicket.Lib.AtomicStore
import Thicket.Lib.Persisted
import Thicket.Py.Bodies
import Thicket.Py.Collector

/-!
# Dictionaries in a file

`FileStore` of `thicket/store.py` keeps a dictionary in a file: it is decoded when the store is
opened, and encoded and written as a whole when it is saved. What the codec has once decoded it can
decode again, so a dictionary that is filled with values from decoded requests is read as it was
written. The store is one with a path; without one nothing is written.
-/

namespace Thicket.Py

open Cbor (Bytes)
open Result

/-! ### Dictionaries by key -/

/-- The entries of a dictionary. -/
abbrev Entries := List (Value × Value)

namespace Entries

variable {d d' : Entries} {k v : Value} {key : Key}

def at? (d : Entries) (key : Key) : Option Value :=
  (d.find? fun e => e.1.key = .ok key).map Prod.snd

/-- The keys can be hashed, and no two are equal. -/
structure Distinct (d : Entries) : Prop where
  hashable : ∀ e ∈ d, e.1.isHashable = true
  distinct : d.Pairwise fun a b => a.1.eq b.1 = false

theorem exists_key (h : k.isHashable = true) : ∃ key, k.key = .ok key := by
  rw [← isOk_key] at h
  cases hkey : k.key with
  | ok key => exact ⟨key, rfl⟩
  | error e =>
      rw [hkey] at h
      cases h

/-- An entry is found by comparing keys. -/
theorem find?_eq_at? (h : ∀ e ∈ d, e.1.isHashable = true) (hkey : k.key = .ok key) :
    (d.find? fun e => e.1.eq k).map Prod.snd = at? d key := by
  rw [at?]
  congr 1
  induction d with
  | nil => rfl
  | cons e d ih =>
      obtain ⟨he, h⟩ := List.forall_mem_cons.mp h
      obtain ⟨ke, hke⟩ := exists_key he
      rw [List.find?_cons, List.find?_cons, ih h, hke]
      have hsame : e.1.eq k = decide ((Except.ok ke : Except Exc Key) = .ok key) := by
        rw [Bool.eq_iff_iff, ← key_eq_iff hke hkey, decide_eq_true_iff, Except.ok.injEq]
      rw [hsame]

theorem get_dict (h : Distinct d) (hkey : k.key = .ok key) :
    (Value.dict d).get k .none = .ok ((at? d key).getD .none) := by
  have hhash : k.isHashable = true := by
    rw [← isOk_key, hkey]
    rfl
  rw [Value.get, if_pos hhash, find?_eq_at? h.hashable hkey]

theorem at?_cons (e : Value × Value) (d : Entries) (key : Key) :
    at? (e :: d) key = if e.1.key = .ok key then some e.2 else at? d key := by
  rw [at?, List.find?_cons]
  by_cases h : e.1.key = .ok key <;> simp [h, at?]

theorem at?_append (d d' : Entries) (key : Key) :
    at? (d ++ d') key = (at? d key).or (at? d' key) := by
  rw [at?, List.find?_append, Option.map_or]
  rfl

theorem at?_replace (h : ∀ e ∈ d, e.1.isHashable = true) (hkey : k.key = .ok key) (key' : Key) :
    at? (d.map fun e => if e.1.eq k then (e.1, v) else e) key' =
      if key' = key then (at? d key').map fun _ => v else at? d key' := by
  induction d with
  | nil =>
      rw [List.map_nil]
      split_ifs <;> rfl
  | cons e d ih =>
      obtain ⟨he, h⟩ := List.forall_mem_cons.mp h
      obtain ⟨ke, hke⟩ := exists_key he
      rw [List.map_cons, at?_cons, at?_cons, ih h]
      have hsame : e.1.eq k = true ↔ ke = key := (key_eq_iff hke hkey).symm
      by_cases hk : ke = key
      · rw [if_pos (hsame.mpr hk), hke, hk]
        by_cases hkk : key' = key
        · simp [hkk]
        · simp [hkk, Ne.symm hkk]
      · rw [if_neg (hsame.not.mpr hk), hke]
        by_cases hkk : key' = key
        · subst hkk
          simp [hk]
        · simp [hkk]

theorem any_eq_iff (h : ∀ e ∈ d, e.1.isHashable = true) (hkey : k.key = .ok key) :
    (d.any fun e => e.1.eq k) = true ↔ (at? d key).isSome = true := by
  rw [← find?_eq_at? h hkey, Option.isSome_map, List.find?_isSome]
  exact List.any_eq_true

/-- What is assigned is found under its key, and nothing else changes. -/
theorem at?_setItem (h : Distinct d) (hkey : k.key = .ok key) (hset : setItem d k v = .ok d')
    (key' : Key) : at? d' key' = if key' = key then some v else at? d key' := by
  rw [setItem] at hset
  split_ifs at hset with hhash hany
  · obtain rfl := Except.ok.inj hset
    rw [at?_replace h.hashable hkey]
    by_cases hk : key' = key
    · have hsome := (any_eq_iff h.hashable hkey).mp hany
      obtain ⟨found, hfound⟩ := Option.isSome_iff_exists.mp hsome
      rw [if_pos hk, if_pos hk, hk, hfound]
      rfl
    · rw [if_neg hk, if_neg hk]
  · obtain rfl := Except.ok.inj hset
    rw [at?_append, at?_cons, hkey]
    by_cases hk : key' = key
    · have hnone := Option.not_isSome_iff_eq_none.mp ((any_eq_iff h.hashable hkey).not.mp hany)
      rw [hk, hnone, if_pos rfl, if_pos rfl]
      rfl
    · rw [if_neg (fun heq => hk (Except.ok.inj heq).symm), if_neg hk]
      simp [at?]

theorem mem_of_setItem (hset : setItem d k v = .ok d') {e : Value × Value} (he : e ∈ d') :
    e.2 = v ∨ ∃ e' ∈ d, e'.2 = e.2 := by
  rw [setItem] at hset
  split_ifs at hset
  · obtain rfl := Except.ok.inj hset
    obtain ⟨e', he', rfl⟩ := List.mem_map.mp he
    split_ifs
    · exact .inl rfl
    · exact .inr ⟨e', he', rfl⟩
  · obtain rfl := Except.ok.inj hset
    rcases List.mem_append.mp he with he | he
    · exact .inr ⟨e, he, rfl⟩
    · rw [List.mem_singleton.mp he]
      exact .inl rfl

theorem Distinct.setItem (h : Distinct d) (hset : setItem d k v = .ok d') : Distinct d' := by
  rw [Py.setItem] at hset
  split_ifs at hset with hhash hany
  · obtain rfl := Except.ok.inj hset
    have hkeys : ∀ e : Value × Value, (if e.1.eq k then (e.1, v) else e).1 = e.1 := by
      intro e
      split_ifs <;> rfl
    constructor
    · intro e he
      obtain ⟨e', he', rfl⟩ := List.mem_map.mp he
      rw [hkeys]
      exact h.hashable e' he'
    · rw [List.pairwise_map]
      exact h.distinct.imp fun hab => by rwa [hkeys, hkeys]
  · obtain rfl := Except.ok.inj hset
    constructor
    · intro e he
      rcases List.mem_append.mp he with he | he
      · exact h.hashable e he
      · rw [List.mem_singleton.mp he]
        exact hhash
    · refine List.pairwise_append.mpr ⟨h.distinct, List.pairwise_singleton _ _, ?_⟩
      intro e he e' he'
      rw [List.mem_singleton.mp he', Bool.eq_false_iff]
      exact fun heq => hany (List.any_eq_true.mpr ⟨e, he, heq⟩)

theorem distinct_nil : Distinct [] := ⟨nofun, .nil⟩

end Entries

/-! ### Values that are read as they were written -/

/-- The dictionaries in the value have distinct keys that can be hashed. -/
inductive Writable : Value → Prop
  | none : Writable .none
  | bool (b : Bool) : Writable (.bool b)
  | int (n : Int) : Writable (.int n)
  | bytes (bs : Bytes) : Writable (.bytes bs)
  | str (s : String) : Writable (.str s)
  | list {items : List Value} (hitems : ∀ item ∈ items, Writable item) : Writable (.list items)
  | dict {d : Entries} (hdistinct : d.Distinct) (hvalues : ∀ e ∈ d, Writable e.2) :
      Writable (.dict d)

namespace Writable

variable {v : Value} {d d' : Entries} {bytes : Bytes}

/-- A scalar is built as it is. -/
theorem built_hashable (h : v.isHashable = true) (item : Cbor.Value)
    (hitem : Value.ofItem item = v) : Value.built item = .ok v := by
  subst hitem
  cases item with
  | array items => cases h
  | map es => cases h
  | _ => rfl

theorem built (h : Writable v) :
    ∀ item : Cbor.Value, Value.ofItem item = v → Value.built item = .ok v := by
  induction h with
  | none => exact built_hashable rfl
  | bool b => exact built_hashable rfl
  | int n => exact built_hashable rfl
  | bytes bs => exact built_hashable rfl
  | str s => exact built_hashable rfl
  | list _ ih =>
      intro item heq
      cases item <;> cases heq
      rw [Value.built, builtItems_of]
      · rfl
      · intro x hx
        apply ih _ _ x rfl
        rw [Value.ofItems_eq_map]
        exact List.mem_map_of_mem hx
  | dict hdistinct _ ih =>
      intro item heq
      cases item with
      | map es =>
          obtain rfl := Value.dict.inj heq
          have hmem {e : Cbor.Value × Cbor.Value} (he : e ∈ es) :
              (Value.ofItem e.1, Value.ofItem e.2) ∈ Value.ofEntries es := by
            rw [Value.ofEntries_eq_map]
            exact List.mem_map.mpr ⟨e, he, rfl⟩
          have hpairs := hdistinct.distinct
          rw [Value.ofEntries_eq_map, List.pairwise_map] at hpairs
          have hentries : Value.builtEntries [] es = .ok ([] ++ Value.ofEntries es) := by
            apply builtEntries_new (fun e he => hdistinct.hashable _ (hmem he)) hpairs
              (List.forall_mem_nil _)
            intro e he
            exact ⟨built_hashable (hdistinct.hashable _ (hmem he)) e.1 rfl, ih _ (hmem he) e.2 rfl⟩
          rw [Value.built, hentries]
          rfl
      | _ => cases heq

/-- **What is written can be read.** -/
theorem decode_encode (h : Writable v) (hbytes : encode v = .ok bytes) : decode bytes = .ok v := by
  obtain ⟨item, hitem, hcbor⟩ := encode_eq_ok.mp hbytes
  have hread := Cbor.decode_encode hcbor []
  rw [List.append_nil] at hread
  exact decode_eq_ok.mpr ⟨item, hread, h.built item hitem⟩

theorem ofItem {items : List Value} (h : Writable (.list items)) : ∀ v ∈ items, Writable v := by
  cases h with
  | list hitems => exact hitems

theorem ofEntry (h : Writable (.dict d)) : d.Distinct ∧ ∀ e ∈ d, Writable e.2 := by
  cases h with
  | dict hdistinct hvalues => exact ⟨hdistinct, hvalues⟩

theorem setItem {k : Value} (h : Writable (.dict d)) (hv : Writable v)
    (hset : setItem d k v = .ok d') : Writable (.dict d') := by
  obtain ⟨hdistinct, hvalues⟩ := h.ofEntry
  refine .dict (hdistinct.setItem hset) fun e he => ?_
  rcases Entries.mem_of_setItem hset he with hsame | ⟨e', he', hsame⟩
  · exact hsame ▸ hv
  · exact hsame ▸ hvalues e' he'

mutual

/-- The decoder builds dictionaries by assignment. -/
theorem of_built : ∀ {item : Cbor.Value} {v : Value}, Value.built item = .ok v → Writable v
  | .null, v, h => by
    obtain rfl := Except.ok.inj h
    exact .none
  | .bool b, v, h => by
    obtain rfl := Except.ok.inj h
    exact .bool b
  | .uint n, v, h => by
    obtain rfl := Except.ok.inj h
    exact .int n
  | .bytes bs, v, h => by
    obtain rfl := Except.ok.inj h
    exact .bytes bs
  | .text s, v, h => by
    obtain rfl := Except.ok.inj h
    exact .str s
  | .array items, v, h => by
    simp only [Value.built, bind_eq_ok, pure_eq_ok] at h
    obtain ⟨vs, hvs, rfl⟩ := h
    exact .list (of_builtItems hvs)
  | .map es, v, h => by
    simp only [Value.built, bind_eq_ok, pure_eq_ok] at h
    obtain ⟨d, hd, rfl⟩ := h
    exact of_builtEntries (.dict Entries.distinct_nil nofun) hd

theorem of_builtItems : ∀ {items : List Cbor.Value} {vs : List Value},
    Value.builtItems items = .ok vs → ∀ v ∈ vs, Writable v
  | [], vs, h => by
    obtain rfl := Except.ok.inj h
    exact nofun
  | item :: items, vs, h => by
    simp only [Value.builtItems, bind_eq_ok, pure_eq_ok] at h
    obtain ⟨v, hv, vs', hvs, rfl⟩ := h
    exact List.forall_mem_cons.mpr ⟨of_built hv, of_builtItems hvs⟩

theorem of_builtEntries : ∀ {es : List (Cbor.Value × Cbor.Value)} {d d' : Entries},
    Writable (.dict d) → Value.builtEntries d es = .ok d' → Writable (.dict d')
  | [], d, d', hd, h => by
    obtain rfl := Except.ok.inj h
    exact hd
  | (key, value) :: es, d, d', hd, h => by
    simp only [Value.builtEntries, bind_eq_ok] at h
    obtain ⟨k, -, v, hv, d'', hset, hrest⟩ := h
    exact of_builtEntries (hd.setItem (of_built hv) hset) hrest

end

theorem of_decode (h : decode bytes = .ok v) : Writable v := by
  obtain ⟨item, -, hbuilt⟩ := decode_eq_ok.mp h
  exact of_built hbuilt

/-- Whatever body arrives. -/
theorem decodeBody (body : Bytes) : Writable (decodeBody body) := by
  rw [Py.decodeBody]
  split_ifs
  · exact .none
  · cases h : decode body with
    | ok v => exact of_decode h
    | error e => exact .bytes body

theorem getItem {w : Value} {name : String} (h : Writable v) (hget : v.getItem name = .ok w) :
    Writable w := by
  cases h with
  | dict _ hvalues =>
      obtain ⟨e, he, rfl⟩ := Option.map_eq_some_iff.mp (getItem_dict.mp hget)
      exact hvalues e (List.mem_of_find?_eq_some he)
  | _ => cases hget

end Writable

/-! ### The store -/

namespace FileStore

/-- `self.data`, as the store's file is decoded. -/
def load (blob : Bytes) : Option Entries :=
  match decode blob with
  | .ok (.dict d) => some d
  | _ => none

/-- What `save` writes. -/
def dump (data : Entries) : Option Bytes := (encode (.dict data)).toOption

def Valid (data : Entries) : Prop := Writable (.dict data)

variable {data : Entries} {blob : Bytes}

theorem load_dump (h : Valid data) (hdump : dump data = some blob) :
    blob ≠ [] ∧ load blob = some data := by
  have hdecode := h.decode_encode (toOption_eq_some.mp hdump)
  constructor
  · intro hempty
    subst hempty
    cases hdecode
  · rw [load, hdecode]

theorem valid_nil : Valid [] := .dict Entries.distinct_nil nofun

end FileStore

end Thicket.Py
