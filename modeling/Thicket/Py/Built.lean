import Thicket.Core.Wire
import Thicket.Py.CoreValues
import Thicket.Py.DecodeItems

/-!
# Dictionaries that are built entry by entry

What the SDK builds of a data item is the item itself as long as the keys of its maps are distinct
texts, as in everything the core writes. In other maps with text keys the last entry of a name is the
one that is found.
-/

namespace Thicket.Py

open Cbor (Bytes)
open Result Serde

/-! ### Distinct keys -/

/-- The keys of every map in the item are distinct texts. -/
inductive Keyed : Cbor.Value → Prop
  | null : Keyed .null
  | bool (b : Bool) : Keyed (.bool b)
  | uint (n : Nat) : Keyed (.uint n)
  | bytes (bs : Bytes) : Keyed (.bytes bs)
  | text (s : String) : Keyed (.text s)
  | array {items : List Cbor.Value} (hitems : ∀ item ∈ items, Keyed item) : Keyed (.array items)
  | map {fs : List (String × Cbor.Value)} (hnames : (fs.map Prod.fst).Nodup)
      (hfields : ∀ f ∈ fs, Keyed f.2) : Keyed (struct fs)

/-- A key that is not there yet is put at the end. -/
theorem setItem_new {d : List (Value × Value)} {k v : Value} (hk : k.isHashable = true)
    (hfresh : ∀ e ∈ d, e.1.eq k = false) : setItem d k v = .ok (d ++ [(k, v)]) := by
  have hany : d.any (fun e => e.1.eq k) = false := by
    rw [List.any_eq_false]
    intro e he
    rw [hfresh e he]
    exact Bool.false_ne_true
  rw [setItem, if_pos hk, hany]
  rfl

theorem setItem_fresh {d : List (Value × Value)} {name : String} {v : Value}
    (hfresh : ∀ e ∈ d, e.1 ≠ .str name) :
    setItem d (.str name) v = .ok (d ++ [(.str name, v)]) := by
  apply setItem_new rfl
  intro e he
  rw [Bool.eq_false_iff, ne_eq, eq_str_iff]
  exact hfresh e he

theorem length_setItem {d d' : List (Value × Value)} {k v : Value}
    (h : setItem d k v = .ok d') : d'.length ≤ d.length + 1 := by
  rw [setItem] at h
  split_ifs at h
  · obtain rfl := Except.ok.inj h
    rw [List.length_map]
    omega
  · obtain rfl := Except.ok.inj h
    rw [List.length_append, List.length_singleton]

theorem builtItems_of {items : List Cbor.Value}
    (h : ∀ item ∈ items, Value.built item = .ok (.ofItem item)) :
    Value.builtItems items = .ok (Value.ofItems items) := by
  induction items with
  | nil => rfl
  | cons item items ih =>
      have hitem := h item List.mem_cons_self
      have hitems := ih fun x hx => h x (List.mem_cons_of_mem _ hx)
      rw [Value.builtItems, hitem, hitems]
      rfl

/-- With distinct keys a dictionary is built entry by entry. -/
theorem builtEntries_new {es : List (Cbor.Value × Cbor.Value)} {d : List (Value × Value)}
    (hkeys : ∀ e ∈ es, (Value.ofItem e.1).isHashable = true)
    (hdistinct : es.Pairwise fun a b => (Value.ofItem a.1).eq (.ofItem b.1) = false)
    (hfresh : ∀ e ∈ d, ∀ f ∈ es, e.1.eq (.ofItem f.1) = false)
    (h : ∀ e ∈ es, Value.built e.1 = .ok (.ofItem e.1) ∧ Value.built e.2 = .ok (.ofItem e.2)) :
    Value.builtEntries d es = .ok (d ++ Value.ofEntries es) := by
  induction es generalizing d with
  | nil => simp [Value.builtEntries, Value.ofEntries]
  | cons e es ih =>
      obtain ⟨key, item⟩ := e
      obtain ⟨hkey, hkeys⟩ := List.forall_mem_cons.mp hkeys
      obtain ⟨hdiffers, hdistinct⟩ := List.pairwise_cons.mp hdistinct
      obtain ⟨⟨hkeyBuilt, hitemBuilt⟩, h⟩ := List.forall_mem_cons.mp h
      have hset : setItem d (.ofItem key) (.ofItem item) = .ok (d ++ [(.ofItem key, .ofItem item)]) :=
        setItem_new hkey fun e he => hfresh e he (key, item) List.mem_cons_self
      have hrest := ih (d := d ++ [(.ofItem key, .ofItem item)]) hkeys hdistinct ?_ h
      · rw [Value.builtEntries, hkeyBuilt, hitemBuilt]
        simp only [bind, Except.bind, hset, hrest]
        rw [List.append_assoc]
        rfl
      · intro e he f hf
        rcases List.mem_append.mp he with he | he
        · exact hfresh e he f (List.mem_cons_of_mem _ hf)
        · rw [List.mem_singleton.mp he]
          exact hdiffers f hf

theorem builtEntries_of {fs : List (String × Cbor.Value)} (hnames : (fs.map Prod.fst).Nodup)
    (h : ∀ f ∈ fs, Value.built f.2 = .ok (.ofItem f.2)) :
    Value.builtEntries [] (fs.map fun f => (.text f.1, f.2)) = .ok (entriesOf fs) := by
  have hentries : Value.builtEntries [] (fs.map fun f => (.text f.1, f.2)) =
      .ok ([] ++ Value.ofEntries (fs.map fun f => (.text f.1, f.2))) := by
    apply builtEntries_new
    · intro e he
      obtain ⟨f, -, rfl⟩ := List.mem_map.mp he
      rfl
    · rw [List.pairwise_map]
      apply (List.pairwise_map.mp hnames).imp
      intro f g hne
      exact beq_eq_false_iff_ne.mpr hne
    · intro e he
      cases he
    · intro e he
      obtain ⟨f, hf, rfl⟩ := List.mem_map.mp he
      exact ⟨rfl, h f hf⟩
  rw [hentries, List.nil_append, Value.ofEntries_eq_map, List.map_map]
  rfl

/-- With distinct keys nothing is overwritten. -/
theorem built_of_keyed {item : Cbor.Value} (h : Keyed item) :
    Value.built item = .ok (.ofItem item) := by
  induction h with
  | null => rfl
  | bool b => rfl
  | uint n => rfl
  | bytes bs => rfl
  | text s => rfl
  | array _ ih =>
      rw [Value.built, builtItems_of ih]
      rfl
  | map hnames _ ih =>
      have hentries := builtEntries_of hnames ih
      rw [ofItem_struct, struct, Value.built]
      rw [hentries]
      rfl

/-! ### Hashable keys -/

def isScalar : Cbor.Value → Bool
  | .array _ => false
  | .map _ => false
  | _ => true

mutual

/-- No map in the item has an array or a map as a key. -/
def hashableKeys : Cbor.Value → Bool
  | .array items => hashableKeysItems items
  | .map entries => hashableKeysEntries entries
  | _ => true

def hashableKeysItems : List Cbor.Value → Bool
  | [] => true
  | item :: items => hashableKeys item && hashableKeysItems items

def hashableKeysEntries : List (Cbor.Value × Cbor.Value) → Bool
  | [] => true
  | (key, value) :: entries => isScalar key && hashableKeys value && hashableKeysEntries entries

end

theorem exists_built_scalar {item : Cbor.Value} (h : isScalar item = true) :
    ∃ v, Value.built item = .ok v ∧ v.isHashable = true := by
  cases item with
  | null => exact ⟨.none, rfl, rfl⟩
  | bool b => exact ⟨.bool b, rfl, rfl⟩
  | uint n => exact ⟨.int n, rfl, rfl⟩
  | bytes bs => exact ⟨.bytes bs, rfl, rfl⟩
  | text s => exact ⟨.str s, rfl, rfl⟩
  | array items => cases h
  | map entries => cases h

theorem exists_setItem (d : List (Value × Value)) {k : Value} (v : Value)
    (h : k.isHashable = true) : ∃ d', setItem d k v = .ok d' := by
  rw [setItem, if_pos h]
  split_ifs
  · exact ⟨_, rfl⟩
  · exact ⟨_, rfl⟩

mutual

theorem exists_built : ∀ {item : Cbor.Value}, hashableKeys item = true →
    ∃ v, Value.built item = .ok v
  | .null, _ => ⟨.none, rfl⟩
  | .bool b, _ => ⟨.bool b, rfl⟩
  | .uint n, _ => ⟨.int n, rfl⟩
  | .bytes bs, _ => ⟨.bytes bs, rfl⟩
  | .text s, _ => ⟨.str s, rfl⟩
  | .array items, h => by
    obtain ⟨vs, hvs⟩ := exists_builtItems h
    exact ⟨.list vs, by rw [Value.built, hvs]; rfl⟩
  | .map entries, h => by
    obtain ⟨d, hd⟩ := exists_builtEntries [] h
    exact ⟨.dict d, by rw [Value.built, hd]; rfl⟩

theorem exists_builtItems : ∀ {items : List Cbor.Value}, hashableKeysItems items = true →
    ∃ vs, Value.builtItems items = .ok vs
  | [], _ => ⟨[], rfl⟩
  | item :: items, h => by
    rw [hashableKeysItems, Bool.and_eq_true] at h
    obtain ⟨v, hv⟩ := exists_built h.1
    obtain ⟨vs, hvs⟩ := exists_builtItems h.2
    exact ⟨v :: vs, by rw [Value.builtItems, hv, hvs]; rfl⟩

theorem exists_builtEntries (d : List (Value × Value)) :
    ∀ {entries : List (Cbor.Value × Cbor.Value)}, hashableKeysEntries entries = true →
      ∃ d', Value.builtEntries d entries = .ok d'
  | [], _ => ⟨d, rfl⟩
  | (key, value) :: entries, h => by
    simp only [hashableKeysEntries, Bool.and_eq_true] at h
    obtain ⟨k, hk, hhashable⟩ := exists_built_scalar h.1.1
    obtain ⟨v, hv⟩ := exists_built h.1.2
    obtain ⟨d', hset⟩ := exists_setItem d v hhashable
    obtain ⟨d'', hrest⟩ := exists_builtEntries d' h.2
    refine ⟨d'', ?_⟩
    simp only [Value.builtEntries, hk, hv, hset, hrest, bind, Except.bind]

end

/-! ### What the core writes -/

class WellKeyed (α : Type) [Serialize α] : Prop where
  keyed : ∀ a : α, Keyed (toCbor a)

export WellKeyed (keyed)

theorem built_of {α : Type} [Serialize α] [WellKeyed α] (a : α) :
    Value.built (toCbor a) = .ok (.of a) :=
  built_of_keyed (keyed a)

section Fields

variable {α : Type} [Serialize α] [WellKeyed α] {name : String} {fs : List (String × Cbor.Value)}

/-- Fields with distinct names, and nothing repeated inside them. -/
structure KeyedFields (fs : List (String × Cbor.Value)) : Prop where
  names : (fs.map Prod.fst).Nodup
  items : ∀ f ∈ fs, Keyed f.2

theorem Keyed.struct (h : KeyedFields fs) : Keyed (Serde.struct fs) := .map h.names h.items

theorem KeyedFields.nil : KeyedFields [] := ⟨List.nodup_nil, fun _ hf => nomatch hf⟩

omit [Serialize α] [WellKeyed α] in
theorem not_mem_of_named (h : named name fs = []) : name ∉ fs.map Prod.fst := by
  intro hmem
  obtain ⟨f, hf, rfl⟩ := List.mem_map.mp hmem
  have hvalue : f.2 ∈ named f.1 fs := List.mem_map_of_mem (List.mem_filter.mpr ⟨hf, beq_self_eq_true _⟩)
  rw [h] at hvalue
  cases hvalue

theorem KeyedFields.field {a : α} (hname : named name fs = []) (h : KeyedFields fs) :
    KeyedFields (Serde.field name a ++ fs) := by
  refine ⟨?_, ?_⟩
  · change (name :: fs.map Prod.fst).Nodup
    exact List.nodup_cons.mpr ⟨not_mem_of_named hname, h.names⟩
  · intro f hf
    rcases List.mem_cons.mp hf with rfl | hf
    · exact keyed a
    · exact h.items f hf

theorem KeyedFields.last (a : α) : KeyedFields (Serde.field name a) := by
  have h : KeyedFields (Serde.field name a ++ []) := .field rfl .nil
  rwa [List.append_nil] at h

theorem KeyedFields.optionalField {a : Option α} (hname : named name fs = [])
    (h : KeyedFields fs) : KeyedFields (Serde.optionalField name a ++ fs) := by
  cases a with
  | none => exact h
  | some a => exact .field hname h

end Fields

instance : WellKeyed String := ⟨fun s => .text s⟩

instance : WellKeyed Bytes := ⟨fun bs => .bytes bs⟩

instance : WellKeyed UInt64 := ⟨fun n => .uint n.toNat⟩

instance {α : Type} [Serialize α] [WellKeyed α] : WellKeyed (List α) where
  keyed items := by
    refine .array fun item hitem => ?_
    obtain ⟨a, -, rfl⟩ := List.mem_map.mp hitem
    exact keyed a

instance : WellKeyed (BTreeMap String String) where
  keyed m := by
    have hstruct : toCbor m = struct (m.toList.map fun e => (e.1, toCbor e.2)) := by
      simp only [struct, List.map_map]
      rfl
    rw [hstruct]
    refine .map ?_ ?_
    · simp only [List.map_map, Function.comp_def]
      rw [Std.ExtTreeMap.map_fst_toList_eq_keys]
      exact Std.ExtTreeMap.nodup_keys
    · intro f hf
      obtain ⟨e, -, rfl⟩ := List.mem_map.mp hf
      exact keyed e.2

instance : WellKeyed Id := ⟨fun id => .bytes id.bytes⟩

instance : WellKeyed Visibility := ⟨fun v => .text v.name⟩

instance : WellKeyed KeyEndorsement where
  keyed e := .struct (.field (by simp) (.field (by simp) (.field (by simp) (.last e.rootSig))))

instance : WellKeyed Locator := ⟨fun l => .struct (.field (by simp) (.last l.endpoint))⟩

instance : WellKeyed Io := ⟨fun io => .struct (.field (by simp) (.last io.output))⟩

instance : WellKeyed Capability where
  keyed c := .struct (.field (by simp) (.field (by simp) (.optionalField (by simp)
    (.field (by simp) (.field (by simp) (.last c.envelope))))))

instance : WellKeyed Lease :=
  ⟨fun l => .struct (.field (by simp) (.field (by simp) (.last l.expiresAt)))⟩

instance : WellKeyed RecordPayload where
  keyed p := .struct (.field (by simp) (.field (by simp) (.field (by simp) (.field (by simp)
    (.field (by simp) (.field (by simp) (.field (by simp) (.field (by simp) (.field (by simp)
      (.field (by simp) (.optionalField (by simp) (.field (by simp) (.last p.ext)))))))))))))

instance : WellKeyed SignedRecord :=
  ⟨fun r => .struct (.field (by simp) (.field (by simp) (.last r.signature)))⟩

/-! ### Looking a built entry up -/

/-- `d.get(name)`, if there is such an entry. -/
def lookup (d : List (Value × Value)) (name : String) : Option Value :=
  (d.find? fun e => e.1.eq (.str name)).map Prod.snd

theorem getItem_dict {d : List (Value × Value)} {name : String} {v : Value} :
    (Value.dict d).getItem name = .ok v ↔ lookup d name = some v := by
  rw [Value.getItem, lookup]
  cases d.find? fun e => e.1.eq (.str name) <;> simp

theorem lookup_cons (e : Value × Value) (d : List (Value × Value)) (name : String) :
    lookup (e :: d) name = if e.1.eq (.str name) then some e.2 else lookup d name := by
  rw [lookup, List.find?_cons]
  cases e.1.eq (.str name) <;> rfl

theorem lookup_append (d d' : List (Value × Value)) (name : String) :
    lookup (d ++ d') name = (lookup d name).or (lookup d' name) := by
  rw [lookup, lookup, lookup, List.find?_append, Option.map_or]

/-- Assigning to a key that is there changes its value only. -/
theorem lookup_replace (d : List (Value × Value)) (k v : Value) (name : String) :
    lookup (d.map fun e => if e.1.eq k then (e.1, v) else e) name =
      if k.eq (.str name) then (lookup d name).map fun _ => v else lookup d name := by
  induction d with
  | nil =>
      rw [List.map_nil]
      split_ifs <;> rfl
  | cons e d ih =>
      rw [List.map_cons, lookup_cons, lookup_cons, ih]
      by_cases hkey : e.1.eq k = true
      · by_cases hname : k.eq (.str name) = true
        · rw [eq_str_iff.mp hname] at hkey ⊢
          simp [hkey, eq_str]
        · have hother : e.1.eq (.str name) = false := by
            rw [Bool.eq_false_iff]
            intro hsame
            rw [eq_str_iff.mp hsame] at hkey
            cases k <;> simp [Value.eq] at hkey hname
            exact hname hkey.symm
          simp [hkey, hname, hother]
      · by_cases hname : k.eq (.str name) = true
        · rw [eq_str_iff.mp hname] at hkey ⊢
          simp [hkey, eq_str]
        · simp [hkey, hname]

theorem lookup_setItem {d d' : List (Value × Value)} {k v : Value} {name : String}
    (h : setItem d k v = .ok d') :
    lookup d' name = if k.eq (.str name) then some v else lookup d name := by
  rw [setItem] at h
  split_ifs at h with hhashable hany
  · cases h
    rw [lookup_replace]
    by_cases hname : k.eq (.str name) = true
    · obtain ⟨e, he, heq⟩ := List.any_eq_true.mp hany
      rw [eq_str_iff.mp hname] at heq
      have hsome : (lookup d name).isSome = true := by
        rw [lookup, Option.isSome_map, List.find?_isSome]
        exact ⟨e, he, heq⟩
      obtain ⟨w, hw⟩ := Option.isSome_iff_exists.mp hsome
      rw [if_pos hname, if_pos hname, hw]
      rfl
    · rw [if_neg hname, if_neg hname]
  · cases h
    rw [Bool.not_eq_true, List.any_eq_false] at hany
    rw [lookup_append, lookup_cons]
    by_cases hname : k.eq (.str name) = true
    · have hnone : lookup d name = none := by
        rw [lookup, Option.map_eq_none_iff, List.find?_eq_none]
        rw [eq_str_iff.mp hname] at hany
        exact hany
      simp [hnone, hname]
    · simp [hname, lookup]

/-- An entry with a name of its own is found, and where there is none nothing is. -/
theorem lookup_builtEntries {fs : List (String × Cbor.Value)} {d d' : List (Value × Value)}
    {name : String} (h : Value.builtEntries d (fs.map fun f => (.text f.1, f.2)) = .ok d') :
    (named name fs = [] → lookup d' name = lookup d name) ∧
      ∀ item, named name fs = [item] → ∃ v, Value.built item = .ok v ∧ lookup d' name = some v := by
  induction fs generalizing d with
  | nil =>
      cases h
      exact ⟨fun _ => rfl, fun _ hnamed => nomatch hnamed⟩
  | cons f fs ih =>
      obtain ⟨key, item⟩ := f
      simp only [List.map_cons, Value.builtEntries, bind_eq_ok, Value.built, Except.ok.injEq,
        exists_eq_left'] at h
      obtain ⟨v, hv, d'', hset, h⟩ := h
      obtain ⟨habsent, hpresent⟩ := ih h
      have hkey : lookup d'' name = if key = name then some v else lookup d name := by
        rw [lookup_setItem hset, eq_str]
        simp only [decide_eq_true_eq]
      by_cases hname : key = name
      · subst hname
        have hnamed : named key ((key, item) :: fs) = item :: named key fs := by simp [named]
        rw [if_pos rfl] at hkey
        rw [hnamed]
        refine ⟨fun hnil => absurd hnil (List.cons_ne_nil _ _), ?_⟩
        intro item' heq
        obtain ⟨rfl, hrest⟩ := List.cons.inj heq
        exact ⟨v, hv, (habsent hrest).trans hkey⟩
      · have hnamed : named name ((key, item) :: fs) = named name fs := by simp [named, hname]
        rw [if_neg hname] at hkey
        rw [hnamed]
        exact ⟨fun hnil => (habsent hnil).trans hkey, hpresent⟩

end Thicket.Py
