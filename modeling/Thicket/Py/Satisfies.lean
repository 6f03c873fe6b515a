import Thicket.Interconnect.Narrowing
import Thicket.Py.GrantVerdict

/-!
# Constraints of a grant against attributes

`grant.satisfies` compares `str(attributes.get(k))` with the constraint's text, the core compares
the attribute itself. So in Python a constraint is also met by an attribute that is missing or is
not a text but has that text as its `str()`.
-/

namespace Thicket.Py

open Result Serde

variable (repr : Value → String)

/-- `str(value)`; of a byte string, a list or a dictionary it is the `repr`. -/
def strOf : Value → String
  | .none => "None"
  | .bool b => if b then "True" else "False"
  | .int n => toString n
  | .str s => s
  | value => repr value

namespace Grant

/-- `all(str(attributes.get(k)) == v for k, v in constraints.items())` -/
def matchesAll (attributes : Value) : List (Value × Value) → Except Exc Bool
  | [] => .ok true
  | (k, v) :: items => do
      if !(Value.str (strOf repr (← attributes.get k .none))).eq v then return false
      matchesAll attributes items

def satisfies (grant attributes : Value) : Except Exc Bool := do
  let links ← if grant.truthy then grant.get (.str "links") .none else pure .none
  if !links.truthy then return true
  let last ← links.lastItem
  let constraints ← (← last.getItem "caveats").get (.str "constraints") .none
  matchesAll repr attributes (← (constraints.orElse (.dict [])).items)

example : satisfies repr .none (.dict []) = .ok true := rfl

end Grant

/-- A dictionary of attributes; its keys differ. -/
structure Attributes where
  entries : List (Value × Value)
  distinct : entries.Pairwise fun a b => a.1.eq b.1 = false

namespace Attributes

variable (attributes : Attributes)

/-- `attributes.get(k)` -/
def own (k : String) : Value :=
  ((attributes.entries.find? fun e => e.1.eq (.str k)).map Prod.snd).getD .none

def text : Value × Value → Option (String × String)
  | (.str k, .str v) => some (k, v)
  | _ => none

/-- The attributes whose value is a text. -/
def texts : BTreeMap String String := .ofList (attributes.entries.filterMap text)

variable {attributes}

theorem get_own (k : String) :
    (Value.dict attributes.entries).get (.str k) .none = .ok (attributes.own k) := by
  rw [Value.get, if_pos (by rfl)]
  rfl

theorem text_eq_some {e : Value × Value} {k v : String} :
    text e = some (k, v) ↔ e = (.str k, .str v) := by
  obtain ⟨key, value⟩ := e
  cases key <;> cases value <;> simp [text]

theorem own_eq_str {k v : String} :
    attributes.own k = .str v ↔ (.str k, .str v) ∈ attributes.entries := by
  have hsame : attributes.entries.Pairwise fun a b => ¬(a.1 = .str k ∧ b.1 = .str k) := by
    apply attributes.distinct.imp
    intro a b hab ⟨ha, hb⟩
    rw [ha, hb, eq_str] at hab
    simp at hab
  have : Std.Symm fun a b : Value × Value => ¬(a.1 = .str k ∧ b.1 = .str k) :=
    ⟨fun _ _ h hba => h hba.symm⟩
  rw [own]
  cases hfind : attributes.entries.find? fun e => e.1.eq (.str k) with
  | none =>
      refine iff_of_false nofun ?_
      intro hmem
      exact absurd (eq_str_iff.mpr rfl) (List.find?_eq_none.mp hfind _ hmem)
  | some e =>
      have hkey : e.1 = .str k := eq_str_iff.mp (by simpa using List.find?_some hfind)
      have hmem := List.mem_of_find?_eq_some hfind
      constructor
      · intro hvalue
        obtain rfl : e = (.str k, .str v) := Prod.ext hkey hvalue
        exact hmem
      · intro hentry
        by_contra hne
        have hdiffer : e ≠ (.str k, .str v) := by
          rintro rfl
          exact hne rfl
        exact hsame.forall hmem hentry hdiffer ⟨hkey, rfl⟩

theorem getElem?_texts {k v : String} :
    attributes.texts[k]? = some v ↔ attributes.own k = .str v := by
  have hdistinct : (attributes.entries.filterMap text).Pairwise
      fun a b => ¬compare a.1 b.1 = .eq := by
    apply List.pairwise_filterMap.mpr
    apply attributes.distinct.imp
    intro a b hab s hs t ht heq
    obtain rfl := text_eq_some.mp hs
    obtain rfl := text_eq_some.mp ht
    rw [Std.LawfulEqCmp.eq_of_compare heq, eq_str] at hab
    simp at hab
  have hmem {v : String} :
      (k, v) ∈ attributes.entries.filterMap text ↔ attributes.own k = .str v := by
    rw [own_eq_str, List.mem_filterMap]
    simp only [text_eq_some, exists_eq_right]
  constructor
  · intro hget
    have hkey : ((attributes.entries.filterMap text).map Prod.fst).contains k = true := by
      by_contra hnone
      rw [texts, Std.ExtTreeMap.getElem?_ofList_of_contains_eq_false (by simpa using hnone)] at hget
      cases hget
    obtain ⟨⟨k', v'⟩, hentry, rfl⟩ := List.mem_map.mp (List.contains_iff_mem.mp hkey)
    have hfound := Std.ExtTreeMap.getElem?_ofList_of_mem Std.ReflCmp.compare_self hdistinct hentry
    obtain rfl := Option.some.inj (hget.symm.trans hfound)
    exact hmem.mp hentry
  · intro hown
    exact Std.ExtTreeMap.getElem?_ofList_of_mem Std.ReflCmp.compare_self hdistinct (hmem.mpr hown)

end Attributes

/-! ### What the loop decides -/

theorem matchesAll_texts (attributes : Attributes) (items : List (String × String)) :
    Grant.matchesAll repr (.dict attributes.entries) (items.map fun (k, v) => (.str k, .str v)) =
      .ok (items.all fun (k, v) => strOf repr (attributes.own k) == v) := by
  induction items with
  | nil => rfl
  | cons item items ih =>
      obtain ⟨k, v⟩ := item
      rw [List.map_cons, Grant.matchesAll, Attributes.get_own, ih, List.all_cons]
      simp only [bind, Except.bind, eq_str, beq_eq_decide]
      cases decide (strOf repr (attributes.own k) = v) <;> rfl

/-- The constraints of the last link. -/
def effective (grant : Thicket.Grant) : BTreeMap String String :=
  (grant.links.getLast?.map fun link => link.caveats.constraints).getD ∅

theorem satisfies_of (grant : Thicket.Grant) (attributes : Attributes) :
    Grant.satisfies repr (.of grant) (.dict attributes.entries) =
      .ok ((effective grant).toList.all fun (k, v) => strOf repr (attributes.own k) == v) := by
  obtain ⟨target, links⟩ := grant
  have htruthy : (Value.of (⟨target, links⟩ : Thicket.Grant)).truthy = true := rfl
  have hlinks : (Value.of (⟨target, links⟩ : Thicket.Grant)).get (.str "links") .none =
      .ok (.list (links.map .of)) := by
    rw [← of_list]
    simp [Value.of, Value.get_struct]
  rw [Grant.satisfies, htruthy, if_pos rfl, hlinks]
  cases hlast : links.getLast? with
  | none =>
      obtain rfl := List.getLast?_eq_none_iff.mp hlast
      rfl
  | some last =>
      have hne : (Value.list (links.map .of)).truthy = true := by
        cases links with
        | nil => cases hlast
        | cons link links => rfl
      simp only [bind, Except.bind, hne, Grant.lastItem_of hlast, Grant.link_caveats,
        Grant.caveats_constraints, orElse_map, effective, hlast]
      rw [of_map]
      exact matchesAll_texts repr attributes _

variable {repr} {grant : Thicket.Grant} {attributes : Attributes}

/-- In Python each constraint has to be the `str()` of its attribute. -/
theorem satisfies_iff : Grant.satisfies repr (.of grant) (.dict attributes.entries) = .ok true ↔
    ∀ k v : String, (effective grant)[k]? = some v → strOf repr (attributes.own k) = v := by
  rw [satisfies_of, Except.ok.injEq, List.all_eq_true]
  simp only [Prod.forall, Std.ExtTreeMap.mem_toList_iff_getElem?_eq_some, beq_iff_eq]

/-- In the core each constraint has to be its attribute. -/
theorem core_satisfies_iff : grant.satisfies attributes.texts = true ↔
    ∀ k v : String, (effective grant)[k]? = some v → attributes.own k = .str v := by
  simp only [← Attributes.getElem?_texts]
  cases hlast : grant.links.getLast? with
  | none => simp [effective, hlast, Thicket.Grant.satisfies]
  | some last =>
      rw [Thicket.Grant.satisfies_iff hlast, Caveats.MetBy, effective, hlast]
      rfl

/-! ### Look-alikes -/

variable (repr) in
/-- The attribute is missing or no text, and its `str()` is the constraint's text. -/
def LookAlike (own : Value) (v : String) : Prop := (∀ s, own ≠ .str s) ∧ strOf repr own = v

theorem strOf_eq_iff {own : Value} {v : String} :
    strOf repr own = v ↔ own = .str v ∨ LookAlike repr own v := by
  cases own with
  | str s => simp [strOf, LookAlike]
  | _ => simp [LookAlike]

/-- **Where the two checks agree.** Python gives the core's answer, and is satisfied just by
constraints that are equal to a text attribute, unless some constraint is met by a look-alike and
every other one by its text or by a look-alike as well. -/
theorem satisfies_agree_iff (grant : Thicket.Grant) (attributes : Attributes) :
    (Grant.satisfies repr (.of grant) (.dict attributes.entries) =
        .ok (grant.satisfies attributes.texts) ∧
      (Grant.satisfies repr (.of grant) (.dict attributes.entries) = .ok true ↔
        ∀ k v : String, (effective grant)[k]? = some v → attributes.own k = .str v)) ↔
    ¬((∃ k v : String, (effective grant)[k]? = some v ∧ LookAlike repr (attributes.own k) v) ∧
      ∀ k v : String, (effective grant)[k]? = some v →
        attributes.own k = .str v ∨ LookAlike repr (attributes.own k) v) := by
  have hagree : Grant.satisfies repr (.of grant) (.dict attributes.entries) =
      .ok (grant.satisfies attributes.texts) ↔
        (Grant.satisfies repr (.of grant) (.dict attributes.entries) = .ok true ↔
          grant.satisfies attributes.texts = true) := by
    rw [satisfies_of, Except.ok.injEq, Except.ok.injEq, Bool.eq_iff_iff]
  rw [hagree, core_satisfies_iff, and_self, satisfies_iff]
  simp only [strOf_eq_iff]
  constructor
  · intro hsame ⟨⟨k, v, hkv, hlook⟩, hall⟩
    exact hlook.1 v (hsame.mp hall k v hkv)
  · intro hnone
    constructor
    · intro hall k v hkv
      exact (hall k v hkv).resolve_right fun hlook => hnone ⟨⟨k, v, hkv, hlook⟩, hall⟩
    · intro htexts k v hkv
      exact Or.inl (htexts k v hkv)

/-! ### A missing attribute -/

def sampleConstrained : Thicket.Grant where
  target := ⟨[]⟩
  links := [{ issuerPub := [], audiencePub := [], sig := [],
              caveats := { capabilities := .ofList ["fs.read"], notAfter := 100,
                           constraints := .ofList [("path", "None")] } }]

/-- No attributes at all. -/
def noAttributes : Attributes := ⟨[], .nil⟩

theorem missing_attribute_satisfies :
    Grant.satisfies (fun _ => "") (.of sampleConstrained) (.dict noAttributes.entries) = .ok true ∧
    sampleConstrained.satisfies noAttributes.texts = false ∧
    noAttributes.own "path" ≠ .str "None" := by
  refine ⟨by decide +kernel, by decide +kernel, nofun⟩

end Thicket.Py
