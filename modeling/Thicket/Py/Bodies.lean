import Thicket.Py.Built

/-!
# Bodies of calls

`_encode` and `_decode` of `thicket/app.py`. `None` is an empty body and a byte string is a body as
it is, without a codec; a body is decoded if it can be. So a byte string that happens to be an
encoding arrives as what it encodes. Everything else goes through the codec, which takes no negative
number.
-/

namespace Thicket.Py

open Cbor (Bytes)

/-- `_encode` -/
def encodeBody : Value → Except Exc Bytes
  | .none => .ok []
  | .bytes bs => .ok bs
  | value => encode value

/-- `_decode` of a byte string. -/
def decodeBody (body : Bytes) : Value :=
  if body.isEmpty then .none
  else
    match decode body with
    | .ok value => value
    | .error _ => .bytes body

/-- A value that Python can hold, with integers below `2 ^ 64`: no object is longer than
`sys.maxsize`, and the keys of a dictionary are hashable and differ. -/
inductive Passable : Value → Prop
  | none : Passable .none
  | bool (b : Bool) : Passable (.bool b)
  | int (n : Int) (h : n < 2 ^ 64) : Passable (.int n)
  | bytes (bs : Bytes) (h : bs.length < 2 ^ 63) : Passable (.bytes bs)
  | str (s : String) (h : (Cbor.utf8 s).length < 2 ^ 63) : Passable (.str s)
  | list {items : List Value} (h : items.length < 2 ^ 63) (hitems : ∀ item ∈ items, Passable item) :
      Passable (.list items)
  | dict {entries : List (Value × Value)} (h : entries.length < 2 ^ 63)
      (hhash : ∀ e ∈ entries, e.1.isHashable = true)
      (hdistinct : entries.Pairwise fun a b => a.1.eq b.1 = false)
      (hkeys : ∀ e ∈ entries, Passable e.1) (hvalues : ∀ e ∈ entries, Passable e.2) :
      Passable (.dict entries)

/-- A negative integer occurs in the value. -/
inductive HasNegative : Value → Prop
  | int (n : Int) (h : n < 0) : HasNegative (.int n)
  | item {items : List Value} (item : Value) (hmem : item ∈ items) (h : HasNegative item) :
      HasNegative (.list items)
  | key {entries : List (Value × Value)} (e : Value × Value) (hmem : e ∈ entries)
      (h : HasNegative e.1) : HasNegative (.dict entries)
  | value {entries : List (Value × Value)} (e : Value × Value) (hmem : e ∈ entries)
      (h : HasNegative e.2) : HasNegative (.dict entries)

/-- What is passed as a body arrives unchanged. -/
def Crosses (v : Value) : Prop := ∃ body, encodeBody v = .ok body ∧ decodeBody body = v

variable {v : Value} {bytes : Bytes}

/-! ### What the codec takes -/

theorem encHead_ok (major : Nat) {n : Nat} (h : n < 2 ^ 64) :
    ∃ head, encHead major n = .ok head := by
  unfold encHead
  dsimp only
  split_ifs
  all_goals exact ⟨_, rfl⟩

theorem encItems_ok {items : List Value} (h : ∀ item ∈ items, ∃ bytes, enc item = .ok bytes) :
    ∃ bytes, encItems items = .ok bytes := by
  induction items with
  | nil => exact ⟨[], rfl⟩
  | cons item items ih =>
      obtain ⟨⟨bytes, hitem⟩, h⟩ := List.forall_mem_cons.mp h
      obtain ⟨rest, hrest⟩ := ih h
      rw [encItems, hitem, hrest]
      exact ⟨_, rfl⟩

theorem encEntries_ok {entries : List (Value × Value)}
    (hkeys : ∀ e ∈ entries, ∃ bytes, enc e.1 = .ok bytes)
    (hvalues : ∀ e ∈ entries, ∃ bytes, enc e.2 = .ok bytes) :
    ∃ bytes, encEntries entries = .ok bytes := by
  induction entries with
  | nil => exact ⟨[], rfl⟩
  | cons e entries ih =>
      obtain ⟨⟨key, hkey⟩, hkeys⟩ := List.forall_mem_cons.mp hkeys
      obtain ⟨⟨value, hvalue⟩, hvalues⟩ := List.forall_mem_cons.mp hvalues
      obtain ⟨rest, hrest⟩ := ih hkeys hvalues
      rw [encEntries, hkey, hvalue, hrest]
      exact ⟨_, rfl⟩

theorem Passable.encodes (h : Passable v) (hneg : ¬HasNegative v) :
    ∃ bytes, encode v = .ok bytes := by
  have hlt {n : Nat} (hn : n < 2 ^ 63) : n < 2 ^ 64 := by omega
  induction h with
  | none => exact ⟨_, rfl⟩
  | bool b => exact ⟨_, rfl⟩
  | int n hn =>
      have hnonneg : ¬n < 0 := fun hlt => hneg (.int n hlt)
      obtain ⟨head, hhead⟩ := encHead_ok 0 (n := n.toNat) (by omega)
      exact ⟨head, by rw [encode, enc, if_neg hnonneg, hhead]⟩
  | bytes bs hbs =>
      obtain ⟨head, hhead⟩ := encHead_ok 2 (hlt hbs)
      rw [encode, enc, hhead]
      exact ⟨_, rfl⟩
  | str s hs =>
      obtain ⟨head, hhead⟩ := encHead_ok 3 (hlt hs)
      rw [encode, enc, hhead]
      exact ⟨_, rfl⟩
  | list hlen _ ih =>
      obtain ⟨head, hhead⟩ := encHead_ok 4 (hlt hlen)
      obtain ⟨rest, hrest⟩ := encItems_ok fun item hitem =>
        ih item hitem fun hitemNeg => hneg (.item item hitem hitemNeg)
      rw [encode, enc, hhead, hrest]
      exact ⟨_, rfl⟩
  | dict hlen _ _ _ _ ihkeys ihvalues =>
      obtain ⟨head, hhead⟩ := encHead_ok 5 (hlt hlen)
      obtain ⟨rest, hrest⟩ := encEntries_ok
        (fun e he => ihkeys e he fun hkeyNeg => hneg (.key e he hkeyNeg))
        (fun e he => ihvalues e he fun hvalueNeg => hneg (.value e he hvalueNeg))
      rw [encode, enc, hhead, hrest]
      exact ⟨_, rfl⟩

/-- A data item has no negative integer. -/
theorem not_hasNegative_ofItem (h : HasNegative v) :
    ∀ item : Cbor.Value, Value.ofItem item ≠ v := by
  induction h with
  | int n hn =>
      intro item heq
      cases item <;> cases heq
      exact absurd hn (by omega)
  | item x hmem _ ih =>
      intro item heq
      cases item <;> cases heq
      rw [Value.ofItems_eq_map] at hmem
      obtain ⟨y, -, hy⟩ := List.mem_map.mp hmem
      exact ih y hy
  | key e hmem _ ih =>
      intro item heq
      cases item <;> cases heq
      rw [Value.ofEntries_eq_map] at hmem
      obtain ⟨y, -, hy⟩ := List.mem_map.mp hmem
      exact ih y.1 (congrArg Prod.fst hy)
  | value e hmem _ ih =>
      intro item heq
      cases item <;> cases heq
      rw [Value.ofEntries_eq_map] at hmem
      obtain ⟨y, -, hy⟩ := List.mem_map.mp hmem
      exact ih y.2 (congrArg Prod.snd hy)

/-! ### Through the codec -/

/-- What is built of the item of a value is the value. -/
theorem Passable.built (h : Passable v) : ∀ item : Cbor.Value, Value.ofItem item = v →
    Value.built item = .ok (.ofItem item) := by
  induction h with
  | none => intro item heq; cases item <;> cases heq; rfl
  | bool b => intro item heq; cases item <;> cases heq; rfl
  | int n => intro item heq; cases item <;> cases heq; rfl
  | bytes bs => intro item heq; cases item <;> cases heq; rfl
  | str s => intro item heq; cases item <;> cases heq; rfl
  | list _ _ ih =>
      intro item heq
      cases item <;> cases heq
      rw [Value.built, builtItems_of]
      · rfl
      · intro x hx
        refine ih (.ofItem x) ?_ x rfl
        rw [Value.ofItems_eq_map]
        exact List.mem_map_of_mem hx
  | dict _ hhash hdistinct _ _ ihkeys ihvalues =>
      intro item heq
      cases item with
      | map es =>
          obtain rfl := Value.dict.inj heq
          have hmem {e : Cbor.Value × Cbor.Value} (he : e ∈ es) :
              (Value.ofItem e.1, Value.ofItem e.2) ∈ Value.ofEntries es := by
            rw [Value.ofEntries_eq_map]
            exact List.mem_map.mpr ⟨e, he, rfl⟩
          have hentries : Value.builtEntries [] es = .ok ([] ++ Value.ofEntries es) := by
            apply builtEntries_new
            · intro e he
              exact hhash _ (hmem he)
            · rw [Value.ofEntries_eq_map, List.pairwise_map] at hdistinct
              exact hdistinct
            · intro e he
              cases he
            · intro e he
              exact ⟨ihkeys _ (hmem he) e.1 rfl, ihvalues _ (hmem he) e.2 rfl⟩
          rw [Value.built, hentries]
          rfl
      | _ => cases heq

theorem Passable.decode_encode (h : Passable v) (hbytes : encode v = .ok bytes) :
    decode bytes = .ok v := by
  obtain ⟨item, rfl, hitem⟩ := encode_eq_ok.mp hbytes
  have hread := Cbor.decode_encode hitem []
  rw [List.append_nil] at hread
  exact decode_eq_ok.mpr ⟨item, hread, h.built item rfl⟩

/-- What goes through the codec arrives. -/
theorem decodeBody_encode (h : Passable v) (hbytes : encode v = .ok bytes) :
    decodeBody bytes = v := by
  have hdecode := h.decode_encode hbytes
  have hne : bytes.isEmpty = false := by
    cases bytes with
    | nil => cases hdecode
    | cons b bytes => rfl
  simp only [decodeBody, hne, hdecode, Bool.false_eq_true, if_false]

/-! ### Around the codec -/

theorem length_of_readArgument {info n : Nat} {input rest : Bytes}
    (h : Cbor.readArgument info input = some (n, rest)) : rest.length ≤ input.length := by
  have hnumber {width : Nat} (h : Cbor.readNumber width input = some (n, rest)) :
      rest.length ≤ input.length := by
    obtain ⟨⟨taken, left⟩, htake, heq⟩ := Option.bind_eq_some_iff.mp h
    obtain ⟨-, rfl⟩ := Prod.mk.inj (Option.some.inj heq)
    rw [Cbor.takeBytes] at htake
    split_ifs at htake
    obtain ⟨-, rfl⟩ := Prod.mk.inj (Option.some.inj htake)
    rw [List.length_drop]
    exact Nat.sub_le _ _
  unfold Cbor.readArgument at h
  split_ifs at h
  · obtain ⟨-, rfl⟩ := Prod.mk.inj (Option.some.inj h)
    exact Nat.le_refl _
  all_goals exact hnumber h

/-- The encoding of a byte string is longer than the byte string. -/
theorem length_lt_of_decodeItem {depth : Nat} {input content rest : Bytes}
    (h : Cbor.decodeItem depth input = some (.bytes content, rest)) :
    content.length < input.length := by
  cases depth with
  | zero => cases h
  | succ depth =>
      cases input with
      | nil => cases h
      | cons initial input =>
          rw [Cbor.decodeItem] at h
          dsimp only at h
          split_ifs at h with hmajor
          · obtain ⟨v, hsimple, heq⟩ := Option.map_eq_some_iff.mp h
            obtain ⟨rfl, -⟩ := Prod.mk.inj heq
            unfold Cbor.simple at hsimple
            split_ifs at hsimple <;> cases hsimple
          · obtain ⟨⟨n, after⟩, harg, hcontents⟩ := Option.bind_eq_some_iff.mp h
            have hafter := length_of_readArgument harg
            unfold Cbor.readContents at hcontents
            split at hcontents
            · cases hcontents
            · obtain ⟨⟨taken, left⟩, htake, heq⟩ := Option.bind_eq_some_iff.mp hcontents
              rw [Cbor.takeBytes] at htake
              split_ifs at htake with hn
              obtain ⟨rfl, -⟩ := Prod.mk.inj (Option.some.inj htake)
              obtain rfl := Cbor.Value.bytes.inj (Prod.mk.inj (Option.some.inj heq)).1
              change (after.take n).length < (initial :: input).length
              rw [List.length_take, List.length_cons]
              omega
            · obtain ⟨_, -, hrest⟩ := Option.bind_eq_some_iff.mp hcontents
              obtain ⟨_, -, heq⟩ := Option.bind_eq_some_iff.mp hrest
              cases heq
            · obtain ⟨_, -, heq⟩ := Option.bind_eq_some_iff.mp hcontents
              cases heq
            · obtain ⟨_, -, heq⟩ := Option.bind_eq_some_iff.mp hcontents
              cases heq
            · cases hcontents

/-- No byte string is its own encoding. -/
theorem decode_ne_self {bs : Bytes} : decode bs ≠ .ok (.bytes bs) := by
  intro h
  obtain ⟨item, hread, hbuilt⟩ := decode_eq_ok.mp h
  cases item with
  | bytes content =>
      obtain rfl := Value.bytes.inj (Except.ok.inj hbuilt)
      exact Nat.lt_irrefl _ (length_lt_of_decodeItem hread)
  | null | bool b | uint n | text s => cases hbuilt
  | array items =>
      rw [Value.built] at hbuilt
      cases hitems : Value.builtItems items <;> rw [hitems] at hbuilt <;> cases hbuilt
  | map entries =>
      rw [Value.built] at hbuilt
      cases hentries : Value.builtEntries [] entries <;> rw [hentries] at hbuilt <;> cases hbuilt

theorem crosses_bytes_iff {bs : Bytes} :
    Crosses (.bytes bs) ↔ bs ≠ [] ∧ ∀ w, decode bs ≠ .ok w := by
  have hcrosses : Crosses (.bytes bs) ↔ decodeBody bs = .bytes bs := by
    constructor
    · rintro ⟨body, hbody, hdecode⟩
      obtain rfl := Except.ok.inj hbody
      exact hdecode
    · intro hdecode
      exact ⟨bs, rfl, hdecode⟩
  rw [hcrosses, decodeBody]
  cases bs with
  | nil => simp
  | cons b bs =>
      cases hdecode : decode (b :: bs) with
      | ok w =>
          refine iff_of_false ?_ fun h => h.2 w rfl
          intro heq
          exact decode_ne_self (hdecode.trans (congrArg Except.ok heq))
      | error e => simp

/-- **Which values cross a call.** A value arrives unchanged exactly when no negative integer occurs
in it and it is not a byte string that is empty or an encoding of something. -/
theorem crosses_iff (h : Passable v) : Crosses v ↔
    ¬HasNegative v ∧ ∀ bs, v = .bytes bs → bs ≠ [] ∧ ∀ w, decode bs ≠ .ok w := by
  have hcodec (hencode : encodeBody v = encode v) (hbytes : ∀ bs, v ≠ .bytes bs) :
      Crosses v ↔ ¬HasNegative v ∧ ∀ bs, v = .bytes bs → bs ≠ [] ∧ ∀ w, decode bs ≠ .ok w := by
    constructor
    · rintro ⟨body, hbody, -⟩
      obtain ⟨item, hitem, -⟩ := encode_eq_ok.mp (hencode ▸ hbody)
      exact ⟨fun hneg => not_hasNegative_ofItem hneg item hitem,
        fun bs hbs => absurd hbs (hbytes bs)⟩
    · rintro ⟨hneg, -⟩
      obtain ⟨body, hbody⟩ := h.encodes hneg
      exact ⟨body, hencode.trans hbody, decodeBody_encode h hbody⟩
  cases v with
  | none =>
      refine iff_of_true ⟨[], rfl, rfl⟩ ⟨?_, nofun⟩
      intro hneg
      cases hneg
  | bytes bs =>
      rw [crosses_bytes_iff]
      constructor
      · intro hbs
        refine ⟨nofun, ?_⟩
        intro bs' heq
        rw [← Value.bytes.inj heq]
        exact hbs
      · intro hbs
        exact hbs.2 bs rfl
  | bool b => exact hcodec rfl nofun
  | int n => exact hcodec rfl nofun
  | str s => exact hcodec rfl nofun
  | list items => exact hcodec rfl nofun
  | dict entries => exact hcodec rfl nofun

/-! ### A nested byte string and one that is taken for an encoding -/

theorem crosses_nested : Crosses (.dict [(.str "raw", .bytes [1]), (.int 2, .none)]) := by
  have hpassable : Passable (.dict [(.str "raw", .bytes [1]), (.int 2, .none)]) := by
    apply Passable.dict (by decide) (by decide) (by decide)
    · intro e he
      rcases List.mem_pair.mp he with rfl | rfl
      · exact .str "raw" (by decide)
      · exact .int 2 (by decide)
    · intro e he
      rcases List.mem_pair.mp he with rfl | rfl
      · exact .bytes [1] (by decide)
      · exact .none
  refine (crosses_iff hpassable).mpr ⟨?_, nofun⟩
  intro hneg
  cases hneg with
  | key e he hneg =>
      rcases List.mem_pair.mp he with rfl | rfl
      · cases hneg
      · cases hneg with
        | int _ h => exact absurd h (by decide)
  | value e he hneg =>
      rcases List.mem_pair.mp he with rfl | rfl <;> cases hneg

/-- A byte string of one byte arrives as a number, an empty one as `None`. -/
theorem bytes_are_decoded :
    Passable (.bytes [1]) ∧ decodeBody [1] = .int 1 ∧ ¬Crosses (.bytes [1]) ∧
    Passable (.bytes []) ∧ decodeBody [] = .none ∧ ¬Crosses (.bytes []) := by
  have hdecode : decode [1] = .ok (.int 1) := by rfl
  refine ⟨.bytes [1] (by decide), by rfl, ?_, .bytes [] (by decide), rfl, ?_⟩
  · intro hcrosses
    exact (crosses_bytes_iff.mp hcrosses).2 (.int 1) hdecode
  · intro hcrosses
    exact (crosses_bytes_iff.mp hcrosses).1 rfl

end Thicket.Py
