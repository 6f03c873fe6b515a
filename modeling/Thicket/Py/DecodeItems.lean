import Thicket.Py.Decode

/-!
# What the decoder reads

The SDK's decoder and the core's reader take the same bytes apart into the same data items. The SDK
builds its dictionaries of them and wants nothing to follow.
-/

namespace Thicket.Py

open Cbor (Bytes)
open Result

variable {data : Bytes} {i j n : Nat}

/-! ### Positions -/

theorem byteAt_eq_ok {b : UInt8} : byteAt data i = .ok b ↔ data[i]? = some b := okOr_eq_ok

theorem drop_of_byteAt {b : UInt8} (h : byteAt data i = .ok b) :
    i < data.length ∧ data.drop i = b :: data.drop (i + 1) := by
  obtain ⟨hi, rfl⟩ := List.getElem?_eq_some_iff.mp (byteAt_eq_ok.mp h)
  exact ⟨hi, List.drop_eq_getElem_cons hi⟩

theorem takeBytes_drop (hfits : i + n ≤ data.length) :
    Cbor.takeBytes n (data.drop i) = some (slice data i n, data.drop (i + n)) := by
  rw [Cbor.takeBytes, if_pos (by rw [List.length_drop]; omega), List.drop_drop]
  rfl

theorem takeBytes_drop_eq_some {bytes rest : Bytes} (hi : i ≤ data.length)
    (h : Cbor.takeBytes n (data.drop i) = some (bytes, rest)) :
    i + n ≤ data.length ∧ bytes = slice data i n ∧ rest = data.drop (i + n) := by
  unfold Cbor.takeBytes at h
  split_ifs at h with hn
  simp only [Option.some.injEq, Prod.mk.injEq, List.drop_drop] at h
  rw [List.length_drop] at hn
  exact ⟨by omega, h.1.symm, h.2.symm⟩

/-! ### Heads -/

theorem decSimple_eq (info : Nat) : decSimple info =
    match Cbor.simple info with
    | some item => Value.built item
    | none => .error .valueError := by
  unfold decSimple Cbor.simple
  split_ifs <;> rfl

theorem readNumber_drop (hfits : i + n ≤ data.length) :
    Cbor.readNumber n (data.drop i) = some (fromBytes data i n, data.drop (i + n)) := by
  rw [Cbor.readNumber, takeBytes_drop hfits]
  rfl

theorem readNumber_drop_eq_some {m : Nat} {rest : Bytes} (hi : i ≤ data.length)
    (h : Cbor.readNumber n (data.drop i) = some (m, rest)) :
    i + n ≤ data.length ∧ m = fromBytes data i n ∧ rest = data.drop (i + n) := by
  simp only [Cbor.readNumber, Option.bind_eq_bind, Option.bind_eq_some_iff, Option.pure_def,
    Option.some.injEq, Prod.mk.injEq, Prod.exists] at h
  obtain ⟨_, _, htake, rfl, rfl⟩ := h
  obtain ⟨hfits, rfl, rfl⟩ := takeBytes_drop_eq_some hi htake
  exact ⟨hfits, rfl, rfl⟩

theorem fromBytes_one {b : UInt8} (h : byteAt data i = .ok b) : fromBytes data i 1 = b.toNat := by
  rw [fromBytes, slice, (drop_of_byteAt h).2]
  exact Nat.zero_add _

theorem le_of_decArgument {info : Nat} (h : decArgument data info i = .ok (n, j)) : i ≤ j := by
  unfold decArgument at h
  split_ifs at h
  · cases h
    exact le_rfl
  · simp only [bind_eq_ok, pure_eq_ok, Prod.mk.injEq] at h
    obtain ⟨_, -, -, rfl⟩ := h
    exact Nat.le_succ i
  all_goals
    cases h
    exact Nat.le_add_right i _

/-- The SDK's heads that end inside the data are the core's. -/
theorem readArgument_of_decArgument {info : Nat} (h : decArgument data info i = .ok (n, j))
    (hj : j ≤ data.length) : Cbor.readArgument info (data.drop i) = some (n, data.drop j) := by
  unfold decArgument at h
  unfold Cbor.readArgument
  split_ifs at h ⊢
  · cases h
    rfl
  · simp only [bind_eq_ok, pure_eq_ok, Prod.mk.injEq] at h
    obtain ⟨b, hb, rfl, rfl⟩ := h
    rw [readNumber_drop hj, fromBytes_one hb]
  · cases h
    exact readNumber_drop hj
  · cases h
    exact readNumber_drop hj
  · cases h
    exact readNumber_drop hj

/-- The core's heads are the SDK's. -/
theorem decArgument_of_readArgument {info : Nat} {rest : Bytes} (hi : i ≤ data.length)
    (h : Cbor.readArgument info (data.drop i) = some (n, rest)) :
    ∃ j, j ≤ data.length ∧ rest = data.drop j ∧ decArgument data info i = .ok (n, j) := by
  unfold Cbor.readArgument at h
  unfold decArgument
  split_ifs at h ⊢
  · cases h
    exact ⟨i, hi, rfl, rfl⟩
  · obtain ⟨hfits, rfl, rfl⟩ := readNumber_drop_eq_some hi h
    obtain ⟨b, hb⟩ : ∃ b, byteAt data i = .ok b :=
      ⟨_, byteAt_eq_ok.mpr (List.getElem?_eq_getElem hfits)⟩
    refine ⟨i + 1, hfits, rfl, ?_⟩
    rw [hb, fromBytes_one hb]
    rfl
  · obtain ⟨hfits, rfl, rfl⟩ := readNumber_drop_eq_some hi h
    exact ⟨i + 2, hfits, rfl, rfl⟩
  · obtain ⟨hfits, rfl, rfl⟩ := readNumber_drop_eq_some hi h
    exact ⟨i + 4, hfits, rfl, rfl⟩
  · obtain ⟨hfits, rfl, rfl⟩ := readNumber_drop_eq_some hi h
    exact ⟨i + 8, hfits, rfl, rfl⟩

/-! ### Moving on -/

section Advancing

variable {item : Nat → Except Exc (Value × Nat)}

/-- An item takes at least one byte. -/
def Advances (item : Nat → Except Exc (Value × Nat)) : Prop :=
  ∀ {i v j}, item i = .ok (v, j) → i < j

theorem Advances.decItems (hitem : Advances item) {arr : List Value}
    (h : decItems item n i = .ok (arr, j)) : i ≤ j := by
  induction n generalizing i arr with
  | zero =>
      cases h
      exact le_rfl
  | succ n ih =>
      simp only [Py.decItems, bind_eq_ok, pure_eq_ok, Prod.exists, Prod.mk.injEq] at h
      obtain ⟨v, i', hfirst, _, _, hrest, -, rfl⟩ := h
      exact (hitem hfirst).le.trans (ih hrest)

theorem Advances.decEntries (hitem : Advances item) {d d' : List (Value × Value)}
    (h : decEntries item n i d = .ok (d', j)) : i ≤ j := by
  induction n generalizing i d with
  | zero =>
      cases h
      exact le_rfl
  | succ n ih =>
      simp only [Py.decEntries, bind_eq_ok, Prod.exists] at h
      obtain ⟨k, i', hkey, v, i'', hvalue, _, -, hrest⟩ := h
      exact (hitem hkey).le.trans ((hitem hvalue).le.trans (ih hrest))

theorem Advances.decContents (hitem : Advances item) {major : Nat} {v : Value}
    (h : decContents data item major n i = .ok (v, j)) : i ≤ j := by
  unfold Py.decContents at h
  split at h
  · cases h
    exact le_rfl
  · cases h
    exact Nat.le_add_right i n
  · simp only [bind_eq_ok, pure_eq_ok, Prod.mk.injEq] at h
    obtain ⟨_, -, -, rfl⟩ := h
    exact Nat.le_add_right i n
  · simp only [bind_eq_ok, pure_eq_ok, Prod.exists, Prod.mk.injEq] at h
    obtain ⟨_, _, harr, -, rfl⟩ := h
    exact hitem.decItems harr
  · simp only [bind_eq_ok, pure_eq_ok, Prod.exists, Prod.mk.injEq] at h
    obtain ⟨_, _, hd, -, rfl⟩ := h
    exact hitem.decEntries hd
  · cases h

end Advancing

/-- What an item that starts with this byte goes on with. -/
theorem dec_eq_ok {depth : Nat} {v : Value} : dec data (depth + 1) i = .ok (v, j) ↔
    ∃ b, byteAt data i = .ok b ∧
      if b.toNat / 32 = 7 then decSimple (b.toNat % 32) = .ok v ∧ i + 1 = j
      else ∃ n i', decArgument data (b.toNat % 32) (i + 1) = .ok (n, i') ∧
        decContents data (dec data depth) (b.toNat / 32) n i' = .ok (v, j) := by
  have hmajor (b : UInt8) : b.toNat >>> 5 = b.toNat / 32 := Nat.shiftRight_eq_div_pow _ 5
  have hinfo (b : UInt8) : b.toNat &&& 0x1F = b.toNat % 32 := Nat.and_two_pow_sub_one_eq_mod _ 5
  rw [dec, bind_eq_ok]
  refine exists_congr fun b => and_congr_right fun _ => ?_
  simp only [hmajor, hinfo]
  split_ifs <;> simp only [bind_eq_ok, pure_eq_ok, Prod.exists, Prod.mk.injEq]
  constructor
  · rintro ⟨_, hsimple, rfl, hj⟩
    exact ⟨hsimple, hj⟩
  · rintro ⟨hsimple, hj⟩
    exact ⟨v, hsimple, rfl, hj⟩

theorem dec_advances (depth : Nat) : Advances (dec data depth) := by
  intro i v j h
  induction depth generalizing i v j with
  | zero => cases h
  | succ depth ih =>
      obtain ⟨b, -, h⟩ := dec_eq_ok.mp h
      split_ifs at h
      · exact h.2.le
      · obtain ⟨n, i', hargument, hcontents⟩ := h
        have hmove : Advances (dec data depth) := ih
        exact (le_of_decArgument hargument).trans (hmove.decContents hcontents)

/-! ### The two readers -/

section Readers

variable {item : Nat → Except Exc (Value × Nat)} {read : Bytes → Option (Cbor.Value × Bytes)}

/-- What the SDK reads inside the data, the core reads. -/
def Sound (data : Bytes) (item : Nat → Except Exc (Value × Nat))
    (read : Bytes → Option (Cbor.Value × Bytes)) : Prop :=
  ∀ {i v j}, item i = .ok (v, j) → j ≤ data.length →
    ∃ x, read (data.drop i) = some (x, data.drop j) ∧ Value.built x = .ok v

/-- What the core reads, the SDK reads, if it can build a value of it. -/
def Complete (data : Bytes) (item : Nat → Except Exc (Value × Nat))
    (read : Bytes → Option (Cbor.Value × Bytes)) : Prop :=
  ∀ {i x rest v}, i ≤ data.length → read (data.drop i) = some (x, rest) → Value.built x = .ok v →
    ∃ j, j ≤ data.length ∧ rest = data.drop j ∧ item i = .ok (v, j)

theorem Sound.readItems (hread : Sound data item read) (hitem : Advances item) {arr : List Value}
    (h : decItems item n i = .ok (arr, j)) (hj : j ≤ data.length) :
    ∃ xs, Cbor.readItems read n (data.drop i) = some (xs, data.drop j) ∧
      Value.builtItems xs = .ok arr := by
  induction n generalizing i arr with
  | zero =>
      cases h
      exact ⟨[], rfl, rfl⟩
  | succ n ih =>
      simp only [decItems, bind_eq_ok, pure_eq_ok, Prod.exists, Prod.mk.injEq] at h
      obtain ⟨v, i', hfirst, rest, _, hrest, rfl, rfl⟩ := h
      obtain ⟨x, hx, hv⟩ := hread hfirst ((hitem.decItems hrest).trans hj)
      obtain ⟨xs, hxs, harr⟩ := ih hrest
      refine ⟨x :: xs, ?_, ?_⟩
      · simp [Cbor.readItems, hx, hxs]
      · simp [Value.builtItems, hv, harr, bind, Except.bind, pure, Except.pure]

theorem Sound.readEntries (hread : Sound data item read) (hitem : Advances item)
    {d d' : List (Value × Value)} (h : decEntries item n i d = .ok (d', j))
    (hj : j ≤ data.length) :
    ∃ xs, Cbor.readItems (Cbor.readEntry read) n (data.drop i) = some (xs, data.drop j) ∧
      Value.builtEntries d xs = .ok d' := by
  induction n generalizing i d with
  | zero =>
      cases h
      exact ⟨[], rfl, rfl⟩
  | succ n ih =>
      simp only [decEntries, bind_eq_ok, Prod.exists] at h
      obtain ⟨k, i', hkey, v, i'', hvalue, d'', hset, hrest⟩ := h
      have hi'' : i'' ≤ data.length := (hitem.decEntries hrest).trans hj
      obtain ⟨y, hy, hv⟩ := hread hvalue hi''
      obtain ⟨x, hx, hk⟩ := hread hkey ((hitem hvalue).le.trans hi'')
      obtain ⟨xs, hxs, hd⟩ := ih hrest
      refine ⟨(x, y) :: xs, ?_, ?_⟩
      · simp [Cbor.readItems, Cbor.readEntry, hx, hy, hxs]
      · simp [Value.builtEntries, hk, hv, hset, hd, bind, Except.bind]

theorem Complete.decItems (hread : Complete data item read) {xs : List Cbor.Value} {rest : Bytes}
    {arr : List Value} (hi : i ≤ data.length)
    (h : Cbor.readItems read n (data.drop i) = some (xs, rest))
    (harr : Value.builtItems xs = .ok arr) :
    ∃ j, j ≤ data.length ∧ rest = data.drop j ∧ Py.decItems item n i = .ok (arr, j) := by
  induction n generalizing i xs arr with
  | zero =>
      cases h
      cases harr
      exact ⟨i, hi, rfl, rfl⟩
  | succ n ih =>
      simp only [Cbor.readItems, Option.bind_eq_bind, Option.bind_eq_some_iff, Option.pure_def,
        Option.some.injEq, Prod.exists, Prod.mk.injEq] at h
      obtain ⟨x, _, hx, ys, _, hys, rfl, rfl⟩ := h
      simp only [Value.builtItems, bind_eq_ok, pure_eq_ok] at harr
      obtain ⟨v, hv, vs, hvs, rfl⟩ := harr
      obtain ⟨i', hi', rfl, hfirst⟩ := hread hi hx hv
      obtain ⟨j, hj, rfl, hrest⟩ := ih hi' hys hvs
      refine ⟨j, hj, rfl, ?_⟩
      simp [Py.decItems, hfirst, hrest, bind, Except.bind, pure, Except.pure]

theorem Complete.decEntries (hread : Complete data item read)
    {xs : List (Cbor.Value × Cbor.Value)} {rest : Bytes} {d d' : List (Value × Value)}
    (hi : i ≤ data.length)
    (h : Cbor.readItems (Cbor.readEntry read) n (data.drop i) = some (xs, rest))
    (hd : Value.builtEntries d xs = .ok d') :
    ∃ j, j ≤ data.length ∧ rest = data.drop j ∧ Py.decEntries item n i d = .ok (d', j) := by
  induction n generalizing i xs d with
  | zero =>
      cases h
      cases hd
      exact ⟨i, hi, rfl, rfl⟩
  | succ n ih =>
      simp only [Cbor.readItems, Cbor.readEntry, Option.bind_eq_bind, Option.bind_eq_some_iff,
        Option.pure_def, Option.some.injEq, Prod.exists, Prod.mk.injEq] at h
      obtain ⟨_, _, _, ⟨x, _, hx, y, _, hy, ⟨rfl, rfl⟩, rfl⟩, ys, _, hys, rfl, rfl⟩ := h
      simp only [Value.builtEntries, bind_eq_ok] at hd
      obtain ⟨k, hk, v, hv, d'', hset, hd⟩ := hd
      obtain ⟨i', hi', rfl, hkey⟩ := hread hi hx hk
      obtain ⟨i'', hi'', rfl, hvalue⟩ := hread hi' hy hv
      obtain ⟨j, hj, rfl, hrest⟩ := ih hi'' hys hd
      refine ⟨j, hj, rfl, ?_⟩
      simp [Py.decEntries, hkey, hvalue, hset, hrest, bind, Except.bind]

theorem Sound.readContents (hread : Sound data item read) (hitem : Advances item) {major : Nat}
    {v : Value} (h : decContents data item major n i = .ok (v, j)) (hj : j ≤ data.length) :
    ∃ x, Cbor.readContents read major n (data.drop i) = some (x, data.drop j) ∧
      Value.built x = .ok v := by
  unfold decContents at h
  split at h
  · cases h
    exact ⟨.uint n, rfl, rfl⟩
  · cases h
    exact ⟨.bytes (slice data i n), by simp [Cbor.readContents, takeBytes_drop hj], rfl⟩
  · simp only [bind_eq_ok, okOr_eq_ok, pure_eq_ok, Prod.mk.injEq] at h
    obtain ⟨s, hs, rfl, rfl⟩ := h
    exact ⟨.text s, by simp [Cbor.readContents, takeBytes_drop hj, hs], rfl⟩
  · simp only [bind_eq_ok, pure_eq_ok, Prod.exists, Prod.mk.injEq] at h
    obtain ⟨arr, _, harr, rfl, rfl⟩ := h
    obtain ⟨xs, hxs, hbuilt⟩ := hread.readItems hitem harr hj
    refine ⟨.array xs, by simp [Cbor.readContents, hxs], ?_⟩
    simp [Value.built, hbuilt, bind, Except.bind, pure, Except.pure]
  · simp only [bind_eq_ok, pure_eq_ok, Prod.exists, Prod.mk.injEq] at h
    obtain ⟨d, _, hd, rfl, rfl⟩ := h
    obtain ⟨xs, hxs, hbuilt⟩ := hread.readEntries hitem hd hj
    refine ⟨.map xs, by simp [Cbor.readContents, hxs], ?_⟩
    simp [Value.built, hbuilt, bind, Except.bind, pure, Except.pure]
  · cases h

theorem Complete.decContents (hread : Complete data item read) {major : Nat} {x : Cbor.Value}
    {rest : Bytes} {v : Value} (hi : i ≤ data.length)
    (h : Cbor.readContents read major n (data.drop i) = some (x, rest))
    (hv : Value.built x = .ok v) :
    ∃ j, j ≤ data.length ∧ rest = data.drop j ∧
      Py.decContents data item major n i = .ok (v, j) := by
  unfold Cbor.readContents at h
  split at h <;> simp only [Option.bind_eq_bind, Option.bind_eq_some_iff, Option.pure_def,
    Option.some.injEq, Prod.exists, Prod.mk.injEq, reduceCtorEq] at h
  · obtain ⟨rfl, rfl⟩ := h
    cases hv
    exact ⟨i, hi, rfl, rfl⟩
  · obtain ⟨_, _, htake, rfl, rfl⟩ := h
    obtain ⟨hfits, rfl, rfl⟩ := takeBytes_drop_eq_some hi htake
    cases hv
    exact ⟨i + n, hfits, rfl, rfl⟩
  · obtain ⟨_, _, htake, s, hs, rfl, rfl⟩ := h
    obtain ⟨hfits, rfl, rfl⟩ := takeBytes_drop_eq_some hi htake
    cases hv
    refine ⟨i + n, hfits, rfl, ?_⟩
    simp [Py.decContents, hs, okOr, bind, Except.bind, pure, Except.pure]
  · obtain ⟨xs, _, hxs, rfl, rfl⟩ := h
    simp only [Value.built, bind_eq_ok, pure_eq_ok] at hv
    obtain ⟨arr, harr, rfl⟩ := hv
    obtain ⟨j, hj, rfl, hdec⟩ := hread.decItems hi hxs harr
    refine ⟨j, hj, rfl, ?_⟩
    simp [Py.decContents, hdec, bind, Except.bind, pure, Except.pure]
  · obtain ⟨xs, _, hxs, rfl, rfl⟩ := h
    simp only [Value.built, bind_eq_ok, pure_eq_ok] at hv
    obtain ⟨d, hd, rfl⟩ := hv
    obtain ⟨j, hj, rfl, hdec⟩ := hread.decEntries hi hxs hd
    refine ⟨j, hj, rfl, ?_⟩
    simp [Py.decContents, hdec, bind, Except.bind, pure, Except.pure]

end Readers

theorem dec_sound (depth : Nat) : Sound data (dec data depth) (Cbor.decodeItem depth) := by
  intro i v j h hj
  induction depth generalizing i v j with
  | zero => cases h
  | succ depth ih =>
      obtain ⟨b, hb, h⟩ := dec_eq_ok.mp h
      obtain ⟨-, hdrop⟩ := drop_of_byteAt hb
      rw [hdrop, Cbor.decodeItem]
      split_ifs at h with hmajor
      · obtain ⟨hsimple, rfl⟩ := h
        rw [decSimple_eq] at hsimple
        cases hitem : Cbor.simple (b.toNat % 32) with
        | none => simp [hitem] at hsimple
        | some x =>
            simp only [hitem] at hsimple
            exact ⟨x, by simp [hmajor], hsimple⟩
      · obtain ⟨n, i', hargument, hcontents⟩ := h
        have hread : Sound data (dec data depth) (Cbor.decodeItem depth) := ih
        have hmove : Advances (dec data depth) := dec_advances depth
        obtain ⟨x, hx, hv⟩ := hread.readContents hmove hcontents hj
        have hi' : i' ≤ data.length := (hmove.decContents hcontents).trans hj
        refine ⟨x, ?_, hv⟩
        simp [hmajor, readArgument_of_decArgument hargument hi', hx]

theorem dec_complete (depth : Nat) : Complete data (dec data depth) (Cbor.decodeItem depth) := by
  intro i x rest v hi h hv
  induction depth generalizing i x rest v with
  | zero => cases h
  | succ depth ih =>
      by_cases hlt : i < data.length
      · obtain ⟨b, hb⟩ : ∃ b, byteAt data i = .ok b :=
          ⟨_, byteAt_eq_ok.mpr (List.getElem?_eq_getElem hlt)⟩
        rw [(drop_of_byteAt hb).2, Cbor.decodeItem] at h
        by_cases hmajor : b.toNat / 32 = 7
        · rw [if_pos hmajor] at h
          obtain ⟨_, hsimple, heq⟩ := Option.map_eq_some_iff.mp h
          obtain ⟨rfl, rfl⟩ := Prod.mk.inj heq
          refine ⟨i + 1, hlt, rfl, dec_eq_ok.mpr ⟨b, hb, ?_⟩⟩
          rw [if_pos hmajor, decSimple_eq, hsimple]
          exact ⟨hv, rfl⟩
        · simp only [if_neg hmajor, Option.bind_eq_bind, Option.bind_eq_some_iff, Prod.exists] at h
          obtain ⟨n, _, hargument, hcontents⟩ := h
          obtain ⟨i', hi', rfl, hdec⟩ := decArgument_of_readArgument hlt hargument
          have hread : Complete data (dec data depth) (Cbor.decodeItem depth) := ih
          obtain ⟨j, hj, rfl, hbody⟩ := hread.decContents hi' hcontents hv
          refine ⟨j, hj, rfl, dec_eq_ok.mpr ⟨b, hb, ?_⟩⟩
          rw [if_neg hmajor]
          exact ⟨n, i', hdec, hbody⟩
      · rw [List.drop_eq_nil_of_le (by omega)] at h
        cases h

/-- **What the SDK decodes.** The bytes are one data item, and the value is built of it. -/
theorem decode_eq_ok {v : Value} : decode data = .ok v ↔
    ∃ x, Cbor.decode data = some (x, []) ∧ Value.built x = .ok v := by
  constructor
  · intro h
    simp only [decode, bind_eq_ok, Prod.exists] at h
    obtain ⟨_, j, hdec, h⟩ := h
    split_ifs at h with hend
    cases h
    have hj : j = data.length := not_not.mp hend
    obtain ⟨x, hx, hv⟩ := dec_sound data.length hdec hj.le
    rw [hj, List.drop_length] at hx
    exact ⟨x, hx, hv⟩
  · rintro ⟨x, hx, hv⟩
    obtain ⟨j, hj, hrest, hdec⟩ := dec_complete data.length (Nat.zero_le _) hx hv
    have hend : data.length ≤ j := List.drop_eq_nil_iff.mp hrest.symm
    simp only [decode, hdec, bind, Except.bind]
    exact if_neg (not_not.mpr (le_antisymm hj hend))

end Thicket.Py
