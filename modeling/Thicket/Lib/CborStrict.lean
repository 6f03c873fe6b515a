import Thicket.Lib.CborDecode

/-!
# Insisting on the shortest form

A reader that refuses every head that could have been shorter. What the lenient reader takes is
never shorter than the encoding of what it has read. It is that encoding exactly when the strict
reader takes it as well.
-/

namespace Cbor

/-- No shorter head carries `n`. -/
def IsShortest (info n : Nat) : Prop :=
  (info = 24 → 24 ≤ n) ∧ (info = 25 → 256 ^ 1 ≤ n) ∧ (info = 26 → 256 ^ 2 ≤ n) ∧
    (info = 27 → 256 ^ 4 ≤ n)

instance (info n : Nat) : Decidable (IsShortest info n) :=
  inferInstanceAs (Decidable (_ ∧ _ ∧ _ ∧ _))

def readShortest (info : Nat) (input : Bytes) : Option (Nat × Bytes) := do
  let (n, input) ← readArgument info input
  if IsShortest info n then some (n, input) else none

def strictItem : Nat → Bytes → Option (Value × Bytes)
  | 0, _ => none
  | _ + 1, [] => none
  | depth + 1, initial :: input =>
      let major := initial.toNat / 32
      let info := initial.toNat % 32
      if major = 7 then (simple info).map fun v => (v, input)
      else do
        let (n, input) ← readShortest info input
        readContents (strictItem depth) major n input

def decodeStrict (input : Bytes) : Option (Value × Bytes) := strictItem input.length input

/-! ### Numbers -/

theorem bigEndian_ofBigEndian (bytes : Bytes) :
    bigEndian bytes.length (ofBigEndian bytes) = bytes := by
  induction bytes using List.reverseRecOn with
  | nil => rfl
  | append_singleton bytes byte ih =>
      have hbyte := byte.toNat_lt
      have hhigh : (ofBigEndian bytes * 256 + byte.toNat) / 256 = ofBigEndian bytes := by omega
      have hlow : UInt8.ofNat (ofBigEndian bytes * 256 + byte.toNat) = byte := by
        apply UInt8.toNat_inj.mp
        rw [UInt8.toNat_ofNat']
        omega
      rw [List.length_append, List.length_singleton, bigEndian, ofBigEndian_append, hhigh, hlow, ih]

theorem takeBytes_eq_append {n : Nat} {input bytes rest : Bytes}
    (h : takeBytes n input = some (bytes, rest)) : input = bytes ++ rest := by
  rw [takeBytes] at h
  split_ifs at h
  obtain ⟨rfl, rfl⟩ := Prod.mk.inj (Option.some.inj h)
  exact (List.take_append_drop n input).symm

/-- A number that was read is written in as many bytes as it was read from. -/
theorem readNumber_eq_append {width n : Nat} {input rest : Bytes}
    (h : readNumber width input = some (n, rest)) :
    n < 256 ^ width ∧ input = bigEndian width n ++ rest := by
  rw [readNumber, Option.bind_eq_bind, Option.bind_eq_some_iff] at h
  obtain ⟨⟨bytes, input'⟩, htake, h⟩ := h
  obtain ⟨rfl, rfl⟩ := Prod.mk.inj (Option.some.inj h)
  have hlength := length_of_takeBytes htake
  rw [← hlength, bigEndian_ofBigEndian]
  exact ⟨ofBigEndian_lt bytes, takeBytes_eq_append htake⟩

theorem initialByte_div_mod (byte : UInt8) :
    initialByte (byte.toNat / 32) (byte.toNat % 32) = byte := by
  rw [initialByte, Nat.div_add_mod]
  exact UInt8.ofNat_toNat

/-- What is written of a number that was read. -/
structure Shorter (info n : Nat) (input rest : Bytes) (info' : Nat) (arg : Bytes) : Prop where
  argument : argument n = some (info', arg)
  le : arg.length + rest.length ≤ input.length
  of_isShortest : IsShortest info n → info' = info ∧ input = arg ++ rest
  isShortest : arg.length + rest.length = input.length → IsShortest info n

/-- A number read from `width` bytes, where its encoding has `width'`. -/
theorem Shorter.of_width {info info' n width width' : Nat} {rest : Bytes}
    (harg : Cbor.argument n = some (info', bigEndian width' n)) (hle : width' ≤ width)
    (hinfo : IsShortest info n ↔ width' = width) (hsame : width' = width → info' = info) :
    Shorter info n (bigEndian width n ++ rest) rest info' (bigEndian width' n) where
  argument := harg
  le := by
    rw [List.length_append, bigEndian_length, bigEndian_length]
    omega
  of_isShortest h := by
    obtain rfl := hinfo.mp h
    exact ⟨hsame rfl, rfl⟩
  isShortest h := by
    rw [List.length_append, bigEndian_length, bigEndian_length] at h
    exact hinfo.mpr (by omega)

theorem argument_cases {n : Nat} (h : n < 256 ^ 8) :
    (n < 24 ∧ argument n = some (n, bigEndian 0 n)) ∨
      (24 ≤ n ∧ n < 256 ^ 1 ∧ argument n = some (24, bigEndian 1 n)) ∨
      (256 ^ 1 ≤ n ∧ n < 256 ^ 2 ∧ argument n = some (25, bigEndian 2 n)) ∨
      (256 ^ 2 ≤ n ∧ n < 256 ^ 4 ∧ argument n = some (26, bigEndian 4 n)) ∨
      (256 ^ 4 ≤ n ∧ argument n = some (27, bigEndian 8 n)) := by
  unfold argument
  split_ifs with h0 h1 h2 h4
  · exact .inl ⟨h0, rfl⟩
  · exact .inr (.inl ⟨by omega, h1, rfl⟩)
  · exact .inr (.inr (.inl ⟨by omega, h2, rfl⟩))
  · exact .inr (.inr (.inr (.inl ⟨by omega, h4, rfl⟩)))
  · exact .inr (.inr (.inr (.inr ⟨by omega, rfl⟩)))

theorem exists_shorter {info n : Nat} {input rest : Bytes}
    (h : readArgument info input = some (n, rest)) :
    ∃ info' arg, Shorter info n input rest info' arg := by
  have hn : n < 256 ^ 8 := readArgument_lt h
  unfold readArgument at h
  split_ifs at h with h0 h1 h2 h4 h8
  · obtain ⟨rfl, rfl⟩ := Prod.mk.inj (Option.some.inj h)
    refine ⟨info, [], by rw [argument, if_pos h0], ?_, fun _ => ⟨rfl, rfl⟩, fun _ => ?_⟩
    · exact Nat.le_of_eq (Nat.zero_add _)
    · unfold IsShortest
      omega
  all_goals
    obtain ⟨hwidth, rfl⟩ := readNumber_eq_append h
    rcases argument_cases hn with ⟨hc, harg⟩ | ⟨hc, hc', harg⟩ | ⟨hc, hc', harg⟩ |
      ⟨hc, hc', harg⟩ | ⟨hc, harg⟩
    all_goals
      refine ⟨_, _, Shorter.of_width harg (by omega) ?_ (by omega)⟩
      unfold IsShortest
      omega

/-! ### The two readers -/

section Readers

variable {α β : Type} {x : Option (α × Bytes)} {f : α × Bytes → Option (β × Bytes)}
  {input mid rest bytes more : Bytes} {a : α} {b : β}

/-- Of the input, `a` was read and `rest` was left. `bytes`, the encoding of `a`, is no longer than
what was read, and is the same exactly if the strict reading `x` takes the input too. -/
structure Reads (x : Option (α × Bytes)) (input : Bytes) (a : α) (rest bytes : Bytes) : Prop where
  le : bytes.length + rest.length ≤ input.length
  of_strict : ∀ y, x = some y → y = (a, rest) ∧ input = bytes ++ rest
  strict : bytes.length + rest.length = input.length → x = some (a, rest)

theorem Reads.pure : Reads (some (a, input)) input a input [] where
  le := Nat.le_of_eq (Nat.zero_add _)
  of_strict _ h := ⟨(Option.some.inj h).symm, rfl⟩
  strict _ := rfl

theorem Reads.bind (h : Reads x input a mid bytes) (hf : Reads (f (a, mid)) mid b rest more) :
    Reads (x.bind f) input b rest (bytes ++ more) where
  le := by
    have hfirst := h.le
    have hsecond := hf.le
    rw [List.length_append]
    omega
  of_strict y hy := by
    obtain ⟨z, hz, hy⟩ := Option.bind_eq_some_iff.mp hy
    obtain ⟨rfl, hinput⟩ := h.of_strict z hz
    obtain ⟨rfl, hmid⟩ := hf.of_strict y hy
    rw [hinput, hmid, List.append_assoc]
    exact ⟨rfl, rfl⟩
  strict hsame := by
    have hfirst := h.le
    have hsecond := hf.le
    rw [List.length_append] at hsame
    rw [h.strict (by omega)]
    exact hf.strict (by omega)

theorem Reads.map (h : Reads x input a rest bytes) (g : α → β) :
    Reads (x.bind fun y => some (g y.1, y.2)) input (g a) rest bytes := by
  have hbind := h.bind (f := fun y => some (g y.1, y.2)) Reads.pure
  rw [List.append_nil] at hbind
  exact hbind

theorem reads_takeBytes {n : Nat} (h : takeBytes n input = some (bytes, rest)) :
    Reads (takeBytes n input) input bytes rest bytes := by
  have hinput := takeBytes_eq_append h
  refine ⟨?_, fun y hy => ?_, fun _ => h⟩
  · rw [hinput, List.length_append]
  · exact ⟨Option.some.inj (hy.symm.trans h), hinput⟩

/-- What `loose` reads is what `strict` reads, or is longer than the encoding. -/
def Tightens (strict loose : Bytes → Option (α × Bytes)) (enc : α → Option Bytes) : Prop :=
  ∀ {input a rest}, loose input = some (a, rest) →
    ∃ bytes, enc a = some bytes ∧ Reads (strict input) input a rest bytes

variable {strict loose : Bytes → Option (α × Bytes)} {enc : α → Option Bytes}

theorem Tightens.readItems (h : Tightens strict loose enc) {encAll : List α → Option Bytes}
    (hnil : encAll [] = some [])
    (hcons : ∀ a as, encAll (a :: as) = do return (← enc a) ++ (← encAll as)) (n : Nat) :
    Tightens (readItems strict n) (readItems loose n) encAll := by
  induction n with
  | zero =>
      intro input as rest hread
      obtain ⟨rfl, rfl⟩ := Prod.mk.inj (Option.some.inj hread)
      exact ⟨[], hnil, .pure⟩
  | succ n ih =>
      intro input as rest hread
      obtain ⟨⟨a, mid⟩, hfirst, hread⟩ := Option.bind_eq_some_iff.mp hread
      obtain ⟨⟨as', rest'⟩, hrest, hread⟩ := Option.bind_eq_some_iff.mp hread
      obtain ⟨rfl, rfl⟩ := Prod.mk.inj (Option.some.inj hread)
      obtain ⟨bytes, henc, hreads⟩ := h hfirst
      obtain ⟨more, hmore, hreadsMore⟩ := ih hrest
      refine ⟨bytes ++ more, ?_, hreads.bind (hreadsMore.map fun as => a :: as)⟩
      rw [hcons, henc, hmore]
      rfl

theorem Tightens.readEntry (h : Tightens strict loose enc) :
    Tightens (readEntry strict) (readEntry loose)
      fun e => do return (← enc e.1) ++ (← enc e.2) := by
  intro input e rest hread
  obtain ⟨⟨key, mid⟩, hkey, hread⟩ := Option.bind_eq_some_iff.mp hread
  obtain ⟨⟨value, rest'⟩, hvalue, hread⟩ := Option.bind_eq_some_iff.mp hread
  obtain ⟨rfl, rfl⟩ := Prod.mk.inj (Option.some.inj hread)
  obtain ⟨bytes, henc, hreads⟩ := h hkey
  obtain ⟨more, hmore, hreadsMore⟩ := h hvalue
  refine ⟨bytes ++ more, ?_, hreads.bind (hreadsMore.map fun value => (key, value))⟩
  simp only [henc, hmore]
  rfl

theorem length_of_readItems {n : Nat} {as : List α}
    (h : readItems loose n input = some (as, rest)) : as.length = n :=
  (forall_of_readItems (p := fun _ => True) (fun _ _ _ _ => trivial) h).1

section Contents

variable {strictly loosely : Bytes → Option (Value × Bytes)}

theorem encodeEntries_cons (e : Value × Value) (entries : List (Value × Value)) :
    encodeEntries (e :: entries) = do
      return (← (do return (← encode e.1) ++ (← encode e.2))) ++ (← encodeEntries entries) := by
  obtain ⟨key, value⟩ := e
  rw [encodeEntries]
  cases encode key <;> cases encode value <;> cases encodeEntries entries <;> simp

theorem reads_text (strictly : Bytes → Option (Value × Bytes)) {n : Nat} {content : Bytes}
    {s : String} (htake : takeBytes n input = some (content, rest))
    (hs : Utf8.decode content = some s) :
    Reads (Cbor.readContents strictly 3 n input) input (.text s) rest content := by
  have htext : Reads ((Utf8.decode content).bind fun s => some (Value.text s, rest)) rest
      (.text s) rest [] := by
    rw [hs]
    exact .pure
  have hreads := (reads_takeBytes htake).bind
    (f := fun y => (Utf8.decode y.1).bind fun s => some (Value.text s, y.2)) htext
  rw [List.append_nil] at hreads
  exact hreads

/-- With the head before it, what is read after a head is no shorter than the encoding. -/
theorem Tightens.readContents (h : Tightens strictly loosely encode) {major n : Nat} {v : Value}
    (hread : readContents loosely major n input = some (v, rest)) {bytes : Bytes}
    (hhead : head major n = some bytes) :
    ∃ more, encode v = some (bytes ++ more) ∧
      Reads (Cbor.readContents strictly major n input) input v rest more := by
  unfold Cbor.readContents at hread
  split at hread
  · obtain ⟨rfl, rfl⟩ := Prod.mk.inj (Option.some.inj hread)
    refine ⟨[], ?_, .pure⟩
    rw [encode, hhead, List.append_nil]
  · obtain ⟨⟨content, rest'⟩, htake, hread⟩ := Option.bind_eq_some_iff.mp hread
    obtain ⟨rfl, rfl⟩ := Prod.mk.inj (Option.some.inj hread)
    refine ⟨content, ?_, (reads_takeBytes htake).map Value.bytes⟩
    rw [encode, length_of_takeBytes htake, hhead]
    rfl
  · obtain ⟨⟨content, rest'⟩, htake, hread⟩ := Option.bind_eq_some_iff.mp hread
    obtain ⟨s, hs, hread⟩ := Option.bind_eq_some_iff.mp hread
    obtain ⟨rfl, rfl⟩ := Prod.mk.inj (Option.some.inj hread)
    have hutf8 : utf8 s = content := Utf8.decode_eq_some.mp hs
    refine ⟨content, ?_, ?_⟩
    · rw [encode, hutf8, length_of_takeBytes htake, hhead]
      rfl
    · exact reads_text strictly htake hs
  · obtain ⟨⟨items, rest'⟩, hitems, hread⟩ := Option.bind_eq_some_iff.mp hread
    obtain ⟨rfl, rfl⟩ := Prod.mk.inj (Option.some.inj hread)
    have hall : Tightens (Cbor.readItems strictly n) (Cbor.readItems loosely n) encodeItems :=
      h.readItems rfl (fun _ _ => rfl) n
    obtain ⟨more, hmore, hreads⟩ := hall hitems
    have hlength : items.length = n := length_of_readItems hitems
    refine ⟨more, ?_, hreads.map Value.array⟩
    rw [encode, hlength, hhead, hmore]
    rfl
  · obtain ⟨⟨entries, rest'⟩, hentries, hread⟩ := Option.bind_eq_some_iff.mp hread
    obtain ⟨rfl, rfl⟩ := Prod.mk.inj (Option.some.inj hread)
    have hentry : Tightens (Cbor.readEntry strictly) (Cbor.readEntry loosely) _ := h.readEntry
    have hall : Tightens (Cbor.readItems (Cbor.readEntry strictly) n)
        (Cbor.readItems (Cbor.readEntry loosely) n) encodeEntries :=
      hentry.readItems rfl encodeEntries_cons n
    obtain ⟨more, hmore, hreads⟩ := hall hentries
    have hlength : entries.length = n := length_of_readItems hentries
    refine ⟨more, ?_, hreads.map Value.map⟩
    rw [encode, hlength, hhead, hmore]
    rfl
  · cases hread

end Contents

end Readers

/-- The first byte of an item, and the number that it announces. -/
theorem reads_head {initial : UInt8} {n : Nat} {input rest : Bytes}
    (h : readArgument (initial.toNat % 32) input = some (n, rest)) :
    ∃ bytes, head (initial.toNat / 32) n = some bytes ∧
      Reads (readShortest (initial.toNat % 32) input) (initial :: input) n rest bytes := by
  obtain ⟨info', arg, hshorter⟩ := exists_shorter h
  have hread : readShortest (initial.toNat % 32) input =
      if IsShortest (initial.toNat % 32) n then some (n, rest) else none := by
    rw [readShortest, h]
    rfl
  refine ⟨initialByte (initial.toNat / 32) info' :: arg, ?_, ?_, ?_, ?_⟩
  · rw [head, hshorter.argument]
    rfl
  · have hle := hshorter.le
    rw [List.length_cons, List.length_cons]
    omega
  · intro y hy
    rw [hread] at hy
    split_ifs at hy with hshortest
    obtain ⟨rfl, rfl⟩ := hshorter.of_isShortest hshortest
    rw [initialByte_div_mod]
    exact ⟨(Option.some.inj hy).symm, rfl⟩
  · intro hsame
    rw [List.length_cons, List.length_cons] at hsame
    rw [hread, if_pos (hshorter.isShortest (by omega))]

theorem encode_of_simple {info : Nat} {v : Value} (h : simple info = some v) :
    encode v = some [initialByte 7 info] := by
  unfold simple at h
  split_ifs at h with h20 h21 h22
  · rw [← Option.some.inj h, h20]
    rfl
  · rw [← Option.some.inj h, h21]
    rfl
  · rw [← Option.some.inj h, h22]
    rfl

theorem strictItem_tightens (depth : Nat) :
    Tightens (strictItem depth) (decodeItem depth) encode := by
  induction depth with
  | zero =>
      intro input v rest h
      cases h
  | succ depth ih =>
      intro input v rest h
      cases input with
      | nil => cases h
      | cons initial input =>
          rw [decodeItem] at h
          rw [strictItem]
          dsimp only at h ⊢
          by_cases hmajor : initial.toNat / 32 = 7
          · rw [if_pos hmajor] at h ⊢
            obtain ⟨v, hsimple, hv⟩ := Option.map_eq_some_iff.mp h
            obtain ⟨rfl, rfl⟩ := Prod.mk.inj hv
            have hbyte := initialByte_div_mod initial
            rw [hmajor] at hbyte
            refine ⟨[initial], ?_, ?_, fun y hy => ?_, fun _ => h⟩
            · rw [encode_of_simple hsimple, hbyte]
            · rw [List.length_singleton, List.length_cons, Nat.add_comm]
            · exact ⟨Option.some.inj (hy.symm.trans h), rfl⟩
          · rw [if_neg hmajor] at h ⊢
            obtain ⟨⟨n, mid⟩, hargument, hcontents⟩ := Option.bind_eq_some_iff.mp h
            obtain ⟨bytes, hhead, hreads⟩ := reads_head hargument
            have hinner : Tightens (strictItem depth) (decodeItem depth) encode := ih
            obtain ⟨more, hencode, hreadsMore⟩ := hinner.readContents hcontents hhead
            exact ⟨bytes ++ more, hencode, hreads.bind hreadsMore⟩

section Whole

variable {input : Bytes} {v : Value}

/-- **One encoding.** What was read is in its encoded form exactly if no head could have been
shorter. -/
theorem decodeStrict_iff (h : decode input = some (v, [])) :
    decodeStrict input = some (v, []) ↔ encode v = some input := by
  obtain ⟨bytes, hbytes, hreads⟩ := strictItem_tightens input.length h
  constructor
  · intro hstrict
    obtain ⟨-, hinput⟩ := hreads.of_strict _ hstrict
    rw [hbytes, hinput, List.append_nil]
  · intro hencode
    obtain rfl := Option.some.inj (hbytes.symm.trans hencode)
    exact hreads.strict rfl

/-- The strict reader reads what the lenient one does. -/
theorem eq_of_decodeStrict {w : Value} (h : decode input = some (v, []))
    (hstrict : decodeStrict input = some (w, [])) : w = v := by
  obtain ⟨bytes, -, hreads⟩ := strictItem_tightens input.length h
  exact (Prod.mk.inj (hreads.of_strict _ hstrict).1).1

end Whole

-- A number in two bytes where one would do.
example : decodeStrict [0x18, 0x05] = none ∧ decode [0x18, 0x05] = some (.uint 5, []) :=
  ⟨rfl, rfl⟩

end Cbor
