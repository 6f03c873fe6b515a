import Thicket.Lib.Cbor

/-!
# Reading UTF-8

A strict decoder: it accepts exactly the encodings of strings, so neither overlong forms nor
surrogates nor stray continuation bytes. The lead byte tells how many bytes spell a character, and
the character they spell has to encode to these bytes again.

Strings compare by their characters exactly as their encodings compare by bytes.
-/

namespace Utf8

open Cbor (Bytes utf8)

/-- The character of scalar value `n`, if its encoding is `bytes`. -/
def charOf (bytes : Bytes) (n : Nat) : Option Char :=
  if String.utf8EncodeChar (Char.ofNat n) = bytes then some (Char.ofNat n) else none

def decodeChars : Bytes → Option (List Char)
  | [] => some []
  | a :: rest =>
      if a.toNat < 0x80 then do return (← charOf [a] a.toNat) :: (← decodeChars rest)
      else if a.toNat < 0xe0 then
        match rest with
        | b :: rest => do
            let n := a.toNat % 32 * 64 + b.toNat % 64
            return (← charOf [a, b] n) :: (← decodeChars rest)
        | _ => none
      else if a.toNat < 0xf0 then
        match rest with
        | b :: c :: rest => do
            let n := a.toNat % 16 * 4096 + b.toNat % 64 * 64 + c.toNat % 64
            return (← charOf [a, b, c] n) :: (← decodeChars rest)
        | _ => none
      else
        match rest with
        | b :: c :: d :: rest => do
            let n := a.toNat % 8 * 262144 + b.toNat % 64 * 4096 + c.toNat % 64 * 64 + d.toNat % 64
            return (← charOf [a, b, c, d] n) :: (← decodeChars rest)
        | _ => none

def decode (bytes : Bytes) : Option String := (decodeChars bytes).map String.ofList

/-! ### The encoding of a character -/

private theorem toNat_le (c : Char) : c.toNat ≤ 0x10ffff := by
  have h := c.valid
  simp only [UInt32.isValidChar, Nat.isValidChar] at h
  change c.val.toNat ≤ _
  omega

/-- The four lengths of an encoding, with the bytes as numbers. -/
theorem encodeChar_cases (c : Char) :
    (c.toNat ≤ 0x7f ∧ String.utf8EncodeChar c = [UInt8.ofNat c.toNat]) ∨
    (0x7f < c.toNat ∧ c.toNat ≤ 0x7ff ∧ String.utf8EncodeChar c =
      [UInt8.ofNat (c.toNat / 64 + 0xc0), UInt8.ofNat (c.toNat % 64 + 0x80)]) ∨
    (0x7ff < c.toNat ∧ c.toNat ≤ 0xffff ∧ String.utf8EncodeChar c =
      [UInt8.ofNat (c.toNat / 4096 + 0xe0), UInt8.ofNat (c.toNat / 64 % 64 + 0x80),
        UInt8.ofNat (c.toNat % 64 + 0x80)]) ∨
    (0xffff < c.toNat ∧ c.toNat ≤ 0x10ffff ∧ String.utf8EncodeChar c =
      [UInt8.ofNat (c.toNat / 262144 + 0xf0), UInt8.ofNat (c.toNat / 4096 % 64 + 0x80),
        UInt8.ofNat (c.toNat / 64 % 64 + 0x80), UInt8.ofNat (c.toNat % 64 + 0x80)]) := by
  have hle := toNat_le c
  have hval : c.val.toNat = c.toNat := rfl
  simp only [String.utf8EncodeChar, hval]
  split_ifs with h1 h2 h3
  · left
    exact ⟨h1, rfl⟩
  · right; left
    rw [Nat.mod_eq_of_lt (by omega : c.toNat / 64 < 32)]
    exact ⟨by omega, h2, rfl⟩
  · right; right; left
    rw [Nat.mod_eq_of_lt (by omega : c.toNat / 4096 < 16)]
    exact ⟨by omega, h3, rfl⟩
  · right; right; right
    rw [Nat.mod_eq_of_lt (by omega : c.toNat / 262144 < 8)]
    exact ⟨by omega, hle, rfl⟩

private theorem charOf_encodeChar {c : Char} {bytes : Bytes} {n : Nat}
    (hbytes : String.utf8EncodeChar c = bytes) (hn : n = c.toNat) : charOf bytes n = some c := by
  subst hn
  rw [charOf, Char.ofNat_toNat, if_pos hbytes]

private theorem encodeChar_of_charOf {bytes : Bytes} {n : Nat} {c : Char}
    (h : charOf bytes n = some c) : String.utf8EncodeChar c = bytes := by
  simp only [charOf, Option.ite_none_right_eq_some, Option.some.injEq] at h
  rw [← h.2]
  exact h.1

/-! ### The decoder inverts the encoder -/

section Steps

variable {a b c d : UInt8} {rest : Bytes}

theorem decodeChars_one (ha : a.toNat < 0x80) : decodeChars (a :: rest) =
    (do return (← charOf [a] a.toNat) :: (← decodeChars rest)) := by
  rw [decodeChars.eq_def]
  simp only [if_pos ha]

theorem decodeChars_two (ha : ¬a.toNat < 0x80) (ha' : a.toNat < 0xe0) :
    decodeChars (a :: b :: rest) =
      (do return (← charOf [a, b] (a.toNat % 32 * 64 + b.toNat % 64)) :: (← decodeChars rest)) := by
  rw [decodeChars.eq_def]
  simp only [if_neg ha, if_pos ha']

theorem decodeChars_three (ha : ¬a.toNat < 0xe0) (ha' : a.toNat < 0xf0) :
    decodeChars (a :: b :: c :: rest) =
      (do return (← charOf [a, b, c] (a.toNat % 16 * 4096 + b.toNat % 64 * 64 + c.toNat % 64)) ::
            (← decodeChars rest)) := by
  have hnot : ¬a.toNat < 0x80 := by omega
  rw [decodeChars.eq_def]
  simp only [if_neg hnot, if_neg ha, if_pos ha']

theorem decodeChars_four (ha : ¬a.toNat < 0xf0) :
    decodeChars (a :: b :: c :: d :: rest) =
      (do return (← charOf [a, b, c, d] (a.toNat % 8 * 262144 + b.toNat % 64 * 4096 +
            c.toNat % 64 * 64 + d.toNat % 64)) :: (← decodeChars rest)) := by
  have hnot : ¬a.toNat < 0x80 := by omega
  have hnot' : ¬a.toNat < 0xe0 := by omega
  rw [decodeChars.eq_def]
  simp only [if_neg hnot, if_neg hnot', if_neg ha]

end Steps

private theorem some_cons (c : Char) (tail : Option (List Char)) :
    (do return (← some c) :: (← tail)) = tail.map (c :: ·) := by
  cases tail <;> rfl

theorem decodeChars_encodeChar (c : Char) (rest : Bytes) :
    decodeChars (String.utf8EncodeChar c ++ rest) = (decodeChars rest).map (c :: ·) := by
  have hbyte : ∀ n < 256, (UInt8.ofNat n).toNat = n := fun n hn => by
    rw [UInt8.toNat_ofNat', Nat.mod_eq_of_lt hn]
  rw [← some_cons]
  obtain ⟨h, henc⟩ | ⟨h, h', henc⟩ | ⟨h, h', henc⟩ | ⟨h, h', henc⟩ := encodeChar_cases c
  · have hlead := hbyte c.toNat (by omega)
    rw [henc, List.cons_append, List.nil_append, decodeChars_one (by omega),
      charOf_encodeChar henc hlead]
  · have hlead := hbyte (c.toNat / 64 + 0xc0) (by omega)
    have hlast := hbyte (c.toNat % 64 + 0x80) (by omega)
    simp only [henc, List.cons_append, List.nil_append]
    rw [decodeChars_two (by omega) (by omega), charOf_encodeChar henc (by omega)]
  · have hlead := hbyte (c.toNat / 4096 + 0xe0) (by omega)
    have hmid := hbyte (c.toNat / 64 % 64 + 0x80) (by omega)
    have hlast := hbyte (c.toNat % 64 + 0x80) (by omega)
    simp only [henc, List.cons_append, List.nil_append]
    rw [decodeChars_three (by omega) (by omega), charOf_encodeChar henc (by omega)]
  · have hlead := hbyte (c.toNat / 262144 + 0xf0) (by omega)
    have hhigh := hbyte (c.toNat / 4096 % 64 + 0x80) (by omega)
    have hmid := hbyte (c.toNat / 64 % 64 + 0x80) (by omega)
    have hlast := hbyte (c.toNat % 64 + 0x80) (by omega)
    simp only [henc, List.cons_append, List.nil_append]
    rw [decodeChars_four (by omega), charOf_encodeChar henc (by omega)]

theorem decodeChars_flatMap (cs : List Char) :
    decodeChars (cs.flatMap String.utf8EncodeChar) = some cs := by
  induction cs with
  | nil => rfl
  | cons c cs ih => rw [List.flatMap_cons, decodeChars_encodeChar, ih, Option.map_some]

private theorem cons_eq_some {bytes : Bytes} {n : Nat} {tail : Option (List Char)} {cs : List Char}
    (h : (do return (← charOf bytes n) :: (← tail)) = some cs) :
    ∃ c cs', String.utf8EncodeChar c = bytes ∧ tail = some cs' ∧ cs = c :: cs' := by
  simp only [Option.pure_def, Option.bind_eq_bind, Option.bind_eq_some_iff, Option.some.injEq] at h
  obtain ⟨c, hc, cs', htail, rfl⟩ := h
  exact ⟨c, cs', encodeChar_of_charOf hc, htail, rfl⟩

theorem flatMap_of_decodeChars {bytes : Bytes} {cs : List Char} (h : decodeChars bytes = some cs) :
    cs.flatMap String.utf8EncodeChar = bytes := by
  induction bytes using decodeChars.induct generalizing cs with
  | case1 =>
      cases h
      rfl
  | case2 a rest ha ih =>
      rw [decodeChars_one ha] at h
      obtain ⟨c, cs', hc, htail, rfl⟩ := cons_eq_some h
      rw [List.flatMap_cons, hc, ih htail]
      rfl
  | case3 a ha ha' b rest ih =>
      rw [decodeChars_two ha ha'] at h
      obtain ⟨c, cs', hc, htail, rfl⟩ := cons_eq_some h
      rw [List.flatMap_cons, hc, ih htail]
      rfl
  | case5 a _ ha ha' b c rest ih =>
      rw [decodeChars_three ha ha'] at h
      obtain ⟨c, cs', hc, htail, rfl⟩ := cons_eq_some h
      rw [List.flatMap_cons, hc, ih htail]
      rfl
  | case7 a _ _ ha b c d rest ih =>
      rw [decodeChars_four ha] at h
      obtain ⟨c, cs', hc, htail, rfl⟩ := cons_eq_some h
      rw [List.flatMap_cons, hc, ih htail]
      rfl
  -- too few continuation bytes
  | case4 a rest ha ha' hshort =>
      rw [decodeChars.eq_def] at h
      simp [ha, ha'] at h
  | case6 a rest ha ha' ha'' hshort =>
      rw [decodeChars.eq_def] at h
      simp [ha, ha', ha''] at h
  | case8 a rest ha ha' ha'' hshort =>
      rw [decodeChars.eq_def] at h
      simp [ha, ha', ha''] at h

theorem utf8_eq_flatMap (s : String) : utf8 s = s.toList.flatMap String.utf8EncodeChar := by
  have h : s.toUTF8 = s.toList.utf8Encode := String.utf8Encode_toList.symm
  rw [utf8, h, List.utf8Encode]
  simp

/-- **Strictness.** What decodes to `s` is the encoding of `s` and nothing else. -/
theorem decode_eq_some {bytes : Bytes} {s : String} : decode bytes = some s ↔ utf8 s = bytes := by
  rw [utf8_eq_flatMap]
  constructor
  · intro h
    obtain ⟨cs, hcs, rfl⟩ := Option.map_eq_some_iff.mp h
    rw [String.toList_ofList]
    exact flatMap_of_decodeChars hcs
  · rintro rfl
    rw [decode, decodeChars_flatMap, Option.map_some, String.ofList_toList]

@[simp] theorem decode_utf8 (s : String) : decode (utf8 s) = some s := decode_eq_some.mpr rfl

/-! ### Order -/

/-- The first byte that differs decides. -/
private theorem cons_lt_cons {m n : Nat} (hm : m < 256) (hn : n < 256) {v w : Bytes}
    (h : m < n ∨ m = n ∧ v < w) : UInt8.ofNat m :: v < UInt8.ofNat n :: w := by
  apply List.cons_lt_cons_iff.mpr
  rcases h with hlt | ⟨rfl, hlt⟩
  · left
    rw [UInt8.lt_iff_toNat_lt, UInt8.toNat_ofNat', UInt8.toNat_ofNat', Nat.mod_eq_of_lt hm,
      Nat.mod_eq_of_lt hn]
    exact hlt
  · right
    exact ⟨rfl, hlt⟩

/-- A smaller character has a smaller encoding, and neither encoding is a prefix of the other. -/
theorem encodeChar_lt {c d : Char} (h : c < d) (v w : Bytes) :
    String.utf8EncodeChar c ++ v < String.utf8EncodeChar d ++ w := by
  have hlt : c.toNat < d.toNat := h
  obtain ⟨hc, henc⟩ | ⟨hc, hc', henc⟩ | ⟨hc, hc', henc⟩ | ⟨hc, hc', henc⟩ := encodeChar_cases c <;>
  obtain ⟨hd, hend⟩ | ⟨hd, hd', hend⟩ | ⟨hd, hd', hend⟩ | ⟨hd, hd', hend⟩ := encodeChar_cases d <;>
  simp only [henc, hend, List.cons_append, List.nil_append] <;>
  first
  | omega
  | exact cons_lt_cons (by omega) (by omega) (.inl (by omega))
  | apply cons_lt_cons (by omega) (by omega)
  -- encodings of one length: compare the six-bit digits from the highest on
  · by_cases hhigh : c.toNat / 64 = d.toNat / 64
    · right
      exact ⟨by omega, cons_lt_cons (by omega) (by omega) (.inl (by omega))⟩
    · left
      omega
  · by_cases hhigh : c.toNat / 4096 = d.toNat / 4096
    · right
      refine ⟨by omega, cons_lt_cons (by omega) (by omega) ?_⟩
      by_cases hmid : c.toNat / 64 = d.toNat / 64
      · right
        exact ⟨by omega, cons_lt_cons (by omega) (by omega) (.inl (by omega))⟩
      · left
        omega
    · left
      omega
  · by_cases hhigh : c.toNat / 262144 = d.toNat / 262144
    · right
      refine ⟨by omega, cons_lt_cons (by omega) (by omega) ?_⟩
      by_cases hupper : c.toNat / 4096 = d.toNat / 4096
      · right
        refine ⟨by omega, cons_lt_cons (by omega) (by omega) ?_⟩
        by_cases hmid : c.toNat / 64 = d.toNat / 64
        · right
          exact ⟨by omega, cons_lt_cons (by omega) (by omega) (.inl (by omega))⟩
        · left
          omega
      · left
        omega
    · left
      omega

private theorem encodeChar_pos (c : Char) (v : Bytes) : [] < String.utf8EncodeChar c ++ v := by
  obtain ⟨-, h⟩ | ⟨-, -, h⟩ | ⟨-, -, h⟩ | ⟨-, -, h⟩ := encodeChar_cases c <;>
    rw [h, List.cons_append] <;> exact List.nil_lt_cons _ _

private theorem flatMap_lt {cs ds : List Char} (h : cs < ds) :
    cs.flatMap String.utf8EncodeChar < ds.flatMap String.utf8EncodeChar := by
  induction cs generalizing ds with
  | nil =>
      cases ds with
      | nil => exact absurd h (List.lt_irrefl [])
      | cons d ds => exact encodeChar_pos d _
  | cons c cs ih =>
      cases ds with
      | nil => exact absurd h (List.not_lt_nil _)
      | cons d ds =>
          rw [List.flatMap_cons, List.flatMap_cons]
          rcases List.cons_lt_cons_iff.mp h with hlt | ⟨rfl, htail⟩
          · exact encodeChar_lt hlt _ _
          · exact List.append_left_lt (ih htail)

/-- **Order.** Comparing by bytes and comparing by characters are the same. -/
theorem utf8_lt_utf8 {s t : String} : utf8 s < utf8 t ↔ s < t := by
  have hmono : ∀ {s t : String}, s < t → utf8 s < utf8 t := by
    intro s t h
    rw [utf8_eq_flatMap, utf8_eq_flatMap]
    exact flatMap_lt h
  refine ⟨fun h => ?_, hmono⟩
  by_contra hst
  have hts : t ≤ s := String.not_lt.mp hst
  by_cases heq : t = s
  · rw [heq] at h
    exact List.lt_irrefl _ h
  · have hlt : t < s := String.not_le.mp fun hle => heq (String.le_antisymm hts hle)
    exact List.lt_asymm (hmono hlt) h

example : decode [0x68, 0xc3, 0xa9, 0xe2, 0x82, 0xac] = some "hé€" := by decide

example : decode [0xc0, 0x80] = none := by decide

end Utf8
