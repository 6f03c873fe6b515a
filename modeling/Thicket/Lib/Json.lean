import Mathlib.Data.List.Basic
import Mathlib.Tactic.Common

/-!
# JSON text

The compact writer and a reader of JSON texts whose numbers are naturals. The reader takes any
white space and any escape, refuses signs, fractions and exponents, and has to reach the end of
the text. What the writer writes is read back.
-/

namespace Json

inductive Value where
  | null
  | bool (b : Bool)
  | number (n : Nat)
  | string (s : String)
  | array (items : List Value)
  | object (members : List (String × Value))
  deriving Repr

/-! ### Writing -/

def hexDigit (n : Nat) : Char := n.digitChar

def escape (c : Char) : List Char :=
  if c = '"' then ['\\', '"']
  else if c = '\\' then ['\\', '\\']
  else if c.toNat = 0x08 then ['\\', 'b']
  else if c.toNat = 0x09 then ['\\', 't']
  else if c.toNat = 0x0a then ['\\', 'n']
  else if c.toNat = 0x0c then ['\\', 'f']
  else if c.toNat = 0x0d then ['\\', 'r']
  else if c.toNat < 0x20 then
    ['\\', 'u', '0', '0', hexDigit (c.toNat / 16), hexDigit (c.toNat % 16)]
  else [c]

def printString (s : String) : List Char := '"' :: s.toList.flatMap escape ++ ['"']

mutual

def printChars : Value → List Char
  | .null => ['n', 'u', 'l', 'l']
  | .bool true => ['t', 'r', 'u', 'e']
  | .bool false => ['f', 'a', 'l', 's', 'e']
  | .number n => Nat.toDigits 10 n
  | .string s => printString s
  | .array [] => ['[', ']']
  | .array (item :: items) => '[' :: (printChars item ++ printItems items)
  | .object [] => ['{', '}']
  | .object ((name, value) :: members) =>
      '{' :: (printString name ++ ':' :: (printChars value ++ printMembers members))

def printItems : List Value → List Char
  | [] => [']']
  | item :: items => ',' :: (printChars item ++ printItems items)

def printMembers : List (String × Value) → List Char
  | [] => ['}']
  | (name, value) :: members =>
      ',' :: (printString name ++ ':' :: (printChars value ++ printMembers members))

end

def print (v : Value) : String := String.ofList (printChars v)

/-! ### Reading -/

def isSpace (c : Char) : Bool := c = ' ' || c = '\n' || c = '\t' || c = '\r'

def skipSpace (input : List Char) : List Char := input.dropWhile isSpace

def hexValue (c : Char) : Option Nat :=
  if c.isDigit then some (c.toNat - 48)
  else if 97 ≤ c.toNat ∧ c.toNat ≤ 102 then some (c.toNat - 87)
  else if 65 ≤ c.toNat ∧ c.toNat ≤ 70 then some (c.toNat - 55)
  else none

/-- Four hexadecimal digits. -/
def hex4 (a b c d : Char) : Option Nat := do
  return (((← hexValue a) * 16 + (← hexValue b)) * 16 + (← hexValue c)) * 16 + (← hexValue d)

/-- The escapes of one letter. -/
def unescape (c : Char) : Option Char :=
  if c = '"' then some '"'
  else if c = '\\' then some '\\'
  else if c = '/' then some '/'
  else if c = 'b' then some (Char.ofNat 0x08)
  else if c = 'f' then some (Char.ofNat 0x0c)
  else if c = 'n' then some (Char.ofNat 0x0a)
  else if c = 'r' then some (Char.ofNat 0x0d)
  else if c = 't' then some (Char.ofNat 0x09)
  else none

def isHighSurrogate (n : Nat) : Bool := 0xd800 ≤ n && n ≤ 0xdbff

def isLowSurrogate (n : Nat) : Bool := 0xdc00 ≤ n && n ≤ 0xdfff

/-- The rest of a string after its opening quote, and what follows its closing quote. -/
def parseChars : List Char → Option (List Char × List Char)
  | '"' :: rest => some ([], rest)
  | '\\' :: 'u' :: a :: b :: c :: d :: rest =>
      match hex4 a b c d with
      | none => none
      | some n =>
          if isLowSurrogate n then none
          else if isHighSurrogate n then
            -- a high surrogate stands for a character together with the low one after it
            match rest with
            | '\\' :: 'u' :: a :: b :: c :: d :: rest =>
                match hex4 a b c d with
                | none => none
                | some m =>
                    if isLowSurrogate m then
                      let scalar := 0x10000 + (n - 0xd800) * 0x400 + (m - 0xdc00)
                      (parseChars rest).map fun (cs, rest) => (Char.ofNat scalar :: cs, rest)
                    else none
            | _ => none
          else (parseChars rest).map fun (cs, rest) => (Char.ofNat n :: cs, rest)
  | '\\' :: c :: rest =>
      match unescape c with
      | none => none
      | some c => (parseChars rest).map fun (cs, rest) => (c :: cs, rest)
  | c :: rest =>
      if c.toNat < 0x20 then none
      else (parseChars rest).map fun (cs, rest) => (c :: cs, rest)
  | [] => none

def parseString (input : List Char) : Option (String × List Char) :=
  (parseChars input).map fun (cs, rest) => (String.ofList cs, rest)

/-- A natural number: no leading zero, and neither a fraction nor an exponent behind it. -/
def parseNumber (input : List Char) : Option (Nat × List Char) :=
  let digits := input.takeWhile Char.isDigit
  let rest := input.dropWhile Char.isDigit
  if digits = [] ∨ (digits.head? = some '0' ∧ digits ≠ ['0']) then none
  else if rest.head? = some '.' ∨ rest.head? = some 'e' ∨ rest.head? = some 'E' then none
  else some (Nat.ofDigitChars 10 digits 0, rest)

section Sequences

variable {α : Type} (close : Char) (item : List Char → Option (α × List Char))

/-- The elements of a sequence that has one, up to its closing bracket. -/
def parseElements : Nat → List Char → Option (List α × List Char)
  | 0, _ => none
  | bound + 1, input => do
      let (first, input) ← item input
      match skipSpace input with
      | [] => none
      | c :: input =>
          if c = ',' then do
            let (rest, input) ← parseElements bound input
            return (first :: rest, input)
          else if c = close then some ([first], input)
          else none

def parseSequence (input : List Char) : Option (List α × List Char) :=
  match skipSpace input with
  | [] => none
  | c :: rest =>
      if c = close then some ([], rest) else parseElements close item input.length input

/-- `"name": value`. -/
def parseMember (input : List Char) : Option ((String × α) × List Char) :=
  match skipSpace input with
  | '"' :: input => do
      let (name, input) ← parseString input
      match skipSpace input with
      | ':' :: input => do
          let (value, input) ← item input
          return ((name, value), input)
      | _ => none
  | _ => none

end Sequences

def parseValue : Nat → List Char → Option (Value × List Char)
  | 0, _ => none
  | depth + 1, input =>
      match skipSpace input with
      | 'n' :: 'u' :: 'l' :: 'l' :: rest => some (.null, rest)
      | 't' :: 'r' :: 'u' :: 'e' :: rest => some (.bool true, rest)
      | 'f' :: 'a' :: 'l' :: 's' :: 'e' :: rest => some (.bool false, rest)
      | '"' :: rest => (parseString rest).map fun (s, rest) => (.string s, rest)
      | '[' :: rest =>
          (parseSequence ']' (parseValue depth) rest).map fun (items, rest) => (.array items, rest)
      | '{' :: rest =>
          (parseSequence '}' (parseMember (parseValue depth)) rest).map fun (members, rest) =>
            (.object members, rest)
      | input => (parseNumber input).map fun (n, rest) => (.number n, rest)

/-- The value a text holds, and nothing but white space after it. -/
def parse (text : String) : Option Value :=
  match parseValue (text.toList.length + 1) text.toList with
  | some (v, rest) => if skipSpace rest = [] then some v else none
  | none => none

/-! ### Strings -/

theorem hexValue_hexDigit {n : Nat} (h : n < 16) : hexValue (hexDigit n) = some n := by
  revert n
  decide

theorem parseChars_plain {c : Char} {input : List Char} (hquote : c ≠ '"') (hslash : c ≠ '\\')
    (hcontrol : ¬c.toNat < 0x20) : parseChars (c :: input) =
      (parseChars input).map fun (cs, rest) => (c :: cs, rest) := by
  rw [parseChars.eq_def]
  split
  next h => exact absurd (List.cons.inj h).1 hquote
  next h => exact absurd (List.cons.inj h).1 hslash
  next h => exact absurd (List.cons.inj h).1 hslash
  next h =>
    obtain ⟨rfl, rfl⟩ := List.cons.inj h
    rw [if_neg hcontrol]
  next h => exact absurd h (List.cons_ne_nil _ _)

/-- Every character is read back from its escape. -/
theorem parseChars_escape (c : Char) (input : List Char) : parseChars (escape c ++ input) =
    (parseChars input).map fun (cs, rest) => (c :: cs, rest) := by
  have hnat : ∀ n, c.toNat = n → Char.ofNat n = c := by
    intro n h
    rw [← h, Char.ofNat_toNat]
  unfold escape
  split_ifs with h1 h2 h3 h4 h5 h6 h7 h8
  · rw [h1]
    rfl
  · rw [h2]
    rfl
  · rw [← hnat _ h3]
    rfl
  · rw [← hnat _ h4]
    rfl
  · rw [← hnat _ h5]
    rfl
  · rw [← hnat _ h6]
    rfl
  · rw [← hnat _ h7]
    rfl
  · have hhex : hex4 '0' '0' (hexDigit (c.toNat / 16)) (hexDigit (c.toNat % 16)) = some c.toNat := by
      have hzero : hexValue '0' = some 0 := by decide
      rw [hex4, hzero, hexValue_hexDigit (by omega), hexValue_hexDigit (by omega)]
      simp only [Option.bind_eq_bind, Option.bind_some, Option.pure_def, Option.some.injEq]
      omega
    have hlow : isLowSurrogate c.toNat = false := by
      simp only [isLowSurrogate, Bool.and_eq_false_iff, decide_eq_false_iff_not]
      omega
    have hhigh : isHighSurrogate c.toNat = false := by
      simp only [isHighSurrogate, Bool.and_eq_false_iff, decide_eq_false_iff_not]
      omega
    simp only [List.cons_append, List.nil_append]
    rw [parseChars]
    simp only [hhex, hlow, hhigh, Bool.false_eq_true, if_false, hnat _ rfl]
  · exact parseChars_plain h1 h2 h8

theorem parseString_printString (s : String) (rest : List Char) :
    ∃ input, printString s ++ rest = '"' :: input ∧ parseString input = some (s, rest) := by
  have hchars : ∀ cs : List Char,
      parseChars (cs.flatMap escape ++ '"' :: rest) = some (cs, rest) := by
    intro cs
    induction cs with
    | nil => simp [parseChars]
    | cons c cs ih =>
        rw [List.flatMap_cons, List.append_assoc, parseChars_escape, ih]
        rfl
  refine ⟨s.toList.flatMap escape ++ '"' :: rest, by simp [printString], ?_⟩
  simp [parseString, hchars]

/-! ### Numbers -/

theorem head_toDigits {n : Nat} (h : (Nat.toDigits 10 n).head? = some '0') : n = 0 := by
  induction n using Nat.strongRecOn with
  | ind n ih =>
      by_cases hlt : n < 10
      · rw [Nat.toDigits_of_lt_base hlt] at h
        simpa using h
      · rw [Nat.toDigits_of_base_le (by decide) (by omega)] at h
        rw [List.head?_append_of_ne_nil _ Nat.toDigits_ne_nil] at h
        have hzero := ih (n / 10) (by omega) h
        omega

/-- What may follow a value inside a text. -/
def Ends (rest : List Char) : Prop := ∀ c, rest.head? = some c → c = ',' ∨ c = ']' ∨ c = '}'

theorem parseNumber_toDigits (n : Nat) {rest : List Char} (hrest : Ends rest) :
    parseNumber (Nat.toDigits 10 n ++ rest) = some (n, rest) := by
  have hdigits : ∀ c ∈ Nat.toDigits 10 n, c.isDigit = true := fun c hc =>
    Nat.isDigit_of_mem_toDigits (by decide) (by decide) hc
  have hstop : ∀ c, rest.head? = some c → c.isDigit = false := by
    intro c hc
    obtain rfl | rfl | rfl := hrest c hc <;> decide
  have htake : rest.takeWhile Char.isDigit = [] := by
    cases rest with
    | nil => rfl
    | cons c rest => rw [List.takeWhile_cons, hstop c rfl]; rfl
  have hdrop : rest.dropWhile Char.isDigit = rest := by
    cases rest with
    | nil => rfl
    | cons c rest => rw [List.dropWhile_cons, hstop c rfl]; rfl
  have hzero : ¬(Nat.toDigits 10 n = [] ∨
      (Nat.toDigits 10 n).head? = some '0' ∧ Nat.toDigits 10 n ≠ ['0']) := by
    intro h
    obtain h | ⟨hhead, hne⟩ := h
    · exact Nat.toDigits_ne_nil h
    · rw [head_toDigits hhead] at hne
      exact hne rfl
  have hend : ¬(rest.head? = some '.' ∨ rest.head? = some 'e' ∨ rest.head? = some 'E') := by
    intro h
    obtain h | h | h := h <;> obtain h | h | h := hrest _ h <;> exact absurd h (by decide)
  rw [parseNumber, List.takeWhile_append_of_pos hdigits, List.dropWhile_append_of_pos hdigits,
    htake, hdrop, List.append_nil, if_neg hzero, if_neg hend, Nat.ofDigitChars_ten_toDigits]

/-! ### Values -/

/-- The first character of a value is no space and closes nothing. -/
theorem printChars_start (v : Value) : ∃ c cs, printChars v = c :: cs ∧ isSpace c = false ∧
    c ≠ ']' ∧ c ≠ '}' := by
  have hdigit : ∀ c : Char, c.isDigit = true → isSpace c = false ∧ c ≠ ']' ∧ c ≠ '}' := by
    intro c hc
    refine ⟨?_, ?_, ?_⟩
    · by_contra hspace
      simp only [isSpace, Bool.not_eq_false, Bool.or_eq_true, decide_eq_true_eq] at hspace
      obtain ((rfl | rfl) | rfl) | rfl := hspace <;> exact absurd hc (by decide)
    · rintro rfl
      exact absurd hc (by decide)
    · rintro rfl
      exact absurd hc (by decide)
  cases v with
  | null => exact ⟨'n', _, rfl, by decide, by decide, by decide⟩
  | bool b => cases b <;> exact ⟨_, _, rfl, by decide, by decide, by decide⟩
  | number n =>
      obtain ⟨c, cs, hcs⟩ := List.exists_cons_of_ne_nil (Nat.toDigits_ne_nil (n := n) (b := 10))
      have hc := hdigit c (Nat.isDigit_of_mem_toDigits (by decide) (by decide)
        (hcs ▸ List.mem_cons_self : c ∈ Nat.toDigits 10 n))
      exact ⟨c, cs, hcs, hc⟩
  | string s => exact ⟨'"', _, rfl, by decide, by decide, by decide⟩
  | array items => cases items <;> exact ⟨'[', _, rfl, by decide, by decide, by decide⟩
  | object members => cases members <;> exact ⟨'{', _, rfl, by decide, by decide, by decide⟩

theorem skipSpace_cons {c : Char} {cs : List Char} (h : isSpace c = false) :
    skipSpace (c :: cs) = c :: cs := by
  rw [skipSpace, List.dropWhile_cons, h]
  rfl

theorem parseValue_digit {depth : Nat} {c : Char} {cs : List Char} (hc : c.isDigit = true)
    (hspace : isSpace c = false) : parseValue (depth + 1) (c :: cs) =
      (parseNumber (c :: cs)).map fun (n, rest) => (.number n, rest) := by
  have hne : ∀ d : Char, d.isDigit = false → c ≠ d := by
    rintro d hd rfl
    exact Bool.false_ne_true (hd.symm.trans hc)
  rw [parseValue, skipSpace_cons hspace]
  split
  next h => exact absurd (List.cons.inj h).1 (hne _ (by decide))
  next h => exact absurd (List.cons.inj h).1 (hne _ (by decide))
  next h => exact absurd (List.cons.inj h).1 (hne _ (by decide))
  next h => exact absurd (List.cons.inj h).1 (hne _ (by decide))
  next h => exact absurd (List.cons.inj h).1 (hne _ (by decide))
  next h => exact absurd (List.cons.inj h).1 (hne _ (by decide))
  next => rfl

theorem parseMember_print {α : Type} {item : List Char → Option (α × List Char)} {value : α}
    (name : String) {input rest : List Char} (h : item input = some (value, rest)) :
    parseMember item (printString name ++ ':' :: input) = some ((name, value), rest) := by
  obtain ⟨cs, hcs, hname⟩ := parseString_printString name (':' :: input)
  have hcolon : isSpace ':' = false := by decide
  rw [hcs, parseMember, skipSpace_cons (by decide)]
  simp only [hname, Option.bind_eq_bind, Option.bind_some, skipSpace_cons hcolon, h,
    Option.pure_def]

section Elements

variable {α : Type} {close : Char} {item : List Char → Option (α × List Char)}
  {write : α → List Char}

/-- The elements after the first one, each behind a comma, and the closing bracket. -/
def printRest (close : Char) (write : α → List Char) (elements : List α) : List Char :=
  elements.flatMap (fun a => ',' :: write a) ++ [close]

variable (close write) in
theorem length_lt_printRest (elements : List α) :
    elements.length < (printRest close write elements).length := by
  induction elements with
  | nil => exact Nat.one_pos
  | cons a elements ih =>
      simp only [printRest, List.flatMap_cons, List.length_append, List.length_cons] at ih ⊢
      omega

variable (close write) in
theorem length_lt_printRest_of_mem {elements : List α} {a : α} (ha : a ∈ elements) :
    (write a).length < (printRest close write elements).length := by
  have hmem : (',' :: write a).length ≤ (elements.flatMap fun a => ',' :: write a).length :=
    List.Sublist.length_le (List.sublist_flatten_of_mem (List.mem_map_of_mem ha))
  rw [printRest, List.length_append]
  rw [List.length_cons] at hmem
  omega

variable (write) in
theorem ends_printRest (hclose : close = ']' ∨ close = '}') (elements : List α)
    (rest : List Char) : Ends (printRest close write elements ++ rest) := by
  intro c hc
  cases elements with
  | nil =>
      right
      simp only [printRest, List.flatMap_nil, List.nil_append, List.cons_append, List.head?_cons,
        Option.some.injEq] at hc
      rwa [hc] at hclose
  | cons a elements =>
      left
      simpa [printRest, eq_comm] using hc

theorem parseElements_print (hclose : close = ']' ∨ close = '}') {elements : List α} {first : α}
    {bound : Nat} (rest : List Char) (hread : ∀ a ∈ first :: elements, ∀ rest, Ends rest →
      item (write a ++ rest) = some (a, rest)) (hbound : elements.length < bound) :
    parseElements close item bound (write first ++ (printRest close write elements ++ rest)) =
      some (first :: elements, rest) := by
  have hcomma : close ≠ ',' := by
    rintro rfl
    simp at hclose
  have hspace : isSpace close = false := by
    obtain rfl | rfl := hclose <;> decide
  have hspace' : isSpace ',' = false := by decide
  induction elements generalizing first bound with
  | nil =>
      obtain ⟨bound, rfl⟩ : ∃ b, bound = b + 1 := ⟨bound - 1, by omega⟩
      have hfirst := hread first List.mem_cons_self _ (ends_printRest write hclose [] rest)
      rw [parseElements, hfirst]
      simp [printRest, skipSpace_cons hspace, hcomma]
  | cons next elements ih =>
      obtain ⟨bound, rfl⟩ : ∃ b, bound = b + 1 := ⟨bound - 1, by omega⟩
      have hfirst := hread first List.mem_cons_self _ (ends_printRest write hclose (next :: elements) rest)
      have htail : parseElements close item bound (write next ++ (printRest close write elements ++
          rest)) = some (next :: elements, rest) := by
        apply ih
        · intro a ha
          exact hread a (List.mem_cons_of_mem _ ha)
        · rw [List.length_cons] at hbound
          omega
      rw [parseElements, hfirst]
      simp only [printRest, List.append_assoc, List.cons_append, List.nil_append] at htail
      simp [printRest, skipSpace_cons hspace', htail]

theorem parseSequence_print (hclose : close = ']' ∨ close = '}') {elements : List α} {first : α}
    (rest : List Char) (hread : ∀ a ∈ first :: elements, ∀ rest, Ends rest →
      item (write a ++ rest) = some (a, rest))
    (hstart : ∃ c cs, write first = c :: cs ∧ isSpace c = false ∧ c ≠ close) :
    parseSequence close item (write first ++ (printRest close write elements ++ rest)) =
      some (first :: elements, rest) := by
  obtain ⟨c, cs, hc, hspace, hne⟩ := hstart
  have hbound : elements.length < (write first ++ (printRest close write elements ++ rest)).length := by
    have hlen := length_lt_printRest close write elements
    simp only [List.length_append]
    omega
  have helements := parseElements_print hclose rest hread hbound
  rw [parseSequence]
  rw [hc, List.cons_append] at helements ⊢
  rw [skipSpace_cons hspace]
  simp only [if_neg hne]
  exact helements

end Elements

theorem printItems_eq (items : List Value) : printItems items = printRest ']' printChars items := by
  induction items with
  | nil => rfl
  | cons item items ih =>
      rw [printItems, ih]
      simp [printRest]

def printMember (m : String × Value) : List Char := printString m.1 ++ ':' :: printChars m.2

theorem printMembers_eq (members : List (String × Value)) :
    printMembers members = printRest '}' printMember members := by
  induction members with
  | nil => rfl
  | cons m members ih =>
      rw [printMembers, ih]
      simp [printRest, printMember]

mutual

theorem parseValue_print : ∀ {v : Value} {depth : Nat} (rest : List Char),
    (printChars v).length ≤ depth → Ends rest →
    parseValue depth (printChars v ++ rest) = some (v, rest)
  | v, 0, rest, hdepth, _ => by
    obtain ⟨c, cs, hstart, -⟩ := printChars_start v
    rw [hstart] at hdepth
    simp at hdepth
  | .null, depth + 1, rest, _, _ => by
    have hspace : isSpace 'n' = false := by decide
    simp [printChars, parseValue, skipSpace_cons hspace]
  | .bool true, depth + 1, rest, _, _ => by
    have hspace : isSpace 't' = false := by decide
    simp [printChars, parseValue, skipSpace_cons hspace]
  | .bool false, depth + 1, rest, _, _ => by
    have hspace : isSpace 'f' = false := by decide
    simp [printChars, parseValue, skipSpace_cons hspace]
  | .number n, depth + 1, rest, _, hrest => by
    have hnumber := parseNumber_toDigits n hrest
    obtain ⟨c, cs, hstart, hspace, -⟩ := printChars_start (.number n)
    rw [printChars] at hstart ⊢
    have hc : c.isDigit = true := Nat.isDigit_of_mem_toDigits (by decide) (by decide)
      (hstart ▸ List.mem_cons_self : c ∈ Nat.toDigits 10 n)
    rw [hstart, List.cons_append] at hnumber ⊢
    rw [parseValue_digit hc hspace, hnumber]
    rfl
  | .string s, depth + 1, rest, _, _ => by
    obtain ⟨input, hinput, hs⟩ := parseString_printString s rest
    rw [printChars, hinput, parseValue, skipSpace_cons (by decide)]
    simp [hs]
  | .array [], depth + 1, rest, _, _ => by
    have hopen : isSpace '[' = false := by decide
    have hclose : isSpace ']' = false := by decide
    simp [printChars, parseValue, parseSequence, skipSpace_cons hopen, skipSpace_cons hclose]
  | .array (item :: items), depth + 1, rest, hdepth, _ => by
    have hopen : isSpace '[' = false := by decide
    rw [printChars, List.length_cons] at hdepth
    have hread : ∀ a ∈ item :: items, ∀ rest, Ends rest →
        parseValue depth (printChars a ++ rest) = some (a, rest) := by
      apply parseItems_print
      intro a ha
      rw [List.length_append, printItems_eq] at hdepth
      rcases List.mem_cons.mp ha with rfl | ha
      · omega
      · have hlen := length_lt_printRest_of_mem ']' printChars ha
        omega
    obtain ⟨c, cs, hstart, hspace, hne, -⟩ := printChars_start item
    have hitems := parseSequence_print (.inl rfl) rest hread ⟨c, cs, hstart, hspace, hne⟩
    rw [← printItems_eq] at hitems
    simp [printChars, parseValue, skipSpace_cons hopen, hitems]
  | .object [], depth + 1, rest, _, _ => by
    have hopen : isSpace '{' = false := by decide
    have hclose : isSpace '}' = false := by decide
    simp [printChars, parseValue, parseSequence, skipSpace_cons hopen, skipSpace_cons hclose]
  | .object ((name, value) :: members), depth + 1, rest, hdepth, _ => by
    have hopen : isSpace '{' = false := by decide
    have hwrite : printChars (.object ((name, value) :: members)) =
        '{' :: (printMember (name, value) ++ printMembers members) := by
      simp [printChars, printMember]
    rw [hwrite, List.length_cons] at hdepth
    have hread : ∀ m ∈ (name, value) :: members, ∀ rest, Ends rest →
        parseMember (parseValue depth) (printMember m ++ rest) = some (m, rest) := by
      apply parseMembers_print
      intro m hm
      rw [List.length_append, printMembers_eq] at hdepth
      rcases List.mem_cons.mp hm with rfl | hm
      · omega
      · have hlen := length_lt_printRest_of_mem '}' printMember hm
        omega
    have hstart : ∃ c cs, printMember (name, value) = c :: cs ∧ isSpace c = false ∧ c ≠ '}' :=
      ⟨'"', _, rfl, by decide, by decide⟩
    have hmembers := parseSequence_print (.inr rfl) rest hread hstart
    rw [← printMembers_eq] at hmembers
    rw [hwrite, List.cons_append, List.append_assoc, parseValue, skipSpace_cons hopen]
    simp [hmembers]

theorem parseItems_print : ∀ {items : List Value} {depth : Nat},
    (∀ item ∈ items, (printChars item).length ≤ depth) → ∀ item ∈ items, ∀ rest, Ends rest →
    parseValue depth (printChars item ++ rest) = some (item, rest)
  | [], _, _, _, hitem, _, _ => absurd hitem List.not_mem_nil
  | first :: items, depth, hdepth, item, hitem, rest, hrest => by
    rw [List.forall_mem_cons] at hdepth
    rcases List.mem_cons.mp hitem with heq | hitem
    · rw [heq]
      exact parseValue_print rest hdepth.1 hrest
    · exact parseItems_print hdepth.2 item hitem rest hrest

theorem parseMembers_print : ∀ {members : List (String × Value)} {depth : Nat},
    (∀ m ∈ members, (printMember m).length ≤ depth) → ∀ m ∈ members, ∀ rest, Ends rest →
    parseMember (parseValue depth) (printMember m ++ rest) = some (m, rest)
  | [], _, _, _, hm, _, _ => absurd hm List.not_mem_nil
  | (name, value) :: members, depth, hdepth, m, hm, rest, hrest => by
    rw [List.forall_mem_cons] at hdepth
    rcases List.mem_cons.mp hm with heq | hm
    · have hlen := hdepth.1
      simp only [printMember, List.length_append, List.length_cons] at hlen
      have hvalue := parseValue_print rest (by omega : (printChars value).length ≤ depth) hrest
      rw [heq, printMember, List.append_assoc, List.cons_append]
      exact parseMember_print name hvalue
    · exact parseMembers_print hdepth.2 m hm rest hrest

end

/-- **Round trip.** A printed value is parsed to the value. -/
theorem parse_print (v : Value) : parse (print v) = some v := by
  have hends : Ends [] := by
    intro c hc
    simp at hc
  have hvalue := parseValue_print [] (Nat.le_succ (printChars v).length) hends
  rw [List.append_nil] at hvalue
  rw [parse, print, String.toList_ofList, hvalue]
  rfl

example : (parse " [1, \"\\ud83d\\ude00\\n\"] ").map print = some "[1,\"😀\\n\"]" := by
  decide +kernel

end Json
