import Thicket.Py.Built

/-!
# One verdict on records

Both sides decode the bytes of a signed record and verify it over the payload encoded anew. The core
encodes its structure, the SDK the dictionary as it came, so they agree on records whose payload is in
the form the core writes, and may differ on others.
-/

namespace Thicket.Py

open Cbor (Bytes)
open Result Serde

section Verdicts

variable (crypto : Crypto)

/-- `SignedRecord::from_cbor(b)?.verify(now, &RevocationSet::new())` -/
def coreVerdict (b : Bytes) (now : UInt64) : Except Error Unit := do
  let record ← SignedRecord.fromCbor b
  record.verify crypto now .new

/-- `record.verify_record(cbor.decode(b), now)` -/
def sdkVerdict (b : Bytes) (now : UInt64) : Except Exc Bool := do
  verifyRecord crypto (← decode b) now.toNat

end Verdicts

/-- Bytes that are one item and nothing else: a map with text keys, in which no map has an array or a
map as a key. The fields of a signed record occur once in it, among others and in any order, the
payload as the core writes it and the two others as byte strings. -/
structure WireRecord (b : Bytes) where
  entries : List (String × Cbor.Value)
  record : SignedRecord
  read : Cbor.decode b = some (struct entries, [])
  hashable : hashableKeys (struct entries) = true
  payload : named "payload" entries = [toCbor record.payload]
  signerPub : named "signer_pub" entries = [toCbor record.signerPub]
  signature : named "signature" entries = [toCbor record.signature]

variable {crypto : Crypto} {b : Bytes}

theorem WireRecord.fromCbor_eq (wire : WireRecord b) : SignedRecord.fromCbor b = .ok wire.record := by
  have hread : ofCbor (Format.cbor.view (struct wire.entries)) = some wire.record := by
    refine (fields_bind .cbor _ _).trans ?_
    rw [required_of_named wire.payload, required_of_named wire.signerPub,
      required_of_named wire.signature]
    rfl
  rw [SignedRecord.fromCbor, okOr_eq_ok, fromReader, wire.read]
  exact hread

theorem WireRecord.exists_decode_eq (wire : WireRecord b) : ∃ signed, decode b = .ok signed ∧
    signed.getItem "payload" = .ok (.of wire.record.payload) ∧
    signed.getItem "signer_pub" = .ok (.bytes wire.record.signerPub) ∧
    signed.getItem "signature" = .ok (.bytes wire.record.signature) := by
  obtain ⟨d, hd⟩ := exists_builtEntries [] wire.hashable
  have hfield {α : Type} [Serialize α] [WellKeyed α] {name : String} {a : α}
      (hnamed : named name wire.entries = [toCbor a]) :
      (Value.dict d).getItem name = .ok (.of a) := by
    obtain ⟨v, hv, hlookup⟩ := (lookup_builtEntries hd).2 (toCbor a) hnamed
    obtain rfl : Value.of a = v := Except.ok.inj ((built_of a).symm.trans hv)
    exact getItem_dict.mpr hlookup
  refine ⟨.dict d, ?_, hfield wire.payload, hfield wire.signerPub, hfield wire.signature⟩
  refine decode_eq_ok.mpr ⟨_, wire.read, ?_⟩
  rw [struct, Value.built, hd]
  rfl

/-! ### The two verifiers -/

variable {payload : RecordPayload} {signed : Value} {record : SignedRecord} {now : UInt64}

theorem payload_id : (Value.of payload).getItem "id" = .ok (.bytes payload.id.bytes) := by
  simp [Value.of, Value.getItem_struct, Value.ofItem]

theorem payload_rootPublicKey :
    (Value.of payload).getItem "root_public_key" = .ok (.bytes payload.rootPublicKey) := by
  simp [Value.of, Value.getItem_struct, Value.ofItem]

theorem payload_keys :
    (Value.of payload).getItem "keys" = .ok (.list (payload.keys.map .of)) := by
  rw [← of_list]
  simp [Value.of, Value.getItem_struct]

theorem verifyRecord_iff (hpayload : signed.getItem "payload" = .ok (.of record.payload))
    (hsigner : signed.getItem "signer_pub" = .ok (.bytes record.signerPub))
    (hsignature : signed.getItem "signature" = .ok (.bytes record.signature)) :
    verifyRecord crypto signed now.toNat = .ok true ↔
      record.verify crypto now .new = .ok () := by
  rw [SignedRecord.verify_eq_ok, verifyWorkingKey_eq_ok, Id.fromRootPublic_eq_ok,
    SignedRecord.verifyPayload_eq_ok]
  simp only [verifyRecord, hpayload, hsigner, hsignature, payload_id, payload_rootPublicKey,
    payload_keys, sha256, bind_eq_ok, Except.ok.injEq, exists_eq_left', returnFalse_iff, eq_bytes,
    Value.iter, nextEndorsement_of]
  cases hfind : record.payload.keys.find? fun e => e.workingPub == record.signerPub with
  | none => simp [pure, Except.pure]
  | some e =>
      simp only [Option.map_some, bind_eq_ok, Except.ok.injEq, exists_eq_left',
        endorsement_workingPub, endorsement_notBefore, endorsement_notAfter, endorsement_rootSig,
        ← of_endorsementView, returnFalse_iff, intLt_u64, intGt_u64]
      simp only [signingInput_of, Bool.not_eq_eq_eq_not, Bool.not_false, decide_eq_true_eq,
        decide_eq_false_iff_not, verifySig_iff, gt_iff_lt, UInt64.not_lt, pure_eq_ok,
        Option.some.injEq, exists_eq_left', verifyEndorsement_eq_ok, RevocationSet.isRevoked_new]
      constructor
      · rintro ⟨hid, msg, hmsg, hroot, hbefore, hafter, hsigned⟩
        -- a root key that verifies a signature has the right length
        have hlength := (verifyRaw_eq_ok.mp hroot).1
        exact ⟨⟨⟨hlength, congrArg Id.mk hid.symm⟩, ⟨⟨msg, hmsg, hroot⟩, hbefore, hafter⟩, trivial⟩,
          hsigned⟩
      · rintro ⟨⟨⟨-, hid⟩, ⟨⟨msg, hmsg, hroot⟩, hbefore, hafter⟩, -⟩, hsigned⟩
        exact ⟨(congrArg Id.bytes hid).symm, msg, hmsg, hroot, hbefore, hafter, hsigned⟩

/-- **One verdict per wire record.** -/
theorem record_verdicts_agree (wire : WireRecord b) (now : UInt64) :
    coreVerdict crypto b now = .ok () ↔ sdkVerdict crypto b now = .ok true := by
  obtain ⟨signed, hdecode, hpayload, hsigner, hsignature⟩ := wire.exists_decode_eq
  rw [coreVerdict, wire.fromCbor_eq, sdkVerdict, hdecode]
  exact (verifyRecord_iff hpayload hsigner hsignature).symm

/-! ### A record in another order -/

def sampleSigned : SignedRecord := sampleRecord ⟨(1 : UInt8)⟩ ⟨(2 : UInt8)⟩ none 1

def bytesOf (item : Cbor.Value) : Bytes := (Cbor.encode item).getD []

theorem decode_bytesOf {item : Cbor.Value} (h : (Cbor.encode item).isSome = true) :
    Cbor.decode (bytesOf item) = some (item, []) := by
  obtain ⟨bytes, hbytes⟩ := Option.isSome_iff_exists.mp h
  have hdecode := Cbor.decode_encode hbytes []
  rwa [List.append_nil, ← Option.getD_some (a := bytes) (b := []), ← hbytes] at hdecode

/-- The entries of a signed record, the last field first and after one that nobody knows. -/
def sampleEntries : List (String × Cbor.Value) :=
  [("note", .map [(.uint 1, .null)]), ("signature", toCbor sampleSigned.signature),
    ("signer_pub", toCbor sampleSigned.signerPub), ("payload", toCbor sampleSigned.payload)]

def sampleWire : WireRecord (bytesOf (struct sampleEntries)) where
  entries := sampleEntries
  record := sampleSigned
  read := decode_bytesOf (by decide +kernel)
  hashable := by decide +kernel
  payload := by rfl
  signerPub := by rfl
  signature := by rfl

theorem record_verdicts_agree_reordered :
    sdkVerdict .checked (bytesOf (struct sampleEntries)) 5 = .ok true := by
  refine (record_verdicts_agree sampleWire 5).mp ?_
  decide +kernel

/-! ### Records that are told apart -/

/-- Whether the core accepts, and whether the SDK does. -/
def verdicts (b : Bytes) : Bool × Bool :=
  (coreVerdict .checked b 5 = .ok (), sdkVerdict .checked b 5 = .ok true)

def payloadEntries : List (Cbor.Value × Cbor.Value) :=
  match toCbor sampleSigned.payload with
  | .map entries => entries
  | _ => []

/-- A payload with the two other fields of a record. -/
def signedWith (payload : Cbor.Value) (signature : Bytes) : List (Cbor.Value × Cbor.Value) :=
  [(.text "payload", payload), (.text "signer_pub", toCbor sampleSigned.signerPub),
    (.text "signature", .bytes signature)]

/-- A payload as it is, signed with the sample's key. -/
def resigned (entries : List (Cbor.Value × Cbor.Value)) : List (Cbor.Value × Cbor.Value) :=
  let working : WorkingKey Crypto.checked := ⟨(2 : UInt8)⟩
  let msg := Cbor.utf8 recordDomain ++ 0 :: bytesOf (.map entries)
  signedWith (.map entries) (working.sign msg)

def signedEntries : List (Cbor.Value × Cbor.Value) := resigned payloadEntries

/-- Of an item that was encoded the SDK builds its value. -/
theorem verdicts_bytesOf {item : Cbor.Value} (h : (Cbor.encode item).isSome = true) :
    verdicts (bytesOf item) = (decide (coreVerdict .checked (bytesOf item) 5 = .ok ()),
      decide ((Value.built item >>= fun v => verifyRecord .checked v 5) = .ok true)) := by
  have hbuilt : sdkVerdict .checked (bytesOf item) 5 = .ok true ↔
      (Value.built item >>= fun v => verifyRecord .checked v 5) = .ok true := by
    rw [sdkVerdict, bind_eq_ok, bind_eq_ok]
    simp only [decode_eq_ok, decode_bytesOf h, Option.some.injEq, Prod.mk.injEq, and_true,
      exists_eq_left']
    rfl
  rw [verdicts, decide_eq_decide.mpr hbuilt]

theorem record_verdicts_differ :
    -- a byte after the record
    verdicts (bytesOf (.map signedEntries) ++ [0]) = (true, false) ∧
    -- a payload with its fields in another order, with one that nobody knows, without its locators
    verdicts (bytesOf (.map (resigned payloadEntries.reverse))) = (false, true) ∧
    verdicts (bytesOf (.map (resigned (payloadEntries ++ [(.text "note", .null)])))) =
      (false, true) ∧
    verdicts (bytesOf (.map (resigned (payloadEntries.eraseIdx 5)))) = (false, true) ∧
    -- a signature that is given twice, and one that is a list of numbers
    verdicts (bytesOf (.map ((.text "signature", .null) :: signedEntries))) = (false, true) ∧
    verdicts (bytesOf (.map ((.text "signature",
      .array (sampleSigned.signature.map fun byte => .uint byte.toNat)) :: signedEntries.take 2))) =
      (true, false) ∧
    -- a key that is a byte string, and one that is a list
    verdicts (bytesOf (.map ((.bytes (Cbor.utf8 "payload"), .map payloadEntries) ::
      signedEntries.drop 1))) = (true, false) ∧
    verdicts (bytesOf (.map ((.text "note", .map [(.array [], .null)]) :: signedEntries))) =
      (true, false) := by
  refine ⟨by decide +kernel, ?_⟩
  simp (disch := decide +kernel) only [verdicts_bytesOf]
  decide +kernel

end Thicket.Py
