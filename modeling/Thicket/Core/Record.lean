import Thicket.Core.Identity

/-!
# Resource records

A record is a payload, the working key that signed it and the signature. The payload is signed as a
whole, so its serialization determines every field of it, the lease included.
-/

namespace Thicket

open Cbor (Bytes)
open Result Serde

def recordDomain : String := "thicket-record-v1"

inductive Visibility where
  | «public»
  | unlisted
  | «private»
  deriving DecidableEq, Repr

structure Io where
  input : String
  output : String
  deriving DecidableEq

structure Capability where
  kind : String
  description : String
  io : Option Io
  tags : List String
  modalities : List String
  envelope : BTreeMap String String
  deriving DecidableEq

structure Locator where
  protocol : String
  endpoint : String
  deriving DecidableEq

/-- Liveness metadata; `expiresAt` bounds staleness. -/
structure Lease where
  ttl : UInt64
  issuedAt : UInt64
  expiresAt : UInt64
  deriving DecidableEq

structure RecordPayload where
  schema : String
  id : Id
  rootPublicKey : Bytes
  keys : List KeyEndorsement
  kind : String
  locators : List Locator
  capabilities : List Capability
  profile : BTreeMap String String
  supports : BTreeMap String String
  visibility : Visibility
  lease : Option Lease
  /-- Highest signed version wins on conflict. -/
  version : UInt64
  ext : BTreeMap String String
  deriving DecidableEq

structure SignedRecord where
  payload : RecordPayload
  signerPub : Bytes
  signature : Bytes
  deriving DecidableEq

/-! ### Serialization -/

def Visibility.name : Visibility → String
  | .public => "Public"
  | .unlisted => "Unlisted"
  | .private => "Private"

instance : Serialize Visibility := ⟨fun v => .text v.name⟩

instance : LawfulSerialize Visibility where
  toCbor_injective {a b} h := by
    have hname : a.name = b.name := Cbor.Value.text.inj h
    revert hname
    cases a <;> cases b <;> decide

instance : Serialize KeyEndorsement where
  toCbor e := struct (field "working_pub" e.workingPub ++ (field "not_before" e.notBefore ++
    (field "not_after" e.notAfter ++ field "root_sig" e.rootSig)))

instance : LawfulSerialize KeyEndorsement where
  toCbor_injective {a b} h := by
    cases a
    cases b
    obtain ⟨rfl, h⟩ := field_append_inj (struct_injective h)
    obtain ⟨rfl, h⟩ := field_append_inj h
    obtain ⟨rfl, h⟩ := field_append_inj h
    obtain rfl := field_inj h
    rfl

instance : Serialize Revocation where
  toCbor r := struct (field "working_pub" r.workingPub ++ (field "issued_at" r.issuedAt ++
    field "root_sig" r.rootSig))

instance : Serialize Io where
  toCbor io := struct (field "input" io.input ++ field "output" io.output)

instance : LawfulSerialize Io where
  toCbor_injective {a b} h := by
    cases a
    cases b
    obtain ⟨rfl, h⟩ := field_append_inj (struct_injective h)
    obtain rfl := field_inj h
    rfl

instance : Serialize Capability where
  toCbor c := struct (field "kind" c.kind ++ (field "description" c.description ++
    (optionalField "io" c.io ++ (field "tags" c.tags ++ (field "modalities" c.modalities ++
      field "envelope" c.envelope)))))

instance : LawfulSerialize Capability where
  toCbor_injective {a b} h := by
    cases a
    cases b
    obtain ⟨rfl, h⟩ := field_append_inj (struct_injective h)
    obtain ⟨rfl, h⟩ := field_append_inj h
    obtain ⟨rfl, h⟩ := optionalField_append_inj (by simp [field]) (by simp [field]) h
    obtain ⟨rfl, h⟩ := field_append_inj h
    obtain ⟨rfl, h⟩ := field_append_inj h
    obtain rfl := field_inj h
    rfl

instance : Serialize Locator where
  toCbor l := struct (field "protocol" l.protocol ++ field "endpoint" l.endpoint)

instance : LawfulSerialize Locator where
  toCbor_injective {a b} h := by
    cases a
    cases b
    obtain ⟨rfl, h⟩ := field_append_inj (struct_injective h)
    obtain rfl := field_inj h
    rfl

instance : Serialize Lease where
  toCbor l := struct (field "ttl" l.ttl ++ (field "issued_at" l.issuedAt ++
    field "expires_at" l.expiresAt))

instance : LawfulSerialize Lease where
  toCbor_injective {a b} h := by
    cases a
    cases b
    obtain ⟨rfl, h⟩ := field_append_inj (struct_injective h)
    obtain ⟨rfl, h⟩ := field_append_inj h
    obtain rfl := field_inj h
    rfl

instance : Serialize RecordPayload where
  toCbor p := struct (field "schema" p.schema ++ (field "id" p.id ++
    (field "root_public_key" p.rootPublicKey ++ (field "keys" p.keys ++ (field "kind" p.kind ++
      (field "locators" p.locators ++ (field "capabilities" p.capabilities ++
        (field "profile" p.profile ++ (field "supports" p.supports ++
          (field "visibility" p.visibility ++ (optionalField "lease" p.lease ++
            (field "version" p.version ++ field "ext" p.ext))))))))))))

instance : LawfulSerialize RecordPayload where
  toCbor_injective {a b} h := by
    cases a
    cases b
    obtain ⟨rfl, h⟩ := field_append_inj (struct_injective h)
    obtain ⟨rfl, h⟩ := field_append_inj h
    obtain ⟨rfl, h⟩ := field_append_inj h
    obtain ⟨rfl, h⟩ := field_append_inj h
    obtain ⟨rfl, h⟩ := field_append_inj h
    obtain ⟨rfl, h⟩ := field_append_inj h
    obtain ⟨rfl, h⟩ := field_append_inj h
    obtain ⟨rfl, h⟩ := field_append_inj h
    obtain ⟨rfl, h⟩ := field_append_inj h
    obtain ⟨rfl, h⟩ := field_append_inj h
    obtain ⟨rfl, h⟩ := optionalField_append_inj (by simp [field]) (by simp [field]) h
    obtain ⟨rfl, h⟩ := field_append_inj h
    obtain rfl := field_inj h
    rfl

/-! ### Signing and verification -/

variable {crypto : Crypto}

def RecordPayload.sign (self : RecordPayload) (working : WorkingKey crypto) :
    Except Error SignedRecord := do
  let msg ← signingBytes recordDomain self
  return { payload := self, signerPub := working.public, signature := working.sign msg }

namespace SignedRecord

def id (self : SignedRecord) : Id := self.payload.id

variable (crypto)

/-- The last step of `verify`: the signature over the canonical payload bytes. -/
def verifyPayload (self : SignedRecord) : Except Error Unit := do
  let msg ← signingBytes recordDomain self.payload
  verifyRaw crypto self.signerPub msg self.signature

/-- Full verification: id binding, root-endorsed and unexpired working key, not revoked, and a valid
signature over the payload. -/
def verify (self : SignedRecord) (now : UInt64) (revocations : RevocationSet) :
    Except Error Unit := do
  verifyWorkingKey crypto self.payload.rootPublicKey self.payload.id self.payload.keys
    self.signerPub now revocations
  self.verifyPayload crypto

variable {crypto} {record : SignedRecord} {now : UInt64} {revocations : RevocationSet}

theorem verify_eq_ok : record.verify crypto now revocations = .ok () ↔
    verifyWorkingKey crypto record.payload.rootPublicKey record.payload.id record.payload.keys
      record.signerPub now revocations = .ok () ∧ record.verifyPayload crypto = .ok () := by
  simp only [verify, bind_eq_ok, exists_unit]

theorem verifyPayload_eq_ok : record.verifyPayload crypto = .ok () ↔
    ∃ msg, signingBytes recordDomain record.payload = .ok msg ∧
      verifyRaw crypto record.signerPub msg record.signature = .ok () := by
  simp only [verifyPayload, bind_eq_ok]

theorem not_revoked_of_verify (h : record.verify crypto now revocations = .ok ()) :
    revocations.isRevoked record.signerPub = false :=
  (verifyWorkingKey_eq_ok.mp (verify_eq_ok.mp h).1).2.2

/-- One signature is over one payload. -/
theorem payload_eq_of_verifyPayload (hbind : crypto.SignaturesBind) {record' : SignedRecord}
    (h : record.verifyPayload crypto = .ok ()) (h' : record'.verifyPayload crypto = .ok ())
    (hsig : record.signature = record'.signature) : record.payload = record'.payload := by
  obtain ⟨msg, hmsg, hverify⟩ := verifyPayload_eq_ok.mp h
  obtain ⟨msg', hmsg', hverify'⟩ := verifyPayload_eq_ok.mp h'
  rw [hsig] at hverify
  obtain ⟨-, rfl⟩ := hbind hverify hverify'
  exact signingBytes_injective hmsg hmsg'

end SignedRecord

/-! ### A signed record -/

/-- The record of a resource that publishes only itself, signed with a key its root endorses for
times up to 1000. -/
def sampleRecord (root : RootKey Crypto.checked) (working : WorkingKey Crypto.checked)
    (lease : Option Lease) (version : UInt64) : SignedRecord :=
  let payload : RecordPayload :=
    { schema := "thicket/record/1", id := root.id, rootPublicKey := root.public,
      keys := [valueOr (root.endorse working.public 0 1000) ⟨[], 0, 0, []⟩], kind := "memory",
      locators := [], capabilities := [], profile := ∅, supports := ∅, visibility := .public, lease,
      version, ext := ∅ }
  valueOr (payload.sign working) ⟨payload, [], []⟩

example : (sampleRecord ⟨(1 : UInt8)⟩ ⟨(2 : UInt8)⟩ none 1).verify .checked 1000 .new = .ok () := by
  decide +kernel

end Thicket
