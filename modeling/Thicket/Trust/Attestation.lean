import Thicket.Core.Identity

/-!
# Attestations

One resource vouching for another. The score is an `f32`, which is signed as its bits; those stand
for it here.
-/

namespace Thicket

open Cbor (Bytes)
open Result Serde

def attestDomain : String := "thicket-attestation-v1"

inductive TrustError where
  | core (e : Error)
  | badAttestation
  deriving DecidableEq, Repr

structure AttestView where
  subject : Id
  claim : String
  scoreBits : UInt32
  issuedAt : UInt64
  attester : Id
  deriving DecidableEq

instance : Serialize AttestView where
  toCbor v := struct (field "subject" v.subject ++ (field "claim" v.claim ++
    (field "score_bits" v.scoreBits ++ (field "issued_at" v.issuedAt ++
      field "attester" v.attester))))

instance : LawfulSerialize AttestView where
  toCbor_injective {a b} h := by
    cases a
    cases b
    obtain ⟨rfl, h⟩ := field_append_inj (struct_injective h)
    obtain ⟨rfl, h⟩ := field_append_inj h
    obtain ⟨rfl, h⟩ := field_append_inj h
    obtain ⟨rfl, h⟩ := field_append_inj h
    obtain rfl := field_inj h
    rfl

structure Attestation where
  subject : Id
  claim : String
  scoreBits : UInt32
  issuedAt : UInt64
  attester : Id
  attesterPub : Bytes
  sig : Bytes
  deriving DecidableEq

namespace Attestation

def view (self : Attestation) : AttestView :=
  { subject := self.subject, claim := self.claim, scoreBits := self.scoreBits,
    issuedAt := self.issuedAt, attester := self.attester }

variable {crypto : Crypto}

def issue (attester : Id) (attesterWorking : WorkingKey crypto) (subject : Id) (claim : String)
    (scoreBits : UInt32) (now : UInt64) : Except TrustError Attestation := do
  let view : AttestView := { subject, claim, scoreBits, issuedAt := now, attester }
  let msg ← (signingBytes attestDomain view).mapError .core
  return { subject, claim, scoreBits, issuedAt := now, attester,
           attesterPub := attesterWorking.public, sig := attesterWorking.sign msg }

variable (crypto) in
/-- The attester signed this with a valid working key. -/
def verify (self : Attestation) (attesterRootPub : Bytes)
    (attesterEndorsements : List KeyEndorsement) (now : UInt64) (revocations : RevocationSet) :
    Except TrustError Unit := do
  (verifyWorkingKey crypto attesterRootPub self.attester attesterEndorsements self.attesterPub now
    revocations).mapError .core
  let msg ← (signingBytes attestDomain self.view).mapError .core
  (verifySignature crypto self.attesterPub msg self.sig).mapError fun _ => .badAttestation

/-- An issued attestation verifies as long as the attester's key does. -/
theorem verify_issue (hsign : crypto.SignVerifies) {attester subject : Id}
    {working : WorkingKey crypto} {claim : String} {scoreBits : UInt32} {issuedAt : UInt64}
    {attestation : Attestation}
    (h : issue attester working subject claim scoreBits issuedAt = .ok attestation)
    {rootPub : Bytes} {endorsements : List KeyEndorsement} {now : UInt64}
    {revocations : RevocationSet} :
    attestation.verify crypto rootPub endorsements now revocations = .ok () ↔
      verifyWorkingKey crypto rootPub attester endorsements working.public now revocations
        = .ok () := by
  simp only [issue, bind_eq_ok, mapError_ok_iff, pure_eq_ok] at h
  obtain ⟨msg, hmsg, rfl⟩ := h
  have hsig := working.verify_sign hsign msg
  simp only [verify, bind_eq_ok, exists_unit, mapError_ok_iff]
  constructor
  · intro hverify
    exact hverify.1
  · intro hkey
    exact ⟨hkey, msg, hmsg, hsig⟩

end Attestation

end Thicket
