import Thicket.Interconnect.Grant

/-!
# Challenge and proof

The identity-verification half of channel establishment: a resource proves that it controls a
root-endorsed working key by signing the nonce its peer supplies.
-/

namespace Thicket

open Cbor (Bytes)
open Result Serde

def handshakeDomain : String := "thicket-handshake-v1"

structure Challenge where
  nonce : Bytes

structure ProofView where
  nonce : Bytes
  id : Id
  deriving DecidableEq

instance : Serialize ProofView where
  toCbor v := struct (field "nonce" v.nonce ++ field "id" v.id)

instance : LawfulSerialize ProofView where
  toCbor_injective {a b} h := by
    cases a
    cases b
    obtain ⟨rfl, h⟩ := field_append_inj (struct_injective h)
    obtain rfl := field_inj h
    rfl

structure Proof where
  id : Id
  workingPub : Bytes
  sig : Bytes

variable {crypto : Crypto}

/-- Answer a challenge by signing the nonce and the id with a working key. -/
def prove (challenge : Challenge) (id : Id) (working : WorkingKey crypto) :
    Except InterconnectError Proof := do
  let view : ProofView := { nonce := challenge.nonce, id }
  let sig := working.sign (← liftCore (signingBytes handshakeDomain view))
  return { id, workingPub := working.public, sig }

variable (crypto) in
/-- The proving key must be a valid working key for the claimed id, and the signature must cover
this exact challenge. -/
def verifyProof (challenge : Challenge) (proof : Proof) (peerRootPub : Bytes)
    (peerEndorsements : List KeyEndorsement) (now : UInt64) (revocations : RevocationSet) :
    Except InterconnectError Unit := do
  liftCore (verifyWorkingKey crypto peerRootPub proof.id peerEndorsements proof.workingPub now
    revocations)
  let view : ProofView := { nonce := challenge.nonce, id := proof.id }
  let msg ← liftCore (signingBytes handshakeDomain view)
  (verifySignature crypto proof.workingPub msg proof.sig).mapError fun _ => .badProof

/-- A proof made for a challenge verifies for it, as long as the key does. -/
theorem verifyProof_prove (hsign : crypto.SignVerifies) {challenge : Challenge} {id : Id}
    {working : WorkingKey crypto} {proof : Proof} (h : prove challenge id working = .ok proof)
    {rootPub : Bytes} {endorsements : List KeyEndorsement} {now : UInt64}
    {revocations : RevocationSet} : verifyProof crypto challenge proof rootPub endorsements now
      revocations = .ok () ↔ verifyWorkingKey crypto rootPub id endorsements working.public now
        revocations = .ok () := by
  simp only [prove, bind_eq_ok, liftCore_eq_ok, pure_eq_ok] at h
  obtain ⟨msg, hmsg, rfl⟩ := h
  have hsig := working.verify_sign hsign msg
  simp only [verifyProof, bind_eq_ok, exists_unit, liftCore_eq_ok, mapError_ok_iff]
  constructor
  · intro hproof
    exact hproof.1
  · intro hkey
    exact ⟨hkey, msg, hmsg, hsig⟩

end Thicket
