import Thicket.Interconnect.Grant
import Thicket.Core.Wire

/-!
# Identities on a secure channel

Noise gives a channel between two per-connection static keys. Each side signs its static key with
its working key and sends the signature with its key chain inside the encrypted handshake, and the
peer checks that signature against the static key that the handshake negotiated.
-/

namespace Thicket

open Cbor (Bytes)
open Result Serde

/-- Errors of the networking layer. The texts of `Io`, `Codec` and `Crypto` are those of the libraries. -/
inductive NetError where
  | io
  | codec
  | handshake
  | crypto
  | peerMismatch
  | timeout
  | closed
  | frameTooLarge
  | core (e : Error)
  | interconnect (e : InterconnectError)
  deriving DecidableEq, Repr

def staticBindingDomain : String := "thicket-noise-static-v1"

/-- Everything a node presents to authenticate itself. -/
structure LocalIdentity (crypto : Crypto) where
  id : Id
  rootPublicKey : Bytes
  endorsements : List KeyEndorsement
  working : WorkingKey crypto

/-- A peer whose identity was authenticated during the handshake. -/
structure VerifiedPeer where
  id : Id
  workingPub : Bytes
  keyNotAfter : UInt64
  deriving DecidableEq

/-- Binds the Noise static key to an identity. -/
structure IdentityProof where
  id : Id
  rootPublicKey : Bytes
  endorsements : List KeyEndorsement
  workingPub : Bytes
  staticSig : Bytes
  deriving DecidableEq

instance : Serialize IdentityProof where
  toCbor p := struct (field "id" p.id ++ (field "root_public_key" p.rootPublicKey ++
    (field "endorsements" p.endorsements ++ (field "working_pub" p.workingPub ++
      field "static_sig" p.staticSig))))

instance : Deserialize IdentityProof where
  ofCbor v := do
    let fs ← fields v
    return { id := ← fs.required "id", rootPublicKey := ← fs.required "root_public_key",
             endorsements := ← fs.required "endorsements",
             workingPub := ← fs.required "working_pub", staticSig := ← fs.required "static_sig" }

instance : LawfulDeserialize IdentityProof where
  ofCbor_view format a := by
    refine (fields_bind format _ _).trans ?_
    rw [required_of_named (a := a.id) (by simp), required_of_named (a := a.rootPublicKey) (by simp),
      required_of_named (a := a.endorsements) (by simp),
      required_of_named (a := a.workingPub) (by simp),
      required_of_named (a := a.staticSig) (by simp)]
    rfl

def bindingMessage (noiseStaticPub : Bytes) : Except NetError Bytes :=
  (signingBytes staticBindingDomain noiseStaticPub).mapError .core

section

variable {crypto : Crypto}

def makeProof (localId : LocalIdentity crypto) (noiseStaticPub : Bytes) :
    Except NetError IdentityProof := do
  let staticSig := localId.working.sign (← bindingMessage noiseStaticPub)
  return { id := localId.id, rootPublicKey := localId.rootPublicKey,
           endorsements := localId.endorsements, workingPub := localId.working.public, staticSig }

end

namespace IdentityProof

variable (crypto : Crypto)

/-- `secure::verify_proof`: the working key must be a valid, root-endorsed key for the identity, and
the signature must bind the Noise static key that was negotiated. -/
def verify (proof : IdentityProof) (remoteStatic : Bytes) (now : UInt64) :
    Except NetError VerifiedPeer := do
  (verifyWorkingKey crypto proof.rootPublicKey proof.id proof.endorsements proof.workingPub now
    .new).mapError .core
  let msg ← bindingMessage remoteStatic
  (verifySignature crypto proof.workingPub msg proof.staticSig).mapError fun _ => .handshake
  let e ← okOr (proof.endorsements.find? fun e => e.workingPub == proof.workingPub) .handshake
  return { id := proof.id, workingPub := proof.workingPub, keyNotAfter := e.notAfter }

variable {crypto}

theorem bindingMessage_eq_ok {static msg : Bytes} :
    bindingMessage static = .ok msg ↔ signingBytes staticBindingDomain static = .ok msg := by
  rw [bindingMessage, mapError_ok_iff]

theorem verify_eq_ok {proof : IdentityProof} {remoteStatic : Bytes} {now : UInt64}
    {peer : VerifiedPeer} (h : proof.verify crypto remoteStatic now = .ok peer) :
    verifyWorkingKey crypto proof.rootPublicKey proof.id proof.endorsements proof.workingPub now
      .new = .ok () ∧
    (∃ msg, signingBytes staticBindingDomain remoteStatic = .ok msg ∧
      verifySignature crypto proof.workingPub msg proof.staticSig = .ok ()) ∧
    peer.id = proof.id ∧ peer.workingPub = proof.workingPub := by
  simp only [verify, bind_eq_ok, exists_unit, mapError_ok_iff, bindingMessage_eq_ok, okOr_eq_ok,
    pure_eq_ok] at h
  obtain ⟨hkey, msg, hmsg, hsig, e, -, rfl⟩ := h
  exact ⟨hkey, ⟨msg, hmsg, hsig⟩, rfl, rfl⟩

variable (crypto) in
/-- The endorsement of the proof's working key, by the root of the proof's identity, and in its
window. -/
structure Endorsed (proof : IdentityProof) (now : UInt64) (e : KeyEndorsement) : Prop where
  mem : e ∈ proof.endorsements
  workingPub : e.workingPub = proof.workingPub
  root : Id.fromRootPublic crypto proof.rootPublicKey = .ok proof.id
  signed : verifyEndorsement crypto proof.rootPublicKey e = .ok ()
  notBefore : e.notBefore ≤ now
  notAfter : now ≤ e.notAfter

/-- The expiry that is kept is that of the endorsement that was verified. -/
theorem verify_endorsed {proof : IdentityProof} {remoteStatic : Bytes} {now : UInt64}
    {peer : VerifiedPeer} (h : proof.verify crypto remoteStatic now = .ok peer) :
    ∃ e, proof.Endorsed crypto now e ∧
      peer = { id := proof.id, workingPub := e.workingPub, keyNotAfter := e.notAfter } := by
  simp only [verify, bind_eq_ok, exists_unit, mapError_ok_iff, bindingMessage_eq_ok, okOr_eq_ok,
    pure_eq_ok, verifyWorkingKey_eq_ok] at h
  obtain ⟨⟨hroot, ⟨e, hfind, hsigned, hbefore, hafter⟩, -⟩, msg, -, -, e', hfind', rfl⟩ := h
  obtain rfl := Option.some.inj (hfind.symm.trans hfind')
  have hkey : e.workingPub = proof.workingPub := by simpa using List.find?_some hfind
  refine ⟨e, ⟨List.mem_of_find?_eq_some hfind, hkey, hroot, hsigned, hbefore, hafter⟩, ?_⟩
  rw [hkey]

end IdentityProof

end Thicket
