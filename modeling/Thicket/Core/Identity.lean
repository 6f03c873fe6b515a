import Thicket.Core.Crypto
import Mathlib.Data.Finset.Insert

/-!
# Identities and working keys

An identity is the hash of a root public key. The root key endorses short-lived working keys for a
validity window and revokes compromised ones. `verifyWorkingKey` is the check that records, grants,
envelopes and handshake proofs share.
-/

namespace Thicket

open Cbor (Bytes)
open Result Serde

def endorseDomain : String := "thicket-endorsement-v1"

def revokeDomain : String := "thicket-revocation-v1"

structure Id where
  bytes : Bytes
  deriving DecidableEq

instance : Ord Id := ⟨fun a b => compare a.bytes b.bytes⟩

instance : Std.TransOrd Id where
  eq_swap {a b} := Std.OrientedCmp.eq_swap (a := a.bytes) (b := b.bytes)
  isLE_trans {a b c} := Std.TransCmp.isLE_trans (a := a.bytes) (b := b.bytes) (c := c.bytes)

instance : Std.LawfulEqOrd Id where
  eq_of_compare {a b} h := by
    cases a
    cases b
    exact congrArg Id.mk (Std.LawfulEqCmp.eq_of_compare h)

instance : Serialize Id := ⟨fun id => .bytes id.bytes⟩

instance : LawfulSerialize Id where
  toCbor_injective {a b} h := by
    cases a
    cases b
    exact congrArg Id.mk (Cbor.Value.bytes.inj h)

structure EndorsementView where
  workingPub : Bytes
  notBefore : UInt64
  notAfter : UInt64
  deriving DecidableEq

instance : Serialize EndorsementView where
  toCbor v := struct (field "working_pub" v.workingPub ++ (field "not_before" v.notBefore ++
    field "not_after" v.notAfter))

instance : LawfulSerialize EndorsementView where
  toCbor_injective {a b} h := by
    cases a
    cases b
    obtain ⟨rfl, h⟩ := field_append_inj (struct_injective h)
    obtain ⟨rfl, h⟩ := field_append_inj h
    obtain rfl := field_inj h
    rfl

structure RevocationView where
  workingPub : Bytes
  issuedAt : UInt64
  deriving DecidableEq

instance : Serialize RevocationView where
  toCbor v := struct (field "working_pub" v.workingPub ++ field "issued_at" v.issuedAt)

instance : LawfulSerialize RevocationView where
  toCbor_injective {a b} h := by
    cases a
    cases b
    obtain ⟨rfl, h⟩ := field_append_inj (struct_injective h)
    obtain rfl := field_inj h
    rfl

structure KeyEndorsement where
  workingPub : Bytes
  notBefore : UInt64
  notAfter : UInt64
  rootSig : Bytes
  deriving DecidableEq

def KeyEndorsement.view (e : KeyEndorsement) : EndorsementView :=
  { workingPub := e.workingPub, notBefore := e.notBefore, notAfter := e.notAfter }

structure Revocation where
  workingPub : Bytes
  issuedAt : UInt64
  rootSig : Bytes
  deriving DecidableEq

def Revocation.view (r : Revocation) : RevocationView :=
  { workingPub := r.workingPub, issuedAt := r.issuedAt }

structure RevocationSet where
  revoked : Finset Bytes

namespace RevocationSet

def new : RevocationSet := ⟨∅⟩

def revokeKey (set : RevocationSet) (workingPub : Bytes) : RevocationSet :=
  ⟨insert workingPub set.revoked⟩

def isRevoked (set : RevocationSet) (workingPub : Bytes) : Bool := workingPub ∈ set.revoked

@[simp] theorem isRevoked_new (key : Bytes) : new.isRevoked key = false := rfl

@[simp] theorem isRevoked_revokeKey (set : RevocationSet) (workingPub key : Bytes) :
    (set.revokeKey workingPub).isRevoked key = (decide (key = workingPub) || set.isRevoked key) := by
  simp [isRevoked, revokeKey]

end RevocationSet

variable (crypto : Crypto)

def Id.fromRootPublic (rootPub : Bytes) : Except Error Id := do
  failIf (rootPub.length ≠ 32) .badKey
  return ⟨crypto.sha256 rootPub⟩

def verifyEndorsement (rootPub : Bytes) (e : KeyEndorsement) : Except Error Unit := do
  let msg ← signingBytes endorseDomain e.view
  (verifyRaw crypto rootPub msg e.rootSig).mapError fun _ => .badEndorsement

def verifyRevocation (rootPub : Bytes) (r : Revocation) : Except Error Unit := do
  let msg ← signingBytes revokeDomain r.view
  (verifyRaw crypto rootPub msg r.rootSig).mapError fun _ => .badEndorsement

/-- Verify that `signerPub` is a currently valid working key for the identity rooted at `rootPub`:
id binding, a matching root endorsement valid at `now`, and not revoked. -/
def verifyWorkingKey (rootPub : Bytes) (id : Id) (endorsements : List KeyEndorsement)
    (signerPub : Bytes) (now : UInt64) (revocations : RevocationSet) : Except Error Unit := do
  let expected ← Id.fromRootPublic crypto rootPub
  failIf (expected ≠ id) .idMismatch
  let e ← okOr (endorsements.find? fun e => e.workingPub == signerPub) .noValidEndorsement
  verifyEndorsement crypto rootPub e
  failIf (now < e.notBefore ∨ now > e.notAfter) .endorsementExpired
  failIf (revocations.isRevoked signerPub) .revoked

variable {crypto}

def RootKey.id (root : RootKey crypto) : Id := ⟨crypto.sha256 root.public⟩

def RootKey.endorse (root : RootKey crypto) (workingPub : Bytes) (notBefore notAfter : UInt64) :
    Except Error KeyEndorsement := do
  let view : EndorsementView := { workingPub, notBefore, notAfter }
  let msg ← signingBytes endorseDomain view
  return { workingPub, notBefore, notAfter, rootSig := crypto.sign root.signing msg }

def RootKey.revoke (root : RootKey crypto) (workingPub : Bytes) (issuedAt : UInt64) :
    Except Error Revocation := do
  let view : RevocationView := { workingPub, issuedAt }
  let msg ← signingBytes revokeDomain view
  return { workingPub, issuedAt, rootSig := crypto.sign root.signing msg }

/-! ### What the checks accept -/

theorem Id.fromRootPublic_eq_ok {rootPub : Bytes} {id : Id} :
    Id.fromRootPublic crypto rootPub = .ok id ↔
      rootPub.length = 32 ∧ ⟨crypto.sha256 rootPub⟩ = id := by
  simp only [Id.fromRootPublic, bind_eq_ok, exists_unit, failIf_eq_ok, ne_eq, not_not, pure_eq_ok]

theorem RootKey.fromRootPublic (root : RootKey crypto) :
    Id.fromRootPublic crypto root.public = .ok root.id :=
  Id.fromRootPublic_eq_ok.mpr ⟨crypto.verifyingKey_length _, rfl⟩

theorem verifyEndorsement_eq_ok {rootPub : Bytes} {e : KeyEndorsement} :
    verifyEndorsement crypto rootPub e = .ok () ↔
      ∃ msg, signingBytes endorseDomain e.view = .ok msg ∧
        verifyRaw crypto rootPub msg e.rootSig = .ok () := by
  simp only [verifyEndorsement, bind_eq_ok, mapError_ok_iff]

/-- The working key is the one named by the first matching endorsement, and everything but the
revocation set is checked against that endorsement. -/
theorem verifyWorkingKey_eq_ok {rootPub : Bytes} {id : Id} {endorsements : List KeyEndorsement}
    {signerPub : Bytes} {now : UInt64} {revocations : RevocationSet} :
    verifyWorkingKey crypto rootPub id endorsements signerPub now revocations = .ok () ↔
      Id.fromRootPublic crypto rootPub = .ok id ∧
      (∃ e, (endorsements.find? fun e => e.workingPub == signerPub) = some e ∧
        verifyEndorsement crypto rootPub e = .ok () ∧ e.notBefore ≤ now ∧ now ≤ e.notAfter) ∧
      revocations.isRevoked signerPub = false := by
  simp only [verifyWorkingKey, bind_eq_ok, exists_unit, failIf_eq_ok, okOr_eq_ok, ne_eq, not_not,
    not_or, gt_iff_lt, UInt64.not_lt, Bool.not_eq_true]
  constructor
  · rintro ⟨_, hid, rfl, e, he, hsig, hwindow, hrevoked⟩
    exact ⟨hid, ⟨e, he, hsig, hwindow⟩, hrevoked⟩
  · rintro ⟨hid, ⟨e, he, hsig, hwindow⟩, hrevoked⟩
    exact ⟨id, hid, rfl, e, he, hsig, hwindow, hrevoked⟩

end Thicket
