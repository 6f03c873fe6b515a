import Thicket.Interconnect.Envelope
import Thicket.Interconnect.Handshake
import Thicket.Net.Secure
import Thicket.Trust.Attestation

/-!
# Signing inputs never collide

Eight kinds of objects are signed, each under a domain tag of its own. The tag ends at the first
NUL, so the signed bytes determine the kind, and behind the tag they determine the object.
-/

namespace Thicket

open Cbor (Bytes)
open Result Serde

/-! ### The tag -/

/-- Two inputs that split at a separator which neither first part contains split alike. -/
theorem append_separator_inj {α : Type} {sep : α} {xs ys as bs : List α} (hx : sep ∉ xs)
    (hy : sep ∉ ys) (h : xs ++ sep :: as = ys ++ sep :: bs) : xs = ys ∧ as = bs := by
  induction xs generalizing ys with
  | nil =>
      cases ys with
      | nil => exact ⟨rfl, (List.cons.inj h).2⟩
      | cons y ys =>
          obtain rfl : sep = y := (List.cons.inj h).1
          exact absurd List.mem_cons_self hy
  | cons x xs ih =>
      rw [List.mem_cons, not_or] at hx
      cases ys with
      | nil => exact absurd (List.cons.inj h).1.symm hx.1
      | cons y ys =>
          rw [List.mem_cons, not_or] at hy
          obtain ⟨rfl, htail⟩ := List.cons.inj h
          obtain ⟨rfl, rfl⟩ := ih hx.2 hy.2 htail
          exact ⟨rfl, rfl⟩

/-! ### The kinds -/

inductive SigningKind where
  | endorsement
  | revocation
  | record
  | envelope
  | grantLink
  | handshakeProof
  | noiseStatic
  | attestation
  deriving DecidableEq

namespace SigningKind

def domain : SigningKind → String
  | endorsement => endorseDomain
  | revocation => revokeDomain
  | record => recordDomain
  | envelope => envelopeDomain
  | grantLink => grantDomain
  | handshakeProof => handshakeDomain
  | noiseStatic => staticBindingDomain
  | attestation => attestDomain

theorem domain_injective {k k' : SigningKind} (h : k.domain = k'.domain) : k = k' := by
  revert h
  cases k <;> cases k' <;> decide

theorem nul_not_mem_domain (k : SigningKind) : 0 ∉ Cbor.utf8 k.domain := by
  cases k <;> decide

end SigningKind

/-- An object that some key of the system signs. -/
inductive Signable where
  | endorsement (view : EndorsementView)
  | revocation (view : RevocationView)
  | record (payload : RecordPayload)
  | envelope (payload : EnvelopePayload)
  | grantLink (view : LinkView)
  | handshakeProof (view : ProofView)
  | noiseStatic (noiseStaticPub : Bytes)
  | attestation (view : AttestView)

namespace Signable

def signingBytes : Signable → Except Error Bytes
  | endorsement view => Thicket.signingBytes endorseDomain view
  | revocation view => Thicket.signingBytes revokeDomain view
  | record payload => Thicket.signingBytes recordDomain payload
  | envelope payload => Thicket.signingBytes envelopeDomain payload
  | grantLink view => Thicket.signingBytes grantDomain view
  | handshakeProof view => Thicket.signingBytes handshakeDomain view
  | noiseStatic noiseStaticPub => Thicket.signingBytes staticBindingDomain noiseStaticPub
  | attestation view => Thicket.signingBytes attestDomain view

def kind : Signable → SigningKind
  | endorsement _ => .endorsement
  | revocation _ => .revocation
  | record _ => .record
  | envelope _ => .envelope
  | grantLink _ => .grantLink
  | handshakeProof _ => .handshakeProof
  | noiseStatic _ => .noiseStatic
  | attestation _ => .attestation

def item : Signable → Cbor.Value
  | endorsement view => toCbor view
  | revocation view => toCbor view
  | record payload => toCbor payload
  | envelope payload => toCbor payload
  | grantLink view => toCbor view
  | handshakeProof view => toCbor view
  | noiseStatic noiseStaticPub => toCbor noiseStaticPub
  | attestation view => toCbor view

theorem signingBytes_eq_ok {s : Signable} {msg : Bytes} : s.signingBytes = .ok msg ↔
    ∃ body, Cbor.encode s.item = some body ∧ Cbor.utf8 s.kind.domain ++ 0 :: body = msg := by
  have heq : s.signingBytes = (do
      let body ← okOr (Cbor.encode s.item) .serialization
      return Cbor.utf8 s.kind.domain ++ 0 :: body) := by
    cases s <;> rfl
  simp only [heq, bind_eq_ok, okOr_eq_ok, pure_eq_ok]

/-- The signed bytes determine the kind of the object and the data item behind the tag. -/
theorem kind_and_item_eq {a b : Signable} {msg : Bytes} (ha : a.signingBytes = .ok msg)
    (hb : b.signingBytes = .ok msg) : a.kind = b.kind ∧ a.item = b.item := by
  obtain ⟨bodyA, hbodyA, rfl⟩ := signingBytes_eq_ok.mp ha
  obtain ⟨bodyB, hbodyB, hmsg⟩ := signingBytes_eq_ok.mp hb
  obtain ⟨hdomain, rfl⟩ := append_separator_inj b.kind.nul_not_mem_domain a.kind.nul_not_mem_domain
    hmsg
  exact ⟨(SigningKind.domain_injective (Cbor.utf8_injective hdomain)).symm,
    Cbor.encode_injective hbodyA hbodyB⟩

theorem eq_of_kind_of_item {a b : Signable} (hkind : a.kind = b.kind) (hitem : a.item = b.item) :
    a = b := by
  cases a <;> cases b <;> simp only [kind, reduceCtorEq] at hkind <;>
    exact congrArg _ (toCbor_injective hitem)

end Signable

/-- **No collisions.** Equal signing inputs are of the same kind and of equal objects. -/
theorem signing_inputs_never_collide {a b : Signable} {msg : Bytes} (ha : a.signingBytes = .ok msg)
    (hb : b.signingBytes = .ok msg) : a = b := by
  obtain ⟨hkind, hitem⟩ := Signable.kind_and_item_eq ha hb
  exact Signable.eq_of_kind_of_item hkind hitem

/-- The view a link is signed over, with the capabilities in the order a caller lists them. -/
def sampleView (capabilities : List String) : LinkView :=
  { target := ⟨[1]⟩, issuerPub := [2], audiencePub := [3], caveats := .new capabilities 1000,
    prev := [] }

/-- Capabilities listed in another order are signed as the same bytes, so the views are the same. -/
theorem signing_inputs_never_collide_reordered :
    Signable.grantLink (sampleView ["write", "read"]) = .grantLink (sampleView ["read", "write"]) := by
  have hsigned : (Signable.grantLink (sampleView ["write", "read"])).signingBytes =
      .ok (valueOr (signingBytes grantDomain (sampleView ["read", "write"])) []) := by
    decide +kernel
  apply signing_inputs_never_collide hsigned
  decide +kernel

end Thicket
