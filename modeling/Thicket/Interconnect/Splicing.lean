import Thicket.Interconnect.Grant

/-!
# Links cannot be moved between chains

A link is signed over its own contents, the target and the previous link's signature, and the bytes
that are signed determine all of these. A grant is therefore a linked chain whose tags are its
signatures, and what a signature pins down is the whole chain up to its link.
-/

namespace Thicket.Grant

open Cbor (Bytes)
open Result Serde

variable {crypto : Crypto}

/-- A sealed link carries a signature that verifies, which is never the head's empty `prev`. -/
theorem Sealed.sig_ne_nil {target : Id} {prev : Bytes} {link : GrantLink}
    (h : Sealed crypto target prev link) : link.sig ≠ [] := by
  obtain ⟨_, -, hverify⟩ := h
  exact ne_nil_of_verifyRaw hverify

/-- What an issuer signs leaves out nothing of a link but the signature made of it. -/
theorem view_inj {target target' : Id} {prev prev' : Bytes} {link link' : GrantLink}
    (hview : link.view target prev = link'.view target' prev') (hsig : link.sig = link'.sig) :
    target = target' ∧ prev = prev' ∧ link = link' := by
  obtain ⟨issuer, audience, caveats, sig⟩ := link
  obtain ⟨issuer', audience', caveats', sig'⟩ := link'
  simp only [GrantLink.view, LinkView.mk.injEq] at hview
  obtain ⟨htarget, rfl, rfl, rfl, hprev⟩ := hview
  obtain rfl : sig = sig' := hsig
  exact ⟨htarget, hprev, rfl⟩

theorem Sealed.eq_of_sig_eq (hbind : crypto.SignaturesBind) {target target' : Id}
    {prev prev' : Bytes} {link link' : GrantLink} (h : Sealed crypto target prev link)
    (h' : Sealed crypto target' prev' link') (hsig : link.sig = link'.sig) :
    target = target' ∧ prev = prev' ∧ link = link' := by
  obtain ⟨msg, hmsg, hverify⟩ := h
  obtain ⟨msg', hmsg', hverify'⟩ := h'
  rw [← hsig] at hverify'
  obtain ⟨-, rfl⟩ := hbind hverify hverify'
  exact view_inj (signingBytes_injective hmsg hmsg') hsig

theorem sealed_binding (hbind : crypto.SignaturesBind) :
    LinkedChain.Binding GrantLink.sig (Sealed crypto) [] where
  inj h h' hsig := h.eq_of_sig_eq hbind h' hsig
  ne_root h := h.sig_ne_nil

variable {grant grant' : Grant} {rootPub rootPub' callerPub callerPub' : Bytes}
  {endorsements endorsements' : List KeyEndorsement} {capability capability' : String}
  {now now' : UInt64} {revocations revocations' : RevocationSet}

/-- Two accepted grants that share a signature value share it at the same position, are grants for
the same target, and have the same links up to there. -/
theorem verify_no_splicing (hbind : crypto.SignaturesBind)
    (h : grant.verify crypto rootPub endorsements callerPub capability now revocations = .ok ())
    (h' : grant'.verify crypto rootPub' endorsements' callerPub' capability' now' revocations'
      = .ok ()) {i j : Nat} {link link' : GrantLink} (hlink : grant.links[i]? = some link)
    (hlink' : grant'.links[j]? = some link') (hsig : link.sig = link'.sig) :
    i = j ∧ grant.target = grant'.target ∧
      grant.links.take (i + 1) = grant'.links.take (i + 1) := by
  have hlinked := (verify_eq_ok.mp h).linked
  have hlinked' := (verify_eq_ok.mp h').linked
  obtain ⟨rfl, htarget, htake⟩ :=
    hlinked.prefix_eq (sealed_binding hbind) hlinked' hlink hlink' hsig
  exact ⟨rfl, htarget, htake⟩

/-! ### A delegation under recorded signatures

The holder of key 2, endorsed by root 1, issues to key 3, which delegates to key 4. -/

def recordedTarget : Id := ⟨checksum (seedPublic 1)⟩

def recordedEndorsement : KeyEndorsement :=
  { workingPub := seedPublic 2, notBefore := 0, notAfter := 1000, rootSig := List.replicate 64 10 }

def recordedHead : GrantLink :=
  { issuerPub := seedPublic 2, audiencePub := seedPublic 3, caveats := .new ["*"] 100,
    sig := List.replicate 64 11 }

def recordedInner : GrantLink :=
  { issuerPub := seedPublic 3, audiencePub := seedPublic 4, caveats := .new ["read"] 50,
    sig := List.replicate 64 12 }

def recordedLink (link : GrantLink) (prev : Bytes) : Signature :=
  (link.issuerPub, valueOr (signingBytes grantDomain (link.view recordedTarget prev)) [], link.sig)

def recordedSignatures : List Signature :=
  [(seedPublic 1, valueOr (signingBytes endorseDomain recordedEndorsement.view) [],
      recordedEndorsement.rootSig),
    recordedLink recordedHead [], recordedLink recordedInner recordedHead.sig]

/-- The grant to key 3 and the sub-grant to key 4 share their head. -/
theorem verify_no_splicing_recorded :
    0 = 0 ∧ recordedTarget = recordedTarget ∧ [recordedHead].take 1 =
      [recordedHead, recordedInner].take 1 := by
  have hbind : (Crypto.recorded recordedSignatures).SignaturesBind :=
    Crypto.recorded_signaturesBind (by decide +kernel)
  have hissued : Grant.verify (Crypto.recorded recordedSignatures) ⟨recordedTarget, [recordedHead]⟩
      (seedPublic 1) [recordedEndorsement] (seedPublic 3) "write" 80 .new = .ok () := by
    decide +kernel
  have hdelegated : Grant.verify (Crypto.recorded recordedSignatures)
      ⟨recordedTarget, [recordedHead, recordedInner]⟩ (seedPublic 1) [recordedEndorsement]
      (seedPublic 4) "read" 10 .new = .ok () := by decide +kernel
  have hhead : (⟨recordedTarget, [recordedHead]⟩ : Grant).links[0]? = some recordedHead := rfl
  have hhead' : (⟨recordedTarget, [recordedHead, recordedInner]⟩ : Grant).links[0]?
      = some recordedHead := rfl
  exact verify_no_splicing hbind hissued hdelegated hhead hhead' rfl

end Thicket.Grant
