import Thicket.Core.Identity
import Thicket.Lib.LinkedChain
import Mathlib.Data.List.Chain

/-!
# Capability grants

A grant is a chain of links rooted at a target identity. The target issues the head link; a holder
attenuates by appending a link of its own, signed over the previous link's signature. Verification
walks the chain from the head, so what it establishes is read off the loop once, in
`Grant.verify_eq_ok`, and every later result starts there.
-/

namespace Thicket

open Cbor (Bytes)
open Result Serde

inductive InterconnectError where
  | core (e : Error)
  | emptyGrant
  | targetMismatch
  | brokenChain
  | badSignature
  | badAttenuation
  | capabilityNotAllowed
  | expired
  | audienceMismatch
  | notHolder
  | badEnvelope
  | badProof
  deriving DecidableEq, Repr

def liftCore {α : Type} (x : Except Error α) : Except InterconnectError α := x.mapError .core

@[simp] theorem liftCore_eq_ok {α : Type} {x : Except Error α} {a : α} :
    liftCore x = .ok a ↔ x = .ok a :=
  mapError_ok_iff _ _ _

def grantDomain : String := "thicket-grant-v1"

structure Caveats where
  capabilities : BTreeSet String
  notAfter : UInt64
  constraints : BTreeMap String String
  deriving DecidableEq

namespace Caveats

def new (capabilities : List String) (notAfter : UInt64) : Caveats :=
  { capabilities := .ofList capabilities, notAfter, constraints := ∅ }

def allowsCapability (self : Caveats) (cap : String) : Bool :=
  self.capabilities.contains "*" || self.capabilities.contains cap

def ensureNarrows (self parent : Caveats) : Except InterconnectError Unit := do
  failIf (¬parent.capabilities.contains "*" ∧
    self.capabilities.toList.any fun c => c == "*" || !parent.capabilities.contains c)
    .badAttenuation
  failIf (self.notAfter > parent.notAfter) .badAttenuation
  failIf (parent.constraints.toList.any fun (k, v) => self.constraints[k]? != some v)
    .badAttenuation

end Caveats

instance : Serialize Caveats where
  toCbor c := struct (field "capabilities" c.capabilities ++ (field "not_after" c.notAfter ++
    field "constraints" c.constraints))

instance : LawfulSerialize Caveats where
  toCbor_injective {a b} h := by
    cases a
    cases b
    obtain ⟨rfl, h⟩ := field_append_inj (struct_injective h)
    obtain ⟨rfl, h⟩ := field_append_inj h
    obtain rfl := field_inj h
    rfl

structure GrantLink where
  issuerPub : Bytes
  audiencePub : Bytes
  caveats : Caveats
  sig : Bytes
  deriving DecidableEq

/-- What a link's issuer signs: the link without its signature, the target, and `prev`, the
signature of the link before it, empty for the head. -/
structure LinkView where
  target : Id
  issuerPub : Bytes
  audiencePub : Bytes
  caveats : Caveats
  prev : Bytes
  deriving DecidableEq

instance : Serialize LinkView where
  toCbor v := struct (field "target" v.target ++ (field "issuer_pub" v.issuerPub ++
    (field "audience_pub" v.audiencePub ++ (field "caveats" v.caveats ++ field "prev" v.prev))))

instance : LawfulSerialize LinkView where
  toCbor_injective {a b} h := by
    cases a
    cases b
    obtain ⟨rfl, h⟩ := field_append_inj (struct_injective h)
    obtain ⟨rfl, h⟩ := field_append_inj h
    obtain ⟨rfl, h⟩ := field_append_inj h
    obtain ⟨rfl, h⟩ := field_append_inj h
    obtain rfl := field_inj h
    rfl

def GrantLink.view (link : GrantLink) (target : Id) (prev : Bytes) : LinkView :=
  { target, issuerPub := link.issuerPub, audiencePub := link.audiencePub, caveats := link.caveats,
    prev }

structure Grant where
  target : Id
  links : List GrantLink
  deriving DecidableEq

instance : Serialize GrantLink where
  toCbor l := struct (field "issuer_pub" l.issuerPub ++ (field "audience_pub" l.audiencePub ++
    (field "caveats" l.caveats ++ field "sig" l.sig)))

instance : LawfulSerialize GrantLink where
  toCbor_injective {a b} h := by
    cases a
    cases b
    obtain ⟨rfl, h⟩ := field_append_inj (struct_injective h)
    obtain ⟨rfl, h⟩ := field_append_inj h
    obtain ⟨rfl, h⟩ := field_append_inj h
    obtain rfl := field_inj h
    rfl

instance : Serialize Grant where
  toCbor g := struct (field "target" g.target ++ field "links" g.links)

instance : LawfulSerialize Grant where
  toCbor_injective {a b} h := by
    cases a
    cases b
    obtain ⟨rfl, h⟩ := field_append_inj (struct_injective h)
    obtain rfl := field_inj h
    rfl

namespace Grant

variable {crypto : Crypto}

def issue (target : Id) (targetKey : WorkingKey crypto) (audiencePub : Bytes) (caveats : Caveats) :
    Except InterconnectError Grant := do
  let issuerPub := targetKey.public
  let view : LinkView := { target, issuerPub, audiencePub, caveats, prev := [] }
  let sig := targetKey.sign (← liftCore (signingBytes grantDomain view))
  return { target, links := [{ issuerPub, audiencePub, caveats, sig }] }

/-- Attenuate: the current holder issues a narrower sub-grant to a new delegate. -/
def attenuate (self : Grant) (holderKey : WorkingKey crypto) (newAudiencePub : Bytes)
    (caveats : Caveats) : Except InterconnectError Grant := do
  let last ← okOr self.links.getLast? .emptyGrant
  failIf (holderKey.public ≠ last.audiencePub) .notHolder
  caveats.ensureNarrows last.caveats
  let issuerPub := holderKey.public
  let view : LinkView :=
    { target := self.target, issuerPub, audiencePub := newAudiencePub, caveats, prev := last.sig }
  let sig := holderKey.sign (← liftCore (signingBytes grantDomain view))
  return { target := self.target,
           links := self.links ++ [{ issuerPub, audiencePub := newAudiencePub, caveats, sig }] }

variable (crypto)

/-- The body of the verification loop. `previous` is `self.links[i - 1]`, absent at `i = 0`; the
loop's `prev` and `parent` are its signature and its caveats. -/
def verifyLink (target : Id) (targetRootPub : Bytes) (targetEndorsements : List KeyEndorsement)
    (capability : String) (now : UInt64) (revocations : RevocationSet)
    (previous : Option GrantLink) (link : GrantLink) : Except InterconnectError Unit := do
  failIf (revocations.isRevoked link.issuerPub ∨ revocations.isRevoked link.audiencePub)
    (.core .revoked)
  match previous with
  | none =>
      liftCore (verifyWorkingKey crypto targetRootPub target targetEndorsements link.issuerPub now
        revocations)
  | some before => failIf (link.issuerPub ≠ before.audiencePub) .brokenChain
  match previous with
  | none => pure ()
  | some before => link.caveats.ensureNarrows before.caveats
  let view := link.view target ((previous.map GrantLink.sig).getD [])
  let msg ← liftCore (signingBytes grantDomain view)
  (verifySignature crypto link.issuerPub msg link.sig).mapError fun _ => .badSignature
  failIf (¬link.caveats.allowsCapability capability) .capabilityNotAllowed
  failIf (now > link.caveats.notAfter) .expired

def verifyLinks (target : Id) (targetRootPub : Bytes) (targetEndorsements : List KeyEndorsement)
    (capability : String) (now : UInt64) (revocations : RevocationSet) :
    Option GrantLink → List GrantLink → Except InterconnectError Unit
  | _, [] => pure ()
  | previous, link :: links => do
      verifyLink crypto target targetRootPub targetEndorsements capability now revocations previous
        link
      verifyLinks target targetRootPub targetEndorsements capability now revocations (some link)
        links

def verify (self : Grant) (targetRootPub : Bytes) (targetEndorsements : List KeyEndorsement)
    (callerPub : Bytes) (capability : String) (now : UInt64) (revocations : RevocationSet) :
    Except InterconnectError Unit := do
  failIf self.links.isEmpty .emptyGrant
  let id ← liftCore (Id.fromRootPublic crypto targetRootPub)
  failIf (id ≠ self.target) .targetMismatch
  verifyLinks crypto self.target targetRootPub targetEndorsements capability now revocations none
    self.links
  let last ← okOr self.links.getLast? .emptyGrant
  failIf (last.audiencePub ≠ callerPub) .audienceMismatch

def satisfies (self : Grant) (attributes : BTreeMap String String) : Bool :=
  match self.links.getLast? with
  | none => true
  | some link => link.caveats.constraints.toList.all fun (k, v) => attributes[k]? == some v

end Grant

/-! ### What the checks establish -/

namespace Caveats

theorem allowsCapability_iff {c : Caveats} {cap : String} :
    c.allowsCapability cap = true ↔ "*" ∈ c.capabilities ∨ cap ∈ c.capabilities := by
  simp [allowsCapability]

/-- What `ensureNarrows` checks, entry by entry. -/
structure Narrows (child parent : Caveats) : Prop where
  capabilities : "*" ∈ parent.capabilities ∨
    ∀ c ∈ child.capabilities, c ≠ "*" ∧ c ∈ parent.capabilities
  notAfter : child.notAfter ≤ parent.notAfter
  constraints : ∀ k v : String, parent.constraints[k]? = some v → child.constraints[k]? = some v

theorem ensureNarrows_eq_ok {child parent : Caveats} :
    child.ensureNarrows parent = .ok () ↔ child.Narrows parent := by
  have hcaps : (¬(¬parent.capabilities.contains "*" = true ∧
        (child.capabilities.toList.any fun c => c == "*" || !parent.capabilities.contains c)
          = true)) ↔
      ("*" ∈ parent.capabilities ∨
        ∀ c ∈ child.capabilities, c ≠ "*" ∧ c ∈ parent.capabilities) := by
    by_cases hstar : "*" ∈ parent.capabilities
    · simp [hstar]
    · simp [hstar, Std.ExtTreeSet.mem_toList]
  have hconstraints : (¬(parent.constraints.toList.any fun (k, v) =>
        child.constraints[k]? != some v) = true) ↔
      ∀ k v : String, parent.constraints[k]? = some v → child.constraints[k]? = some v := by
    simp [Std.ExtTreeMap.mem_toList_iff_getElem?_eq_some]
  simp only [ensureNarrows, bind_eq_ok, exists_unit, failIf_eq_ok, hcaps, hconstraints, gt_iff_lt,
    UInt64.not_lt]
  exact ⟨fun ⟨hc, ht, hk⟩ => ⟨hc, ht, hk⟩, fun h => ⟨h.capabilities, h.notAfter, h.constraints⟩⟩

end Caveats

namespace Grant

variable (crypto : Crypto)

/-- The link is signed by its issuer for `target` over the previous signature `prev`. -/
def Sealed (target : Id) (prev : Bytes) (link : GrantLink) : Prop :=
  ∃ msg, signingBytes grantDomain (link.view target prev) = .ok msg ∧
    verifySignature crypto link.issuerPub msg link.sig = .ok ()

/-- The chain step: `link` is issued by the audience of `before` and narrows it. -/
structure Follows (before link : GrantLink) : Prop where
  issued : link.issuerPub = before.audiencePub
  narrows : link.caveats.Narrows before.caveats

/-- The checks on a link that look at no other link. -/
structure Admits (capability : String) (now : UInt64) (revocations : RevocationSet)
    (link : GrantLink) : Prop where
  issuer : revocations.isRevoked link.issuerPub = false
  audience : revocations.isRevoked link.audiencePub = false
  capability : link.caveats.allowsCapability capability = true
  live : now ≤ link.caveats.notAfter

/-- Everything verification establishes about a grant. -/
structure Accepted (grant : Grant) (targetRootPub : Bytes)
    (targetEndorsements : List KeyEndorsement) (callerPub : Bytes) (capability : String)
    (now : UInt64) (revocations : RevocationSet) : Prop where
  target : Id.fromRootPublic crypto targetRootPub = .ok grant.target
  head : ∃ link, grant.links.head? = some link ∧
    verifyWorkingKey crypto targetRootPub grant.target targetEndorsements link.issuerPub now
      revocations = .ok ()
  audience : ∃ link, grant.links.getLast? = some link ∧ link.audiencePub = callerPub
  admits : ∀ link ∈ grant.links, Admits capability now revocations link
  follows : grant.links.IsChain Follows
  linked : LinkedChain.Linked GrantLink.sig (Sealed crypto) grant.target [] grant.links

variable {crypto} {target : Id} {targetRootPub : Bytes} {targetEndorsements : List KeyEndorsement}
  {callerPub : Bytes} {capability : String} {now : UInt64} {revocations : RevocationSet}

private theorem admits_iff {link : GrantLink} :
    Admits capability now revocations link ↔
      ¬(revocations.isRevoked link.issuerPub = true ∨ revocations.isRevoked link.audiencePub = true) ∧
        ¬¬link.caveats.allowsCapability capability = true ∧ ¬now > link.caveats.notAfter := by
  rw [not_or, Bool.not_eq_true, Bool.not_eq_true, not_not, gt_iff_lt, UInt64.not_lt]
  exact ⟨fun h => ⟨⟨h.issuer, h.audience⟩, h.capability, h.live⟩,
    fun ⟨⟨hi, ha⟩, hc, hl⟩ => ⟨hi, ha, hc, hl⟩⟩

theorem verifyLink_head_eq_ok {link : GrantLink} :
    verifyLink crypto target targetRootPub targetEndorsements capability now revocations none link
      = .ok () ↔ Admits capability now revocations link ∧
        verifyWorkingKey crypto targetRootPub target targetEndorsements link.issuerPub now
          revocations = .ok () ∧ Sealed crypto target [] link := by
  simp only [verifyLink, bind_eq_ok, exists_unit, failIf_eq_ok, liftCore_eq_ok,
    mapError_ok_iff, Option.map_none, Option.getD_none, admits_iff, Sealed]
  constructor
  · rintro ⟨hrevoked, hkey, msg, hmsg, hsig, hcap, hlive⟩
    exact ⟨⟨hrevoked, hcap, hlive⟩, hkey, msg, hmsg, hsig⟩
  · rintro ⟨⟨hrevoked, hcap, hlive⟩, hkey, msg, hmsg, hsig⟩
    exact ⟨hrevoked, hkey, msg, hmsg, hsig, hcap, hlive⟩

theorem verifyLink_inner_eq_ok {before link : GrantLink} :
    verifyLink crypto target targetRootPub targetEndorsements capability now revocations
      (some before) link = .ok () ↔ Admits capability now revocations link ∧
        Follows before link ∧ Sealed crypto target before.sig link := by
  simp only [verifyLink, bind_eq_ok, exists_unit, failIf_eq_ok, liftCore_eq_ok, mapError_ok_iff,
    Caveats.ensureNarrows_eq_ok, Option.map_some, Option.getD_some, admits_iff, ne_eq, not_not,
    Sealed]
  constructor
  · rintro ⟨hrevoked, hissued, hnarrows, msg, hmsg, hsig, hcap, hlive⟩
    exact ⟨⟨hrevoked, hcap, hlive⟩, ⟨hissued, hnarrows⟩, msg, hmsg, hsig⟩
  · rintro ⟨⟨hrevoked, hcap, hlive⟩, ⟨hissued, hnarrows⟩, msg, hmsg, hsig⟩
    exact ⟨hrevoked, hissued, hnarrows, msg, hmsg, hsig, hcap, hlive⟩

/-- The loop after its first link: every remaining link is admitted, follows the one before it and
is sealed over its signature. -/
theorem verifyLinks_inner_eq_ok {before : GrantLink} {links : List GrantLink} :
    verifyLinks crypto target targetRootPub targetEndorsements capability now revocations
      (some before) links = .ok () ↔ (∀ link ∈ links, Admits capability now revocations link) ∧
        (before :: links).IsChain Follows ∧
        LinkedChain.Linked GrantLink.sig (Sealed crypto) target before.sig links := by
  induction links generalizing before with
  | nil => simp [verifyLinks, LinkedChain.Linked]
  | cons link links ih =>
      simp only [verifyLinks, bind_eq_ok, exists_unit, verifyLink_inner_eq_ok, ih,
        List.forall_mem_cons, List.isChain_cons_cons, LinkedChain.Linked]
      constructor
      · rintro ⟨⟨hadmitted, hfollow, hseal⟩, hadmits, hfollows, hlinked⟩
        exact ⟨⟨hadmitted, hadmits⟩, ⟨hfollow, hfollows⟩, hseal, hlinked⟩
      · rintro ⟨⟨hadmitted, hadmits⟩, ⟨hfollow, hfollows⟩, hseal, hlinked⟩
        exact ⟨⟨hadmitted, hfollow, hseal⟩, hadmits, hfollows, hlinked⟩

/-- **What verification means.** `verify` succeeds exactly on the accepted grants. -/
theorem verify_eq_ok {self : Grant} :
    self.verify crypto targetRootPub targetEndorsements callerPub capability now revocations
      = .ok () ↔ self.Accepted crypto targetRootPub targetEndorsements callerPub capability now
        revocations := by
  obtain ⟨target, links⟩ := self
  cases links with
  | nil =>
      simp only [verify, bind_eq_ok, exists_unit, failIf_eq_ok]
      refine ⟨fun h => absurd rfl h.1, fun h => ?_⟩
      obtain ⟨link, hlink, -⟩ := h.head
      simp at hlink
  | cons head links =>
      simp only [verify, bind_eq_ok, exists_unit, failIf_eq_ok, liftCore_eq_ok, okOr_eq_ok, ne_eq,
        not_not, verifyLinks, verifyLink_head_eq_ok, verifyLinks_inner_eq_ok]
      constructor
      · rintro ⟨-, expected, hid, rfl, ⟨⟨hadmitted, hkey, hseal⟩, hadmits, hfollows, hlinked⟩, last,
          hlast, haud⟩
        exact { target := hid, head := ⟨head, rfl, hkey⟩, audience := ⟨last, hlast, haud⟩,
                admits := List.forall_mem_cons.mpr ⟨hadmitted, hadmits⟩, follows := hfollows,
                linked := ⟨hseal, hlinked⟩ }
      · rintro ⟨hid, ⟨link, hlink, hkey⟩, ⟨last, hlast, haud⟩, hadmits, hfollows, hseal, hlinked⟩
        obtain rfl : head = link := Option.some.inj hlink
        obtain ⟨hadmitted, hadmits⟩ := List.forall_mem_cons.mp hadmits
        exact ⟨by simp, target, hid, rfl, ⟨⟨hadmitted, hkey, hseal⟩, hadmits, hfollows, hlinked⟩, last,
          hlast, haud⟩

end Grant

end Thicket
