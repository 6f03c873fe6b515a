import Thicket.Interconnect.Grant
import Mathlib.Data.Set.Basic

/-!
# Authority only narrows

The authority of a link is the set of requests its caveats permit. Narrowing caveats shrinks this
set, and set inclusion is transitive, so the comparison of neighbours that verification makes orders
every pair of links. For a chain that was built by issuing and attenuating this leaves only the last
link to check, which is what `verify_built` says.
-/

namespace Thicket

open Cbor (Bytes)
open Result Serde

/-- A use of a grant: a capability, a time, and the attributes constraints are matched against. -/
structure Request where
  capability : String
  time : UInt64
  attributes : BTreeMap String String

namespace Caveats

def MetBy (c : Caveats) (attributes : BTreeMap String String) : Prop :=
  ∀ k v : String, c.constraints[k]? = some v → attributes[k]? = some v

structure Permits (c : Caveats) (r : Request) : Prop where
  capability : c.allowsCapability r.capability = true
  live : r.time ≤ c.notAfter
  met : c.MetBy r.attributes

def authority (c : Caveats) : Set Request := {r | c.Permits r}

variable {child parent : Caveats}

theorem Narrows.allowsCapability (h : child.Narrows parent) {cap : String}
    (hcap : child.allowsCapability cap = true) : parent.allowsCapability cap = true := by
  rw [allowsCapability_iff] at hcap ⊢
  rcases h.capabilities with hstar | hsub
  · exact Or.inl hstar
  · rcases hcap with hstar | hcap
    · exact absurd rfl (hsub _ hstar).1
    · exact Or.inr (hsub _ hcap).2

theorem Narrows.metBy (h : child.Narrows parent) {attributes : BTreeMap String String}
    (hmet : child.MetBy attributes) : parent.MetBy attributes :=
  fun k v hkv => hmet k v (h.constraints k v hkv)

theorem Narrows.authority_subset (h : child.Narrows parent) :
    child.authority ⊆ parent.authority := by
  intro r hr
  exact ⟨h.allowsCapability hr.capability, UInt64.le_trans hr.live h.notAfter, h.metBy hr.met⟩

theorem metBy_constraints (c : Caveats) : c.MetBy c.constraints := fun _ _ h => h

end Caveats

namespace Grant

/-- The order a chain puts on its links: the later one permits no more. -/
def Within (before link : GrantLink) : Prop := link.caveats.authority ⊆ before.caveats.authority

instance : IsTrans GrantLink Within := ⟨fun _ _ _ hab hbc => hbc.trans hab⟩

variable {links : List GrantLink} {last : GrantLink}

/-- **Neighbours suffice.** In a chain whose neighbours narrow, every later link is within every
earlier one. -/
theorem pairwise_within (h : links.IsChain Follows) : links.Pairwise Within :=
  List.isChain_iff_pairwise.mp (h.imp fun _ _ hfollow => hfollow.narrows.authority_subset)

theorem last_within (h : links.IsChain Follows) (hlast : links.getLast? = some last) :
    ∀ link ∈ links, last.caveats.authority ⊆ link.caveats.authority := by
  intro link hlink
  obtain ⟨init, rfl⟩ := List.getLast?_eq_some_iff.mp hlast
  rcases List.mem_append.mp hlink with hinit | hlast
  · exact (List.pairwise_append.mp (pairwise_within h)).2.2 link hinit last
      (List.mem_singleton_self last)
  · rw [List.mem_singleton.mp hlast]

theorem satisfies_iff {grant : Grant} (hlast : grant.links.getLast? = some last)
    {attributes : BTreeMap String String} :
    grant.satisfies attributes = true ↔ last.caveats.MetBy attributes := by
  simp [satisfies, hlast, Caveats.MetBy, Std.ExtTreeMap.mem_toList_iff_getElem?_eq_some]

variable {crypto : Crypto} {grant : Grant} {targetRootPub : Bytes}
  {targetEndorsements : List KeyEndorsement} {callerPub : Bytes} {capability : String} {now : UInt64}
  {revocations : RevocationSet}

/-- Authority only narrows along an accepted grant: a request that a link permits is permitted by
every earlier link, the accepted capability and time are permitted by all of them, and attributes
that satisfy the grant meet the constraints of every link. -/
theorem verify_narrows (h : grant.verify crypto targetRootPub targetEndorsements callerPub capability
      now revocations = .ok ()) :
    (∀ i j, ∀ hj : j < grant.links.length, ∀ hij : i < j, ∀ r : Request,
      (grant.links[j]).caveats.Permits r → (grant.links[i]).caveats.Permits r) ∧
    (∀ link ∈ grant.links,
      link.caveats.allowsCapability capability = true ∧ now ≤ link.caveats.notAfter) ∧
    (∀ attributes, grant.satisfies attributes = true →
      ∀ link ∈ grant.links, link.caveats.MetBy attributes) := by
  have hacc := verify_eq_ok.mp h
  refine ⟨fun i j hj hij r hr => ?_, fun link hlink => ?_, fun attributes hsat link hlink => ?_⟩
  · exact List.pairwise_iff_getElem.mp (pairwise_within hacc.follows) i j (by omega) hj hij hr
  · exact ⟨(hacc.admits link hlink).capability, (hacc.admits link hlink).live⟩
  · obtain ⟨last, hlast, -⟩ := hacc.audience
    have hmem : last ∈ grant.links := List.mem_of_getLast? hlast
    -- the accepted capability and time complete the attributes to a request the last link permits
    have hpermits : last.caveats.Permits { capability, time := now, attributes } :=
      { capability := (hacc.admits last hmem).capability
        live := (hacc.admits last hmem).live
        met := (satisfies_iff hlast).mp hsat }
    exact (last_within hacc.follows hlast link hlink hpermits).met

def sampleRoot : RootKey Crypto.checked := ⟨(1 : UInt8)⟩

def sampleKey : WorkingKey Crypto.checked := ⟨(2 : UInt8)⟩

def sampleAlice : WorkingKey Crypto.checked := ⟨(3 : UInt8)⟩

def sampleBob : WorkingKey Crypto.checked := ⟨(4 : UInt8)⟩

def sampleEndorsement : KeyEndorsement :=
  valueOr (sampleRoot.endorse sampleKey.public 0 1000) ⟨[], 0, 0, []⟩

def sampleGrant : Grant :=
  valueOr (issue sampleRoot.id sampleKey sampleAlice.public (.new ["*"] 100)) ⟨⟨[]⟩, []⟩

def sampleSubGrant : Grant :=
  valueOr (sampleGrant.attenuate sampleAlice sampleBob.public (.new ["read"] 50)) ⟨⟨[]⟩, []⟩

theorem verify_narrows_subGrant :
    (∀ i j, ∀ hj : j < sampleSubGrant.links.length, ∀ hij : i < j, ∀ r : Request,
      (sampleSubGrant.links[j]).caveats.Permits r → (sampleSubGrant.links[i]).caveats.Permits r) ∧
    (∀ link ∈ sampleSubGrant.links,
      link.caveats.allowsCapability "read" = true ∧ 10 ≤ link.caveats.notAfter) ∧
    (∀ attributes, sampleSubGrant.satisfies attributes = true →
      ∀ link ∈ sampleSubGrant.links, link.caveats.MetBy attributes) := by
  have haccept : sampleSubGrant.verify Crypto.checked sampleRoot.public [sampleEndorsement]
      sampleBob.public "read" 10 .new = .ok () := by decide +kernel
  exact verify_narrows haccept

/-! ### Chains that were built -/

variable (crypto) in
/-- The grants made by issuing for `target` with `targetKey` and then attenuating. -/
inductive Built (target : Id) (targetKey : WorkingKey crypto) : Grant → Prop
  | issue {audiencePub : Bytes} {caveats : Caveats} {grant : Grant}
      (h : Grant.issue target targetKey audiencePub caveats = .ok grant) :
      Built target targetKey grant
  | attenuate {holderKey : WorkingKey crypto} {newAudiencePub : Bytes} {caveats : Caveats}
      {before grant : Grant} (hbefore : Built target targetKey before)
      (h : before.attenuate holderKey newAudiencePub caveats = .ok grant) :
      Built target targetKey grant

variable {target : Id} {targetKey : WorkingKey crypto}

def signedLink (key : WorkingKey crypto) (audiencePub : Bytes) (caveats : Caveats) (msg : Bytes) :
    GrantLink :=
  { issuerPub := key.public, audiencePub, caveats, sig := key.sign msg }

theorem signedLink_view {key : WorkingKey crypto} {audiencePub msg prev : Bytes}
    {caveats : Caveats} : (signedLink key audiencePub caveats msg).view target prev =
      { target, issuerPub := key.public, audiencePub, caveats, prev } := rfl

theorem issue_eq_ok {audiencePub : Bytes} {caveats : Caveats} :
    Grant.issue target targetKey audiencePub caveats = .ok grant ↔
      ∃ msg, signingBytes grantDomain ((signedLink targetKey audiencePub caveats msg).view target [])
          = .ok msg ∧
        grant = { target, links := [signedLink targetKey audiencePub caveats msg] } := by
  simp only [issue, bind_eq_ok, liftCore_eq_ok, pure_eq_ok, signedLink_view]
  constructor
  · rintro ⟨msg, hmsg, rfl⟩
    exact ⟨msg, hmsg, rfl⟩
  · rintro ⟨msg, hmsg, rfl⟩
    exact ⟨msg, hmsg, rfl⟩

theorem attenuate_eq_ok {before : Grant} {holderKey : WorkingKey crypto} {newAudiencePub : Bytes}
    {caveats : Caveats} :
    before.attenuate holderKey newAudiencePub caveats = .ok grant ↔
      ∃ last msg, before.links.getLast? = some last ∧ holderKey.public = last.audiencePub ∧
        caveats.Narrows last.caveats ∧
        signingBytes grantDomain
          ((signedLink holderKey newAudiencePub caveats msg).view before.target last.sig) = .ok msg ∧
        grant = { target := before.target,
                  links := before.links ++ [signedLink holderKey newAudiencePub caveats msg] } := by
  simp only [attenuate, bind_eq_ok, exists_unit, okOr_eq_ok, failIf_eq_ok, ne_eq, not_not,
    Caveats.ensureNarrows_eq_ok, liftCore_eq_ok, pure_eq_ok, signedLink_view]
  constructor
  · rintro ⟨last, hlast, hholder, hnarrows, msg, hmsg, rfl⟩
    exact ⟨last, msg, hlast, hholder, hnarrows, hmsg, rfl⟩
  · rintro ⟨last, msg, hlast, hholder, hnarrows, hmsg, rfl⟩
    exact ⟨last, hlast, hholder, hnarrows, msg, hmsg, rfl⟩

theorem sealed_signedLink (hsign : crypto.SignVerifies) {key : WorkingKey crypto}
    {audiencePub msg prev : Bytes} {caveats : Caveats}
    (hmsg : signingBytes grantDomain ((signedLink key audiencePub caveats msg).view target prev)
      = .ok msg) :
    Sealed crypto target prev (signedLink key audiencePub caveats msg) :=
  ⟨msg, hmsg, key.verify_sign hsign msg⟩

/-- What building a chain leaves for verification to find. -/
structure WellBuilt (crypto : Crypto) (target : Id) (issuerPub : Bytes) (grant : Grant) : Prop where
  bound : grant.target = target
  head : ∃ link, grant.links.head? = some link ∧ link.issuerPub = issuerPub
  follows : grant.links.IsChain Follows
  linked : LinkedChain.Linked GrantLink.sig (Sealed crypto) target [] grant.links

theorem Built.wellBuilt (hsign : crypto.SignVerifies) (h : Built crypto target targetKey grant) :
    WellBuilt crypto target targetKey.public grant := by
  induction h with
  | issue h =>
      obtain ⟨msg, hmsg, rfl⟩ := issue_eq_ok.mp h
      exact { bound := rfl
              head := ⟨_, rfl, rfl⟩
              follows := List.isChain_singleton _
              linked := ⟨sealed_signedLink hsign hmsg, trivial⟩ }
  | attenuate _ h ih =>
      obtain ⟨last, msg, hlast, hholder, hnarrows, hmsg, rfl⟩ := attenuate_eq_ok.mp h
      obtain ⟨head, hhead, hissuer⟩ := ih.head
      rw [ih.bound] at hmsg
      refine { bound := ih.bound, head := ⟨head, ?_, hissuer⟩, follows := ?_, linked := ?_ }
      · rw [List.head?_append, hhead]
        rfl
      · refine List.isChain_append.mpr ⟨ih.follows, List.isChain_singleton _, ?_⟩
        intro last' hlast' link hlink
        obtain rfl : last = last' := Option.some.inj (hlast.symm.trans hlast')
        obtain rfl := Option.some.inj hlink
        exact ⟨hholder, hnarrows⟩
      · exact ih.linked.append_of_getLast? hlast (sealed_signedLink hsign hmsg)

/-- A grant that was issued and then attenuated any number of times is accepted exactly when the
root key is the target's, the issuing key is a valid working key, no key of the chain is revoked, and
the last link is the caller's, allows the capability and is live. -/
theorem verify_built (hsign : crypto.SignVerifies) (h : Built crypto target targetKey grant) :
    grant.verify crypto targetRootPub targetEndorsements callerPub capability now revocations
      = .ok () ↔
      (targetRootPub.length = 32 ∧ ⟨crypto.sha256 targetRootPub⟩ = grant.target) ∧
      verifyWorkingKey crypto targetRootPub target targetEndorsements targetKey.public now
        revocations = .ok () ∧
      (∀ link ∈ grant.links, revocations.isRevoked link.issuerPub = false ∧
        revocations.isRevoked link.audiencePub = false) ∧
      ∃ last, grant.links.getLast? = some last ∧ last.audiencePub = callerPub ∧
        last.caveats.allowsCapability capability = true ∧ now ≤ last.caveats.notAfter := by
  have hbuilt := h.wellBuilt hsign
  obtain ⟨head, hhead, hissuer⟩ := hbuilt.head
  rw [verify_eq_ok, ← Id.fromRootPublic_eq_ok]
  constructor
  · intro hacc
    obtain ⟨link, hlink, hkey⟩ := hacc.head
    obtain ⟨last, hlast, haudience⟩ := hacc.audience
    obtain rfl : head = link := Option.some.inj (hhead.symm.trans hlink)
    rw [hissuer, hbuilt.bound] at hkey
    have hadmitted := hacc.admits last (List.mem_of_getLast? hlast)
    exact ⟨hacc.target, hkey, fun link hlink => ⟨(hacc.admits link hlink).issuer,
      (hacc.admits link hlink).audience⟩, last, hlast, haudience, hadmitted.capability, hadmitted.live⟩
  · rintro ⟨htarget, hkey, hrevoked, last, hlast, haudience, hcap, hlive⟩
    have hlinked := hbuilt.linked
    rw [← hbuilt.bound] at hkey hlinked
    refine { target := htarget, head := ⟨head, hhead, hissuer ▸ hkey⟩,
             audience := ⟨last, hlast, haudience⟩, admits := fun link hlink => ?_,
             follows := hbuilt.follows, linked := hlinked }
    -- the last link permits the request, and it is within every other link
    have hpermits : last.caveats.Permits
        { capability, time := now, attributes := last.caveats.constraints } :=
      ⟨hcap, hlive, last.caveats.metBy_constraints⟩
    have hlink' := last_within hbuilt.follows hlast link hlink hpermits
    exact { issuer := (hrevoked link hlink).1, audience := (hrevoked link hlink).2,
            capability := hlink'.capability, live := hlink'.live }

theorem verify_built_subGrant :
    sampleSubGrant.verify Crypto.checked sampleRoot.public [sampleEndorsement] sampleBob.public
      "read" 10 .new = .ok () := by
  have hissue : issue sampleRoot.id sampleKey sampleAlice.public (.new ["*"] 100)
      = .ok sampleGrant := by decide +kernel
  have hattenuate : sampleGrant.attenuate sampleAlice sampleBob.public (.new ["read"] 50)
      = .ok sampleSubGrant := by decide +kernel
  have hlast : ∃ last, sampleSubGrant.links.getLast? = some last ∧
      last.audiencePub = sampleBob.public ∧ last.caveats.allowsCapability "read" = true ∧
      10 ≤ last.caveats.notAfter := by
    refine ⟨sampleSubGrant.links.getLast (by decide +kernel), ?_, ?_, ?_, ?_⟩ <;> decide +kernel
  exact (verify_built Crypto.checked_signVerifies (.attenuate (.issue hissue) hattenuate)).mpr
    ⟨by decide +kernel, by decide +kernel, fun _ _ => ⟨rfl, rfl⟩, hlast⟩

end Grant

end Thicket
