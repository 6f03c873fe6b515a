import Thicket.Interconnect.Narrowing
import Thicket.Interconnect.Splicing

/-!
# Where root grants come from

A target's working-key holder issues root grants, and also attenuates grants that others hand to it.
Both calls sign the same view under the same domain; the empty `prev` of a head is the only
difference, and attenuation copies `prev` from a link it has not verified. A handed grant for the
holder's own target whose last link carries an empty signature therefore turns an attenuation into a
root grant. Signatures are symbolic here: only the holder makes signatures that verify under its
keys, and a signature value is made over one view.
-/

namespace Thicket

open Cbor (Bytes)
open Result Serde

/-- A signing call of the holder. The grant handed to an attenuation is arbitrary. -/
inductive GrantCall (crypto : Crypto) where
  | issue (key : WorkingKey crypto) (audiencePub : Bytes) (caveats : Caveats)
  | attenuate (key : WorkingKey crypto) (input : Grant) (newAudiencePub : Bytes) (caveats : Caveats)

namespace GrantCall

variable {crypto : Crypto}

def result (own : Id) : GrantCall crypto → Except InterconnectError Grant
  | .issue key audiencePub caveats => Grant.issue own key audiencePub caveats
  | .attenuate key input newAudiencePub caveats => input.attenuate key newAudiencePub caveats

/-- The previous signature the call signs over. -/
def prev : GrantCall crypto → Bytes
  | .issue _ _ _ => []
  | .attenuate _ input _ _ => ((input.links.getLast?).map GrantLink.sig).getD []

/-- The call signed `link` for `target`: it is the last link of the grant the call returned. -/
def Produces (own : Id) (call : GrantCall crypto) (target : Id) (link : GrantLink) : Prop :=
  ∃ grant, call.result own = .ok grant ∧ grant.target = target ∧
    grant.links.getLast? = some link

/-- The call attenuates, for the holder's own target, a grant whose last link is unsigned, with the
holder as its audience and caveats that the new ones narrow. -/
def ExtendsUnsigned (own : Id) : GrantCall crypto → Prop
  | .issue _ _ _ => False
  | .attenuate key input _ caveats =>
      input.target = own ∧ ∃ last, input.links.getLast? = some last ∧ last.sig = [] ∧
        key.public = last.audiencePub ∧ caveats.Narrows last.caveats

variable {own target : Id} {key : WorkingKey crypto} {input grant : Grant} {newAudiencePub : Bytes}
  {caveats : Caveats} {link : GrantLink} {call : GrantCall crypto}

theorem produces_iff (h : call.result own = .ok grant) :
    call.Produces own target link ↔ grant.target = target ∧ grant.links.getLast? = some link := by
  constructor
  · intro ⟨returned, hreturned, hproduced⟩
    obtain rfl : grant = returned := Except.ok.inj (h.symm.trans hreturned)
    exact hproduced
  · intro hproduced
    exact ⟨grant, h, hproduced⟩

/-- Two calls that return grants with different last links. -/
theorem prev_eq_of_pair {first second : GrantCall crypto} {grant grant' : Grant}
    (h : first.result own = .ok grant) (h' : second.result own = .ok grant')
    (hne : grant.links.getLast? ≠ grant'.links.getLast?) :
    ∀ call ∈ [first, second], ∀ call' ∈ [first, second], ∀ target link,
      call.Produces own target link → call'.Produces own target link → call.prev = call'.prev := by
  have happart {target : Id} {link : GrantLink} (hprod : first.Produces own target link) :
      ¬second.Produces own target link := by
    intro hprod'
    exact hne (((produces_iff h).mp hprod).2.trans ((produces_iff h').mp hprod').2.symm)
  intro call hcall call' hcall' target link hprod hprod'
  simp only [List.mem_cons, List.not_mem_nil, or_false] at hcall hcall'
  rcases hcall with rfl | rfl <;> rcases hcall' with rfl | rfl
  · rfl
  · exact absurd hprod' (happart hprod)
  · exact absurd hprod (happart hprod')
  · rfl

theorem extendsUnsigned_of_prev_eq_nil
    (hprod : (attenuate key input newAudiencePub caveats).Produces own own link)
    (hprev : (attenuate key input newAudiencePub caveats).prev = []) :
    (attenuate key input newAudiencePub caveats).ExtendsUnsigned own := by
  obtain ⟨grant, hresult, htarget, -⟩ := hprod
  obtain ⟨last, msg, hlast, hholder, hnarrows, -, rfl⟩ := Grant.attenuate_eq_ok.mp hresult
  have hsig : last.sig = [] := by simpa [prev, hlast] using hprev
  exact ⟨htarget, last, hlast, hsig, hholder, hnarrows⟩

/-- Attenuating an unsigned link is issuing: the link it signs is the head of the root grant that
`issue` returns for the same audience and caveats. -/
theorem issue_of_extendsUnsigned
    (hext : (attenuate key input newAudiencePub caveats).ExtendsUnsigned own)
    (hprod : (attenuate key input newAudiencePub caveats).Produces own own link) :
    Grant.issue own key newAudiencePub caveats = .ok ⟨own, [link]⟩ := by
  obtain ⟨grant, hresult, -, hlink⟩ := hprod
  obtain ⟨rfl, last, hlast, hsig, -⟩ := hext
  obtain ⟨last', msg, hlast', -, -, hmsg, rfl⟩ := Grant.attenuate_eq_ok.mp hresult
  obtain rfl : last = last' := Option.some.inj (hlast.symm.trans hlast')
  obtain rfl : Grant.signedLink key newAudiencePub caveats msg = link := by simpa using hlink
  rw [hsig] at hmsg
  exact Grant.issue_eq_ok.mpr ⟨msg, hmsg, rfl⟩

end GrantCall

variable {crypto : Crypto}

/-- Symbolic signatures of a run of calls by the holder of `keys`. -/
structure Symbolic (own : Id) (keys : List (WorkingKey crypto)) (calls : List (GrantCall crypto)) :
    Prop where
  /-- Whatever is sealed under a key of the holder was signed by one of its calls. -/
  unforgeable : ∀ key ∈ keys, ∀ target prev link, link.issuerPub = key.public →
    Grant.Sealed crypto target prev link →
    ∃ call ∈ calls, call.Produces own target link ∧ call.prev = prev
  /-- A signature value is made over one view. -/
  distinct : ∀ call ∈ calls, ∀ call' ∈ calls, ∀ target link, call.Produces own target link →
    call'.Produces own target link → call.prev = call'.prev

/-- The head of the grant was produced by an `issue` call, and by no `attenuate` call. -/
def HeadIssued (own : Id) (calls : List (GrantCall crypto)) (grant : Grant) : Prop :=
  ∃ head, grant.links.head? = some head ∧
    (∃ key audiencePub caveats, GrantCall.issue key audiencePub caveats ∈ calls ∧
      Grant.issue own key audiencePub caveats = .ok ⟨grant.target, [head]⟩) ∧
    ∀ key input newAudiencePub caveats,
      GrantCall.attenuate key input newAudiencePub caveats ∈ calls →
      ¬(GrantCall.attenuate key input newAudiencePub caveats).Produces own grant.target head

/-- In a run in which no attenuation extends an unsigned link for the holder's own target, every
grant accepted for that target starts with a link that an `issue` call produced, and no `attenuate`
call did. -/
theorem head_issued {own : Id} {keys : List (WorkingKey crypto)} {calls : List (GrantCall crypto)}
    {grant : Grant} {rootPub callerPub : Bytes} {endorsements : List KeyEndorsement}
    {capability : String} {now : UInt64} {revocations : RevocationSet}
    (hsym : Symbolic own keys calls) (hown : Id.fromRootPublic crypto rootPub = .ok own)
    (hroot : ∀ e ∈ endorsements, verifyEndorsement crypto rootPub e = .ok () →
      ∃ key ∈ keys, key.public = e.workingPub)
    (hsafe : ∀ call ∈ calls, ¬call.ExtendsUnsigned own)
    (h : grant.verify crypto rootPub endorsements callerPub capability now revocations = .ok ()) :
    HeadIssued own calls grant := by
  have hacc := Grant.verify_eq_ok.mp h
  obtain rfl : own = grant.target := Except.ok.inj (hown.symm.trans hacc.target)
  obtain ⟨head, hhead, hkey⟩ := hacc.head
  obtain ⟨-, ⟨e, hfind, hendorsed, -⟩, -⟩ := verifyWorkingKey_eq_ok.mp hkey
  obtain ⟨key, hkey, hpub⟩ := hroot e (List.mem_of_find?_eq_some hfind) hendorsed
  have hissuer : head.issuerPub = key.public := by
    have := List.find?_some hfind
    rw [hpub, ← beq_iff_eq.mp this]
  have hsealed : Grant.Sealed crypto grant.target [] head :=
    hacc.linked.seals_zero (by rw [← List.head?_eq_getElem?, hhead])
  obtain ⟨call, hcall, hprod, hprev⟩ := hsym.unforgeable key hkey _ _ head hissuer hsealed
  refine ⟨head, hhead, ?_, fun _ _ _ _ hcall' hprod' => ?_⟩
  · cases call with
    | issue key audiencePub caveats =>
        obtain ⟨issued, hissued, -, hlast⟩ := hprod
        obtain ⟨msg, -, rfl⟩ := Grant.issue_eq_ok.mp hissued
        obtain rfl := Option.some.inj hlast
        exact ⟨key, audiencePub, caveats, hcall, hissued⟩
    | attenuate key input newAudiencePub caveats =>
        exact absurd (GrantCall.extendsUnsigned_of_prev_eq_nil hprod hprev) (hsafe _ hcall)
  · -- another call that produced the head signed it over the same empty `prev`
    have hprev' := (hsym.distinct _ hcall' _ hcall _ _ hprod' hprod).trans hprev
    exact hsafe _ hcall' (GrantCall.extendsUnsigned_of_prev_eq_nil hprod' hprev')

/-! ### A forged root grant

Mallory hands the holder a grant for its own target with one unsigned link to the holder. The
attenuation it gets back contains a link that is a root grant to Mallory. -/

theorem Grant.sealed_recorded {signatures : List Signature} {target : Id} {prev : Bytes}
    {link : GrantLink} (h : Grant.Sealed (.recorded signatures) target prev link) :
    ∃ msg, signingBytes grantDomain (link.view target prev) = .ok msg ∧
      (link.issuerPub, msg, link.sig) ∈ signatures := by
  obtain ⟨msg, hmsg, hverify⟩ := h
  exact ⟨msg, hmsg, Crypto.recorded_verifyRaw hverify⟩

theorem Grant.recordedLink_inj {target : Id} {prev prev' msg : Bytes} {link link' : GrantLink}
    (hmsg : signingBytes grantDomain (link.view target prev) = .ok msg)
    (hmsg' : (signingBytes grantDomain (link'.view recordedTarget prev')).isOk = true)
    (h : (link.issuerPub, msg, link.sig) = recordedLink link' prev') :
    target = recordedTarget ∧ prev = prev' ∧ link = link' := by
  simp only [recordedLink, Prod.mk.injEq] at h
  obtain ⟨-, rfl, hsig⟩ := h
  have hview : link.view target prev = link'.view recordedTarget prev' := by
    cases hsigned : signingBytes grantDomain (link'.view recordedTarget prev') with
    | error e =>
        rw [hsigned] at hmsg'
        exact absurd hmsg' (by simp [Except.isOk, Except.toBool])
    | ok bytes =>
        rw [hsigned] at hmsg
        exact signingBytes_injective hmsg hsigned
  exact view_inj hview hsig

namespace GrantCall

open Grant

def forgedHead : GrantLink :=
  { issuerPub := seedPublic 2, audiencePub := seedPublic 5, caveats := .new ["*"] 100,
    sig := List.replicate 64 13 }

def forgedSignatures : List Signature := recordedLink forgedHead [] :: recordedSignatures

def unsignedGrant : Grant :=
  { target := recordedTarget,
    links := [{ issuerPub := [], audiencePub := seedPublic 2, caveats := .new ["*"] 100,
                sig := [] }] }

def holder (signatures : List Signature) : WorkingKey (.recorded signatures) := ⟨(2 : UInt8)⟩

/-- The holder issues to key 3, then attenuates what Mallory, key 5, handed to it. -/
def forgedCalls : List (GrantCall (.recorded forgedSignatures)) :=
  [.issue (holder _) (seedPublic 3) (.new ["*"] 100),
    .attenuate (holder _) unsignedGrant (seedPublic 5) (.new ["*"] 100)]

/-- In the recorded delegation the working keys signed the head and the link after it. -/
private theorem eq_recorded {target : Id} {prev msg : Bytes} {link : GrantLink}
    (hissuer : link.issuerPub ≠ seedPublic 1)
    (hmsg : signingBytes grantDomain (link.view target prev) = .ok msg)
    (hmem : (link.issuerPub, msg, link.sig) ∈ recordedSignatures) :
    target = recordedTarget ∧
      (prev = [] ∧ link = recordedHead ∨ prev = recordedHead.sig ∧ link = recordedInner) := by
  simp only [recordedSignatures, List.mem_cons, List.not_mem_nil, or_false] at hmem
  rcases hmem with hroot | hhead | hinner
  · exact absurd (congrArg Prod.fst hroot) hissuer
  · exact (Grant.recordedLink_inj hmsg (by decide +kernel) hhead).imp_right Or.inl
  · exact (Grant.recordedLink_inj hmsg (by decide +kernel) hinner).imp_right Or.inr

private theorem forged_issue :
    (issue (holder forgedSignatures) (seedPublic 3) (.new ["*"] 100)).result recordedTarget
      = .ok ⟨recordedTarget, [recordedHead]⟩ := by decide +kernel

private theorem forged_attenuate :
    (attenuate (holder forgedSignatures) unsignedGrant (seedPublic 5) (.new ["*"] 100)).result
      recordedTarget = .ok ⟨recordedTarget, unsignedGrant.links ++ [forgedHead]⟩ := by
  decide +kernel

private theorem forged_symbolic :
    Symbolic recordedTarget [holder forgedSignatures] forgedCalls where
  unforgeable := by
    intro key hkey target prev link hissuer hsealed
    obtain ⟨msg, hmsg, hmem⟩ := Grant.sealed_recorded hsealed
    obtain rfl := List.mem_singleton.mp hkey
    rcases List.mem_cons.mp hmem with hforged | hrecorded
    · obtain ⟨rfl, rfl, rfl⟩ := Grant.recordedLink_inj hmsg (by decide +kernel) hforged
      exact ⟨_, List.mem_cons_of_mem _ (List.mem_singleton_self _),
        (produces_iff forged_attenuate).mpr ⟨rfl, rfl⟩, rfl⟩
    · have hnotRoot : link.issuerPub ≠ seedPublic 1 := by
        rw [hissuer]
        decide
      obtain ⟨rfl, ⟨rfl, rfl⟩ | ⟨rfl, rfl⟩⟩ := eq_recorded hnotRoot hmsg hrecorded
      · exact ⟨_, List.mem_cons_self, (produces_iff forged_issue).mpr ⟨rfl, rfl⟩, rfl⟩
      · exact absurd hissuer (by decide)
  distinct := prev_eq_of_pair forged_issue forged_attenuate (by decide +kernel)

/-- A root grant that no `issue` call made: the signatures are symbolic and the root endorses only
the holder, yet the link that an attenuation signed is accepted as a grant of everything to
Mallory. -/
theorem root_grant_forged :
    Symbolic recordedTarget [holder forgedSignatures] forgedCalls ∧
    Grant.verify (.recorded forgedSignatures) ⟨recordedTarget, [forgedHead]⟩ (seedPublic 1)
      [recordedEndorsement] (seedPublic 5) "write" 10 .new = .ok () ∧
    ¬HeadIssued recordedTarget forgedCalls ⟨recordedTarget, [forgedHead]⟩ := by
  refine ⟨forged_symbolic, by decide +kernel, ?_⟩
  rintro ⟨head, hhead, -, hnot⟩
  obtain rfl : forgedHead = head := Option.some.inj hhead
  exact hnot _ _ _ _ (List.mem_cons_of_mem _ (List.mem_singleton_self _))
    ((produces_iff forged_attenuate).mpr ⟨rfl, rfl⟩)

def delegate (signatures : List Signature) : WorkingKey (.recorded signatures) := ⟨(3 : UInt8)⟩

/-- Key 2 issues to key 3 of the same holder, which attenuates the grant for key 4. -/
def delegatedCalls : List (GrantCall (.recorded recordedSignatures)) :=
  [.issue (holder _) (seedPublic 3) (.new ["*"] 100),
    .attenuate (delegate _) ⟨recordedTarget, [recordedHead]⟩ (seedPublic 4) (.new ["read"] 50)]

private theorem delegated_issue :
    (issue (holder recordedSignatures) (seedPublic 3) (.new ["*"] 100)).result recordedTarget
      = .ok ⟨recordedTarget, [recordedHead]⟩ := by decide +kernel

private theorem delegated_attenuate :
    (attenuate (delegate recordedSignatures) ⟨recordedTarget, [recordedHead]⟩ (seedPublic 4)
      (.new ["read"] 50)).result recordedTarget =
        .ok ⟨recordedTarget, [recordedHead, recordedInner]⟩ := by decide +kernel

private theorem delegated_symbolic : Symbolic recordedTarget
    [holder recordedSignatures, delegate recordedSignatures] delegatedCalls where
  unforgeable := by
    intro key hkey target prev link hissuer hsealed
    obtain ⟨msg, hmsg, hmem⟩ := Grant.sealed_recorded hsealed
    have hnotRoot : link.issuerPub ≠ seedPublic 1 := by
      rw [hissuer]
      rcases List.mem_cons.mp hkey with rfl | hkey
      · decide
      · rw [List.mem_singleton.mp hkey]
        decide
    obtain ⟨rfl, ⟨rfl, rfl⟩ | ⟨rfl, rfl⟩⟩ := eq_recorded hnotRoot hmsg hmem
    · exact ⟨_, List.mem_cons_self, (produces_iff delegated_issue).mpr ⟨rfl, rfl⟩, rfl⟩
    · exact ⟨_, List.mem_cons_of_mem _ (List.mem_singleton_self _),
        (produces_iff delegated_attenuate).mpr ⟨rfl, rfl⟩, rfl⟩
  distinct := prev_eq_of_pair delegated_issue delegated_attenuate (by decide +kernel)

theorem head_issued_recorded :
    HeadIssued recordedTarget delegatedCalls ⟨recordedTarget, [recordedHead, recordedInner]⟩ := by
  have hroot : ∀ e ∈ [recordedEndorsement], verifyEndorsement (.recorded recordedSignatures)
      (seedPublic 1) e = .ok () →
      ∃ key ∈ [holder recordedSignatures, delegate recordedSignatures],
        key.public = e.workingPub := by
    intro e he _
    rw [List.mem_singleton.mp he]
    exact ⟨_, List.mem_cons_self, rfl⟩
  have hsafe : ∀ call ∈ delegatedCalls, ¬call.ExtendsUnsigned recordedTarget := by
    intro call hcall
    simp only [delegatedCalls, List.mem_cons, List.not_mem_nil, or_false] at hcall
    rcases hcall with rfl | rfl
    · exact not_false
    · rintro ⟨-, last, hlast, hunsigned, -⟩
      obtain rfl : recordedHead = last := Option.some.inj hlast
      cases hunsigned
  have haccept : Grant.verify (.recorded recordedSignatures)
      ⟨recordedTarget, [recordedHead, recordedInner]⟩ (seedPublic 1) [recordedEndorsement]
      (seedPublic 4) "read" 10 .new = .ok () := by
    decide +kernel
  exact head_issued delegated_symbolic rfl hroot hsafe haccept

end GrantCall

end Thicket
