import Thicket.Core.Checkpoint
import Thicket.Interconnect.Wire
import Thicket.Lib.SortedStrings
import Thicket.Py.Envelope
import Thicket.Py.GrantVerdict
import Thicket.Py.Record

/-!
# Byte-exact builders

Every dictionary that the SDK builds is the one that the corresponding value of the core decodes to,
its maps and sets sorted as the core's are, so both encode to the same bytes. Where an argument is
itself a structure, its dictionary has to list the fields in declaration order: the encoder keeps
the order it is given.
-/

namespace Thicket.Py

open Cbor (Bytes)
open Result Serde

variable {crypto : Crypto}

/-! ### Sorting -/

def StrMap.toBTreeMap (m : StrMap) : BTreeMap String String := .ofList m.entries

/-- Sorting the items of a dictionary sorts it by key. -/
theorem pairwise_mergeSort_pairLe (entries : List (String × String)) :
    (entries.mergeSort pairLe).Pairwise fun a b => a.1 ≤ b.1 := by
  have hsorted : (entries.mergeSort pairLe).Pairwise fun a b => pairLe a b = true := by
    apply List.pairwise_mergeSort
    · intro a b c hab hbc
      simp only [pairLe, decide_eq_true_eq] at hab hbc ⊢
      rcases hab with hlt | ⟨heq, hle⟩
      · rcases hbc with hlt' | ⟨heq', -⟩
        · exact Or.inl (String.lt_trans hlt hlt')
        · exact Or.inl (heq' ▸ hlt)
      · rcases hbc with hlt' | ⟨heq', hle'⟩
        · exact Or.inl (heq ▸ hlt')
        · exact Or.inr ⟨heq.trans heq', String.le_trans hle hle'⟩
    · intro a b
      simp only [pairLe, Bool.or_eq_true, decide_eq_true_eq]
      by_cases heq : a.1 = b.1
      · rcases String.le_total a.2 b.2 with hle | hle
        · exact Or.inl (Or.inr ⟨heq, hle⟩)
        · exact Or.inr (Or.inr ⟨heq.symm, hle⟩)
      · rcases String.le_total a.1 b.1 with hle | hle
        · exact Or.inl (Or.inl (String.not_le.mp fun hge => heq (String.le_antisymm hle hge)))
        · exact Or.inr (Or.inl (String.not_le.mp fun hge => heq (String.le_antisymm hge hle)))
  apply hsorted.imp
  intro a b hab
  simp only [pairLe, decide_eq_true_eq] at hab
  rcases hab with hlt | ⟨heq, -⟩
  · exact String.not_lt.mp (String.lt_asymm hlt)
  · exact heq ▸ String.le_refl a.1

theorem sortedMap_eq (m : StrMap) : sortedMap m = .of m.toBTreeMap := by
  rw [sortedMap, of_map, StrMap.toBTreeMap, toList_ofList_map m.nodup (List.mergeSort_perm _ _)
    (pairwise_mergeSort_pairLe m.entries)]

theorem sortedSet_eq (items : List String) :
    Value.list ((sortedSet items).map .str) = .of (Std.ExtTreeSet.ofList items : BTreeSet String) := by
  rw [of_set, toList_ofList_set, sortedSet]

/-! ### Records -/

structure CapabilityArgs where
  kind : String
  description : String
  io : Option Io
  tags : Option (List String)
  modalities : Option (List String)
  envelope : Option StrMap

namespace CapabilityArgs

def build (args : CapabilityArgs) : Value :=
  Record.capability args.kind args.description (.ofOption args.io) args.tags args.modalities
    args.envelope

def capability (args : CapabilityArgs) : Capability :=
  { kind := args.kind, description := args.description, io := args.io, tags := args.tags.getD [],
    modalities := args.modalities.getD [], envelope := (StrMap.orEmpty args.envelope).toBTreeMap }

theorem strList_eq (items : Option (List String)) : strList items = .of (items.getD []) := by
  rw [strList, of_list]
  rfl

theorem build_eq (args : CapabilityArgs) : args.build = .of args.capability := by
  rw [of_struct (a := args.capability) rfl]
  simp only [build, Record.capability, strList_eq, sortedMap_eq, entriesOf_append, entriesOf_field,
    entriesOf_optionalField, capability]
  rfl

end CapabilityArgs

structure RecordArgs (crypto : Crypto) where
  schema : String
  root : RootKey crypto
  endorsement : KeyEndorsement
  kind : String
  locators : Option (List Locator)
  capabilities : Option (List CapabilityArgs)
  profile : Option StrMap
  supports : Option StrMap
  visibility : Visibility
  lease : Option Lease
  version : UInt64
  ext : Option StrMap

namespace RecordArgs

def build (args : RecordArgs crypto) : Value :=
  Record.buildPayload
    { schema := args.schema, root := args.root, endorsement := .of args.endorsement,
      kind := args.kind,
      locators := args.locators.map (List.map fun l => Record.locator l.protocol l.endpoint),
      capabilities := args.capabilities.map (List.map CapabilityArgs.build),
      profile := args.profile, supports := args.supports, visibility := args.visibility.name,
      lease := args.lease.elim .none fun l =>
        Record.lease l.ttl.toNat l.issuedAt.toNat l.expiresAt.toNat,
      version := args.version.toNat, ext := args.ext }

def payload (args : RecordArgs crypto) : RecordPayload :=
  { schema := args.schema, id := args.root.id, rootPublicKey := args.root.public,
    keys := [args.endorsement], kind := args.kind, locators := args.locators.getD [],
    capabilities := (args.capabilities.getD []).map CapabilityArgs.capability,
    profile := (StrMap.orEmpty args.profile).toBTreeMap,
    supports := (StrMap.orEmpty args.supports).toBTreeMap, visibility := args.visibility,
    lease := args.lease, version := args.version, ext := (StrMap.orEmpty args.ext).toBTreeMap }

theorem build_eq (args : RecordArgs crypto) : args.build = .of args.payload := by
  have hlocators : (args.locators.map (List.map fun l =>
      Record.locator l.protocol l.endpoint)).getD [] = (args.locators.getD []).map .of := by
    cases args.locators <;> rfl
  have hcapabilities : (args.capabilities.map (List.map CapabilityArgs.build)).getD [] =
      ((args.capabilities.getD []).map CapabilityArgs.capability).map .of := by
    cases args.capabilities with
    | none => rfl
    | some capabilities =>
        simp only [Option.map_some, Option.getD_some, List.map_map]
        exact List.map_congr_left fun c _ => c.build_eq
  have hlease : (args.lease.elim .none fun l =>
      Record.lease l.ttl.toNat l.issuedAt.toNat l.expiresAt.toNat) = .ofOption args.lease := by
    cases args.lease <;> rfl
  rw [of_struct (a := args.payload) rfl]
  simp only [build, Record.buildPayload, hlocators, hcapabilities, hlease, sortedMap_eq,
    entriesOf_append, entriesOf_field, entriesOf_optionalField, payload, of_list]
  rfl

end RecordArgs

/-! ### Signing -/

theorem signRecord_of {payload : RecordPayload} {working : WorkingKey crypto} {v : Value} :
    Record.sign (.of payload) working = .ok v ↔
      ∃ signed, payload.sign working = .ok signed ∧ .of signed = v := by
  simp only [Record.sign, RecordPayload.sign, bind_eq_ok, signingInput_of, pure_eq_ok]
  -- the core's signed value is a function of the message alone
  rw [exists_exists_and_eq_and]
  rfl

theorem endorse_of {root : RootKey crypto} {workingPub : Bytes} {notBefore notAfter : UInt64}
    {v : Value} : RootKey.endorse root workingPub notBefore.toNat notAfter.toNat = .ok v ↔
      ∃ e, root.endorse workingPub notBefore notAfter = .ok e ∧ .of e = v := by
  have hview : (.dict [(.str "working_pub", .bytes workingPub),
      (.str "not_before", .int notBefore.toNat), (.str "not_after", .int notAfter.toNat)] : Value) =
        .of ({ workingPub, notBefore, notAfter } : EndorsementView) := rfl
  simp only [RootKey.endorse, Thicket.RootKey.endorse, hview, bind_eq_ok, signingInput_of, pure_eq_ok]
  rw [exists_exists_and_eq_and]
  rfl

theorem revoke_of {root : RootKey crypto} {workingPub : Bytes} {issuedAt : UInt64} {v : Value} :
    RootKey.revoke root workingPub issuedAt.toNat = .ok v ↔
      ∃ r, root.revoke workingPub issuedAt = .ok r ∧ .of r = v := by
  have hview : (.dict [(.str "working_pub", .bytes workingPub),
      (.str "issued_at", .int issuedAt.toNat)] : Value) =
        .of ({ workingPub, issuedAt } : RevocationView) := rfl
  simp only [RootKey.revoke, Thicket.RootKey.revoke, hview, bind_eq_ok, signingInput_of, pure_eq_ok]
  rw [exists_exists_and_eq_and]
  rfl

/-! ### Grants -/

structure CaveatArgs where
  capabilities : List String
  notAfter : UInt64
  constraints : Option StrMap

namespace CaveatArgs

def build (args : CaveatArgs) : Value :=
  Grant.caveats args.capabilities args.notAfter.toNat args.constraints

def caveats (args : CaveatArgs) : Caveats :=
  { capabilities := .ofList args.capabilities, notAfter := args.notAfter,
    constraints := (StrMap.orEmpty args.constraints).toBTreeMap }

theorem build_eq (args : CaveatArgs) : args.build = .of args.caveats := by
  rw [of_struct (a := args.caveats) rfl]
  simp only [build, Grant.caveats, sortedSet_eq, sortedMap_eq, entriesOf_append, entriesOf_field,
    caveats]
  rfl

end CaveatArgs

theorem linkSig_of {target : Id} {issuer : WorkingKey crypto} {audiencePub prev sig : Bytes}
    {caveats : Caveats} :
    Grant.linkSig (.of target) issuer (.bytes audiencePub) (.of caveats) (.bytes prev) = .ok sig ↔
      ∃ msg, signingBytes grantDomain
        ({ target, issuerPub := issuer.public, audiencePub, caveats, prev } : LinkView) = .ok msg ∧
        issuer.sign msg = sig := by
  have hview : (.dict [(.str "target", .of target), (.str "issuer_pub", .bytes issuer.public),
      (.str "audience_pub", .bytes audiencePub), (.str "caveats", .of caveats),
      (.str "prev", .bytes prev)] : Value) =
        .of ({ target, issuerPub := issuer.public, audiencePub, caveats, prev } : LinkView) := rfl
  simp only [Grant.linkSig, hview, bind_eq_ok, signingInput_of, pure_eq_ok]
  rfl

theorem issue_of {target : Id} {targetKey : WorkingKey crypto} {audiencePub : Bytes}
    {caveats : Caveats} {v : Value} :
    Grant.issue (.of target) targetKey (.bytes audiencePub) (.of caveats) = .ok v ↔
      ∃ g, Thicket.Grant.issue target targetKey audiencePub caveats = .ok g ∧ .of g = v := by
  simp only [Grant.issue, Thicket.Grant.issue, bind_eq_ok, linkSig_of, liftCore_eq_ok, pure_eq_ok]
  constructor
  · rintro ⟨_, ⟨msg, hmsg, rfl⟩, rfl⟩
    exact ⟨_, ⟨msg, hmsg, rfl⟩, rfl⟩
  · rintro ⟨_, ⟨msg, hmsg, rfl⟩, rfl⟩
    exact ⟨_, ⟨msg, hmsg, rfl⟩, rfl⟩

theorem of_grant (grant : Thicket.Grant) : Value.of grant =
    .dict [(.str "target", .of grant.target), (.str "links", .list (grant.links.map .of))] := by
  rw [← of_list]
  rfl

theorem attenuate_of {grant : Thicket.Grant} {holderKey : WorkingKey crypto}
    {newAudiencePub : Bytes} {caveats : Caveats} {v : Value} :
    Grant.attenuate (.of grant) holderKey (.bytes newAudiencePub) (.of caveats) = .ok v ↔
      ∃ g, grant.attenuate holderKey newAudiencePub caveats = .ok g ∧ .of g = v := by
  have hlinks : (Value.of grant).getItem "links" = .ok (.list (grant.links.map .of)) := by
    rw [← of_list]
    simp [Value.of, Value.getItem_struct]
  have htarget : (Value.of grant).getItem "target" = .ok (.of grant.target) := by
    simp [Value.of, Value.getItem_struct]
  simp only [Grant.attenuate, Thicket.Grant.attenuate, hlinks, htarget, bind_eq_ok,
    Except.ok.injEq, exists_eq_left', okOr_eq_ok]
  cases hlast : grant.links.getLast? with
  | none => simp [Value.lastItem, hlast]
  | some last =>
      simp only [Grant.lastItem_of hlast, Grant.link_audiencePub, Grant.link_caveats,
        Grant.link_sig, Except.ok.injEq, exists_eq_left', Option.some.injEq, failIf_eq_ok,
        exists_unit, eq_bytes, Bool.not_eq_eq_eq_not, Bool.not_true, Bool.not_eq_false,
        decide_eq_true_eq, linkSig_of, liftCore_eq_ok, pure_eq_ok, Value.append]
      constructor
      · rintro ⟨haudience, _, hnarrows, rfl, _, ⟨msg, hmsg, rfl⟩, rfl⟩
        refine ⟨_, ⟨not_not_intro haudience.symm, Grant.narrows_iff.mp hnarrows, msg, hmsg, rfl⟩, ?_⟩
        rw [of_grant, List.map_append]
        rfl
      · rintro ⟨_, ⟨haudience, hnarrows, msg, hmsg, rfl⟩, rfl⟩
        refine ⟨(not_not.mp haudience).symm, true, Grant.narrows_iff.mpr hnarrows, rfl, _,
          ⟨msg, hmsg, rfl⟩, ?_⟩
        rw [of_grant, List.map_append]
        rfl

structure Attenuation (crypto : Crypto) where
  holderKey : WorkingKey crypto
  newAudiencePub : Bytes
  caveats : CaveatArgs

/-- A grant that is issued and then attenuated any number of times. -/
def issueAndAttenuate (target : Bytes) (targetKey : WorkingKey crypto) (audiencePub : Bytes)
    (caveats : CaveatArgs) (attenuations : List (Attenuation crypto)) : Except Exc Value := do
  let grant ← Grant.issue (.bytes target) targetKey (.bytes audiencePub) caveats.build
  attenuations.foldlM (fun grant a =>
    Grant.attenuate grant a.holderKey (.bytes a.newAudiencePub) a.caveats.build) grant

/-- The core's side of `issueAndAttenuate`. -/
def coreIssueAndAttenuate (target : Id) (targetKey : WorkingKey crypto) (audiencePub : Bytes)
    (caveats : CaveatArgs) (attenuations : List (Attenuation crypto)) :
    Except InterconnectError Thicket.Grant := do
  let grant ← Thicket.Grant.issue target targetKey audiencePub caveats.caveats
  attenuations.foldlM (fun grant a =>
    grant.attenuate a.holderKey a.newAudiencePub a.caveats.caveats) grant

theorem foldlM_attenuate_of (attenuations : List (Attenuation crypto)) {grant : Thicket.Grant}
    {v : Value} : attenuations.foldlM (fun grant a =>
        Grant.attenuate grant a.holderKey (.bytes a.newAudiencePub) a.caveats.build) (.of grant) =
          .ok v ↔
      ∃ g, attenuations.foldlM (fun grant a =>
        grant.attenuate a.holderKey a.newAudiencePub a.caveats.caveats) grant = .ok g ∧ .of g = v := by
  induction attenuations generalizing grant with
  | nil => simp [pure, Except.pure]
  | cons a attenuations ih =>
      simp only [List.foldlM_cons, bind_eq_ok, a.caveats.build_eq, attenuate_of]
      constructor
      · rintro ⟨_, ⟨g, hg, rfl⟩, hrest⟩
        obtain ⟨g', hg', rfl⟩ := ih.mp hrest
        exact ⟨g', ⟨g, hg, hg'⟩, rfl⟩
      · rintro ⟨g', ⟨g, hg, hg'⟩, rfl⟩
        exact ⟨_, ⟨g, hg, rfl⟩, ih.mpr ⟨g', hg', rfl⟩⟩

theorem issueAndAttenuate_of {target : Id} {targetKey : WorkingKey crypto} {audiencePub : Bytes}
    {caveats : CaveatArgs} {attenuations : List (Attenuation crypto)} {v : Value} :
    issueAndAttenuate target.bytes targetKey audiencePub caveats attenuations = .ok v ↔
      ∃ g, coreIssueAndAttenuate target targetKey audiencePub caveats attenuations = .ok g ∧
        .of g = v := by
  have htarget : Value.of target = .bytes target.bytes := rfl
  simp only [issueAndAttenuate, coreIssueAndAttenuate, bind_eq_ok, caveats.build_eq, ← htarget,
    issue_of]
  constructor
  · rintro ⟨_, ⟨g, hg, rfl⟩, hrest⟩
    obtain ⟨g', hg', rfl⟩ := (foldlM_attenuate_of attenuations).mp hrest
    exact ⟨g', ⟨g, hg, hg'⟩, rfl⟩
  · rintro ⟨g', ⟨g, hg, hg'⟩, rfl⟩
    exact ⟨_, ⟨g, hg, rfl⟩, (foldlM_attenuate_of attenuations).mpr ⟨g', hg', rfl⟩⟩

/-! ### Envelopes -/

structure EnvelopeArgs where
  fromId : Id
  toId : Id
  typ : EnvelopeType
  correlation : Bytes
  capability : Option String
  contentType : Option String
  auth : Option Thicket.Grant
  streamSeq : Option UInt64
  streamEnd : Bool
  error : Option ErrorInfo
  body : Bytes
  ext : Option StrMap

namespace EnvelopeArgs

/-- The keyword arguments, with a context that is any value. -/
def args (self : EnvelopeArgs) (context : Value) : Envelope.Args :=
  { fromId := .of self.fromId, toId := .of self.toId, typ := .of self.typ,
    correlation := .of self.correlation, capability := .ofOption self.capability,
    contentType := .ofOption self.contentType, context, auth := .ofOption self.auth,
    streamSeq := .ofOption self.streamSeq, streamEnd := .of self.streamEnd,
    error := .ofOption self.error, body := .of self.body, ext := self.ext }

def payload (self : EnvelopeArgs) (context : Context) : EnvelopePayload :=
  { v := 1, fromId := self.fromId, toId := self.toId, typ := self.typ,
    capability := self.capability, correlation := self.correlation,
    contentType := self.contentType, context, auth := self.auth, streamSeq := self.streamSeq,
    streamEnd := self.streamEnd, error := self.error, body := self.body,
    ext := (StrMap.orEmpty self.ext).toBTreeMap }

/-- A context that Python leaves out exactly when the core skips it is written alike. -/
theorem buildPayload_eq (self : EnvelopeArgs) {value : Value} {context : Context}
    (hcontext : Envelope.contextEntry value =
      entriesOf (fieldUnless Context.isEmpty "context" context)) :
    Envelope.buildPayload (self.args value) = .of (self.payload context) := by
  rw [of_struct (a := self.payload context) rfl]
  simp only [Envelope.buildPayload, args, hcontext, sortedMap_eq, entriesOf_append, entriesOf_field,
    entriesOf_optionalField, payload]
  simp only [List.append_assoc]
  rfl

end EnvelopeArgs

theorem signEnvelope_of {payload : EnvelopePayload} {working : WorkingKey crypto} {v : Value} :
    Envelope.sign (.of payload) working = .ok v ↔
      ∃ signed, payload.sign working = .ok signed ∧ .of signed = v := by
  simp only [Envelope.sign, EnvelopePayload.sign, bind_eq_ok, signingInput_of, liftCore_eq_ok,
    pure_eq_ok]
  rw [exists_exists_and_eq_and]
  rfl

/-- An envelope of the core's that the SDK signs and encodes is read back and verifies. -/
theorem signedBlob_of (hsign : crypto.SignVerifies) {payload : EnvelopePayload}
    {working : WorkingKey crypto} {blob : Bytes}
    (hblob : Envelope.signedBlob (.of payload) working = .ok blob) :
    ∃ env : SignedEnvelope, fromReader blob = some env ∧ env.payload = payload ∧
      env.verifyWithKey crypto working.public = .ok () := by
  simp only [Envelope.signedBlob, bind_eq_ok, signEnvelope_of] at hblob
  obtain ⟨_, ⟨env, henv, rfl⟩, hblob⟩ := hblob
  simp only [EnvelopePayload.sign, bind_eq_ok, liftCore_eq_ok, pure_eq_ok] at henv
  obtain ⟨msg, hmsg, rfl⟩ := henv
  refine ⟨_, fromReader_intoWriter (encode_ofItem.mp hblob), rfl, ?_⟩
  exact SignedEnvelope.verifyWithKey_eq_ok.mpr ⟨rfl, msg, hmsg, working.verify_sign hsign msg⟩

/-! ### Bytes -/

/-- What the SDK builds encodes to some bytes exactly when what the core builds encodes to them. -/
def SameBytes {ε α : Type} [Serialize α] (built : Except Exc Value) (core : Except ε α) : Prop :=
  ∀ bytes, built >>= encode = .ok bytes ↔ ∃ a, core = .ok a ∧ intoWriter a = some bytes

theorem sameBytes_of {ε α : Type} [Serialize α] {built : Except Exc Value} {core : Except ε α}
    (h : ∀ v, built = .ok v ↔ ∃ a, core = .ok a ∧ .of a = v) : SameBytes built core := by
  intro bytes
  simp only [bind_eq_ok, h]
  constructor
  · rintro ⟨_, ⟨a, ha, rfl⟩, hbytes⟩
    exact ⟨a, ha, encode_ofItem.mp hbytes⟩
  · rintro ⟨a, ha, hbytes⟩
    exact ⟨_, ⟨a, ha, rfl⟩, encode_ofItem.mpr hbytes⟩

theorem sameBytes_ok {α : Type} [Serialize α] {v : Value} {a : α} (h : v = .of a) :
    SameBytes (.ok v) (.ok a : Except Error α) := by
  apply sameBytes_of
  intro w
  simp [h]

/-- The steps of a run in the order they were recorded. -/
def coreCheckpoint (runId : Bytes) (steps : List (String × Bytes)) : Checkpoint :=
  { runId, steps := steps.map fun (key, value) => { key, value } }

theorem encodeCheckpoint_iff {runId : Bytes} {steps : List (String × Bytes)} {bytes : Bytes} :
    encodeCheckpoint runId steps = .ok bytes ↔
      intoWriter (coreCheckpoint runId steps) = some bytes := by
  have hsteps : Value.of (coreCheckpoint runId steps).steps = .list (steps.map fun (k, v) =>
      .dict [(.str "key", .str k), (.str "value", .bytes v)]) := by
    rw [of_list, coreCheckpoint, List.map_map]
    rfl
  have hvalue : Value.of (coreCheckpoint runId steps) = .dict [(.str "run_id", .bytes runId),
      (.str "steps", .of (coreCheckpoint runId steps).steps)] := by
    rfl
  rw [encodeCheckpoint, ← hsteps, ← hvalue]
  exact encode_ofItem

/-- **Byte-exact builders.** What the SDK builds and encodes is byte for byte what the core encodes
for the corresponding value: record payloads and signed records, grants attenuated any number of
times, endorsements, revocations, checkpoints, and payloads and envelopes without a context. The
elements of sets and the keys of maps come in the order of their bytes. -/
theorem builders_byte_exact :
    (∀ args : RecordArgs crypto, SameBytes (.ok args.build) (.ok args.payload : Except Error _)) ∧
    (∀ (args : RecordArgs crypto) (working : WorkingKey crypto),
      SameBytes (Record.sign args.build working) (args.payload.sign working)) ∧
    (∀ (target : Id) (targetKey : WorkingKey crypto) (audiencePub : Bytes) (caveats : CaveatArgs)
        (attenuations : List (Attenuation crypto)),
      SameBytes (issueAndAttenuate target.bytes targetKey audiencePub caveats attenuations)
        (coreIssueAndAttenuate target targetKey audiencePub caveats attenuations)) ∧
    (∀ (root : RootKey crypto) (workingPub : Bytes) (notBefore notAfter : UInt64),
      SameBytes (RootKey.endorse root workingPub notBefore.toNat notAfter.toNat)
        (root.endorse workingPub notBefore notAfter)) ∧
    (∀ (root : RootKey crypto) (workingPub : Bytes) (issuedAt : UInt64),
      SameBytes (RootKey.revoke root workingPub issuedAt.toNat) (root.revoke workingPub issuedAt)) ∧
    (∀ (runId : Bytes) (steps : List (String × Bytes)) (bytes : Bytes),
      encodeCheckpoint runId steps = .ok bytes ↔
        intoWriter (coreCheckpoint runId steps) = some bytes) ∧
    (∀ args : EnvelopeArgs, SameBytes (.ok (Envelope.buildPayload (args.args .none)))
      (.ok (args.payload .empty) : Except Error _)) ∧
    (∀ (args : EnvelopeArgs) (working : WorkingKey crypto),
      SameBytes (Envelope.sign (Envelope.buildPayload (args.args .none)) working)
        ((args.payload .empty).sign working)) ∧
    (∀ set : BTreeSet String, set.toList.Pairwise fun a b => Cbor.utf8 a < Cbor.utf8 b) ∧
    ∀ map : BTreeMap String String, map.toList.Pairwise fun a b => Cbor.utf8 a.1 < Cbor.utf8 b.1 := by
  have henvelope (args : EnvelopeArgs) :
      Envelope.buildPayload (args.args .none) = .of (args.payload .empty) := args.buildPayload_eq rfl
  refine ⟨?_, ?_, ?_, ?_, ?_, ?_, ?_, ?_, BTreeSet.toList_utf8_sorted, BTreeMap.toList_utf8_sorted⟩
  · intro args
    exact sameBytes_ok args.build_eq
  · intro args working
    rw [args.build_eq]
    exact sameBytes_of fun v => signRecord_of
  · intro target targetKey audiencePub caveats attenuations
    exact sameBytes_of fun v => issueAndAttenuate_of
  · intro root workingPub notBefore notAfter
    exact sameBytes_of fun v => endorse_of
  · intro root workingPub issuedAt
    exact sameBytes_of fun v => revoke_of
  · intro runId steps bytes
    exact encodeCheckpoint_iff
  · intro args
    exact sameBytes_ok (henvelope args)
  · intro args working
    rw [henvelope]
    exact sameBytes_of fun v => signEnvelope_of

/-! ### An argument in another order -/

def sampleIo : Io := { input := "text", output := "number" }

/-- The same dictionary, with its entries the other way round. -/
def swappedIo : Value := .dict [(.str "output", .str "number"), (.str "input", .str "text")]

def sampleArgs : RecordArgs .checked :=
  { schema := "thicket/record/1", root := ⟨(1 : UInt8)⟩, endorsement := ⟨[2], 0, 1000, [3]⟩,
    kind := "tool", locators := none,
    capabilities := some [{ kind := "tool", description := "count words", io := some sampleIo,
                            tags := none, modalities := none, envelope := none }],
    profile := none, supports := none, visibility := .public, lease := none, version := 1,
    ext := none }

/-- The record that the SDK builds from the swapped dictionary. -/
def swappedRecord : Value :=
  Record.buildPayload
    { schema := sampleArgs.schema, root := sampleArgs.root,
      endorsement := .of sampleArgs.endorsement, kind := sampleArgs.kind, locators := none,
      capabilities := some [Record.capability "tool" "count words" swappedIo none none none],
      profile := none, supports := none, visibility := "Public", lease := .none, version := 1,
      ext := none }

theorem builders_keep_argument_order : swappedIo.eq (.of sampleIo) = true ∧
    (encode swappedRecord).toOption ≠ intoWriter sampleArgs.payload := by
  decide +kernel

end Thicket.Py
