import Thicket.Interconnect.Grant

/-!
# Envelopes

The universal message frame: a payload, the sender's working key and its signature over the payload.
Optional fields, the empty fields of a context and an empty context as a whole are left out of what
is signed, and still the signed bytes determine the payload.
-/

namespace Thicket

open Cbor (Bytes)
open Result Serde

def envelopeDomain : String := "thicket-envelope-v1"

inductive EnvelopeType where
  | request
  | response
  | event
  | error
  | streamChunk
  | cancel
  deriving DecidableEq, Repr

inductive ErrorCode where
  | notFound
  | unauthorized
  | timeout
  | unavailable
  | badRequest
  | conflict
  | internal
  deriving DecidableEq, Repr

structure ErrorInfo where
  code : ErrorCode
  message : String
  deriving DecidableEq

/-- Where fibers in a trace report their spans. -/
structure SinkRef where
  id : Id
  endpoint : String
  deriving DecidableEq

structure Context where
  traceId : Bytes
  spanId : Bytes
  parentSpanId : Bytes
  deadline : Option UInt64
  budget : Option UInt64
  sink : Option SinkRef
  deriving DecidableEq

namespace Context

/-- `Context::default()` -/
def empty : Context :=
  { traceId := [], spanId := [], parentSpanId := [], deadline := none, budget := none, sink := none }

def isEmpty (self : Context) : Bool :=
  self.traceId.isEmpty && self.spanId.isEmpty && self.parentSpanId.isEmpty &&
    self.deadline.isNone && self.budget.isNone && self.sink.isNone

theorem eq_empty_of_isEmpty {c : Context} (h : c.isEmpty = true) : c = empty := by
  simp only [isEmpty, Bool.and_eq_true, List.isEmpty_iff, Option.isNone_iff_eq_none] at h
  obtain ⟨⟨⟨⟨⟨htrace, hspan⟩, hparent⟩, hdeadline⟩, hbudget⟩, hsink⟩ := h
  cases c
  simp_all [empty]

end Context

structure EnvelopePayload where
  v : UInt32
  fromId : Id
  toId : Id
  typ : EnvelopeType
  capability : Option String
  correlation : Bytes
  contentType : Option String
  context : Context
  auth : Option Grant
  streamSeq : Option UInt64
  streamEnd : Bool
  error : Option ErrorInfo
  body : Bytes
  ext : BTreeMap String String
  deriving DecidableEq

structure SignedEnvelope where
  payload : EnvelopePayload
  signerPub : Bytes
  signature : Bytes
  deriving DecidableEq

namespace EnvelopePayload

def base (fromId toId : Id) (typ : EnvelopeType) (correlation : Bytes) : EnvelopePayload :=
  { v := 1, fromId, toId, typ, capability := none, correlation, contentType := none,
    context := .empty, auth := none, streamSeq := none, streamEnd := false, error := none,
    body := [], ext := ∅ }

/-- A response correlated to a prior request. -/
def response (fromId toId : Id) (correlation : Bytes) : EnvelopePayload :=
  base fromId toId .response correlation

/-- An error reply correlated to a prior request. -/
def errorReply (fromId toId : Id) (correlation : Bytes) (code : ErrorCode) (message : String) :
    EnvelopePayload :=
  { base fromId toId .error correlation with error := some { code, message } }

def withBody (self : EnvelopePayload) (body : Bytes) : EnvelopePayload := { self with body }

end EnvelopePayload

/-! ### Serialization -/

def EnvelopeType.name : EnvelopeType → String
  | .request => "Request"
  | .response => "Response"
  | .event => "Event"
  | .error => "Error"
  | .streamChunk => "StreamChunk"
  | .cancel => "Cancel"

instance : Serialize EnvelopeType := ⟨fun typ => .text typ.name⟩

instance : LawfulSerialize EnvelopeType where
  toCbor_injective {a b} h := by
    have hname : a.name = b.name := Cbor.Value.text.inj h
    revert hname
    cases a <;> cases b <;> decide

def ErrorCode.name : ErrorCode → String
  | .notFound => "NotFound"
  | .unauthorized => "Unauthorized"
  | .timeout => "Timeout"
  | .unavailable => "Unavailable"
  | .badRequest => "BadRequest"
  | .conflict => "Conflict"
  | .internal => "Internal"

instance : Serialize ErrorCode := ⟨fun code => .text code.name⟩

instance : LawfulSerialize ErrorCode where
  toCbor_injective {a b} h := by
    have hname : a.name = b.name := Cbor.Value.text.inj h
    revert hname
    cases a <;> cases b <;> decide

instance : Serialize ErrorInfo where
  toCbor e := struct (field "code" e.code ++ field "message" e.message)

instance : LawfulSerialize ErrorInfo where
  toCbor_injective {a b} h := by
    cases a
    cases b
    obtain ⟨rfl, h⟩ := field_append_inj (struct_injective h)
    obtain rfl := field_inj h
    rfl

instance : Serialize SinkRef where
  toCbor s := struct (field "id" s.id ++ field "endpoint" s.endpoint)

instance : LawfulSerialize SinkRef where
  toCbor_injective {a b} h := by
    cases a
    cases b
    obtain ⟨rfl, h⟩ := field_append_inj (struct_injective h)
    obtain rfl := field_inj h
    rfl

/-- Only the empty byte string is skipped as empty. -/
theorem eq_of_isEmpty {a b : Bytes} (ha : a.isEmpty = true) (hb : b.isEmpty = true) : a = b := by
  rw [List.isEmpty_iff.mp ha, List.isEmpty_iff.mp hb]

theorem Context.eq_of_isEmpty {a b : Context} (ha : a.isEmpty = true) (hb : b.isEmpty = true) :
    a = b := by
  rw [eq_empty_of_isEmpty ha, eq_empty_of_isEmpty hb]

instance : Serialize Context where
  toCbor c := struct (fieldUnless List.isEmpty "trace_id" c.traceId ++
    (fieldUnless List.isEmpty "span_id" c.spanId ++
    (fieldUnless List.isEmpty "parent_span_id" c.parentSpanId ++
    (optionalField "deadline" c.deadline ++ (optionalField "budget" c.budget ++
    optionalField "sink" c.sink)))))

instance : LawfulSerialize Context where
  toCbor_injective {a b} h := by
    cases a
    cases b
    obtain ⟨rfl, h⟩ := fieldUnless_append_inj (fun _ _ => eq_of_isEmpty) (ne_cons_of_named (by simp))
      (ne_cons_of_named (by simp)) (struct_injective h)
    obtain ⟨rfl, h⟩ := fieldUnless_append_inj (fun _ _ => eq_of_isEmpty) (ne_cons_of_named (by simp))
      (ne_cons_of_named (by simp)) h
    obtain ⟨rfl, h⟩ := fieldUnless_append_inj (fun _ _ => eq_of_isEmpty) (ne_cons_of_named (by simp))
      (ne_cons_of_named (by simp)) h
    obtain ⟨rfl, h⟩ := optionalField_append_inj (ne_cons_of_named (by simp))
      (ne_cons_of_named (by simp)) h
    obtain ⟨rfl, h⟩ := optionalField_append_inj (ne_cons_of_named (by simp))
      (ne_cons_of_named (by simp)) h
    obtain rfl := optionalField_inj h
    rfl

instance : Serialize EnvelopePayload where
  toCbor p := struct (field "v" p.v ++ (field "from" p.fromId ++ (field "to" p.toId ++
    (field "typ" p.typ ++ (optionalField "capability" p.capability ++
    (field "correlation" p.correlation ++ (optionalField "content_type" p.contentType ++
    (fieldUnless Context.isEmpty "context" p.context ++ (optionalField "auth" p.auth ++
    (optionalField "stream_seq" p.streamSeq ++ (field "stream_end" p.streamEnd ++
    (optionalField "error" p.error ++ (field "body" p.body ++ field "ext" p.ext)))))))))))))

instance : LawfulSerialize EnvelopePayload where
  toCbor_injective {a b} h := by
    cases a
    cases b
    obtain ⟨rfl, h⟩ := field_append_inj (struct_injective h)
    obtain ⟨rfl, h⟩ := field_append_inj h
    obtain ⟨rfl, h⟩ := field_append_inj h
    obtain ⟨rfl, h⟩ := field_append_inj h
    obtain ⟨rfl, h⟩ := optionalField_append_inj (ne_cons_of_named (by simp))
      (ne_cons_of_named (by simp)) h
    obtain ⟨rfl, h⟩ := field_append_inj h
    obtain ⟨rfl, h⟩ := optionalField_append_inj (ne_cons_of_named (by simp))
      (ne_cons_of_named (by simp)) h
    obtain ⟨rfl, h⟩ := fieldUnless_append_inj (fun _ _ => Context.eq_of_isEmpty)
      (ne_cons_of_named (by simp)) (ne_cons_of_named (by simp)) h
    obtain ⟨rfl, h⟩ := optionalField_append_inj (ne_cons_of_named (by simp))
      (ne_cons_of_named (by simp)) h
    obtain ⟨rfl, h⟩ := optionalField_append_inj (ne_cons_of_named (by simp))
      (ne_cons_of_named (by simp)) h
    obtain ⟨rfl, h⟩ := field_append_inj h
    obtain ⟨rfl, h⟩ := optionalField_append_inj (ne_cons_of_named (by simp))
      (ne_cons_of_named (by simp)) h
    obtain ⟨rfl, h⟩ := field_append_inj h
    obtain rfl := field_inj h
    rfl

instance : Serialize SignedEnvelope where
  toCbor e := struct (field "payload" e.payload ++ (field "signer_pub" e.signerPub ++
    field "signature" e.signature))

/-! ### Signing and verification -/

variable {crypto : Crypto}

def EnvelopePayload.sign (self : EnvelopePayload) (working : WorkingKey crypto) :
    Except InterconnectError SignedEnvelope := do
  let msg ← liftCore (signingBytes envelopeDomain self)
  return { payload := self, signerPub := working.public, signature := working.sign msg }

theorem EnvelopePayload.payload_of_sign {payload : EnvelopePayload} {key : WorkingKey crypto}
    {env : SignedEnvelope} (h : payload.sign key = .ok env) : env.payload = payload := by
  simp only [EnvelopePayload.sign, bind_eq_ok, pure_eq_ok] at h
  obtain ⟨msg, -, rfl⟩ := h
  rfl

namespace SignedEnvelope

variable (crypto)

/-- The last step of both verifications: the signature over the canonical payload bytes. -/
def verifyPayload (self : SignedEnvelope) : Except InterconnectError Unit := do
  let msg ← liftCore (signingBytes envelopeDomain self.payload)
  (verifySignature crypto self.signerPub msg self.signature).mapError fun _ => .badEnvelope

/-- The per-message check on an authenticated channel: the sender is the working key proven at the
handshake. -/
def verifyWithKey (self : SignedEnvelope) (workingPub : Bytes) : Except InterconnectError Unit := do
  failIf (self.signerPub ≠ workingPub) .badEnvelope
  self.verifyPayload crypto

def verify (self : SignedEnvelope) (senderRootPub : Bytes)
    (senderEndorsements : List KeyEndorsement) (now : UInt64) (revocations : RevocationSet) :
    Except InterconnectError Unit := do
  liftCore (verifyWorkingKey crypto senderRootPub self.payload.fromId senderEndorsements
    self.signerPub now revocations)
  self.verifyPayload crypto

variable {crypto} {envelope : SignedEnvelope} {workingPub : Bytes}

theorem verifyWithKey_eq_ok : envelope.verifyWithKey crypto workingPub = .ok () ↔
    envelope.signerPub = workingPub ∧
      ∃ msg, signingBytes envelopeDomain envelope.payload = .ok msg ∧
        verifySignature crypto envelope.signerPub msg envelope.signature = .ok () := by
  simp only [verifyWithKey, verifyPayload, bind_eq_ok, exists_unit, failIf_eq_ok, liftCore_eq_ok,
    mapError_ok_iff, ne_eq, not_not]

end SignedEnvelope

end Thicket
