import Thicket.Core.Wire
import Thicket.Interconnect.Envelope

/-!
# Grants and envelopes on the wire

How the interconnect's types are read. The fields that are left out when they are empty are read as
empty when they are absent.
-/

namespace Thicket

open Cbor (Bytes)
open Result Serde

instance : Deserialize Caveats where
  ofCbor v := do
    let fs ← fields v
    return { capabilities := ← fs.required "capabilities", notAfter := ← fs.required "not_after",
             constraints := ← fs.defaulted "constraints" ∅ }

instance : LawfulDeserialize Caveats where
  ofCbor_view format a := by
    refine (fields_bind format _ _).trans ?_
    rw [required_of_named (a := a.capabilities) (by simp),
      required_of_named (a := a.notAfter) (by simp),
      defaulted_of_named (a := a.constraints) (by simp)]
    rfl

instance : Deserialize GrantLink where
  ofCbor v := do
    let fs ← fields v
    return { issuerPub := ← fs.required "issuer_pub", audiencePub := ← fs.required "audience_pub",
             caveats := ← fs.required "caveats", sig := ← fs.required "sig" }

instance : LawfulDeserialize GrantLink where
  ofCbor_view format a := by
    refine (fields_bind format _ _).trans ?_
    rw [required_of_named (a := a.issuerPub) (by simp),
      required_of_named (a := a.audiencePub) (by simp),
      required_of_named (a := a.caveats) (by simp), required_of_named (a := a.sig) (by simp)]
    rfl

instance : Deserialize Grant where
  ofCbor v := do
    let fs ← fields v
    return { target := ← fs.required "target", links := ← fs.required "links" }

instance : LawfulDeserialize Grant where
  ofCbor_view format a := by
    refine (fields_bind format _ _).trans ?_
    rw [required_of_named (a := a.target) (by simp), required_of_named (a := a.links) (by simp)]
    rfl

instance : NonNull Grant := ⟨rfl⟩

instance : Deserialize EnvelopeType where
  ofCbor := unitVariant [.request, .response, .event, .error, .streamChunk, .cancel]
    EnvelopeType.name

instance : LawfulDeserialize EnvelopeType where
  ofCbor_view format a := by
    simp only [Serialize.toCbor, Format.view_text]
    cases a <;> decide

instance : Deserialize ErrorCode where
  ofCbor := unitVariant [.notFound, .unauthorized, .timeout, .unavailable, .badRequest, .conflict,
    .internal] ErrorCode.name

instance : LawfulDeserialize ErrorCode where
  ofCbor_view format a := by
    simp only [Serialize.toCbor, Format.view_text]
    cases a <;> decide

instance : Deserialize ErrorInfo where
  ofCbor v := do
    let fs ← fields v
    return { code := ← fs.required "code", message := ← fs.required "message" }

instance : LawfulDeserialize ErrorInfo where
  ofCbor_view format a := by
    refine (fields_bind format _ _).trans ?_
    rw [required_of_named (a := a.code) (by simp), required_of_named (a := a.message) (by simp)]
    rfl

instance : NonNull ErrorInfo := ⟨rfl⟩

instance : Deserialize SinkRef where
  ofCbor v := do
    let fs ← fields v
    return { id := ← fs.required "id", endpoint := ← fs.required "endpoint" }

instance : LawfulDeserialize SinkRef where
  ofCbor_view format a := by
    refine (fields_bind format _ _).trans ?_
    rw [required_of_named (a := a.id) (by simp), required_of_named (a := a.endpoint) (by simp)]
    rfl

instance : NonNull SinkRef := ⟨rfl⟩

instance : Deserialize Context where
  ofCbor v := do
    let fs ← fields v
    return { traceId := ← fs.defaulted "trace_id" [], spanId := ← fs.defaulted "span_id" [],
             parentSpanId := ← fs.defaulted "parent_span_id" [],
             deadline := ← fs.defaulted "deadline" none, budget := ← fs.defaulted "budget" none,
             sink := ← fs.defaulted "sink" none }

instance : LawfulDeserialize Context where
  ofCbor_view format a := by
    refine (fields_bind format _ _).trans ?_
    rw [unless_of_named (a := a.traceId) List.isEmpty_iff.mp (by simp),
      unless_of_named (a := a.spanId) List.isEmpty_iff.mp (by simp),
      unless_of_named (a := a.parentSpanId) List.isEmpty_iff.mp (by simp),
      optional_of_named (a := a.deadline) (by simp), optional_of_named (a := a.budget) (by simp),
      optional_of_named (a := a.sink) (by simp)]
    rfl

instance : Deserialize EnvelopePayload where
  ofCbor v := do
    let fs ← fields v
    return { v := ← fs.required "v", fromId := ← fs.required "from", toId := ← fs.required "to",
             typ := ← fs.required "typ", capability := ← fs.defaulted "capability" none,
             correlation := ← fs.required "correlation",
             contentType := ← fs.defaulted "content_type" none,
             context := ← fs.defaulted "context" .empty, auth := ← fs.defaulted "auth" none,
             streamSeq := ← fs.defaulted "stream_seq" none,
             streamEnd := ← fs.defaulted "stream_end" false, error := ← fs.defaulted "error" none,
             body := ← fs.defaulted "body" [], ext := ← fs.defaulted "ext" ∅ }

instance : LawfulDeserialize EnvelopePayload where
  ofCbor_view format a := by
    refine (fields_bind format _ _).trans ?_
    rw [required_of_named (a := a.v) (by simp), required_of_named (a := a.fromId) (by simp),
      required_of_named (a := a.toId) (by simp), required_of_named (a := a.typ) (by simp),
      optional_of_named (a := a.capability) (by simp),
      required_of_named (a := a.correlation) (by simp),
      optional_of_named (a := a.contentType) (by simp),
      unless_of_named (a := a.context) Context.eq_empty_of_isEmpty (by simp),
      optional_of_named (a := a.auth) (by simp), optional_of_named (a := a.streamSeq) (by simp),
      defaulted_of_named (a := a.streamEnd) (by simp), optional_of_named (a := a.error) (by simp),
      defaulted_of_named (a := a.body) (by simp), defaulted_of_named (a := a.ext) (by simp)]
    rfl

instance : Deserialize SignedEnvelope where
  ofCbor v := do
    let fs ← fields v
    return { payload := ← fs.required "payload", signerPub := ← fs.required "signer_pub",
             signature := ← fs.required "signature" }

instance : LawfulDeserialize SignedEnvelope where
  ofCbor_view format a := by
    refine (fields_bind format _ _).trans ?_
    rw [required_of_named (a := a.payload) (by simp),
      required_of_named (a := a.signerPub) (by simp),
      required_of_named (a := a.signature) (by simp)]
    rfl

end Thicket
