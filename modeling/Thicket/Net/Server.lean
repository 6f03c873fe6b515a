import Thicket.Interconnect.Envelope
import Thicket.Net.Secure

/-!
# Requests and replies

What a serving node hands to its handler for an inbound request, and what the handler returns.
-/

namespace Thicket.Net

open Cbor (Bytes)

structure Request where
  capability : String
  body : Bytes
  auth : Option Grant
  peer : VerifiedPeer
  envelope : SignedEnvelope

inductive Reply where
  | ok (body : Bytes)
  | error (code : ErrorCode) (message : String)
  deriving DecidableEq

/-- What the handler gets for an envelope. -/
def Request.of (peer : VerifiedPeer) (env : SignedEnvelope) : Request :=
  { capability := env.payload.capability.getD "", body := env.payload.body,
    auth := env.payload.auth, peer, envelope := env }

/-- What is sent for what the handler returns. -/
def Reply.payload (localId : Id) (request : EnvelopePayload) : Reply → EnvelopePayload
  | .ok body => (EnvelopePayload.response localId request.fromId request.correlation).withBody body
  | .error code message =>
      .errorReply localId request.fromId request.correlation code message

theorem Reply.payload_correlation (localId : Id) (request : EnvelopePayload) (reply : Reply) :
    (reply.payload localId request).correlation = request.correlation := by
  cases reply <;> rfl

end Thicket.Net
