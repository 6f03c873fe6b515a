import Thicket.Py.Federation

/-!
# Envelopes in the Python SDK

`thicket/envelope.py` as far as it builds and signs. Optional fields are omitted, a context when it
is empty as well.
-/

namespace Thicket.Py.Envelope

open Cbor (Bytes)

/-- The keyword arguments of `build_envelope_payload`. -/
structure Args where
  fromId : Value
  toId : Value
  typ : Value
  correlation : Value
  capability : Value := .none
  contentType : Value := .none
  context : Value := .none
  auth : Value := .none
  streamSeq : Value := .none
  streamEnd : Value := .bool false
  error : Value := .none
  body : Value := .bytes []
  ext : Option StrMap := none

def contextEntry (context : Value) : List (Value × Value) :=
  if context.truthy then [(.str "context", context)] else []

def buildPayload (args : Args) : Value :=
  .dict ([(.str "v", .int 1), (.str "from", args.fromId), (.str "to", args.toId),
      (.str "typ", args.typ)] ++
    optionalEntry "capability" args.capability ++
    [(.str "correlation", args.correlation)] ++
    optionalEntry "content_type" args.contentType ++
    contextEntry args.context ++
    optionalEntry "auth" args.auth ++
    optionalEntry "stream_seq" args.streamSeq ++
    [(.str "stream_end", args.streamEnd)] ++
    optionalEntry "error" args.error ++
    [(.str "body", args.body), (.str "ext", sortedMap (StrMap.orEmpty args.ext))])

variable {crypto : Crypto}

def sign (payload : Value) (working : WorkingKey crypto) : Except Exc Value := do
  let sig := working.sign (← signingInput "thicket-envelope-v1" payload)
  return .dict [(.str "payload", payload), (.str "signer_pub", .bytes working.public),
    (.str "signature", .bytes sig)]

/-- `cbor.encode(sign_envelope(payload, working))` -/
def signedBlob (payload : Value) (working : WorkingKey crypto) : Except Exc Bytes := do
  encode (← sign payload working)

end Thicket.Py.Envelope
