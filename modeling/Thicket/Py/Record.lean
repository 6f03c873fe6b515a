import Thicket.Py.Federation

/-!
# Records in the Python SDK

`thicket/record.py` as far as it builds and signs, and the other signed objects and encodings that
the SDK builds by hand: endorsements and revocations of `crypto.RootKey`, and checkpoints.
-/

namespace Thicket.Py

open Cbor (Bytes)

variable {crypto : Crypto}

namespace RootKey

def endorse (root : RootKey crypto) (workingPub : Bytes) (notBefore notAfter : Int) :
    Except Exc Value := do
  let view : Value := .dict [
    (.str "working_pub", .bytes workingPub),
    (.str "not_before", .int notBefore),
    (.str "not_after", .int notAfter)]
  let sig := crypto.sign root.signing (← signingInput "thicket-endorsement-v1" view)
  return .dict [
    (.str "working_pub", .bytes workingPub),
    (.str "not_before", .int notBefore),
    (.str "not_after", .int notAfter),
    (.str "root_sig", .bytes sig)]

def revoke (root : RootKey crypto) (workingPub : Bytes) (issuedAt : Int) : Except Exc Value := do
  let view : Value := .dict [
    (.str "working_pub", .bytes workingPub),
    (.str "issued_at", .int issuedAt)]
  let sig := crypto.sign root.signing (← signingInput "thicket-revocation-v1" view)
  return .dict [
    (.str "working_pub", .bytes workingPub),
    (.str "issued_at", .int issuedAt),
    (.str "root_sig", .bytes sig)]

end RootKey

namespace Record

def capability (kind description : String) (io : Value) (tags modalities : Option (List String))
    (envelope : Option StrMap) : Value :=
  .dict ([(.str "kind", .str kind), (.str "description", .str description)] ++
    optionalEntry "io" io ++
    [(.str "tags", strList tags),
     (.str "modalities", strList modalities),
     (.str "envelope", sortedMap (StrMap.orEmpty envelope))])

def locator (protocol endpoint : String) : Value :=
  .dict [(.str "protocol", .str protocol), (.str "endpoint", .str endpoint)]

def lease (ttl issuedAt expiresAt : Int) : Value :=
  .dict [(.str "ttl", .int ttl), (.str "issued_at", .int issuedAt),
    (.str "expires_at", .int expiresAt)]

/-- The keyword arguments of `build_record_payload`. -/
structure Args (crypto : Crypto) where
  schema : String
  root : RootKey crypto
  endorsement : Value
  kind : String
  locators : Option (List Value)
  capabilities : Option (List Value)
  profile : Option StrMap
  supports : Option StrMap
  visibility : String
  lease : Value
  version : Int
  ext : Option StrMap

def buildPayload (args : Args crypto) : Value :=
  .dict ([
    (.str "schema", .str args.schema),
    (.str "id", .bytes (crypto.sha256 args.root.public)),
    (.str "root_public_key", .bytes args.root.public),
    (.str "keys", .list [args.endorsement]),
    (.str "kind", .str args.kind),
    (.str "locators", .list (args.locators.getD [])),
    (.str "capabilities", .list (args.capabilities.getD [])),
    (.str "profile", sortedMap (StrMap.orEmpty args.profile)),
    (.str "supports", sortedMap (StrMap.orEmpty args.supports)),
    (.str "visibility", .str args.visibility)] ++
    optionalEntry "lease" args.lease ++
    [(.str "version", .int args.version),
     (.str "ext", sortedMap (StrMap.orEmpty args.ext))])

def sign (payload : Value) (working : WorkingKey crypto) : Except Exc Value := do
  let sig := working.sign (← signingInput "thicket-record-v1" payload)
  return .dict [(.str "payload", payload), (.str "signer_pub", .bytes working.public),
    (.str "signature", .bytes sig)]

end Record

/-- `encode_checkpoint`; the keys of the steps are distinct and in the order they were recorded. -/
def encodeCheckpoint (runId : Bytes) (steps : List (String × Bytes)) : Except Exc Bytes :=
  encode (.dict [
    (.str "run_id", .bytes runId),
    (.str "steps", .list (steps.map fun (k, v) => .dict [(.str "key", .str k),
      (.str "value", .bytes v)]))])

end Thicket.Py
