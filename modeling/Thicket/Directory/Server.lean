import Thicket.Net.Server
import Thicket.Registry.Entries

/-!
# The directory server

A registry served as a resource. Reading is open; registering, renewing and deregistering are gated
by the channel identity, so that a caller only manages the record of the identity it authenticated
with. Each request takes the registry's lock once, so concurrent requests are served one after the
other in some order.

The reader of the request bodies is the CBOR library's and is left open: `fromCbor` is any function
from types and bytes to values.
-/

namespace Thicket

open Cbor (Bytes)
open Result Serde

def Error.toString : Error → String
  | .serialization => "serialization: "
  | .badKey => "invalid key material (expected 32 bytes)"
  | .badSig => "invalid signature material (expected 64 bytes)"
  | .verifyFailed => "signature verification failed"
  | .idMismatch => "id does not match root public key"
  | .noValidEndorsement => "no working-key endorsement matches the signer"
  | .endorsementExpired => "working-key endorsement is expired or not yet valid"
  | .revoked => "working key has been revoked"
  | .badEndorsement => "endorsement/revocation signature is not valid under the root key"

def RegistryError.toString : RegistryError → String
  | .core error => "record rejected: " ++ error.toString
  | .stale => "stale: version is not newer than the current record"
  | .notFound => "not found"
  | .notAuthorized => "not authorized to resolve a private record"

/-- Arguments for a lease renewal. -/
structure RenewArgs where
  id : Id
  ttl : UInt64

instance : Deserialize RenewArgs where
  ofCbor v := do
    let fs ← fields v
    return { id := ← fs.required "id", ttl := ← fs.required "ttl" }

/-- A `usize` is 64 bits wide. -/
def topKOfCbor : Cbor.Value → Option Nat
  | .uint n => if n < 2 ^ 64 then some n else none
  | _ => none

instance : Deserialize Need where
  ofCbor v := do
    let fs ← fields v
    return { intentText := ← fs.required "intent_text", kind := ← fs.defaulted "kind" none,
             tags := ← fs.required "tags",
             topK := ← match fs.get "top_k" with
               | [value] => topKOfCbor value
               | _ => none }

namespace Directory

def capabilityRegister : String := "directory.register"

def capabilityResolve : String := "directory.resolve"

def capabilitySearch : String := "directory.search"

def capabilityRenew : String := "directory.renew"

def capabilityDeregister : String := "directory.deregister"

def encodeReply {α : Type} [Serialize α] (value : α) : Net.Reply :=
  match intoWriter value with
  | some bytes => .ok bytes
  | none => .error .internal "encode failed"

variable (crypto : Crypto) (fromCbor : (α : Type) → [Deserialize α] → Bytes → Option α)
  {embedder : Embedder}

def handleRegister (registry : Registry embedder) (req : Net.Request) (now : UInt64) :
    Registry embedder × Net.Reply :=
  match fromCbor SignedRecord req.body with
  | none => (registry, .error .badRequest "malformed record")
  | some record =>
      -- A resource may only publish a record for its own identity.
      if record.payload.id ≠ req.peer.id then
        (registry, .error .unauthorized "may only register your own identity")
      else
        match registry.register crypto record now with
        | .ok next => (next, .ok [])
        | .error e => (registry, .error .conflict e.toString)

def handleResolve (registry : Registry embedder) (req : Net.Request) (now : UInt64) :
    Registry embedder × Net.Reply :=
  match fromCbor Id req.body with
  | none => (registry, .error .badRequest "malformed id")
  | some id =>
      match registry.resolve id now with
      | .ok record => (registry, encodeReply record)
      | .error _ => (registry, .error .notFound "no such record")

/-- `values` is the order in which the search visits the store's values. -/
def handleSearch (registry : Registry embedder) (values : List (Stored embedder))
    (req : Net.Request) (now : UInt64) : Registry embedder × Net.Reply :=
  match fromCbor Need req.body with
  | none => (registry, .error .badRequest "malformed query")
  | some need => (registry, encodeReply (Registry.search values need now))

def handleRenew (registry : Registry embedder) (req : Net.Request) (now : UInt64) :
    Registry embedder × Net.Reply :=
  match fromCbor RenewArgs req.body with
  | none => (registry, .error .badRequest "malformed renew")
  | some args =>
      if args.id ≠ req.peer.id then (registry, .error .unauthorized "not your record")
      else
        match registry.renew args.id now args.ttl with
        | .ok (next, expiry) => (next, encodeReply expiry)
        | .error _ => (registry, .error .notFound "no such record")

def handleDeregister (registry : Registry embedder) (req : Net.Request) :
    Registry embedder × Net.Reply :=
  match fromCbor Id req.body with
  | none => (registry, .error .badRequest "malformed id")
  | some id =>
      if id ≠ req.peer.id then (registry, .error .unauthorized "not your record")
      else ((registry.deregister id).1, .ok [])

/-- The handler, at the time `now` it is entered. -/
def handle (registry : Registry embedder) (values : List (Stored embedder)) (req : Net.Request)
    (now : UInt64) : Registry embedder × Net.Reply :=
  if req.capability = capabilityRegister then handleRegister crypto fromCbor registry req now
  else if req.capability = capabilityResolve then handleResolve fromCbor registry req now
  else if req.capability = capabilitySearch then handleSearch fromCbor registry values req now
  else if req.capability = capabilityRenew then handleRenew fromCbor registry req now
  else if req.capability = capabilityDeregister then handleDeregister fromCbor registry req
  else (registry, .error .notFound ("unknown directory capability: " ++ req.capability))

end Directory

end Thicket
