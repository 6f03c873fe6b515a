import Thicket.Core.Record
import Thicket.Lib.HashMap
import Mathlib.Order.Defs.LinearOrder

/-!
# The registry

The authoritative store for its registrants: it verifies a record on entry, keeps one record per
identity, and answers by id or by meaning from what it keeps. Methods that change the registry
return the changed one; they fail before they change anything.

Arithmetic on times is that of a release build, where `u64` wraps around.
-/

namespace Thicket

open Cbor (Bytes)
open Result

inductive RegistryError where
  | core (error : Error)
  | stale
  | notFound
  | notAuthorized
  deriving DecidableEq, Repr

/-- An embedding provider together with the similarity of its vectors. Scores are `f32` in the
source; only that they are ordered is used. -/
structure Embedder where
  Vector : Type
  Score : Type
  [order : LinearOrder Score]
  embed : String → Vector
  cosine : Vector → Vector → Score
  min : Score

attribute [instance] Embedder.order

/-- Texts are similar when they are the same text. -/
def Embedder.exact : Embedder where
  Vector := String
  Score := Int
  embed text := text
  cosine a b := if a = b then 1 else 0
  min := -1

structure Need where
  intentText : String
  kind : Option String
  tags : List String
  topK : Nat

structure Stored (embedder : Embedder) where
  record : SignedRecord
  capEmbeddings : List embedder.Vector

structure Registry (embedder : Embedder) where
  store : HashMap Id (Stored embedder)
  revocations : RevocationSet

def leaseExpired (record : SignedRecord) (now : UInt64) : Bool :=
  record.payload.lease.any fun l => now > l.expiresAt

theorem leaseExpired_eq_false {record : SignedRecord} {now : UInt64} :
    leaseExpired record now = false ↔
      ∀ l, record.payload.lease = some l → now ≤ l.expiresAt := by
  rw [leaseExpired]
  cases record.payload.lease with
  | none => simp
  | some l => simp

variable {embedder : Embedder}

def kindMatches (stored : Stored embedder) (need : Need) : Bool :=
  match need.kind with
  | none => true
  | some k => stored.record.payload.kind == k ||
      stored.record.payload.capabilities.any fun c => c.kind == k

def tagsMatch (stored : Stored embedder) (need : Need) : Bool :=
  need.tags.all fun t => stored.record.payload.capabilities.any fun c => c.tags.contains t

def bestCapabilityScore (query : embedder.Vector) (stored : Stored embedder) : embedder.Score :=
  (stored.capEmbeddings.map fun e => embedder.cosine query e).foldl max embedder.min

/-- Overwrite the lease inside the payload; the signature is left as it is. -/
def SignedRecord.setLease (record : SignedRecord) (lease : Lease) : SignedRecord :=
  { record with payload := { record.payload with lease := some lease } }

namespace Registry

def new (embedder : Embedder) : Registry embedder := { store := ∅, revocations := .new }

section Mutation

variable (crypto : Crypto)

/-- Publish (or update) a record. Verifies the full signature/key chain at `now`, rejects stale
versions, and indexes capability embeddings. -/
def register (self : Registry embedder) (record : SignedRecord) (now : UInt64) :
    Except RegistryError (Registry embedder) := do
  (record.verify crypto now self.revocations).mapError .core
  failIf (self.store[record.id]?.any fun existing =>
    record.payload.version ≤ existing.record.payload.version) .stale
  let capEmbeddings := record.payload.capabilities.map fun c => embedder.embed c.description
  return { self with store := self.store.insert record.id { record, capEmbeddings } }

/-- Apply a root-signed revocation. Verifies it under the record's root key, records the revoked
working key, and drops the record if its own signer became untrusted. -/
def revoke (self : Registry embedder) (id : Id) (revocation : Revocation) :
    Except RegistryError (Registry embedder) := do
  let stored ← okOr self.store[id]? .notFound
  (verifyRevocation crypto stored.record.payload.rootPublicKey revocation).mapError .core
  let revocations := self.revocations.revokeKey revocation.workingPub
  if revocations.isRevoked stored.record.signerPub then
    return { store := self.store.erase id, revocations }
  else
    return { self with revocations }

end Mutation

/-- Extend a record's lease. Returns the bumped expiry. -/
def renew (self : Registry embedder) (id : Id) (now ttl : UInt64) :
    Except RegistryError (Registry embedder × UInt64) := do
  let stored ← okOr self.store[id]? .notFound
  let _ ← okOr stored.record.payload.lease .notFound
  let lease : Lease := { issuedAt := now, ttl, expiresAt := now + ttl }
  let renewed := { stored with record := stored.record.setLease lease }
  return ({ self with store := self.store.insert id renewed }, lease.expiresAt)

def deregister (self : Registry embedder) (id : Id) : Registry embedder × Bool :=
  ({ self with store := self.store.erase id }, self.store.contains id)

/-- Evict records whose lease has expired as of `now`. Returns how many. -/
def sweepExpired (self : Registry embedder) (now : UInt64) : Registry embedder × Nat :=
  let store := self.store.retain fun s => !leaseExpired s.record now
  ({ self with store }, self.store.size - store.size)

/-- Resolve by id. Private records require authorization. -/
def resolve (self : Registry embedder) (id : Id) (now : UInt64) :
    Except RegistryError SignedRecord := do
  let stored ← okOr self.store[id]? .notFound
  failIf (leaseExpired stored.record now) .notFound
  match stored.record.payload.visibility with
  | .private => .error .notAuthorized
  | _ => return stored.record

/-- Semantic search: filter, recall, rank. `values` is the order the store's values are visited in;
equally scored records stay in that order. -/
def search (values : List (Stored embedder)) (need : Need) (now : UInt64) : List SignedRecord :=
  let q := embedder.embed need.intentText
  let scored := values
    |>.filter (fun s => s.record.payload.visibility = .public)
    |>.filter (fun s => !leaseExpired s.record now)
    |>.filter (fun s => kindMatches s need)
    |>.filter (fun s => tagsMatch s need)
    |>.map fun s => (bestCapabilityScore q s, s)
  let scored := scored.mergeSort fun a b => decide (b.1 ≤ a.1)
  (scored.take need.topK).map fun (_, s) => s.record

/-- All public, currently-live records, in the order the store's values are visited in. -/
def publicRecords (values : List (Stored embedder)) (now : UInt64) : List SignedRecord :=
  values
    |>.filter (fun s => s.record.payload.visibility = .public)
    |>.filter (fun s => !leaseExpired s.record now)
    |>.map fun s => s.record

end Registry

end Thicket
