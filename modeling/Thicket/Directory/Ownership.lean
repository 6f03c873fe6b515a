import Thicket.Registry.Entries
import Thicket.Directory.Server

/-!
# Directory ownership

A request changes at most the entry of the identity it is authenticated as, and what it does to that
entry depends on nothing but the entry and the revocations, which no request changes. So the entry
of an identity is what its own requests make of it, whatever the others do in between.
-/

namespace Thicket

open Cbor (Bytes)
open Result Serde

variable {crypto : Crypto} {embedder : Embedder}

namespace Registry

variable {r r' : Registry embedder} {record : SignedRecord} {id : Id} {now ttl : UInt64}

/-- Two registries with the same entry of one identity and the same revocations. -/
def SameFor (id : Id) (r r' : Registry embedder) : Prop :=
  r.store[id]? = r'.store[id]? ∧ r.revocations = r'.revocations

theorem SameFor.refl (id : Id) (r : Registry embedder) : SameFor id r r := ⟨rfl, rfl⟩

theorem SameFor.put (h : SameFor id r r') (stored : Stored embedder) :
    SameFor id (r.put id stored) (r'.put id stored) := by
  refine ⟨?_, h.2⟩
  simp only [Registry.put, HashMap.getElem?_insert, if_true]

theorem SameFor.deregister (h : SameFor id r r') :
    SameFor id (r.deregister id).1 (r'.deregister id).1 := by
  refine ⟨?_, h.2⟩
  simp only [Registry.deregister, HashMap.getElem?_erase, if_true]

theorem sameFor_put_of_ne {id' : Id} (hid : id ≠ id') (stored : Stored embedder) :
    SameFor id (r.put id' stored) r := by
  refine ⟨?_, rfl⟩
  simp only [put, HashMap.getElem?_insert, if_neg hid]

theorem sameFor_deregister_of_ne {id' : Id} (hid : id ≠ id') :
    SameFor id (r.deregister id').1 r := by
  refine ⟨?_, rfl⟩
  simp only [deregister, HashMap.getElem?_erase, if_neg hid]

end Registry

namespace Directory

open Registry

variable {registry : Registry embedder} {values : List (Stored embedder)} {req : Net.Request}
  {id : Id} {now : UInt64} {fromCbor : (α : Type) → [Deserialize α] → Bytes → Option α}

/-! ### What a request does -/

/-- A request leaves the registry alone, or puts or erases the entry of its own identity. -/
inductive Effect (embedder : Embedder) where
  | nothing
  | put (stored : Stored embedder)
  | erase

def Effect.apply (effect : Effect embedder) (registry : Registry embedder) (id : Id) :
    Registry embedder :=
  match effect with
  | .nothing => registry
  | .put stored => registry.put id stored
  | .erase => (registry.deregister id).1

section

variable (crypto fromCbor)

def registerEffect (entry : Option (Stored embedder)) (revocations : RevocationSet)
    (req : Net.Request) (now : UInt64) : Effect embedder :=
  match fromCbor SignedRecord req.body with
  | none => .nothing
  | some record =>
      if record.payload.id ≠ req.peer.id then .nothing
      else
        match admitted crypto entry revocations record now with
        | .ok stored => .put stored
        | .error _ => .nothing

def renewEffect (entry : Option (Stored embedder)) (req : Net.Request) (now : UInt64) :
    Effect embedder :=
  match fromCbor RenewArgs req.body with
  | none => .nothing
  | some args =>
      if args.id ≠ req.peer.id then .nothing
      else
        match renewed entry now args.ttl with
        | .ok (stored, _) => .put stored
        | .error _ => .nothing

variable (embedder) in
def deregisterEffect (req : Net.Request) : Effect embedder :=
  match fromCbor Id req.body with
  | none => .nothing
  | some id => if id ≠ req.peer.id then .nothing else .erase

/-- What a request does, from the entry of the identity it is authenticated as. -/
def effect (entry : Option (Stored embedder)) (revocations : RevocationSet) (req : Net.Request)
    (now : UInt64) : Effect embedder :=
  if req.capability = capabilityRegister then
    registerEffect crypto fromCbor entry revocations req now
  else if req.capability = capabilityResolve then .nothing
  else if req.capability = capabilitySearch then .nothing
  else if req.capability = capabilityRenew then renewEffect fromCbor entry req now
  else if req.capability = capabilityDeregister then deregisterEffect embedder fromCbor req
  else .nothing

end

/-- The reply to a renewal is never an error: every `u64` can be encoded. -/
theorem encodeReply_ne_error (n : UInt64) (code : ErrorCode) (message : String) :
    encodeReply n ≠ .error code message := by
  have hlt := UInt64.toNat_lt n
  obtain ⟨bytes, hbytes⟩ : ∃ bytes, intoWriter n = some bytes := by
    simp only [intoWriter, Serialize.toCbor, Cbor.encode, Cbor.head, Cbor.argument]
    split_ifs <;> simp
    omega
  rw [encodeReply, hbytes]
  exact Net.Reply.noConfusion

/-! Each arm of the handler has its effect, and has none if it answers with an error. -/

/-- An answered request: the registry has the effect's change, or none under an error. -/
def Served (effect : Effect embedder) (registry : Registry embedder) (id : Id)
    (answer : Registry embedder × Net.Reply) : Prop :=
  answer.1 = effect.apply registry id ∧
    ∀ code message, answer.2 = .error code message → answer.1 = registry

theorem served_nothing (reply : Net.Reply) : Served .nothing registry id (registry, reply) :=
  ⟨rfl, fun _ _ _ => rfl⟩

theorem served_register : Served
    (registerEffect crypto fromCbor registry.store[req.peer.id]? registry.revocations req now)
    registry req.peer.id (handleRegister crypto fromCbor registry req now) := by
  unfold handleRegister registerEffect
  cases fromCbor SignedRecord req.body with
  | none => exact served_nothing _
  | some record =>
      by_cases hid : record.payload.id = req.peer.id
      · have hown : record.id = req.peer.id := hid
        simp only [hid, ne_eq, not_true_eq_false, if_false, register_eq, hown]
        cases admitted crypto registry.store[req.peer.id]? registry.revocations record now with
        | error e => exact served_nothing _
        | ok stored => exact ⟨rfl, fun _ _ h => Net.Reply.noConfusion h⟩
      · simp only [hid, ne_eq, not_false_eq_true, if_true]
        exact served_nothing _

theorem served_resolve :
    Served .nothing registry req.peer.id (handleResolve fromCbor registry req now) := by
  unfold handleResolve
  cases fromCbor Id req.body with
  | none => exact served_nothing _
  | some target =>
      simp only
      cases registry.resolve target now with
      | error e => exact served_nothing _
      | ok record => exact served_nothing _

theorem served_search :
    Served .nothing registry req.peer.id (handleSearch fromCbor registry values req now) := by
  unfold handleSearch
  cases fromCbor Need req.body with
  | none => exact served_nothing _
  | some need => exact served_nothing _

theorem served_renew : Served (renewEffect fromCbor registry.store[req.peer.id]? req now) registry
    req.peer.id (handleRenew fromCbor registry req now) := by
  unfold handleRenew renewEffect
  cases fromCbor RenewArgs req.body with
  | none => exact served_nothing _
  | some args =>
      by_cases hid : args.id = req.peer.id
      · simp only [hid, ne_eq, not_true_eq_false, if_false, renew_eq]
        cases renewed registry.store[req.peer.id]? now args.ttl with
        | error e => exact served_nothing _
        | ok x => exact ⟨rfl, fun _ _ h => absurd h (encodeReply_ne_error _ _ _)⟩
      · simp only [hid, ne_eq, not_false_eq_true, if_true]
        exact served_nothing _

theorem served_deregister : Served (deregisterEffect embedder fromCbor req) registry req.peer.id
    (handleDeregister fromCbor registry req) := by
  unfold handleDeregister deregisterEffect
  cases fromCbor Id req.body with
  | none => exact served_nothing _
  | some id =>
      by_cases hid : id = req.peer.id
      · simp only [hid, ne_eq, not_true_eq_false, if_false]
        exact ⟨rfl, fun _ _ h => Net.Reply.noConfusion h⟩
      · simp only [hid, ne_eq, not_false_eq_true, if_true]
        exact served_nothing _

theorem served_handle : Served
    (effect crypto fromCbor registry.store[req.peer.id]? registry.revocations req now)
    registry req.peer.id (handle crypto fromCbor registry values req now) := by
  unfold handle effect
  split_ifs
  · exact served_register
  · exact served_resolve
  · exact served_search
  · exact served_renew
  · exact served_deregister
  · exact served_nothing _

theorem Effect.sameFor {registry' : Registry embedder} (effect : Effect embedder)
    (h : SameFor id registry registry') :
    SameFor id (effect.apply registry id) (effect.apply registry' id) := by
  cases effect with
  | nothing => exact h
  | put stored => exact h.put stored
  | erase => exact h.deregister

theorem Effect.sameFor_of_ne {id' : Id} (effect : Effect embedder) (hid : id ≠ id') :
    SameFor id (effect.apply registry id') registry := by
  cases effect with
  | nothing => exact SameFor.refl id registry
  | put stored => exact sameFor_put_of_ne hid stored
  | erase => exact sameFor_deregister_of_ne hid

/-! ### Any interleaving -/

/-- A request as it is served: when, and in which order a search then visits the values. -/
structure Arrival (embedder : Embedder) where
  req : Net.Request
  now : UInt64
  values : List (Stored embedder)

variable (crypto fromCbor) in
def serve (registry : Registry embedder) (arrival : Arrival embedder) : Registry embedder :=
  (handle crypto fromCbor registry arrival.values arrival.req arrival.now).1

/-- **Ownership.** Whatever requests from whatever peers are served in whatever order, the entry of
an identity is the one its own requests alone leave, and a request that is answered with an error
leaves every entry as it was. -/
theorem directory_ownership (registry : Registry embedder) (id : Id) :
    (∀ arrivals : List (Arrival embedder),
      (Run.exec (serve crypto fromCbor) registry arrivals).store[id]? =
        (Run.exec (serve crypto fromCbor) registry
          (arrivals.filter fun arrival => arrival.req.peer.id = id)).store[id]?) ∧
    ∀ (arrival : Arrival embedder) (code : ErrorCode) (message : String),
      (handle crypto fromCbor registry arrival.values arrival.req arrival.now).2 =
        .error code message → (serve crypto fromCbor registry arrival).store[id]? =
          registry.store[id]? := by
  constructor
  · intro arrivals
    refine (Run.exec_filter (r := SameFor id) ?_ ?_ (SameFor.refl id registry) arrivals).1
    · intro s t arrival hown h
      rw [decide_eq_true_eq] at hown
      obtain rfl := hown
      rw [serve, serve, served_handle.1, served_handle.1, h.1, h.2]
      exact Effect.sameFor _ h
    · intro s t arrival hother h
      rw [decide_eq_false_iff_not] at hother
      rw [serve, served_handle.1]
      obtain ⟨hentry, hrevocations⟩ : SameFor id (Effect.apply _ s arrival.req.peer.id) s :=
        Effect.sameFor_of_ne _ (Ne.symm hother)
      exact ⟨hentry.trans h.1, hrevocations.trans h.2⟩
  · intro arrival code message herror
    rw [serve, served_handle.2 code message herror]

end Directory

end Thicket
