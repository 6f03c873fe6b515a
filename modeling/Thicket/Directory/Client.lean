import Thicket.Core.Wire
import Thicket.Directory.Server

/-!
# The directory client

The typed client of a directory. Each of its methods encodes what it is given, makes one call and
reads the body of the response. What such a call gives, if the server answers it, is what the
registry itself gives when it is asked on behalf of the client's identity.
-/

namespace Thicket

open Cbor (Bytes)
open Result Serde

/-- Start a new request for a capability; the source draws the correlation. -/
def EnvelopePayload.request (fromId toId : Id) (capability : String) (correlation : Bytes) :
    EnvelopePayload :=
  { EnvelopePayload.base fromId toId .request correlation with capability := some capability }

instance : Serialize RenewArgs where
  toCbor args := struct (field "id" args.id ++ field "ttl" args.ttl)

instance : LawfulDeserialize RenewArgs where
  ofCbor_view format a := by
    refine (fields_bind format _ _).trans ?_
    rw [required_of_named (a := a.id) (by simp), required_of_named (a := a.ttl) (by simp)]
    rfl

/-- Unlike the fields that are left out, a kind that is `None` is written as null. -/
instance : Serialize Need where
  toCbor need := struct (field "intent_text" need.intentText ++
    ([("kind", (need.kind.map toCbor).getD .null)] ++
      (field "tags" need.tags ++ [("top_k", .uint need.topK)])))

namespace Directory

inductive ClientError where
  | net (error : NetError)
  | core (error : Error)
  | codec
  | remote (message : String)
  deriving DecidableEq

namespace Wire

def toCbor {α : Type} [Serialize α] (value : α) : Except ClientError Bytes :=
  okOr (intoWriter value) .codec

def fromCbor {α : Type} [Deserialize α] (bytes : Bytes) : Except ClientError α :=
  okOr (fromReader bytes) .codec

end Wire

/-- What the methods return. -/
inductive ClientAnswer where
  | done
  | found (record : Option SignedRecord)
  | ranked (records : List SignedRecord)
  | expiry (e : UInt64)
  deriving DecidableEq

/-- A method makes one call: its capability, its body unless that cannot be encoded, and what the
method returns for the body of the response. -/
structure Method where
  capability : String
  body : Except ClientError Bytes
  returns : Except ClientError Bytes → Except ClientError ClientAnswer

namespace Method

/-- What `Conn::call` is given. -/
def request (self : Method) (localId directoryId : Id) (correlation : Bytes) :
    Except ClientError EnvelopePayload := do
  let env := EnvelopePayload.request localId directoryId self.capability correlation
  return env.withBody (← self.body)

/-- What `Conn::call` has returned. -/
def response (resp : Except NetError SignedEnvelope) : Except ClientError Bytes :=
  match resp with
  | .error e => .error (.net e)
  | .ok resp =>
      match resp.payload.typ with
      | .error => .error (.remote ((resp.payload.error.map ErrorInfo.message).getD ""))
      | _ => .ok resp.payload.body

end Method

/-- Publish this resource's own signed record. -/
def register (record : SignedRecord) : Method where
  capability := capabilityRegister
  body := Wire.toCbor record
  returns result := result.map fun _ => .done

/-- Resolve a record by id; `Ok(None)` if the directory has no such record. -/
def resolve (id : Id) : Method where
  capability := capabilityResolve
  body := Wire.toCbor id
  returns
    | .ok body => (Wire.fromCbor body).map fun record => .found (some record)
    | .error (.remote _) => .ok (.found none)
    | .error e => .error e

/-- Search the directory by need; returns ranked records. -/
def search (need : Need) : Method where
  capability := capabilitySearch
  body := Wire.toCbor need
  returns result := do return .ranked (← Wire.fromCbor (← result))

/-- Renew this resource's lease, returning the new expiry. -/
def renew (localId : Id) (ttl : UInt64) : Method where
  capability := capabilityRenew
  body := Wire.toCbor ({ id := localId, ttl } : RenewArgs)
  returns result := do return .expiry (← Wire.fromCbor (← result))

/-- Withdraw this resource's record. -/
def deregister (localId : Id) : Method where
  capability := capabilityDeregister
  body := Wire.toCbor localId
  returns result := result.map fun _ => .done

/-- A call of one of the methods. -/
inductive ClientOp where
  | register (record : SignedRecord)
  | resolve (id : Id)
  | search (need : Need)
  | renew (ttl : UInt64)
  | deregister

def ClientOp.method (localId : Id) : ClientOp → Method
  | .register record => Directory.register record
  | .resolve id => Directory.resolve id
  | .search need => Directory.search need
  | .renew ttl => Directory.renew localId ttl
  | .deregister => Directory.deregister localId

end Directory

/-! ### Asking the registry -/

section

open Directory

variable (crypto : Crypto) {embedder : Embedder}

/-- What the registry says to a caller, without a directory in between. -/
def Registry.ask (self : Registry embedder) (owner : Id) (now : UInt64)
    (values : List (Stored embedder)) :
    ClientOp → Except ClientError ClientAnswer × Registry embedder
  | .register record =>
      if record.id ≠ owner then (.error (.remote "may only register your own identity"), self)
      else
        match self.register crypto record now with
        | .ok next => (.ok .done, next)
        | .error e => (.error (.remote e.toString), self)
  | .resolve id => (.ok (.found (self.resolve id now).toOption), self)
  | .search need => (.ok (.ranked (Registry.search values need now)), self)
  | .renew ttl =>
      match self.renew owner now ttl with
      | .ok (next, e) => (.ok (.expiry e), next)
      | .error _ => (.error (.remote "no such record"), self)
  | .deregister => (.ok .done, (self.deregister owner).1)

end

/-! ### What can be encoded -/

theorem isSome_encode_struct {fs : List (String × Cbor.Value)} :
    (Cbor.encode (struct fs)).isSome = true ↔ fs.length < 256 ^ 8 ∧ ∀ f ∈ fs,
      (Cbor.utf8 f.1).length < 256 ^ 8 ∧ (Cbor.encode f.2).isSome = true := by
  rw [struct, Cbor.isSome_encode_map, List.length_map, List.forall_mem_map]
  simp only [Cbor.isSome_encode_text]

theorem forall_mem_field {α : Type} [Serialize α] {name : String} {a : α}
    {P : String × Cbor.Value → Prop} : (∀ f ∈ field name a, P f) ↔ P (name, toCbor a) := by
  rw [field, List.forall_mem_singleton]

theorem isSome_intoWriter_uint64 (n : UInt64) : (intoWriter n).isSome = true := by
  have hlt := UInt64.toNat_lt n
  simp only [intoWriter, Serialize.toCbor, Cbor.encode, Cbor.head, Cbor.argument]
  split_ifs <;> simp
  omega

namespace Registry

variable {embedder : Embedder} {crypto : Crypto} {self : Registry embedder}

/-- What is kept can be sent. -/
def Writable (self : Registry embedder) : Prop :=
  ∀ id record, self.record? id = some record → (intoWriter record).isSome = true

theorem writable_new : (new embedder).Writable := by
  intro id record h
  rw [record?_new] at h
  cases h

theorem isSome_intoWriter {record : SignedRecord} : (intoWriter record).isSome = true ↔
    (intoWriter record.payload).isSome = true ∧ (intoWriter record.signerPub).isSome = true ∧
      (intoWriter record.signature).isSome = true := by
  show (Cbor.encode (struct _)).isSome = true ↔ _
  rw [isSome_encode_struct]
  simp only [List.forall_mem_append, forall_mem_field]
  constructor
  · intro h
    exact ⟨h.2.1.2, h.2.2.1.2, h.2.2.2.2⟩
  · intro h
    exact ⟨(by decide : 3 < 256 ^ 8), ⟨by decide, h.1⟩, ⟨by decide, h.2.1⟩, ⟨by decide, h.2.2⟩⟩

theorem isSome_intoWriter_lease (lease : Lease) : (intoWriter lease).isSome = true := by
  show (Cbor.encode (struct _)).isSome = true
  rw [isSome_encode_struct]
  simp only [List.forall_mem_append, forall_mem_field]
  exact ⟨(by decide : 3 < 256 ^ 8), ⟨by decide, isSome_intoWriter_uint64 _⟩,
    ⟨by decide, isSome_intoWriter_uint64 _⟩, by decide, isSome_intoWriter_uint64 _⟩

/-- A record that verifies was signed over its bytes. -/
theorem isSome_of_verify {record : SignedRecord} {now : UInt64} {revocations : RevocationSet}
    (h : record.verify crypto now revocations = .ok ()) : (intoWriter record).isSome = true := by
  obtain ⟨msg, hmsg, hverify⟩ :=
    SignedRecord.verifyPayload_eq_ok.mp (SignedRecord.verify_eq_ok.mp h).2
  obtain ⟨hkey, -, hsignature, -⟩ := verifyRaw_eq_ok.mp hverify
  simp only [signingBytes, bind_eq_ok, okOr_eq_ok] at hmsg
  obtain ⟨body, hbody, -⟩ := hmsg
  refine isSome_intoWriter.mpr ⟨Option.isSome_iff_exists.mpr ⟨body, hbody⟩, ?_, ?_⟩
  · apply Cbor.isSome_encode_bytes.mpr
    omega
  · apply Cbor.isSome_encode_bytes.mpr
    omega

theorem isSome_setLease {record : SignedRecord} (lease : Lease)
    (h : (intoWriter record).isSome = true) :
    (intoWriter (record.setLease lease)).isSome = true := by
  obtain ⟨hpayload, hrest⟩ := isSome_intoWriter.mp h
  refine isSome_intoWriter.mpr ⟨?_, hrest⟩
  change (Cbor.encode (struct _)).isSome = true at hpayload
  show (Cbor.encode (struct _)).isSome = true
  rw [isSome_encode_struct] at hpayload ⊢
  simp only [List.forall_mem_append] at hpayload ⊢
  obtain ⟨-, hschema, hid, hroot, hkeys, hkind, hlocators, hcapabilities, hprofile, hsupports,
    hvisibility, -, hversion, hext⟩ := hpayload
  have hnew : ∀ f ∈ optionalField "lease" (some lease), (Cbor.utf8 f.1).length < 256 ^ 8 ∧
      (Cbor.encode f.2).isSome = true :=
    forall_mem_field.mpr
      ⟨(by decide : (Cbor.utf8 "lease").length < 256 ^ 8), isSome_intoWriter_lease lease⟩
  exact ⟨(by decide : 13 < 256 ^ 8), hschema, hid, hroot, hkeys, hkind, hlocators, hcapabilities,
    hprofile, hsupports, hvisibility, hnew, hversion, hext⟩

theorem Writable.step {op : Op} (h : self.Writable) : (self.step crypto op).Writable := by
  intro id record hrecord
  obtain ⟨entry, hentry, hchange⟩ := change_of_stored hrecord
  cases hchange with
  | kept => exact h id record hentry
  | published _ _ _ _ hverify => exact isSome_of_verify hverify
  | renewed _ _ old => exact isSome_setLease _ (h id old hentry)

end Registry

/-! ### A call at the server -/

namespace Directory

/-- The method that a request comes from, if it may. -/
def opOf (localId : Id) (capability : String) (body : Bytes) : Option ClientOp :=
  if capability = capabilityRegister then (fromReader body).map .register
  else if capability = capabilityResolve then (fromReader body).map .resolve
  else if capability = capabilitySearch then (fromReader body).map .search
  else if capability = capabilityRenew then do
    let args : RenewArgs ← fromReader body
    if args.id = localId then some (.renew args.ttl) else none
  else if capability = capabilityDeregister then do
    let id : Id ← fromReader body
    if id = localId then some .deregister else none
  else none

theorem topK_lt {need : Need} {bytes : Bytes} (h : intoWriter need = some bytes) :
    need.topK < 2 ^ 64 := by
  have hsome : (Cbor.encode (struct _)).isSome = true := Option.isSome_iff_exists.mpr ⟨bytes, h⟩
  obtain ⟨-, hfields⟩ := isSome_encode_struct.mp hsome
  simp only [List.forall_mem_append, List.forall_mem_singleton] at hfields
  have htopK := hfields.2.2.2.2
  simp only [Cbor.encode, Cbor.isSome_head] at htopK
  omega

@[simp] theorem named_nil {name : String} : named name [] = [] := rfl

@[simp] theorem named_cons {name name' : String} {value : Cbor.Value}
    {fs : List (String × Cbor.Value)} : named name ((name', value) :: fs) =
      if name' = name then value :: named name fs else named name fs := by
  by_cases h : name' = name <;> simp [named, h]

theorem fromReader_need {need : Need} {bytes : Bytes} (h : intoWriter need = some bytes) :
    fromReader bytes = some need := by
  have hread := Cbor.decode_encode h []
  rw [List.append_nil] at hread
  rw [fromReader, hread]
  show ofCbor (toCbor need) = some need
  refine (fields_bind .cbor _ _).trans ?_
  have htopK : topKOfCbor (.uint need.topK) = some need.topK := if_pos (topK_lt h)
  have hkind : (written .cbor (field "intent_text" need.intentText ++
      ([("kind", (need.kind.map toCbor).getD .null)] ++
        (field "tags" need.tags ++ [("top_k", .uint need.topK)])))).defaulted "kind" none =
          some need.kind := by
    rw [Fields.defaulted, get_written]
    cases need.kind with
    | none => simp [Format.view]
    | some kind => simp [Format.view]
  rw [required_of_named (a := need.intentText) (by simp), hkind,
    required_of_named (a := need.tags) (by simp), get_written]
  simp [Format.view, htopK]

section Call

variable {crypto : Crypto} {embedder : Embedder} {registry : Registry embedder}
  {values : List (Stored embedder)} {req : Net.Request} {now : UInt64} {localId directoryId : Id}
  {correlation : Bytes} {payload : EnvelopePayload} {op : ClientOp}

/-- The directory reads the method from the request. -/
theorem opOf_request
    (h : (op.method localId).request localId directoryId correlation = .ok payload) :
    opOf localId (payload.capability.getD "") payload.body = some op := by
  simp only [Method.request, bind_eq_ok, pure_eq_ok] at h
  obtain ⟨body, hbody, rfl⟩ := h
  cases op with
  | register record =>
      show opOf localId capabilityRegister body = _
      have hread := fromReader_intoWriter (okOr_eq_ok.mp hbody)
      rw [opOf, if_pos rfl, hread]
      rfl
  | resolve id =>
      show opOf localId capabilityResolve body = _
      have hread := fromReader_intoWriter (okOr_eq_ok.mp hbody)
      rw [opOf, if_neg (by decide), if_pos rfl, hread]
      rfl
  | search need =>
      show opOf localId capabilitySearch body = _
      have hread := fromReader_need (okOr_eq_ok.mp hbody)
      rw [opOf, if_neg (by decide), if_neg (by decide), if_pos rfl, hread]
      rfl
  | renew ttl =>
      show opOf localId capabilityRenew body = _
      have hread := fromReader_intoWriter (okOr_eq_ok.mp hbody)
      rw [opOf, if_neg (by decide), if_neg (by decide), if_neg (by decide), if_pos rfl, hread]
      exact if_pos rfl
  | deregister =>
      show opOf localId capabilityDeregister body = _
      have hread := fromReader_intoWriter (okOr_eq_ok.mp hbody)
      rw [opOf, if_neg (by decide), if_neg (by decide), if_neg (by decide), if_neg (by decide),
        if_pos rfl, hread]
      exact if_pos rfl

/-- What a method reads from a reply. -/
def received : Net.Reply → Except ClientError Bytes
  | .ok body => .ok body
  | .error _ message => .error (.remote message)

theorem response_of_sign {reply : Net.Reply} {serverId : Id} {key : WorkingKey crypto}
    {request : EnvelopePayload} {env : SignedEnvelope}
    (h : (reply.payload serverId request).sign key = .ok env) :
    Method.response (.ok env) = received reply := by
  rw [Method.response, EnvelopePayload.payload_of_sign h]
  cases reply <;> rfl

/-- `from_cbor`, as the directory uses it. -/
def reader (α : Type) [Deserialize α] (bytes : Bytes) : Option α := fromReader bytes

theorem received_encodeReply {α : Type} [Serialize α] [Deserialize α] [LawfulDeserialize α] {a : α}
    (h : (intoWriter a).isSome = true) :
    ∃ bytes, received (encodeReply a) = .ok bytes ∧ Wire.fromCbor bytes = .ok a := by
  obtain ⟨bytes, hbytes⟩ := Option.isSome_iff_exists.mp h
  refine ⟨bytes, ?_, okOr_eq_ok.mpr (fromReader_intoWriter hbytes)⟩
  rw [encodeReply, hbytes]
  rfl

theorem isSome_search {need : Need} (hwritable : registry.Writable)
    (hvalues : registry.store.Yields values) (htopK : need.topK < 2 ^ 64) :
    (intoWriter (Registry.search values need now)).isSome = true := by
  apply Cbor.isSome_encode_array.mpr
  constructor
  · rw [List.length_map, Registry.search, List.length_map, List.length_take]
    omega
  · intro item hitem
    obtain ⟨record, hmem, rfl⟩ := List.mem_map.mp hitem
    obtain ⟨id, hid⟩ := Registry.record?_of_yields hvalues (Registry.mem_search hmem)
    exact hwritable id record hid

theorem topK_lt_of_fromReader {need : Need} {body : Bytes} (h : fromReader body = some need) :
    need.topK < 2 ^ 64 := by
  have hread {value : Cbor.Value} {topK : Nat} (h : topKOfCbor value = some topK) :
      topK < 2 ^ 64 := by
    cases value with
    | uint n =>
        simp only [topKOfCbor, Option.ite_none_right_eq_some, Option.some.injEq] at h
        exact h.2 ▸ h.1
    | _ => cases h
  simp only [fromReader, Option.bind_eq_bind, Option.bind_eq_some_iff] at h
  obtain ⟨item, -, hitem⟩ := h
  simp only [ofCbor, Option.bind_eq_bind, Option.bind_eq_some_iff] at hitem
  obtain ⟨fs, -, text, -, kind, -, tags, -, hneed⟩ := hitem
  split at hneed
  · obtain ⟨topK, htopK, hneed⟩ := Option.bind_eq_some_iff.mp hneed
    obtain rfl := Option.some.inj hneed
    exact hread htopK
  · cases hneed

/-- What a directory has done with a method's request is what the registry does for its caller. -/
def Agrees (crypto : Crypto) (registry : Registry embedder) (owner : Id) (now : UInt64)
    (values : List (Stored embedder)) (op : ClientOp) (served : Registry embedder × Net.Reply) :
    Prop :=
  (op.method owner).returns (received served.2) = (registry.ask crypto owner now values op).1 ∧
    served.1 = (registry.ask crypto owner now values op).2

/-! Each arm of the handler. -/

theorem agrees_register {record : SignedRecord}
    (hread : reader SignedRecord req.body = some record) :
    Agrees crypto registry req.peer.id now values (.register record)
      (handleRegister crypto @reader registry req now) := by
  unfold Agrees handleRegister Registry.ask
  rw [hread]
  dsimp only
  by_cases hid : record.payload.id = req.peer.id
  · have hown : record.id = req.peer.id := hid
    rw [if_neg (not_not.mpr hid), if_neg (not_not.mpr hown)]
    cases registry.register crypto record now with
    | error e => exact ⟨rfl, rfl⟩
    | ok next => exact ⟨rfl, rfl⟩
  · have hother : record.id ≠ req.peer.id := hid
    rw [if_pos hid, if_pos hother]
    exact ⟨rfl, rfl⟩

theorem agrees_resolve {id : Id} (hwritable : registry.Writable)
    (hread : reader Id req.body = some id) :
    Agrees crypto registry req.peer.id now values (.resolve id)
      (handleResolve @reader registry req now) := by
  unfold Agrees handleResolve Registry.ask
  rw [hread]
  dsimp only
  cases hresolve : registry.resolve id now with
  | error e => exact ⟨rfl, rfl⟩
  | ok record =>
      refine ⟨?_, rfl⟩
      obtain ⟨bytes, hbytes, hrecord⟩ :=
        received_encodeReply (hwritable id record (Registry.resolve_ok.mp hresolve).1)
      dsimp only
      rw [hbytes]
      show (Wire.fromCbor bytes).map _ = _
      rw [hrecord]
      rfl

theorem agrees_search {need : Need} (hwritable : registry.Writable)
    (hvalues : registry.store.Yields values) (hread : reader Need req.body = some need) :
    Agrees crypto registry req.peer.id now values (.search need)
      (handleSearch @reader registry values req now) := by
  unfold Agrees handleSearch Registry.ask
  rw [hread]
  refine ⟨?_, rfl⟩
  obtain ⟨bytes, hbytes, hrecords⟩ :=
    received_encodeReply (isSome_search hwritable hvalues (topK_lt_of_fromReader hread))
  dsimp only
  rw [hbytes]
  show (do return ClientAnswer.ranked (← Wire.fromCbor bytes)) = _
  rw [hrecords]
  rfl

theorem agrees_renew {args : RenewArgs} (hread : reader RenewArgs req.body = some args)
    (hid : args.id = req.peer.id) :
    Agrees crypto registry req.peer.id now values (.renew args.ttl)
      (handleRenew @reader registry req now) := by
  unfold Agrees handleRenew Registry.ask
  rw [hread]
  dsimp only
  rw [if_neg (not_not.mpr hid), hid]
  cases registry.renew req.peer.id now args.ttl with
  | error e => exact ⟨rfl, rfl⟩
  | ok renewed =>
      refine ⟨?_, rfl⟩
      obtain ⟨bytes, hbytes, he⟩ := received_encodeReply (isSome_intoWriter_uint64 renewed.2)
      dsimp only
      rw [hbytes]
      show (do return ClientAnswer.expiry (← Wire.fromCbor bytes)) = _
      rw [he]
      rfl

theorem agrees_deregister {id : Id} (hread : reader Id req.body = some id)
    (hid : id = req.peer.id) : Agrees crypto registry req.peer.id now values .deregister
      (handleDeregister @reader registry req) := by
  unfold Agrees handleDeregister Registry.ask
  rw [hread]
  dsimp only
  rw [if_neg (not_not.mpr hid), hid]
  exact ⟨rfl, rfl⟩

/-- **The registry behind the directory.** -/
theorem agrees_handle (hwritable : registry.Writable) (hvalues : registry.store.Yields values)
    (hop : opOf req.peer.id req.capability req.body = some op) :
    Agrees crypto registry req.peer.id now values op
      (handle crypto @reader registry values req now) := by
  unfold opOf at hop
  unfold handle
  split_ifs at hop ⊢
  · obtain ⟨record, hread, rfl⟩ := Option.map_eq_some_iff.mp hop
    exact agrees_register hread
  · obtain ⟨id, hread, rfl⟩ := Option.map_eq_some_iff.mp hop
    exact agrees_resolve hwritable hread
  · obtain ⟨need, hread, rfl⟩ := Option.map_eq_some_iff.mp hop
    exact agrees_search hwritable hvalues hread
  · obtain ⟨args, hread, hop⟩ := Option.bind_eq_some_iff.mp hop
    split_ifs at hop with hid
    obtain rfl := Option.some.inj hop
    exact agrees_renew hread hid
  · obtain ⟨id, hread, hop⟩ := Option.bind_eq_some_iff.mp hop
    split_ifs at hop with hid
    obtain rfl := Option.some.inj hop
    exact agrees_deregister hread hid

/-- A request that comes from no method changes nothing. -/
theorem handle_of_opOf_none (hop : opOf req.peer.id req.capability req.body = none) :
    (handle crypto @reader registry values req now).1 = registry := by
  unfold opOf at hop
  unfold handle
  split_ifs at hop ⊢
  · have hread : reader SignedRecord req.body = none := Option.map_eq_none_iff.mp hop
    rw [handleRegister, hread]
  · have hread : reader Id req.body = none := Option.map_eq_none_iff.mp hop
    rw [handleResolve, hread]
  · have hread : reader Need req.body = none := Option.map_eq_none_iff.mp hop
    rw [handleSearch, hread]
  · rw [handleRenew]
    cases hread : reader RenewArgs req.body with
    | none => rfl
    | some args =>
        have hid := Option.bind_eq_none_iff.mp hop args hread
        split_ifs at hid with hown
        exact congrArg Prod.fst (if_pos hown)
  · rw [handleDeregister]
    cases hread : reader Id req.body with
    | none => rfl
    | some id =>
        have hid := Option.bind_eq_none_iff.mp hop id hread
        split_ifs at hid with hown
        exact congrArg Prod.fst (if_pos hown)
  · rfl

end Call

end Directory

end Thicket
