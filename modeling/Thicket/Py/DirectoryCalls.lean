import Thicket.Directory.Client
import Thicket.Py.Built
import Thicket.Py.FederatedSearch
import Thicket.Registry.Versions

/-!
# The directory client of the Python SDK

`DirectoryClient` of `thicket/directory.py`, against a directory of the core. For the same arguments
its methods make the same requests as the core's client, byte for byte, and what they return or
raise is what the registry itself gives when it is asked on behalf of the client's identity.
-/

namespace Thicket.Py

open Cbor (Bytes)
open Thicket.Directory Result Serde

/-- What the methods raise. -/
inductive CallRaised where
  | directoryError (message : Value)
  | exc (e : Exc)

namespace DirectoryCalls

def lift {α : Type} (x : Except Exc α) : Except CallRaised α := x.mapError .exc

/-- `_call`, when the response is there. -/
def answer (resp : Value) : Except CallRaised Value := do
  let p ← lift (resp.getItem "payload")
  if (← lift (p.get (.str "typ") .none)).eq (.str "Error") then
    let err := (← lift (p.get (.str "error") .none)).orElse (.dict [])
    .error (.directoryError (← lift (err.get (.str "message") (.str "remote error"))))
  else lift (p.get (.str "body") (.bytes []))

/-- What a method calls, its body, and what it makes of what `_call` returns or raises. -/
structure Method where
  capability : String
  body : Except Exc Bytes
  returns : Except CallRaised Value → Except CallRaised Value

section Methods

/-! `foreign` is what `cbor.decode` makes of a body that is no byte string. -/

variable (foreign : Value → Except Exc Value)

def register (signedRecord : Value) : Method where
  capability := "directory.register"
  body := encode signedRecord
  returns result := result.map fun _ => .none

def resolve (fiberId : Bytes) : Method where
  capability := "directory.resolve"
  body := encode (.bytes fiberId)
  returns
    | .ok body => lift (DirectoryReply.readBody foreign body)
    | .error (.directoryError _) => .ok .none
    | .error e => .error e

def search (intentText : String) (kind : Value) (tags : List String) (topK : Int) : Method where
  capability := "directory.search"
  body := encode (.dict [
    (.str "intent_text", .str intentText),
    (.str "kind", kind),
    (.str "tags", .list (tags.map .str)),
    (.str "top_k", .int topK)])
  returns result := do lift (DirectoryReply.readBody foreign (← result))

def renew (localId : Bytes) (ttl : Int) : Method where
  capability := "directory.renew"
  body := encode (.dict [(.str "id", .bytes localId), (.str "ttl", .int ttl)])
  returns result := do lift (DirectoryReply.readBody foreign (← result))

def deregister (localId : Bytes) : Method where
  capability := "directory.deregister"
  body := encode (.bytes localId)
  returns result := result.map fun _ => .none

/-- The method that is called where the core's client does `op`. -/
def method (localId : Id) : ClientOp → Method
  | .register record => register (.of record)
  | .resolve id => resolve foreign id.bytes
  | .search need => search foreign need.intentText (.ofOption need.kind) need.tags need.topK
  | .renew ttl => renew foreign localId.bytes ttl.toNat
  | .deregister => deregister localId.bytes

end Methods

/-! ### Requests -/

variable {foreign : Value → Except Exc Value} {localId : Id} {op : ClientOp}

theorem encode_of {α : Type} [Serialize α] (a : α) {bytes : Bytes} :
    encode (.of a) = .ok bytes ↔ intoWriter a = some bytes := by
  rw [encode, Value.of, enc_ofItem, fits_eq_ok]
  rfl

theorem of_need (need : Need) : Value.of need = .dict [
    (.str "intent_text", .str need.intentText),
    (.str "kind", .ofOption need.kind),
    (.str "tags", .list (need.tags.map .str)),
    (.str "top_k", .int need.topK)] := by
  rw [of_struct rfl, entriesOf_append, entriesOf_append, entriesOf_append, entriesOf_field,
    entriesOf_field, of_list]
  cases need.kind <;> rfl

theorem of_renewArgs (args : RenewArgs) : Value.of args = .dict [
    (.str "id", .bytes args.id.bytes), (.str "ttl", .int args.ttl.toNat)] := rfl

/-- Both clients make the same request. -/
theorem body_eq_ok {body : Bytes} :
    (method foreign localId op).body = .ok body ↔ (op.method localId).body = .ok body := by
  cases op with
  | register record => exact (encode_of record).trans okOr_eq_ok.symm
  | resolve id => exact (encode_of id).trans okOr_eq_ok.symm
  | search need =>
      refine Iff.trans ?_ okOr_eq_ok.symm
      rw [← encode_of, of_need]
      rfl
  | renew ttl =>
      refine Iff.trans ?_ okOr_eq_ok.symm
      rw [← encode_of, of_renewArgs]
      rfl
  | deregister => exact (encode_of localId).trans okOr_eq_ok.symm

theorem capability_eq :
    (method foreign localId op).capability = (op.method localId).capability := by
  cases op <;> rfl

/-! ### Responses -/

instance : WellKeyed UInt32 := ⟨fun n => .uint n.toNat⟩

instance : WellKeyed Bool := ⟨.bool⟩

instance : WellKeyed EnvelopeType := ⟨fun typ => .text typ.name⟩

instance : WellKeyed ErrorInfo where
  keyed e := .struct (.field (a := e.code.name) (by simp) (.last e.message))

/-- A response of the core's server has no context and no grant. -/
theorem keyed_reply (reply : Net.Reply) (serverId : Id) (request : EnvelopePayload) :
    Keyed (toCbor (reply.payload serverId request)) := by
  have hkeyed (p : EnvelopePayload) (hcontext : p.context = .empty) (hauth : p.auth = none) :
      Keyed (toCbor p) := by
    have hskipped : fieldUnless Context.isEmpty "context" p.context = [] := by
      rw [hcontext]
      rfl
    have hnone : optionalField "auth" p.auth = [] := by
      rw [hauth]
      rfl
    show Keyed (struct _)
    rw [hskipped, hnone, List.nil_append, List.nil_append]
    exact .struct (.field (by simp) (.field (by simp) (.field (by simp) (.field (by simp)
      (.optionalField (by simp) (.field (by simp) (.optionalField (by simp)
        (.optionalField (by simp) (.field (by simp) (.optionalField (by simp)
          (.field (by simp) (.last p.ext))))))))))))
  cases reply <;> exact hkeyed _ rfl rfl

/-- What `_call` makes of what the server's handler has returned. -/
def received : Net.Reply → Except CallRaised Value
  | .ok body => .ok (.bytes body)
  | .error _ message => .error (.directoryError (.str message))

variable {crypto : Crypto} {reply : Net.Reply} {serverId : Id} {key : WorkingKey crypto}
  {request : EnvelopePayload} {env : SignedEnvelope} {blob : Bytes}

theorem answer_of_sign (hsign : (reply.payload serverId request).sign key = .ok env) :
    answer (.of env) = received reply := by
  have hpayload :
      (Value.of env).getItem "payload" = .ok (.of (reply.payload serverId request)) := by
    rw [← EnvelopePayload.payload_of_sign hsign]
    rfl
  cases reply with
  | ok body =>
      rw [answer, hpayload]
      rfl
  | error code message =>
      rw [answer, hpayload]
      rfl

theorem decode_of_keyed {item : Cbor.Value} {bytes : Bytes} (h : Keyed item)
    (hbytes : Cbor.encode item = some bytes) : decode bytes = .ok (.ofItem item) := by
  have hread := Cbor.decode_encode hbytes []
  rw [List.append_nil] at hread
  exact decode_eq_ok.mpr ⟨item, hread, built_of_keyed h⟩

theorem decode_of_sign (hsign : (reply.payload serverId request).sign key = .ok env)
    (hblob : intoWriter env = some blob) : decode blob = .ok (.of env) := by
  have hpayload : Keyed (toCbor env.payload) := by
    rw [EnvelopePayload.payload_of_sign hsign]
    exact keyed_reply reply serverId request
  have hfields : KeyedFields [("payload", toCbor env.payload),
      ("signer_pub", toCbor env.signerPub), ("signature", toCbor env.signature)] := by
    refine ⟨by simp, ?_⟩
    simp only [List.forall_mem_cons]
    exact ⟨hpayload, keyed env.signerPub, keyed env.signature, List.forall_mem_nil _⟩
  exact decode_of_keyed (.struct hfields) hblob

/-! ### What the registry says -/

/-- What a method returns for an answer. -/
def valueOf : ClientAnswer → Value
  | .done => .none
  | .found record => .ofOption record
  | .ranked records => .of records
  | .expiry e => .of e

/-- What a method returns or raises for what the registry says. -/
inductive Gives : Except ClientError ClientAnswer → Except CallRaised Value → Prop
  | returns (a : ClientAnswer) : Gives (.ok a) (.ok (valueOf a))
  | raises (message : String) :
      Gives (.error (.remote message)) (.error (.directoryError (.str message)))

section Arms

variable {embedder : Embedder} {registry : Registry embedder} {values : List (Stored embedder)}
  {req : Net.Request} {now : UInt64}

theorem received_encodeReply {α : Type} [Serialize α] [WellKeyed α] {a : α}
    (h : (intoWriter a).isSome = true) :
    ∃ bytes, received (encodeReply a) = .ok (.bytes bytes) ∧ decode bytes = .ok (.of a) := by
  obtain ⟨bytes, hbytes⟩ := Option.isSome_iff_exists.mp h
  refine ⟨bytes, ?_, decode_of_keyed (keyed a) hbytes⟩
  rw [encodeReply, hbytes]
  rfl

theorem gives_register {record : SignedRecord}
    (hread : reader SignedRecord req.body = some record) :
    Gives (registry.ask crypto req.peer.id now values (.register record)).1
      ((method foreign localId (.register record)).returns
        (received (handleRegister crypto @reader registry req now).2)) := by
  unfold handleRegister Registry.ask
  rw [hread]
  dsimp only
  by_cases hid : record.payload.id = req.peer.id
  · have hown : record.id = req.peer.id := hid
    rw [if_neg (not_not.mpr hid), if_neg (not_not.mpr hown)]
    cases registry.register crypto record now with
    | error e => exact .raises _
    | ok next => exact .returns .done
  · have hother : record.id ≠ req.peer.id := hid
    rw [if_pos hid, if_pos hother]
    exact .raises _

theorem gives_resolve {id : Id} (hwritable : registry.Writable)
    (hread : reader Id req.body = some id) :
    Gives (registry.ask crypto req.peer.id now values (.resolve id)).1
      ((method foreign localId (.resolve id)).returns
        (received (handleResolve @reader registry req now).2)) := by
  unfold handleResolve Registry.ask
  rw [hread]
  dsimp only
  cases hresolve : registry.resolve id now with
  | error e => exact .returns (.found none)
  | ok record =>
      obtain ⟨bytes, hbytes, hrecord⟩ :=
        received_encodeReply (hwritable id record (Registry.resolve_ok.mp hresolve).1)
      dsimp only
      rw [hbytes]
      show Gives _ (lift (decode bytes))
      rw [hrecord]
      exact .returns (.found (some record))

theorem gives_search {need : Need} (hwritable : registry.Writable)
    (hvalues : registry.store.Yields values) (hread : reader Need req.body = some need) :
    Gives (registry.ask crypto req.peer.id now values (.search need)).1
      ((method foreign localId (.search need)).returns
        (received (handleSearch @reader registry values req now).2)) := by
  unfold handleSearch Registry.ask
  rw [hread]
  obtain ⟨bytes, hbytes, hrecords⟩ :=
    received_encodeReply (isSome_search hwritable hvalues (topK_lt_of_fromReader hread))
  dsimp only
  rw [hbytes]
  show Gives _ (lift (decode bytes))
  rw [hrecords]
  exact .returns (.ranked (Registry.search values need now))

theorem gives_renew {args : RenewArgs} (hread : reader RenewArgs req.body = some args)
    (hid : args.id = req.peer.id) :
    Gives (registry.ask crypto req.peer.id now values (.renew args.ttl)).1
      ((method foreign localId (.renew args.ttl)).returns
        (received (handleRenew @reader registry req now).2)) := by
  unfold handleRenew Registry.ask
  rw [hread]
  dsimp only
  rw [if_neg (not_not.mpr hid), hid]
  cases registry.renew req.peer.id now args.ttl with
  | error e => exact .raises _
  | ok renewed =>
      obtain ⟨bytes, hbytes, he⟩ := received_encodeReply (isSome_intoWriter_uint64 renewed.2)
      dsimp only
      rw [hbytes]
      show Gives _ (lift (decode bytes))
      rw [he]
      exact .returns (.expiry renewed.2)

theorem gives_deregister {id : Id} (hread : reader Id req.body = some id)
    (hid : id = req.peer.id) :
    Gives (registry.ask crypto req.peer.id now values .deregister).1
      ((method foreign localId .deregister).returns
        (received (handleDeregister @reader registry req).2)) := by
  unfold handleDeregister Registry.ask
  rw [hread]
  dsimp only
  rw [if_neg (not_not.mpr hid), hid]
  exact .returns .done

theorem gives_handle (hwritable : registry.Writable) (hvalues : registry.store.Yields values)
    (hop : opOf req.peer.id req.capability req.body = some op) :
    Gives (registry.ask crypto req.peer.id now values op).1
      ((method foreign req.peer.id op).returns
        (received (handle crypto @reader registry values req now).2)) := by
  unfold opOf at hop
  unfold handle
  split_ifs at hop ⊢
  · obtain ⟨record, hread, rfl⟩ := Option.map_eq_some_iff.mp hop
    exact gives_register hread
  · obtain ⟨id, hread, rfl⟩ := Option.map_eq_some_iff.mp hop
    exact gives_resolve hwritable hread
  · obtain ⟨need, hread, rfl⟩ := Option.map_eq_some_iff.mp hop
    exact gives_search hwritable hvalues hread
  · obtain ⟨args, hread, hop⟩ := Option.bind_eq_some_iff.mp hop
    split_ifs at hop with hid
    obtain rfl := Option.some.inj hop
    exact gives_renew hread hid
  · obtain ⟨id, hread, hop⟩ := Option.bind_eq_some_iff.mp hop
    split_ifs at hop with hid
    obtain rfl := Option.some.inj hop
    exact gives_deregister hread hid

/-- The directory reads the request as what the core's client would have asked. -/
theorem opOf_method (hbody : (method foreign localId op).body = .ok req.body)
    (hcapability : req.capability = (method foreign localId op).capability) :
    opOf localId req.capability req.body = some op := by
  have hrequest : (op.method localId).request localId localId [] =
      .ok ((EnvelopePayload.request localId localId (op.method localId).capability []).withBody
        req.body) := by
    rw [Thicket.Directory.Method.request, body_eq_ok.mp hbody]
    rfl
  rw [hcapability, capability_eq]
  exact opOf_request hrequest

theorem writable_exec (h : registry.Writable) (ops : List Registry.Op) :
    (Run.exec (Registry.step crypto) registry ops).Writable := by
  induction ops generalizing registry with
  | nil => exact h
  | cons op ops ih => exact ih h.step

/-- The directory serves a request as what its client asks the registry, and from the response the
client returns or raises what the registry says. -/
structure Asks (crypto : Crypto) (foreign : Value → Except Exc Value) (registry : Registry embedder)
    (values : List (Stored embedder)) (req : Net.Request) (now : UInt64) (op : ClientOp) :
    Prop where
  left : (handle crypto @reader registry values req now).1 =
    (registry.ask crypto req.peer.id now values op).2
  gives : ∀ (serverId : Id) (key : WorkingKey crypto) (request : EnvelopePayload)
    (env : SignedEnvelope) (blob : Bytes),
      ((handle crypto @reader registry values req now).2.payload serverId request).sign key =
          .ok env → intoWriter env = some blob →
        ∃ resp, decode blob = .ok resp ∧ Gives (registry.ask crypto req.peer.id now values op).1
          ((method foreign req.peer.id op).returns (answer resp))

/-- **A Python client of a directory asks its registry.** Whatever has happened at the directory
before. -/
theorem python_client_asks (foreign : Value → Except Exc Value) (ops : List Registry.Op)
    {req : Net.Request} {op : ClientOp} (now : UInt64)
    (hvalues : (Run.exec (Registry.step crypto) (Registry.new embedder) ops).store.Yields values)
    (hbody : (method foreign req.peer.id op).body = .ok req.body)
    (hcapability : req.capability = (method foreign req.peer.id op).capability) :
    Asks crypto foreign (Run.exec (Registry.step crypto) (Registry.new embedder) ops) values req
      now op := by
  have hwritable : (Run.exec (Registry.step crypto) (Registry.new embedder) ops).Writable :=
    writable_exec Registry.writable_new ops
  have hop := opOf_method hbody hcapability
  refine ⟨(agrees_handle hwritable hvalues hop).2, ?_⟩
  intro serverId key request env blob hsign hblob
  refine ⟨.of env, decode_of_sign hsign hblob, ?_⟩
  rw [answer_of_sign hsign]
  exact gives_handle hwritable hvalues hop

end Arms

def resolveRequest : Net.Request :=
  { capability := "directory.resolve", body := [0x41, 9], auth := none,
    peer := { id := ⟨[1]⟩, workingPub := [], keyNotAfter := 100 },
    envelope := { payload := .request ⟨[1]⟩ ⟨[2]⟩ "directory.resolve" [7], signerPub := [],
                  signature := [] } }

/-- A lookup after a registration. -/
theorem python_client_asks_resolve : ∃ values, Asks .checked (fun _ => .error .typeError)
    (Run.exec (Registry.step .checked) (Registry.new .exact)
      [.register (Registry.versioned 2 100 5) 5]) values resolveRequest 10 (.resolve ⟨[9]⟩) :=
  ⟨_, python_client_asks _ [.register (Registry.versioned 2 100 5) 5] 10 (List.Perm.refl _) rfl rfl⟩

end DirectoryCalls

end Thicket.Py
