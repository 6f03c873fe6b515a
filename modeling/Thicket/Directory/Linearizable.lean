import Thicket.Directory.Client
import Thicket.Net.Service
import Thicket.Registry.Renewal

/-!
# Many clients of one directory

A directory and all its connections, with clients that make their calls when they like. To the
clients the directory is the registry itself: what their methods return is what the registry gives
when it is asked for one thing after the other, in an order that agrees with the order in which the
calls begin and return.
-/

namespace Thicket.Directory

open Cbor (Bytes)
open Net Result Serde

variable {embedder : Embedder} {crypto : Crypto}

/-- The closure that the server is given. A request is handled at a time, and a search visits the
values in some order. -/
def handler (crypto : Crypto) (input : UInt64 × List (Stored embedder))
    (registry : Registry embedder) (req : Net.Request) : Reply × Registry embedder :=
  (handle crypto @reader registry input.2 req input.1).swap

/-- What the host does with the registry that it shares with the server. -/
def host (crypto : Crypto) (op : Registry.Op) (registry : Registry embedder) : Registry embedder :=
  registry.step crypto op

/-- What the registry is asked: by a method's call, or by its host. Requests of any other kind
change nothing. -/
inductive Asked (embedder : Embedder) where
  | call (key : Nat × Bytes) (owner : Id) (op : ClientOp) (now : UInt64)
      (values : List (Stored embedder))
  | other (key : Nat × Bytes)
  | host (op : Registry.Op)

/-- The registry, for the methods' callers. -/
def asked (embedder : Embedder) (crypto : Crypto) : SharedObject (Registry embedder)
    (Asked embedder) (Nat × Bytes) (Id × ClientOp) (Except ClientError ClientAnswer) where
  act registry
    | .call _ owner op now values => (registry.ask crypto owner now values op).2
    | .other _ => registry
    | .host op => registry.step crypto op
  call
    | .call key _ _ _ _ => some key
    | .other key => some key
    | .host _ => none
  Answers registry act asker answer := ∃ key now values,
    act = .call key asker.1 asker.2 now values ∧
      (registry.ask crypto asker.1 now values asker.2).1 = answer

/-- The calls of the methods, each by the identity that its connection is authenticated as. -/
def methodCalls (crypto : Crypto) (embedder : Embedder) : Calls
    (Service crypto (Registry embedder) (UInt64 × List (Stored embedder)) Registry.Op)
    (Nat × Bytes) (Id × ClientOp) (Except ClientError ClientAnswer) where
  Began s key := Service.calls.Began s key
  Returned s key asker answer := ∃ line c env, s.lines[key.1]? = some line ∧
    c ∈ line.exchange.calls ∧ c.state = .returned (.ok env) ∧
    asker.1 = line.exchange.server.conn.peer.id ∧
    (asker.2.method asker.1).request asker.1 line.exchange.client.conn.peer.id key.2 =
      .ok c.request.payload ∧
    (asker.2.method asker.1).returns (Method.response (.ok env)) = answer

/-- The method's call that an act is. -/
def asks : Act (UInt64 × List (Stored embedder)) Registry.Op → Asked embedder
  | .own op => .host op
  | .handle conn input req =>
      match opOf req.peer.id req.capability req.body with
      | some op => .call (conn, Exchange.correlation req.envelope) req.peer.id op input.1 input.2
      | none => .other (conn, Exchange.correlation req.envelope)

theorem asks_of_opOf {conn : Nat} {input : UInt64 × List (Stored embedder)} {req : Net.Request}
    {op : ClientOp} (hop : opOf req.peer.id req.capability req.body = some op) :
    asks (.handle conn input req) =
      .call (conn, Exchange.correlation req.envelope) req.peer.id op input.1 input.2 := by
  rw [asks, hop]

/-- A search visits the values of the store. -/
def Sees (registry : Registry embedder) (input : UInt64 × List (Stored embedder)) : Prop :=
  registry.store.Yields input.2

/-! ### What the acts are to the registry -/

/-- The identity whose entry an operation may change. -/
def target : Registry.Op → Option Id
  | .register record _ => some record.id
  | .renew id _ _ | .revoke id _ | .deregister id => some id
  | .sweepExpired _ => none

theorem ask_renew (registry : Registry embedder) (owner : Id) (now : UInt64)
    (values : List (Stored embedder)) (ttl : UInt64) :
    (registry.ask crypto owner now values (.renew ttl)).2 =
      registry.step crypto (.renew owner now ttl) := by
  rw [Registry.ask, Registry.step]
  cases registry.renew owner now ttl <;> rfl

/-- A method changes the registry by an operation on its caller's own entry. -/
theorem exists_step_of_ask (registry : Registry embedder) (owner : Id) (now : UInt64)
    (values : List (Stored embedder)) (op : ClientOp) :
    (registry.ask crypto owner now values op).2 = registry ∨
      ∃ op' : Registry.Op, target op' = some owner ∧
        (registry.ask crypto owner now values op).2 = registry.step crypto op' := by
  cases op with
  | resolve id => exact Or.inl rfl
  | search need => exact Or.inl rfl
  | deregister => exact Or.inr ⟨.deregister owner, rfl, rfl⟩
  | renew ttl => exact Or.inr ⟨.renew owner now ttl, rfl, ask_renew registry owner now values ttl⟩
  | register record =>
      rw [Registry.ask]
      split_ifs with hid
      · exact Or.inl rfl
      · right
        refine ⟨.register record now, congrArg some (not_not.mp hid), ?_⟩
        rw [Registry.step]
        cases registry.register crypto record now <;> rfl

theorem writable_ask {registry : Registry embedder} (h : registry.Writable) (owner : Id)
    (now : UInt64) (values : List (Stored embedder)) (op : ClientOp) :
    (registry.ask crypto owner now values op).2.Writable := by
  rcases exists_step_of_ask registry owner now values op with hsame | ⟨op', -, hstep⟩
  · rw [hsame]
    exact h
  · rw [hstep]
    exact h.step

section

variable {serverId : LocalIdentity crypto}

/-- An act is read as what the registry is asked. -/
theorem act_asks {registry : Registry embedder}
    {act : Act (UInt64 × List (Stored embedder)) Registry.Op} (hwritable : registry.Writable)
    (hsees : Service.Suits Sees registry act) : (asked embedder crypto).act registry (asks act) =
      (Service.object serverId (handler crypto) (host crypto)).act registry act := by
  cases act with
  | own op => rfl
  | handle conn input req =>
      show (asked embedder crypto).act registry (match opOf req.peer.id req.capability req.body with
        | some op => _
        | none => _) = (handle crypto @reader registry input.2 req input.1).1
      cases hop : opOf req.peer.id req.capability req.body with
      | none => exact (handle_of_opOf_none hop).symm
      | some op => exact (agrees_handle hwritable hsees hop).2.symm

theorem writable_act {registry : Registry embedder}
    {act : Act (UInt64 × List (Stored embedder)) Registry.Op} (hwritable : registry.Writable)
    (hsees : Service.Suits Sees registry act) :
    ((Service.object serverId (handler crypto) (host crypto)).act registry act).Writable := by
  rw [← act_asks hwritable hsees]
  cases act with
  | own op => exact hwritable.step
  | handle conn input req =>
      rw [asks]
      split
      · exact writable_ask hwritable _ _ _ _
      · exact hwritable

theorem call_asks (act : Act (UInt64 × List (Stored embedder)) Registry.Op) :
    (asked embedder crypto).call (asks act) =
      (Service.object serverId (handler crypto) (@host embedder crypto)).call act := by
  cases act with
  | own op => rfl
  | handle conn input req =>
      rw [asks]
      split <;> rfl

theorem correlation_of_request {method : Method} {localId directoryId : Id} {correlation : Bytes}
    {payload : EnvelopePayload} (h : method.request localId directoryId correlation = .ok payload) :
    payload.correlation = correlation := by
  simp only [Method.request, bind_eq_ok, pure_eq_ok] at h
  obtain ⟨body, -, rfl⟩ := h
  rfl

/-- What a method returns is what the registry answers. -/
theorem answers_asks {registry : Registry embedder} {owner directoryId : Id} {op : ClientOp}
    {correlation : Bytes} {peer : VerifiedPeer} {request env : SignedEnvelope}
    {act : Act (UInt64 × List (Stored embedder)) Registry.Op} (howner : owner = peer.id)
    (hrequest : (op.method owner).request owner directoryId correlation = .ok request.payload)
    (hwritable : registry.Writable) (hsees : Service.Suits Sees registry act)
    (hanswer : (Service.object serverId (handler crypto) (host crypto)).Answers registry act
      (.of peer request) env) :
    (asked embedder crypto).Answers registry (asks act) (owner, op)
      ((op.method owner).returns (Method.response (.ok env))) := by
  obtain ⟨conn, input, rfl, hsign⟩ := hanswer
  have hop : opOf peer.id (Net.Request.of peer request).capability
      (Net.Request.of peer request).body = some op :=
    opOf_request (howner ▸ hrequest)
  have hagrees : Agrees crypto registry peer.id input.1 input.2 op
      (handle crypto @reader registry input.2 (.of peer request) input.1) :=
    @agrees_handle crypto embedder registry input.2 (.of peer request) input.1 op hwritable hsees
      hop
  refine ⟨(conn, Exchange.correlation request), input.1, input.2, ?_, ?_⟩
  · rw [asks_of_opOf hop, howner]
    rfl
  · rw [response_of_sign hsign, howner]
    exact hagrees.1.symm

end

/-! ### Runs -/

instance : DecidableEq (Stored .exact) := fun a b =>
  have : DecidableEq Embedder.exact.Vector := inferInstanceAs (DecidableEq String)
  decidable_of_iff (a.record = b.record ∧ a.capEmbeddings = b.capEmbeddings) <| by
    cases a
    cases b
    simp

instance (registry : Registry .exact) (input : UInt64 × List (Stored .exact)) :
    Decidable (Sees registry input) :=
  inferInstanceAs (Decidable (input.2.Perm _))

instance (s : Service .checked (Registry .exact) (UInt64 × List (Stored .exact)) Registry.Op)
    (event : ServiceEvent .checked (UInt64 × List (Stored .exact)) Registry.Op) :
    Decidable (s.Allows Sees event) :=
  match event with
  | .line _ input _ => inferInstanceAs (Decidable (Sees s.state input))
  | .connect _ _ _ => .isTrue trivial
  | .own _ => .isTrue trivial

/-- What the registry keeps after the registration. -/
def registeredValues : List (Stored .exact) := Registry.published.store.toList.map Prod.snd

def directoryIdentity : LocalIdentity .checked :=
  { id := ⟨[2]⟩, rootPublicKey := [], endorsements := [], working := ⟨(2 : UInt8)⟩ }

abbrev DirectoryEvent :=
  ServiceEvent .checked (UInt64 × List (Stored .exact)) Registry.Op

/-- A client with an identity. -/
def joins (id : Id) : DirectoryEvent :=
  .connect { id, workingPub := sampleClientKey.public, keyNotAfter := 100 }
    { id := ⟨[2]⟩, workingPub := directoryIdentity.working.public, keyNotAfter := 100 }
    sampleClientKey

def begins (conn : Nat) (id : Id) (op : ClientOp) (values : List (Stored .exact)) :
    List DirectoryEvent :=
  [.line conn (10, values) (.call (valueOr ((op.method id).request id ⟨[2]⟩ [7])
    (.base id ⟨[2]⟩ .request [7]))), .line conn (10, values) (.send 0),
   .line conn (10, values) (.arriveUp 10)]

def ends (conn : Nat) : List DirectoryEvent :=
  [.line conn (10, registeredValues) (.arriveDown 10),
   .line conn (10, registeredValues) (.resume 0)]

/-- The lookup begins before the registration is handled, and finds the record. -/
def directoryEvents : List DirectoryEvent :=
  joins Registry.ownerRoot.id :: joins ⟨[9]⟩ ::
    (begins 0 Registry.ownerRoot.id (.register (Registry.versioned 2 100 5)) [] ++
      begins 1 ⟨[9]⟩ (.resolve Registry.ownerRoot.id) [] ++
      .line 0 (10, []) .serve :: .line 1 (20, registeredValues) .serve :: (ends 1 ++ ends 0))

end Thicket.Directory
