import Thicket.Py.Decode
import Thicket.Py.Envelope
import Thicket.Py.Grant
import Thicket.Py.Tracing

/-!
# A fiber's request handler

`Fiber._handler` of `thicket/app.py`: what a request is turned away for before its capability's
function runs, and how the function's outcome is answered. The function, with what it is called with,
is an argument of the fiber, and so are the times that the checks read.
-/

namespace Thicket.Py

open Cbor (Bytes)

/-! ### Replies -/

/-- `LocalIdentity` -/
structure LocalIdentity (crypto : Crypto) where
  id : Bytes
  rootPublicKey : Bytes
  endorsements : List Value
  working : WorkingKey crypto

/-- What a connection sends for a request. -/
inductive Frame where
  | response (body : Bytes)
  | error (code message : String)
  | streamChunk (seq : Nat) (isEnd : Bool) (body : Bytes)
  deriving DecidableEq

namespace Conn

variable {crypto : Crypto} (localId : LocalIdentity crypto) (request : Value)

def respond (body : Bytes) : Except Exc Value := do
  return Envelope.buildPayload
    { fromId := .bytes localId.id, toId := ← request.getItem "from", typ := .str "Response",
      correlation := ← request.getItem "correlation", body := .bytes body }

def respondError (code message : String) : Except Exc Value := do
  return Envelope.buildPayload
    { fromId := .bytes localId.id, toId := ← request.getItem "from", typ := .str "Error",
      correlation := ← request.getItem "correlation",
      error := .dict [(.str "code", .str code), (.str "message", .str message)] }

def streamChunk (seq : Nat) (isEnd : Bool) (body : Bytes) : Except Exc Value := do
  return Envelope.buildPayload
    { fromId := .bytes localId.id, toId := ← request.getItem "from", typ := .str "StreamChunk",
      correlation := ← request.getItem "correlation", streamSeq := .int seq,
      streamEnd := .bool isEnd, body := .bytes body }

/-- The payload of the envelope that a frame is sent in. -/
def framePayload : Frame → Except Exc Value
  | .response body => respond localId request body
  | .error code message => respondError localId request code message
  | .streamChunk seq isEnd body => streamChunk localId request seq isEnd body

/-- The message of `_send_signed`, before it is encrypted. -/
def sendSigned (frame : Frame) : Except Exc Bytes := do
  Envelope.signedBlob (← framePayload localId request frame) localId.working

end Conn

/-! ### Capabilities -/

/-- What a handler's function raises: a `ThicketError`, or something else with its `str`. -/
inductive Raised where
  | thicketError (code message : String)
  | exception (text : String)

/-- What a capability's function does with a request's payload and a context: as a coroutine it
returns what is then encoded, or raises, here or in encoding; as an asynchronous generator it yields
chunks until it is exhausted or raises. -/
inductive Fn where
  | coroutine (run : Value → Value → Except Raised Bytes)
  | generator (run : Value → Value → List Bytes × Bool)

/-- `_Cap`, as far as the handler reads it. -/
structure Cap where
  fn : Fn
  requireGrant : Bool
  cost : Int
  durable : Bool

/-- A fiber with the arguments of `run` that its handler reads; `checkpoints` opens the checkpoint of
a run id. -/
structure Fiber (crypto : Crypto) where
  caps : List (String × Cap)
  localId : LocalIdentity crypto
  sink : Value
  requireGrant : Bool
  revocations : Finset Bytes
  checkpoints : Option (Value → Except Exc Unit)

namespace Fiber

/-- `self._caps.get(cap)`, with the name it is found under. -/
def getCap (caps : List (String × Cap)) (cap : Value) : Except Exc (Option (String × Cap)) :=
  if cap.isHashable then .ok (caps.find? fun e => (Value.str e.1).eq cap)
  else .error .typeError

/-- `entry.cost and env.get("budget") is not None and env["budget"] < entry.cost` -/
def overQuota (entry : Cap) (env : Value) : Except Exc Bool := do
  if entry.cost = 0 then return false
  match ← env.get (.str "budget") .none with
  | .none => return false
  | budget => budget.lt (.int entry.cost)

/-- The chunks of `_stream`, and the end marker if the generator is exhausted. -/
def stream (chunks : List Bytes) (exhausted : Bool) : List Frame :=
  let frames := chunks.mapIdx fun seq chunk => Frame.streamChunk seq false chunk
  if exhausted then frames ++ [.streamChunk chunks.length true []] else frames

/-- The `try` statement around the function. -/
def invoke (fn : Fn) (payload ctx : Value) : List Frame :=
  match fn with
  | .generator run => stream (run payload ctx).1 (run payload ctx).2
  | .coroutine run =>
      match run payload ctx with
      | .ok body => [.response body]
      | .error (.thicketError code message) => [.error code message]
      | .error (.exception text) => [.error "Error" text]

/-- `dict(env)`, with the sink that the fiber is configured with, if there is one. -/
def selfContext (sink env : Value) : Except Exc Value := do
  let entries ← env.items
  match sink with
  | .none => return .dict entries
  | sink => return .dict (← setItem entries (.str "sink") sink)

section Handler

variable {crypto : Crypto} (self : Fiber crypto) (repr str : Value → String)

/-- `auth is not None and grant.verify(...)` -/
def grantOk (payload : Value) (cap : String) (peerPub : Bytes) (unixNow : Int) :
    Except Exc Bool := do
  match ← payload.get (.str "auth") .none with
  | .none => return false
  | auth =>
      Grant.verify crypto auth self.localId.rootPublicKey self.localId.endorsements peerPub cap
        unixNow self.revocations

/-- What the handler does with a request that was let in. -/
def serve (entry : Cap) (payload env : Value) : Except Exc (List Frame) := do
  let ctx ← selfContext self.sink env
  match self.checkpoints with
  | none => return invoke entry.fn payload ctx
  | some loads =>
      let traceId ← env.get (.str "trace_id") .none
      if entry.durable && traceId.truthy then loads traceId
      return invoke entry.fn payload ctx

/-- The handler's last check, for a grant where one is required. -/
def gate (name : String) (entry : Cap) (peerPub : Bytes) (payload env : Value) (unixNow : Int) :
    Except Exc (List Frame) := do
  if entry.requireGrant || self.requireGrant then
    if !(← self.grantOk payload name peerPub unixNow) then
      return [.error "Unauthorized" "valid grant required"]
  self.serve entry payload env

/-- The handler of a request with this payload from a peer with this working key. `now` is when the
deadline is checked, `unixNow` when a grant is; `repr` and `str` are how messages show values. -/
def handler (peerPub : Bytes) (payload : Value) (now unixNow : Int) :
    Except Exc (List Frame) := do
  let cap ← payload.get (.str "capability") .none
  match ← getCap self.caps cap with
  | none => return [.error "NotFound" ("unknown capability " ++ repr cap)]
  | some (name, entry) =>
      let env := (← payload.get (.str "context") .none).orElse (.dict [])
      if ← Tracing.deadlineExceeded env now then
        return [.error "DeadlineExceeded" "deadline passed"]
      if ← Tracing.budgetExhausted env then
        return [.error "BudgetExhausted" "no budget remaining"]
      if ← overQuota entry env then
        return [.error "QuotaExceeded" ("budget " ++ str (← env.getItem "budget") ++ " < cost " ++
          str (.int entry.cost) ++ " for " ++ repr cap)]
      self.gate name entry peerPub payload env unixNow

end Handler

end Fiber

end Thicket.Py
