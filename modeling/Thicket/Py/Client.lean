import Thicket.Lib.Raising
import Thicket.Lib.Run
import Thicket.Py.Bodies
import Mathlib.Logic.Function.Basic

/-!
# The client of the Python SDK

`Client` of `thicket/app.py`. It keeps one connection to the directory, what it discovered for a
kind and a capability, and one channel for each fiber. What the outside does while an operation
awaits is given with the operation: the connections whose closed event is set by then, and what the
await comes to. Operations are performed one after the other, so the checks that are repeated under
the lock are passed as they were before.
-/

namespace Thicket.Py

open Cbor (Bytes)

/-- A connection, numbered in the order they are opened in. -/
abbrev ConnId := Nat

/-- An exception from below the client: an `OSError`, of which `ConnectionError` is one, or any
other. -/
inductive Fault where
  | os
  | other
  deriving DecidableEq

inductive Exn where
  | raised (fault : Fault)
  /-- The `ValueError` of `Conn.connect` for a peer with another identity. -/
  | wrongPeer
  /-- What `Conn.connect` raises when the connection is closed during the handshake: an
  `IncompleteReadError`, or a `TypeError` where `read_frame` has returned `None`. -/
  | cutOff
  | thicketError (code message : String)
  deriving DecidableEq

/-- What happens while the client awaits. -/
structure Await (ε α : Type) where
  closes : List ConnId
  result : Except ε α

structure Target where
  fiberId : Bytes
  host : String
  port : Int
  deriving DecidableEq

/-- A request that was written to a connection, and whether its closed event was set. -/
structure Sent where
  conn : ConnId
  search : Bool
  closed : Bool

/-- The caches of a client, the connections it opened and what it wrote to them. -/
structure Client where
  dc : Option ConnId
  conns : Bytes → Option ConnId
  disc : String × String → Option Target
  opened : ConnId
  closed : ConnId → Bool
  sent : List Sent

inductive ClientReply where
  | error (code message : String)
  | body (body : Bytes)

/-- The request of an operation: a `call` with its one reply, or a `gather` with the bodies of the
chunks of its stream. -/
inductive Use where
  | call (reply : Await Fault ClientReply)
  | gather (chunks : Await Fault (List Bytes))

/-- An operation with what happens during it. A hit of the search is what its record says of the
fiber, or what reading it raises. -/
structure Operation where
  kind : String
  capability : String
  args : Value
  directory : Await Exn Unit
  search : Await Fault (List (Except Fault Target))
  channel : Await Exn Unit
  use : Use

def Operation.key (op : Operation) : String × String := (op.kind, op.capability)

namespace Client

open Raising

def initial : Client :=
  { dc := none, conns := fun _ => none, disc := fun _ => none, opened := 0,
    closed := fun _ => false, sent := [] }

/-- The closed events of some connections are set. -/
def drop (self : Client) (conns : List ConnId) : Client :=
  { self with closed := fun conn => self.closed conn || conns.contains conn }

/-- Code of the client: what it raises leaves its changes in place. -/
abbrev Code (α : Type) := Raising Client Exn α

def awaiting {ε α : Type} (await : Await ε α) (raised : ε → Exn) : Code α := do
  change fun self => self.drop await.closes
  outcome (await.result.mapError raised)

/-! ### Connections -/

/-- `Conn.connect`; a new connection is not closed. -/
def connect (await : Await Exn Unit) : Code ConnId := do
  awaiting await id
  let self ← read
  change fun self => { self with opened := self.opened + 1,
                                 closed := Function.update self.closed self.opened false }
  return self.opened

def sendSigned (conn : ConnId) (search : Bool) : Code Unit :=
  change fun self =>
    { self with sent := self.sent ++ [{ conn, search, closed := self.closed conn }] }

/-- The connection's `call`, or its `call_stream` up to the end of the stream. -/
def request {α : Type} (conn : ConnId) (search : Bool) (await : Await Fault α) : Code α := do
  let self ← read
  if self.closed conn then raise (.raised .os)
  else
    sendSigned conn search
    awaiting await .raised

/-! ### Caches -/

def directory (op : Operation) : Code ConnId := do
  let self ← read
  match self.dc with
  | some dc => return dc
  | none =>
      let dc ← connect op.directory
      change fun self => { self with dc := some dc }
      return dc

/-- The text of `ThicketError("Unavailable", …)`; `repr` is the built-in function. -/
def unavailable (repr : String → String) (op : Operation) : String :=
  "no " ++ repr op.kind ++ " fiber serves " ++ repr op.capability

def discover (repr : String → String) (op : Operation) : Code Target := do
  let self ← read
  match self.disc op.key with
  | some target => return target
  | none =>
      let dc ← directory op
      let hits ← request dc true op.search
      match hits with
      | [] => raise (.thicketError "Unavailable" (unavailable repr op))
      | hit :: _ =>
          let target ← outcome (hit.mapError .raised)
          change fun self => { self with disc := Function.update self.disc op.key (some target) }
          return target

/-- A cached channel that died is dropped. -/
def live (fiberId : Bytes) : Code (Option ConnId) := do
  let self ← read
  match self.conns fiberId with
  | none => return none
  | some conn =>
      if self.closed conn then
        change fun self => { self with conns := Function.update self.conns fiberId none }
        return none
      else return some conn

def channel (op : Operation) (target : Target) : Code ConnId := do
  match ← live target.fiberId with
  | some conn => return conn
  | none =>
      let conn ← connect op.channel
      change fun self =>
        { self with conns := Function.update self.conns target.fiberId (some conn) }
      return conn

def evict (op : Operation) (fiberId : Bytes) : Code Unit :=
  change fun self => { self with disc := Function.update self.disc op.key none,
                                 conns := Function.update self.conns fiberId none }

/-- `except (ConnectionError, OSError): self._evict(…); raise` -/
def evicting {α : Type} (op : Operation) (fiberId : Bytes) (code : Code α) : Code α :=
  attempt code fun e => do
    if e = .raised .os then evict op fiberId
    raise e

def encoded (args : Value) : Code Bytes :=
  outcome ((encodeBody args).mapError fun _ => .raised .other)

/-! ### Operations -/

def call (repr : String → String) (op : Operation) (reply : Await Fault ClientReply) :
    Code Value := do
  let target ← discover repr op
  let reply ← evicting op target.fiberId do
    let conn ← channel op target
    let _ ← encoded op.args
    request conn false reply
  match reply with
  | .error code message => raise (.thicketError code message)
  | .body body => return decodeBody body

/-- Chunks that are all text are joined. -/
def joined (chunks : List Value) : Value :=
  if !chunks.isEmpty && chunks.all (fun c => c matches .str _) then
    .str (String.join (chunks.map fun | .str s => s | _ => ""))
  else .list chunks

def gather (repr : String → String) (op : Operation) (chunks : Await Fault (List Bytes)) :
    Code Value := do
  let target ← discover repr op
  let conn ← channel op target
  let bodies ← evicting op target.fiberId do
    let _ ← encoded op.args
    request conn false chunks
  return joined ((bodies.filter fun body => !body.isEmpty).map decodeBody)

def perform (repr : String → String) (op : Operation) : Code Value :=
  match op.use with
  | .call reply => call repr op reply
  | .gather chunks => gather repr op chunks

end Client

end Thicket.Py
