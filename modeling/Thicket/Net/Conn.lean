import Thicket.Interconnect.Wire
import Thicket.Lib.HashMap
import Thicket.Net.Secure

/-!
# The reader of a connection

What the reader task does with a frame: it stops once the peer's endorsed key has expired or a frame
does not decrypt, passes over what does not decode or is not the peer's, and hands the rest to whoever
waits for it. It never blocks, so a message that finds no room is dropped.
-/

namespace Thicket.Net

open Cbor (Bytes)
open Serde

/-- A bounded `mpsc` channel: what its receiver has not read yet, and whether there still is one. -/
structure Channel where
  capacity : Nat
  unread : List SignedEnvelope
  isOpen : Bool

/-- `tx.try_send(env)` -/
def Channel.trySend (self : Channel) (env : SignedEnvelope) : Option Channel :=
  if self.isOpen ∧ self.unread.length < self.capacity then
    some { self with unread := self.unread ++ [env] }
  else none

/-- The routing state of a connection. Calls and channels are numbered; `replies` holds what was sent
to the call that waits for it. -/
structure Conn where
  peer : VerifiedPeer
  pending : HashMap Bytes Nat
  replies : HashMap Nat SignedEnvelope
  streams : HashMap Bytes Nat
  eventSubs : HashMap String Nat
  channels : HashMap Nat Channel
  inbound : Channel

namespace Conn

/-- `inbound_tx.try_send(env)`; what does not fit is dropped. -/
def toInbound (self : Conn) (env : SignedEnvelope) : Conn :=
  { self with inbound := (self.inbound.trySend env).getD self.inbound }

/-- `tx.try_send(env)` on a numbered channel, if it took the message. -/
def toChannel (self : Conn) (id : Nat) (env : SignedEnvelope) : Option Conn := do
  let channel ← self.channels[id]?
  let channel ← channel.trySend env
  return { self with channels := self.channels.insert id channel }

def route (self : Conn) (env : SignedEnvelope) : Conn :=
  let correlation := env.payload.correlation
  match env.payload.typ with
  | .response | .error =>
      match self.pending[correlation]? with
      | none => self
      | some call =>
          { self with pending := self.pending.erase correlation,
                      replies := self.replies.insert call env }
  | .streamChunk =>
      match self.streams[correlation]? with
      | none =>
          if env.payload.streamEnd then { self with streams := self.streams.erase correlation }
          else self
      | some id =>
          match self.toChannel id env with
          -- The consumer stalled or is gone: the stream is closed.
          | none => { self with streams := self.streams.erase correlation }
          | some sent =>
              if env.payload.streamEnd then { sent with streams := sent.streams.erase correlation }
              else sent
  | .event =>
      match self.eventSubs[env.payload.capability.getD ""]? with
      | some id => (self.toChannel id env).getD self
      | none => self.toInbound env
  | .request | .cancel => self.toInbound env

/-- Per-message freshness of the peer's handshake-validated key. -/
def peerKeyFresh (keyNotAfter now : UInt64) : Bool := now ≤ keyNotAfter

variable (crypto : Crypto)

/-- What is done with a decrypted message. -/
def read (self : Conn) (plaintext : Bytes) : Conn :=
  match (fromReader plaintext : Option SignedEnvelope) with
  | none => self
  | some env =>
      if env.payload.fromId ≠ self.peer.id ∨
        env.verifyWithKey crypto self.peer.workingPub ≠ .ok () then self
      else self.route env

/-- One turn of the reader's loop, on the decryption of a frame; `none` when the reader stops. -/
def onFrame (self : Conn) (now : UInt64) (plaintext : Except NetError Bytes) : Option Conn :=
  if !peerKeyFresh self.peer.keyNotAfter now then none
  else
    match plaintext with
    | .error _ => none
    | .ok plaintext => some (self.read crypto plaintext)

end Conn

end Thicket.Net
