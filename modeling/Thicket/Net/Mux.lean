import Thicket.Lib.Run
import Thicket.Net.Conn

/-!
# The two sides of the routing tables

The reader routes what arrives, and the local side opens calls, streams and subscriptions and takes out
what they were sent. The two interleave in any way.
-/

namespace Thicket.Net

open Cbor (Bytes)
open Serde

/-- The capacities of the channels of a stream or a subscription, and of the inbound queue. -/
def streamCapacity : Nat := 64

def inboundCapacity : Nat := 256

/-- `rx.recv()`, if there is something to take. -/
def Channel.recv (self : Channel) : Option (SignedEnvelope × Channel) :=
  match self.unread with
  | [] => none
  | env :: unread => some (env, { self with unread })

/-- A dropped receiver takes what it has not read with it. -/
def Channel.drop (self : Channel) : Channel := { self with unread := [], isOpen := false }

/-- A connection, with the number of the next call or channel, what was taken out of the channels and
what out of the inbound queue. -/
structure Mux where
  conn : Conn
  nextId : Nat
  received : List (Nat × SignedEnvelope)
  requests : List SignedEnvelope

/-- What the local side does: `timeout` ends a call that has waited too long, `recv` and `drop` are a
consumer's. -/
inductive LocalOp where
  | call (correlation : Bytes)
  | timeout (correlation : Bytes)
  | callStream (correlation : Bytes)
  | subscribe (topic : String)
  | recv (id : Nat)
  | drop (id : Nat)
  | recvRequest

namespace Conn

/-- The envelopes that were routed to a call, a stream, a subscription or the inbound queue, and not
taken out. -/
inductive Holds (self : Conn) (env : SignedEnvelope) : Prop where
  | reply (call : Nat) (h : self.replies[call]? = some env)
  | unread (id : Nat) (channel : Channel) (hchannel : self.channels[id]? = some channel)
      (h : env ∈ channel.unread)
  | inbound (h : env ∈ self.inbound.unread)

/-- An established connection that nothing is open on. -/
def established (peer : VerifiedPeer) : Conn :=
  { peer, pending := ∅, replies := ∅, streams := ∅, eventSubs := ∅, channels := ∅,
    inbound := { capacity := inboundCapacity, unread := [], isOpen := true } }

end Conn

namespace Mux

def established (peer : VerifiedPeer) : Mux :=
  { conn := .established peer, nextId := 0, received := [], requests := [] }

def newChannel : Channel := { capacity := streamCapacity, unread := [], isOpen := true }

def act (self : Mux) : LocalOp → Mux
  | .call correlation =>
      { self with
        conn := { self.conn with pending := self.conn.pending.insert correlation self.nextId },
        nextId := self.nextId + 1 }
  | .timeout correlation =>
      { self with conn := { self.conn with pending := self.conn.pending.erase correlation } }
  | .callStream correlation =>
      { self with
        conn := { self.conn with
          streams := self.conn.streams.insert correlation self.nextId,
          channels := self.conn.channels.insert self.nextId newChannel },
        nextId := self.nextId + 1 }
  | .subscribe topic =>
      { self with
        conn := { self.conn with
          eventSubs := self.conn.eventSubs.insert topic self.nextId,
          channels := self.conn.channels.insert self.nextId newChannel },
        nextId := self.nextId + 1 }
  | .recv id =>
      match self.conn.channels[id]?.bind Channel.recv with
      | none => self
      | some (env, channel) =>
          { self with
            conn := { self.conn with channels := self.conn.channels.insert id channel },
            received := self.received ++ [(id, env)] }
  | .drop id =>
      match self.conn.channels[id]? with
      | none => self
      | some channel =>
          { self with
            conn := { self.conn with channels := self.conn.channels.insert id channel.drop } }
  | .recvRequest =>
      match self.conn.inbound.recv with
      | none => self
      | some (env, inbound) =>
          { self with conn := { self.conn with inbound }, requests := self.requests ++ [env] }

def route (self : Mux) (env : SignedEnvelope) : Mux := { self with conn := self.conn.route env }

/-- The envelopes that were routed to someone, taken out or not. -/
inductive Delivered (self : Mux) (env : SignedEnvelope) : Prop where
  | held (h : self.conn.Holds env)
  | received (id : Nat) (h : (id, env) ∈ self.received)
  | request (h : env ∈ self.requests)

end Mux

/-! ### Channels -/

variable {channel sent : Channel} {env other : SignedEnvelope}

theorem Channel.trySend_eq_some : channel.trySend env = some sent ↔
    channel.isOpen = true ∧ channel.unread.length < channel.capacity ∧
      sent = { channel with unread := channel.unread ++ [env] } := by
  unfold Channel.trySend
  split_ifs with h
  · rw [Option.some.injEq]
    constructor
    · intro hsent
      exact ⟨h.1, h.2, hsent.symm⟩
    · intro hsent
      exact hsent.2.2.symm
  · constructor
    · intro hsent
      cases hsent
    · intro hsent
      exact absurd ⟨hsent.1, hsent.2.1⟩ h

theorem Channel.recv_eq_some : channel.recv = some (env, sent) ↔
    ∃ unread, channel.unread = env :: unread ∧ sent = { channel with unread } := by
  unfold Channel.recv
  split
  · next hnil => simp [hnil]
  · next first unread hcons =>
      rw [hcons, Option.some.injEq, Prod.mk.injEq]
      constructor
      · intro h
        obtain ⟨rfl, rfl⟩ := h
        exact ⟨unread, rfl, rfl⟩
      · intro h
        obtain ⟨rest, heq, rfl⟩ := h
        obtain ⟨rfl, rfl⟩ := List.cons.inj heq
        exact ⟨rfl, rfl⟩

namespace Conn

variable {self : Conn}

theorem toChannel_eq_some {id : Nat} {conn : Conn} : self.toChannel id env = some conn ↔
    ∃ channel sent, self.channels[id]? = some channel ∧ channel.trySend env = some sent ∧
      conn = { self with channels := self.channels.insert id sent } := by
  unfold toChannel
  cases self.channels[id]? with
  | none => simp
  | some channel =>
      cases htry : channel.trySend env with
      | none => simp [htry]
      | some sent => simp [htry, eq_comm]

/-- A chunk may end its stream. -/
def Trims (self : Conn) (env : SignedEnvelope) (streams : HashMap Bytes Nat) : Prop :=
  streams = self.streams ∨
    env.payload.typ = .streamChunk ∧ streams = self.streams.erase env.payload.correlation

/-- Where an envelope that goes into a channel goes. -/
def Targets (self : Conn) (env : SignedEnvelope) (id : Nat) : Prop :=
  env.payload.typ = .streamChunk ∧ self.streams[env.payload.correlation]? = some id ∨
    ∃ topic : String, self.eventSubs[topic]? = some id

/-- What becomes of an envelope: it answers a call, is put into a channel or into the inbound queue, or
is dropped. -/
inductive Routed (self : Conn) (env : SignedEnvelope) : Conn → Prop where
  | reply (call : Nat) (h : self.pending[env.payload.correlation]? = some call) :
      Routed self env
        { self with pending := self.pending.erase env.payload.correlation,
                    replies := self.replies.insert call env }
  | channel (id : Nat) (channel sent : Channel) (streams : HashMap Bytes Nat)
      (htarget : self.Targets env id) (hstreams : self.Trims env streams)
      (hchannel : self.channels[id]? = some channel) (h : channel.trySend env = some sent) :
      Routed self env { self with streams, channels := self.channels.insert id sent }
  | inbound (inbound : Channel) (h : self.inbound.trySend env = some inbound) :
      Routed self env { self with inbound }
  | drop (streams : HashMap Bytes Nat) (hstreams : self.Trims env streams) :
      Routed self env { self with streams }

theorem routed_self (self : Conn) (env : SignedEnvelope) : self.Routed env self :=
  .drop self.streams (Or.inl rfl)

theorem routed_toInbound (self : Conn) (env : SignedEnvelope) :
    self.Routed env (self.toInbound env) := by
  unfold toInbound
  cases h : self.inbound.trySend env with
  | none => exact self.routed_self env
  | some inbound => exact .inbound inbound h

theorem routed (self : Conn) (env : SignedEnvelope) : self.Routed env (self.route env) := by
  cases htyp : env.payload.typ with
  | response | error =>
      cases h : self.pending[env.payload.correlation]? with
      | none =>
          simp only [route, htyp, h]
          exact self.routed_self env
      | some call =>
          simp only [route, htyp, h]
          exact .reply call h
  | streamChunk =>
      have hend : self.Trims env (self.streams.erase env.payload.correlation) :=
        Or.inr ⟨htyp, rfl⟩
      cases hstream : self.streams[env.payload.correlation]? with
      | none =>
          simp only [route, htyp, hstream]
          split_ifs
          · exact .drop _ hend
          · exact self.routed_self env
      | some id =>
          cases h : self.toChannel id env with
          | none =>
              simp only [route, htyp, hstream, h]
              exact .drop _ hend
          | some conn =>
              obtain ⟨channel, sent, hchannel, htry, rfl⟩ := toChannel_eq_some.mp h
              have htarget : self.Targets env id := Or.inl ⟨htyp, hstream⟩
              simp only [route, htyp, hstream, h]
              split_ifs
              · exact .channel id channel sent _ htarget hend hchannel htry
              · exact .channel id channel sent _ htarget (Or.inl rfl) hchannel htry
  | event =>
      cases hsub : self.eventSubs[env.payload.capability.getD ""]? with
      | none =>
          simp only [route, htyp, hsub]
          exact self.routed_toInbound env
      | some id =>
          cases h : self.toChannel id env with
          | none =>
              simp only [route, htyp, hsub, h]
              exact self.routed_self env
          | some conn =>
              obtain ⟨channel, sent, hchannel, htry, rfl⟩ := toChannel_eq_some.mp h
              simp only [route, htyp, hsub, h]
              exact .channel id channel sent _ (Or.inr ⟨_, hsub⟩) (Or.inl rfl) hchannel htry
  | request | cancel =>
      simp only [route, htyp]
      exact self.routed_toInbound env

/-- Routing puts at most the envelope into the inbound queue. -/
theorem route_inbound (self : Conn) (env : SignedEnvelope) :
    (self.route env).inbound.unread = self.inbound.unread ∨
      (self.route env).inbound.unread = self.inbound.unread ++ [env] := by
  have hrouted := self.routed env
  generalize self.route env = conn at hrouted
  cases hrouted with
  | reply call h => exact Or.inl rfl
  | channel id channel sent streams htarget hstreams hchannel h => exact Or.inl rfl
  | inbound inbound h =>
      obtain ⟨-, -, rfl⟩ := Channel.trySend_eq_some.mp h
      exact Or.inr rfl
  | drop streams hstreams => exact Or.inl rfl

/-- Routing answers at most the call that waits for the envelope's correlation. -/
theorem route_replies (self : Conn) (env : SignedEnvelope) :
    (self.route env).pending = self.pending ∧ (self.route env).replies = self.replies ∨
      ∃ call, self.pending[env.payload.correlation]? = some call ∧
        (self.route env).pending = self.pending.erase env.payload.correlation ∧
        (self.route env).replies = self.replies.insert call env := by
  have hrouted := self.routed env
  generalize self.route env = conn at hrouted
  cases hrouted with
  | reply call h => exact Or.inr ⟨call, h, rfl, rfl⟩
  | channel id channel sent streams htarget hstreams hchannel h => exact Or.inl ⟨rfl, rfl⟩
  | inbound inbound h => exact Or.inl ⟨rfl, rfl⟩
  | drop streams hstreams => exact Or.inl ⟨rfl, rfl⟩

theorem route_peer (self : Conn) (env : SignedEnvelope) : (self.route env).peer = self.peer := by
  have hrouted := self.routed env
  generalize self.route env = conn at hrouted
  cases hrouted <;> rfl

/-- What the reader does with a decrypted message: it stops, passes it over, or routes its envelope,
which passed the checks against the peer. -/
theorem onFrame_cases (crypto : Crypto) (self : Conn) (now : UInt64) (plaintext : Bytes) :
    self.onFrame crypto now (.ok plaintext) = none ∨
      self.onFrame crypto now (.ok plaintext) = some self ∨
      ∃ env, fromReader plaintext = some env ∧ now ≤ self.peer.keyNotAfter ∧
        env.payload.fromId = self.peer.id ∧
        env.verifyWithKey crypto self.peer.workingPub = .ok () ∧
        self.onFrame crypto now (.ok plaintext) = some (self.route env) := by
  unfold onFrame
  by_cases hfresh : peerKeyFresh self.peer.keyNotAfter now = true
  swap
  · left
    simp [hfresh]
  right
  cases hread : (fromReader plaintext : Option SignedEnvelope) with
  | none =>
      left
      simp [hfresh, read, hread]
  | some env =>
      by_cases hpeer : env.payload.fromId ≠ self.peer.id ∨
          env.verifyWithKey crypto self.peer.workingPub ≠ .ok ()
      · left
        simp [hfresh, read, hread, hpeer]
      · right
        rw [not_or, not_not, not_not] at hpeer
        refine ⟨env, rfl, of_decide_eq_true hfresh, hpeer.1, hpeer.2, ?_⟩
        simp [hfresh, read, hread, hpeer]

end Conn

namespace Mux

theorem act_peer (self : Mux) (op : LocalOp) : (self.act op).conn.peer = self.conn.peer := by
  cases op with
  | recv id | drop id | recvRequest =>
      rw [act]
      split <;> rfl
  | _ => rfl

end Mux

end Thicket.Net
