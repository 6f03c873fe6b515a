import Thicket.Net.Authentication
import Thicket.Net.Mux
import Thicket.Net.SecureFrame

/-!
# What a connection delivers

The reader of an established connection with anything arriving on the wire at any time, and the local
side of the connection at work meanwhile. What reaches a call, a stream, a subscription or the inbound
queue is the peer's: signed with the key that its root endorsed at the handshake, and in time.
-/

namespace Thicket.Net

open Cbor (Bytes)
open Serde

/-- The connection, the nonce of the next ciphertext, and whether the reader still reads. -/
structure Reader where
  mux : Mux
  nonce : Nat
  running : Bool

inductive ReaderEvent where
  | frame (now : UInt64) (blob : Bytes)
  | act (op : LocalOp)

namespace Reader

def established (peer : VerifiedPeer) : Reader :=
  { mux := .established peer, nonce := 0, running := true }

variable (crypto : Crypto) (readMessage : Nat → Bytes → Except String Bytes)

/-- One turn of the loop. -/
def frame (self : Reader) (now : UInt64) (blob : Bytes) : Reader :=
  if self.running then
    let (plaintext, nonce) := decryptFrame readMessage self.nonce blob
    match self.mux.conn.onFrame crypto now (plaintext.mapError fun _ => .crypto) with
    | none => { self with running := false }
    | some conn => { self with mux := { self.mux with conn }, nonce }
  else self

def step (self : Reader) : ReaderEvent → Reader
  | .frame now blob => self.frame crypto readMessage now blob
  | .act op => { self with mux := self.mux.act op }

/-- The envelope that the bytes of a frame decrypt and decode to. -/
def opens (nonce : Nat) (blob : Bytes) : Option SignedEnvelope :=
  match (decryptFrame readMessage nonce blob).1 with
  | .error _ => none
  | .ok plaintext => fromReader plaintext

end Reader

variable {crypto : Crypto} {readMessage : Nat → Bytes → Except String Bytes}

variable (crypto) in
/-- The envelope is that of the identity, signed with the endorsed key, and came before the key's
expiry. -/
structure Genuine (id : Id) (e : KeyEndorsement) (now : UInt64) (env : SignedEnvelope) : Prop where
  fromId : env.payload.fromId = id
  signed : env.verifyWithKey crypto e.workingPub = .ok ()
  fresh : now ≤ e.notAfter

/-! ### Where what is held comes from -/

namespace Conn

variable {self : Conn} {env other : SignedEnvelope}

theorem Holds.of_insert {streams : HashMap Bytes Nat} {eventSubs : HashMap String Nat} {id : Nat}
    {channel : Channel} (h : Holds { self with
      streams, eventSubs, channels := self.channels.insert id channel } env) :
    self.Holds env ∨ env ∈ channel.unread := by
  cases h with
  | reply call h => exact Or.inl (.reply call h)
  | unread id' channel' hchannel h =>
      change (self.channels.insert id channel)[id']? = _ at hchannel
      rw [HashMap.getElem?_insert] at hchannel
      split_ifs at hchannel
      · obtain rfl := Option.some.inj hchannel
        exact Or.inr h
      · exact Or.inl (.unread id' channel' hchannel h)
  | inbound h => exact Or.inl (.inbound h)

/-- Routing adds nothing but the envelope. -/
theorem Holds.of_route (h : (self.route other).Holds env) : self.Holds env ∨ env = other := by
  have hrouted := self.routed other
  generalize self.route other = conn at h hrouted
  cases hrouted with
  | reply call hpending =>
      cases h with
      | reply call' h =>
          change (self.replies.insert call other)[call']? = _ at h
          rw [HashMap.getElem?_insert] at h
          split_ifs at h
          · exact Or.inr (Option.some.inj h).symm
          · exact Or.inl (.reply call' h)
      | unread id channel hchannel h => exact Or.inl (.unread id channel hchannel h)
      | inbound h => exact Or.inl (.inbound h)
  | channel id channel sent streams _ _ hchannel htry =>
      obtain ⟨-, -, rfl⟩ := Channel.trySend_eq_some.mp htry
      rcases h.of_insert with h | h
      · exact Or.inl h
      · rcases List.mem_append.mp h with h | h
        · exact Or.inl (.unread id channel hchannel h)
        · exact Or.inr (List.mem_singleton.mp h)
  | inbound inbound htry =>
      obtain ⟨-, -, rfl⟩ := Channel.trySend_eq_some.mp htry
      cases h with
      | reply call h => exact Or.inl (.reply call h)
      | unread id channel hchannel h => exact Or.inl (.unread id channel hchannel h)
      | inbound h =>
          rcases List.mem_append.mp h with h | h
          · exact Or.inl (.inbound h)
          · exact Or.inr (List.mem_singleton.mp h)
  | drop streams _ =>
      cases h with
      | reply call h => exact Or.inl (.reply call h)
      | unread id channel hchannel h => exact Or.inl (.unread id channel hchannel h)
      | inbound h => exact Or.inl (.inbound h)

end Conn

namespace Mux

variable {self : Mux} {env other : SignedEnvelope}

theorem Delivered.of_route (h : (self.route other).Delivered env) :
    self.Delivered env ∨ env = other := by
  cases h with
  | held h => exact h.of_route.imp_left .held
  | received id h => exact Or.inl (.received id h)
  | request h => exact Or.inl (.request h)

theorem delivered_of_channel {streams : HashMap Bytes Nat} {eventSubs : HashMap String Nat}
    {id nextId : Nat} {channel : Channel} (hunread : ∀ e ∈ channel.unread, self.conn.Holds e)
    (h : Delivered { self with
      nextId, conn := { self.conn with
        streams, eventSubs, channels := self.conn.channels.insert id channel } } env) :
    self.Delivered env := by
  cases h with
  | held h =>
      rcases h.of_insert with h | h
      · exact .held h
      · exact .held (hunread env h)
  | received id h => exact .received id h
  | request h => exact .request h

theorem delivered_of_pending {pending : HashMap Bytes Nat} {nextId : Nat}
    (h : Delivered { self with nextId, conn := { self.conn with pending } } env) :
    self.Delivered env := by
  cases h with
  | held h =>
      cases h with
      | reply call h => exact .held (.reply call h)
      | unread id channel hchannel h => exact .held (.unread id channel hchannel h)
      | inbound h => exact .held (.inbound h)
  | received id h => exact .received id h
  | request h => exact .request h

/-- The local side adds nothing. -/
theorem Delivered.of_act {op : LocalOp} (h : (self.act op).Delivered env) : self.Delivered env := by
  have hnew : ∀ e ∈ newChannel.unread, self.conn.Holds e := fun e he => absurd he List.not_mem_nil
  cases op with
  | call correlation => exact delivered_of_pending h
  | timeout correlation => exact delivered_of_pending h
  | callStream correlation => exact delivered_of_channel hnew h
  | subscribe topic => exact delivered_of_channel hnew h
  | recv id =>
      rw [act] at h
      split at h
      · exact h
      · next first channel hrecv =>
          obtain ⟨before, hbefore, htake⟩ := Option.bind_eq_some_iff.mp hrecv
          obtain ⟨unread, hunread, rfl⟩ := Channel.recv_eq_some.mp htake
          have hfirst : ∀ e ∈ first :: unread, self.conn.Holds e :=
            fun e he => .unread id before hbefore (hunread ▸ he)
          cases h with
          | held h =>
              rcases h.of_insert with h | h
              · exact .held h
              · exact .held (hfirst env (List.mem_cons_of_mem _ h))
          | received id' h =>
              rcases List.mem_append.mp h with h | h
              · exact .received id' h
              · obtain ⟨-, rfl⟩ := Prod.mk.inj (List.mem_singleton.mp h)
                exact .held (hfirst env List.mem_cons_self)
          | request h => exact .request h
  | drop id =>
      rw [act] at h
      split at h
      · exact h
      · exact delivered_of_channel (fun e he => absurd he List.not_mem_nil) h
  | recvRequest =>
      rw [act] at h
      split at h
      · exact h
      · next first inbound hrecv =>
          obtain ⟨unread, hunread, rfl⟩ := Channel.recv_eq_some.mp hrecv
          have hfirst : ∀ e ∈ first :: unread, self.conn.Holds e :=
            fun e he => .inbound (hunread ▸ he)
          cases h with
          | held h =>
              cases h with
              | reply call h => exact .held (.reply call h)
              | unread id channel hchannel h => exact .held (.unread id channel hchannel h)
              | inbound h => exact .held (hfirst env (List.mem_cons_of_mem _ h))
          | received id h => exact .received id h
          | request h =>
              rcases List.mem_append.mp h with h | h
              · exact .request h
              · rw [List.mem_singleton.mp h]
                exact .held (hfirst first List.mem_cons_self)

end Mux

/-! ### What the reader routes -/

namespace Reader

variable {s : Reader} {now : UInt64} {blob : Bytes} {env : SignedEnvelope}

/-- A frame changes nothing, or its envelope passed the checks against the peer and is routed. -/
theorem frame_cases (s : Reader) (now : UInt64) (blob : Bytes) :
    (s.frame crypto readMessage now blob).mux = s.mux ∨
      ∃ env, opens readMessage s.nonce blob = some env ∧ now ≤ s.mux.conn.peer.keyNotAfter ∧
        env.payload.fromId = s.mux.conn.peer.id ∧
        env.verifyWithKey crypto s.mux.conn.peer.workingPub = .ok () ∧
        (s.frame crypto readMessage now blob).mux = s.mux.route env := by
  unfold frame opens
  by_cases hrunning : s.running = true
  swap
  · rw [if_neg hrunning]
    exact Or.inl rfl
  rw [if_pos hrunning]
  cases hdecrypt : decryptFrame readMessage s.nonce blob with
  | mk plaintext nonce =>
      cases plaintext with
      | error e =>
          left
          unfold Conn.onFrame
          by_cases hfresh : Conn.peerKeyFresh s.mux.conn.peer.keyNotAfter now = true
          · simp [hfresh, Except.mapError]
          · simp [hfresh]
      | ok plaintext =>
          simp only [Except.mapError]
          rcases s.mux.conn.onFrame_cases crypto now plaintext with
            hstop | hsame | ⟨env, hread, hfresh, hfrom, hsigned, hroute⟩
          · rw [hstop]
            exact Or.inl rfl
          · rw [hsame]
            exact Or.inl rfl
          · rw [hroute]
            exact Or.inr ⟨env, hread, hfresh, hfrom, hsigned, rfl⟩

variable (crypto readMessage) in
/-- What is delivered came in one of the frames and is genuine. -/
structure FromPeer (proof : IdentityProof) (e : KeyEndorsement) (events : List ReaderEvent)
    (s : Reader) : Prop where
  peer : s.mux.conn.peer =
    { id := proof.id, workingPub := e.workingPub, keyNotAfter := e.notAfter }
  delivered : ∀ env, s.mux.Delivered env → ∃ now blob nonce, .frame now blob ∈ events ∧
    opens readMessage nonce blob = some env ∧ Genuine crypto proof.id e now env

variable {proof : IdentityProof} {e : KeyEndorsement} {events : List ReaderEvent}

theorem FromPeer.frame_cases (h : FromPeer crypto readMessage proof e events s) (now : UInt64)
    (blob : Bytes) : (s.frame crypto readMessage now blob).mux = s.mux ∨
      ∃ env, opens readMessage s.nonce blob = some env ∧ Genuine crypto proof.id e now env ∧
        (s.frame crypto readMessage now blob).mux = s.mux.route env := by
  rcases Reader.frame_cases s now blob with hsame | ⟨env, hopens, hfresh, hfrom, hsigned, hroute⟩
  · exact Or.inl hsame
  · rw [h.peer] at hfresh hfrom hsigned
    exact Or.inr ⟨env, hopens, ⟨hfrom, hsigned, hfresh⟩, hroute⟩

theorem FromPeer.step (h : FromPeer crypto readMessage proof e events s) {event : ReaderEvent}
    (hevent : event ∈ events) :
    FromPeer crypto readMessage proof e events (s.step crypto readMessage event) := by
  cases event with
  | frame now blob =>
      rcases h.frame_cases now blob with hsame | ⟨other, hopens, hgenuine, hroute⟩
      · refine ⟨?_, ?_⟩
        · change (s.frame crypto readMessage now blob).mux.conn.peer = _
          rw [hsame]
          exact h.peer
        · change ∀ env, (s.frame crypto readMessage now blob).mux.Delivered env → _
          rw [hsame]
          exact h.delivered
      · refine ⟨?_, ?_⟩
        · change (s.frame crypto readMessage now blob).mux.conn.peer = _
          rw [hroute]
          exact (s.mux.conn.route_peer other).trans h.peer
        · change ∀ env, (s.frame crypto readMessage now blob).mux.Delivered env → _
          rw [hroute]
          intro env hdelivered
          rcases hdelivered.of_route with hdelivered | rfl
          · exact h.delivered env hdelivered
          · exact ⟨now, blob, s.nonce, hevent, hopens, hgenuine⟩
  | act op =>
      exact ⟨(s.mux.act_peer op).trans h.peer, fun env henv => h.delivered env henv.of_act⟩

theorem not_delivered_established (peer : VerifiedPeer) (env : SignedEnvelope) :
    ¬(Reader.established peer).mux.Delivered env := by
  intro h
  cases h with
  | held h =>
      cases h with
      | reply call h =>
          change (∅ : HashMap Nat SignedEnvelope)[call]? = some env at h
          simp at h
      | unread id channel hchannel h =>
          change (∅ : HashMap Nat Channel)[id]? = some channel at hchannel
          simp at hchannel
      | inbound h => cases h
  | received id h => cases h
  | request h => cases h

end Reader

/-- **Only the peer's messages are delivered**, with any frames arriving at any times: each is from the
identity of the handshake, signed with the key that its root had endorsed, and came before the expiry
of that endorsement. Every other frame changes nothing. -/
theorem only_the_peer_is_delivered {proof : IdentityProof} {remoteStatic : Bytes}
    {established : UInt64} {peer : VerifiedPeer}
    (hverify : proof.verify crypto remoteStatic established = .ok peer) :
    peer.id = proof.id ∧ ∃ e, proof.Endorsed crypto established e ∧
      ∀ events : List ReaderEvent,
        ∀ s ∈ Run.states (Reader.step crypto readMessage) (Reader.established peer) events,
          (∀ env, s.mux.Delivered env → ∃ now blob nonce, .frame now blob ∈ events ∧
            Reader.opens readMessage nonce blob = some env ∧ Genuine crypto peer.id e now env) ∧
          ∀ now blob, (s.step crypto readMessage (.frame now blob)).mux = s.mux ∨
            ∃ env, Reader.opens readMessage s.nonce blob = some env ∧
              Genuine crypto peer.id e now env ∧
              (s.step crypto readMessage (.frame now blob)).mux = s.mux.route env := by
  obtain ⟨e, hendorsed, rfl⟩ := IdentityProof.verify_endorsed hverify
  refine ⟨rfl, e, hendorsed, fun events s hs => ?_⟩
  have hfrom : Reader.FromPeer crypto readMessage proof e events s := by
    refine Run.states_of_mem (Reader.FromPeer crypto readMessage proof e events)
      (fun _ _ h => h.step) ⟨rfl, fun env h => ?_⟩ (fun _ h => h) s hs
    exact absurd h (Reader.not_delivered_established _ env)
  exact ⟨hfrom.delivered, hfrom.frame_cases⟩

theorem only_the_peer_is_delivered_sample : ∃ e,
    Secure.sampleProof.Endorsed Secure.sampleCrypto 10 e ∧ e.notAfter = 1000 ∧
      ∀ events : List ReaderEvent, ∀ s ∈ Run.states
          (Reader.step Secure.sampleCrypto fun _ ciphertext => .ok ciphertext)
          (Reader.established Secure.sampleChannel.peer) events,
        ∀ env, s.mux.Delivered env → ∃ now blob, .frame now blob ∈ events ∧
          Genuine Secure.sampleCrypto Secure.sampleChannel.peer.id e now env := by
  have hverify : Secure.sampleProof.verify Secure.sampleCrypto Secure.sampleStatic 10 =
      .ok Secure.sampleChannel.peer := by
    decide +kernel
  obtain ⟨-, e, hendorsed, hruns⟩ := only_the_peer_is_delivered hverify
  refine ⟨e, hendorsed, ?_, fun events s hs env henv => ?_⟩
  · obtain rfl := List.mem_singleton.mp hendorsed.mem
    rfl
  · obtain ⟨now, blob, -, hmem, -, hgenuine⟩ := (hruns events s hs).1 env henv
    exact ⟨now, blob, hmem, hgenuine⟩

end Thicket.Net
