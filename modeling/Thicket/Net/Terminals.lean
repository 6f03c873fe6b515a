import Thicket.Net.Streams

/-!
# Replies that end a stream

A server answers a streaming request with chunks, or with a plain reply: a `Response` or an `Error`.
The reader looks for the waiter of a plain reply among the calls only, so a stream that is answered
with one stays open, and its consumer waits for chunks that do not come.
-/

namespace Thicket.Net

open Cbor (Bytes)

/-- A reply outside of a stream. -/
def Plain (env : SignedEnvelope) : Prop := env.payload.typ = .response ∨ env.payload.typ = .error

/-- A reply that nothing follows. -/
def Terminal (env : SignedEnvelope) : Prop :=
  Plain env ∨ env.payload.typ = .streamChunk ∧ env.payload.streamEnd = true

namespace Mux

/-- The stream's sender is held for its correlation. -/
def StreamOpen (s : Mux) (correlation : Bytes) (id : Nat) : Prop :=
  s.conn.streams[correlation]? = some id

/-- The envelope closes its stream. If the stream is open and its consumer is there and has room,
the envelope is handed over. -/
structure Ended (s : Mux) (id : Nat) (env : SignedEnvelope) : Prop where
  closed : ¬(s.route env).StreamOpen env.payload.correlation id
  handed : s.StreamOpen env.payload.correlation id →
    ∃ channel, s.conn.channels[id]? = some channel ∧
    (channel.isOpen = true → channel.unread.length < channel.capacity →
      (s.route env).conn.channels[id]? = some { channel with unread := channel.unread ++ [env] })

/-- The event is not a plain reply to a stream that is open. -/
def NotPlain (s : Mux) (event : MuxEvent) : Prop :=
  ∀ env, event = .route env → Plain env → s.conn.streams[env.payload.correlation]? = none

/-- The channels of the open streams exist. -/
def Backed (s : Mux) : Prop :=
  ∀ (correlation : Bytes) (id : Nat), s.StreamOpen correlation id →
    ∃ channel, s.conn.channels[id]? = some channel

variable {s : Mux} {env : SignedEnvelope} {id : Nat}

theorem route_streams_of_plain (h : Plain env) : (s.route env).conn.streams = s.conn.streams := by
  obtain htyp | htyp := h
  all_goals
    cases hpending : s.conn.pending[env.payload.correlation]? <;>
      simp [Mux.route, Conn.route, htyp, hpending]

/-- A chunk that ends its stream is put into the channel, if there is room, and the stream is
closed. -/
theorem route_of_last (htyp : env.payload.typ = .streamChunk) (hend : env.payload.streamEnd = true) :
    (s.route env).conn.streams = s.conn.streams.erase env.payload.correlation ∧
      ∀ id channel, s.StreamOpen env.payload.correlation id → s.conn.channels[id]? = some channel →
        channel.isOpen = true → channel.unread.length < channel.capacity →
        (s.route env).conn.channels[id]? =
          some { channel with unread := channel.unread ++ [env] } := by
  cases hstream : s.conn.streams[env.payload.correlation]? with
  | none =>
      refine ⟨by simp [Mux.route, Conn.route, htyp, hend, hstream], ?_⟩
      intro id channel hopen
      rw [StreamOpen, hstream] at hopen
      cases hopen
  | some id =>
      cases hsend : s.conn.toChannel id env with
      | none =>
          refine ⟨by simp [Mux.route, Conn.route, htyp, hstream, hsend], ?_⟩
          intro id' channel hopen hchannel hreceiving hroom
          obtain rfl := Option.some.inj (hstream.symm.trans hopen)
          have htry : channel.trySend env = some { channel with unread := channel.unread ++ [env] } :=
            Channel.trySend_eq_some.mpr ⟨hreceiving, hroom, rfl⟩
          have hsome := Conn.toChannel_eq_some.mpr ⟨channel, _, hchannel, htry, rfl⟩
          rw [hsend] at hsome
          cases hsome
      | some conn =>
          obtain ⟨channel, sent, hchannel, htry, rfl⟩ := Conn.toChannel_eq_some.mp hsend
          refine ⟨by simp [Mux.route, Conn.route, htyp, hstream, hsend, hend], ?_⟩
          intro id' channel' hopen hchannel' _ _
          obtain rfl := Option.some.inj (hstream.symm.trans hopen)
          obtain rfl := Option.some.inj (hchannel.symm.trans hchannel')
          obtain ⟨-, -, rfl⟩ := Channel.trySend_eq_some.mp htry
          simp [Mux.route, Conn.route, htyp, hstream, hsend, hend]

/-- A terminal reply ends the stream unless the stream is open and the reply is a plain one. -/
theorem ended_iff (hbacked : s.Backed) (hterminal : Terminal env) :
    s.Ended id env ↔ ¬(s.StreamOpen env.payload.correlation id ∧ Plain env) := by
  by_cases hplain : Plain env
  · have hstreams := route_streams_of_plain (s := s) hplain
    have hsame : (s.route env).StreamOpen env.payload.correlation id ↔
        s.StreamOpen env.payload.correlation id := by
      rw [StreamOpen, StreamOpen, hstreams]
    constructor
    · intro hended ⟨hopen, _⟩
      exact hended.closed (hsame.mpr hopen)
    · intro hnot
      have hclosed : ¬s.StreamOpen env.payload.correlation id := fun hopen => hnot ⟨hopen, hplain⟩
      exact ⟨fun hopen => hclosed (hsame.mp hopen), fun hopen => absurd hopen hclosed⟩
  · obtain ⟨htyp, hend⟩ := hterminal.resolve_left hplain
    obtain ⟨hstreams, hhanded⟩ := route_of_last (s := s) htyp hend
    refine iff_of_true ⟨?_, ?_⟩ fun h => hplain h.2
    · rw [StreamOpen, hstreams, HashMap.getElem?_erase, if_pos rfl]
      exact nofun
    · intro hopen
      obtain ⟨channel, hchannel⟩ := hbacked _ id hopen
      exact ⟨channel, hchannel, hhanded id channel hopen hchannel⟩

/-! ### Which streams are open -/

theorem streams_act {op : LocalOp} {correlation : Bytes}
    (h : (s.act op).StreamOpen correlation id) :
    s.StreamOpen correlation id ∨ op = .callStream correlation ∧ id = s.nextId := by
  cases op with
  | callStream other =>
      change (s.conn.streams.insert other s.nextId)[correlation]? = some id at h
      rw [HashMap.getElem?_insert] at h
      split_ifs at h with heq
      · exact Or.inr ⟨by rw [heq], (Option.some.inj h).symm⟩
      · exact Or.inl h
  | recv n | drop n | recvRequest =>
      rw [act] at h
      split at h <;> exact Or.inl h
  | _ => exact Or.inl h

theorem channels_act (op : LocalOp) (hchannel : ∃ channel, s.conn.channels[id]? = some channel) :
    ∃ channel, (s.act op).conn.channels[id]? = some channel := by
  have hinsert (n : Nat) (new : Channel) :
      ∃ channel, (s.conn.channels.insert n new)[id]? = some channel := by
    rw [HashMap.getElem?_insert]
    split_ifs
    · exact ⟨new, rfl⟩
    · exact hchannel
  cases op with
  | callStream other | subscribe other => exact hinsert _ _
  | recv n | drop n =>
      rw [act]
      split
      · exact hchannel
      · exact hinsert _ _
  | recvRequest =>
      rw [act]
      split <;> exact hchannel
  | _ => exact hchannel

theorem Backed.step (h : s.Backed) (event : MuxEvent) : (s.step event).Backed := by
  intro correlation id hopen
  cases event with
  | route env =>
      have hbefore : s.StreamOpen correlation id := by
        rcases route_streams s env correlation with hsame | ⟨-, -, hnone⟩
        · exact hsame.symm.trans hopen
        · exact absurd (hnone.symm.trans hopen) nofun
      obtain ⟨channel, hchannel⟩ := h correlation id hbefore
      rcases route_channels s env id with hsame | ⟨-, _, sent, -, -, hsent⟩
      · exact ⟨channel, hsame.trans hchannel⟩
      · exact ⟨sent, hsent⟩
  | act op =>
      cases streams_act hopen with
      | inl hbefore => exact channels_act op (h correlation id hbefore)
      | inr hnew =>
          obtain ⟨rfl, rfl⟩ := hnew
          exact ⟨newChannel, getElem?_insert_self _ _ _⟩

theorem backed_established (peer : VerifiedPeer) : (Mux.established peer).Backed := by
  intro correlation id hopen
  change (∅ : HashMap Bytes Nat)[correlation]? = some id at hopen
  simp at hopen

end Mux

/-! ### Runs -/

theorem backed_reached (peer : VerifiedPeer) (events : List MuxEvent) :
    (reached peer events).Backed := by
  apply Run.exec_preserves Mux.Backed
  · exact fun _ event h => h.step event
  · exact Mux.backed_established peer

/-- A stream is opened in a run, and later an envelope arrives. -/
structure Arrival where
  before : List MuxEvent
  correlation : Bytes
  between : List MuxEvent
  env : SignedEnvelope

namespace Arrival

/-- What happened when the envelope arrives. -/
def front (a : Arrival) : List MuxEvent :=
  a.before ++ .act (.callStream a.correlation) :: a.between

/-- The number of the stream. -/
def id (a : Arrival) (peer : VerifiedPeer) : Nat := (reached peer a.before).nextId

/-- This happens in the run. -/
def In (a : Arrival) (events : List MuxEvent) : Prop :=
  ∃ rest, events = a.front ++ .route a.env :: rest

end Arrival

/-- An open stream was opened. -/
theorem exists_opened {peer : VerifiedPeer} {correlation : Bytes} {id : Nat}
    (events : List MuxEvent) (h : (reached peer events).StreamOpen correlation id) :
    ∃ before between, events = before ++ .act (.callStream correlation) :: between ∧
      id = (reached peer before).nextId := by
  induction events using List.reverseRecOn with
  | nil =>
      change (∅ : HashMap Bytes Nat)[correlation]? = some id at h
      simp at h
  | append_singleton events event ih =>
      rw [reached_append] at h
      have hearlier (hopen : (reached peer events).StreamOpen correlation id) :
          ∃ before between, events ++ [event] =
            before ++ .act (.callStream correlation) :: between ∧
              id = (reached peer before).nextId := by
        obtain ⟨before, between, rfl, hid⟩ := ih hopen
        exact ⟨before, between ++ [event], by simp, hid⟩
      cases event with
      | route env =>
          apply hearlier
          rcases Mux.route_streams (reached peer events) env correlation with hsame | ⟨-, -, hnone⟩
          · exact hsame.symm.trans h
          · exact absurd (hnone.symm.trans h) nofun
      | act op =>
          cases Mux.streams_act h with
          | inl hopen => exact hearlier hopen
          | inr hnew =>
              obtain ⟨rfl, rfl⟩ := hnew
              exact ⟨events, [], rfl, rfl⟩

/-- **Which runs end their streams.** Every terminal reply with the correlation of a stream that was
opened in a run ends the stream if and only if no plain reply arrives with the correlation of a
stream that is open. -/
theorem terminals_end_streams_iff (peer : VerifiedPeer) (events : List MuxEvent) :
    (∀ a : Arrival, a.In events → Terminal a.env → a.env.payload.correlation = a.correlation →
      (reached peer a.front).Ended (a.id peer) a.env) ↔
    Run.EachStep Mux.step Mux.NotPlain (.established peer) events := by
  rw [Run.eachStep_iff_split]
  constructor
  · intro hended front event rest hevents env heq hplain
    obtain rfl := heq
    by_contra hsome
    obtain ⟨id, hopen⟩ := Option.ne_none_iff_exists'.mp hsome
    obtain ⟨before, between, rfl, rfl⟩ := exists_opened front hopen
    have hend := hended ⟨before, env.payload.correlation, between, env⟩ ⟨rest, hevents⟩
      (Or.inl hplain) rfl
    exact (Mux.ended_iff (backed_reached _ _) (Or.inl hplain)).mp hend ⟨hopen, hplain⟩
  · intro hall a ⟨rest, hevents⟩ hterminal hcorrelation
    apply (Mux.ended_iff (backed_reached _ _) hterminal).mpr
    intro ⟨hopen, hplain⟩
    have hnone := hall a.front (.route a.env) rest hevents a.env rfl hplain
    exact absurd (hnone.symm.trans hopen) nofun

/-! ### A stream that is answered with an error -/

def samplePeer : VerifiedPeer := { id := ⟨[]⟩, workingPub := [], keyNotAfter := 0 }

def errorReply : SignedEnvelope :=
  { payload := { v := 1, fromId := ⟨[]⟩, toId := ⟨[]⟩, typ := .error, capability := none,
                 correlation := [2], contentType := none, context := Context.empty, auth := none,
                 streamSeq := none, streamEnd := false,
                 error := some { code := .unauthorized, message := "" }, body := [], ext := ∅ },
    signerPub := [], signature := [] }

/-- The stream stays open, and its consumer, who has room, has nothing to read. -/
theorem error_leaves_stream_open :
    ¬(∀ a : Arrival, a.In [.act (.callStream [2]), .route errorReply] → Terminal a.env →
      a.env.payload.correlation = a.correlation →
      (reached samplePeer a.front).Ended (a.id samplePeer) a.env) ∧
    (reached samplePeer [.act (.callStream [2]), .route errorReply]).StreamOpen [2] 0 ∧
    (reached samplePeer [.act (.callStream [2]), .route errorReply]).conn.channels[0]? =
      some Mux.newChannel := by
  refine ⟨?_, ?_, ?_⟩
  · intro h
    have hplain : Plain errorReply := Or.inr rfl
    have hended := h ⟨[], [2], [], errorReply⟩ ⟨[], rfl⟩ (Or.inl hplain) rfl
    apply (Mux.ended_iff (backed_reached _ _) (Or.inl hplain)).mp hended
    exact ⟨by rfl, hplain⟩
  · rfl
  · rfl

end Thicket.Net
