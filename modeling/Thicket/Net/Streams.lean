import Thicket.Lib.BoundedStream
import Thicket.Net.Mux

/-!
# Streams do not disturb each other

Whatever else arrives and whoever else stalls, each stream of a connection behaves as a bounded stream
of its own, which the chunks with its correlation and the reads of its consumer drive.
-/

namespace Thicket.Net

open Cbor (Bytes)
open BoundedStream (upToLast Stream)

inductive MuxEvent where
  | route (env : SignedEnvelope)
  | act (op : LocalOp)

/-- The chunk ends its stream. -/
def endsStream (env : SignedEnvelope) : Bool := env.payload.streamEnd

namespace Mux

def step (self : Mux) : MuxEvent → Mux
  | .route env => self.route env
  | .act op => self.act op

/-- What an event is for one stream, if it is the stream's. -/
def own (correlation : Bytes) (id : Nat) : MuxEvent → Option (BoundedStream.Event SignedEnvelope)
  | .route env =>
      if env.payload.typ = .streamChunk ∧ env.payload.correlation = correlation then
        some (.item env)
      else none
  | .act (.recv n) => if n = id then some .recv else none
  | .act (.drop n) => if n = id then some .drop else none
  | .act _ => none

/-- What the consumer of a channel has received. -/
def taken (self : Mux) (id : Nat) : List SignedEnvelope :=
  (self.received.filter fun r => r.1 == id).map Prod.snd

/-- One stream of the connection. -/
def view (self : Mux) (correlation : Bytes) (id : Nat) : Stream SignedEnvelope :=
  { unread := (self.conn.channels[id]?.map Channel.unread).getD [],
    received := self.taken id,
    sending := self.conn.streams[correlation]? == some id,
    receiving := (self.conn.channels[id]?.map Channel.isOpen).getD false }

/-- The channel is the stream's and nobody else's. -/
structure Owns (s : Mux) (correlation : Bytes) (id : Nat) : Prop where
  channel : ∃ channel, s.conn.channels[id]? = some channel ∧ channel.capacity = streamCapacity
  stream : ∀ other : Bytes, s.conn.streams[other]? = some id → other = correlation
  eventSub : ∀ topic : String, s.conn.eventSubs[topic]? ≠ some id
  id : id < s.nextId

/-- The numbers of channels are taken in order. -/
structure Numbered (s : Mux) : Prop where
  streams : ∀ (correlation : Bytes) (id : Nat),
    s.conn.streams[correlation]? = some id → id < s.nextId
  eventSubs : ∀ (topic : String) (id : Nat),
    s.conn.eventSubs[topic]? = some id → id < s.nextId
  received : ∀ r ∈ s.received, r.1 < s.nextId
  channels : ∀ (id : Nat) (channel : Channel),
    s.conn.channels[id]? = some channel → id < s.nextId

/-! ### Routing -/

variable {s : Mux} {correlation : Bytes} {id : Nat} {env : SignedEnvelope}

theorem route_streams (s : Mux) (env : SignedEnvelope) (other : Bytes) :
    (s.route env).conn.streams[other]? = s.conn.streams[other]? ∨
      env.payload.typ = .streamChunk ∧ env.payload.correlation = other ∧
        (s.route env).conn.streams[other]? = none := by
  have htrims : ∀ streams, s.conn.Trims env streams → streams[other]? = s.conn.streams[other]? ∨
      env.payload.typ = .streamChunk ∧ env.payload.correlation = other ∧ streams[other]? = none := by
    intro streams h
    rcases h with rfl | ⟨htyp, rfl⟩
    · exact Or.inl rfl
    · by_cases hother : other = env.payload.correlation
      · refine Or.inr ⟨htyp, hother.symm, ?_⟩
        rw [HashMap.getElem?_erase, if_pos hother]
      · left
        rw [HashMap.getElem?_erase, if_neg hother]
  have hrouted := s.conn.routed env
  change (s.conn.route env).streams[other]? = _ ∨ _ ∧ _ ∧ (s.conn.route env).streams[other]? = _
  generalize s.conn.route env = conn at hrouted
  cases hrouted with
  | reply call h => exact Or.inl rfl
  | channel id channel sent streams htarget hstreams hchannel h => exact htrims streams hstreams
  | inbound inbound h => exact Or.inl rfl
  | drop streams hstreams => exact htrims streams hstreams

theorem route_eventSubs (s : Mux) (env : SignedEnvelope) :
    (s.route env).conn.eventSubs = s.conn.eventSubs := by
  have hrouted := s.conn.routed env
  change (s.conn.route env).eventSubs = _
  generalize s.conn.route env = conn at hrouted
  cases hrouted <;> rfl

/-- Only the channel that the envelope is for changes, by the envelope at most. -/
theorem route_channels (s : Mux) (env : SignedEnvelope) (id : Nat) :
    (s.route env).conn.channels[id]? = s.conn.channels[id]? ∨
      s.conn.Targets env id ∧ ∃ channel sent, s.conn.channels[id]? = some channel ∧
        channel.trySend env = some sent ∧ (s.route env).conn.channels[id]? = some sent := by
  have hrouted := s.conn.routed env
  change (s.conn.route env).channels[id]? = _ ∨
    _ ∧ ∃ channel sent, _ ∧ _ ∧ (s.conn.route env).channels[id]? = _
  generalize s.conn.route env = conn at hrouted
  cases hrouted with
  | reply call h => exact Or.inl rfl
  | channel id' channel sent streams htarget hstreams hchannel h =>
      by_cases hid : id = id'
      · rw [hid]
        refine Or.inr ⟨htarget, channel, sent, hchannel, h, ?_⟩
        rw [HashMap.getElem?_insert, if_pos rfl]
      · left
        rw [HashMap.getElem?_insert, if_neg hid]
  | inbound inbound h => exact Or.inl rfl
  | drop streams hstreams => exact Or.inl rfl

theorem Owns.route (h : s.Owns correlation id) (env : SignedEnvelope) :
    (s.route env).Owns correlation id := by
  refine ⟨?_, ?_, ?_, h.id⟩
  · obtain ⟨channel, hchannel, hcapacity⟩ := h.channel
    rcases route_channels s env id with hsame | ⟨-, channel', sent, hchannel', htry, hsent⟩
    · exact ⟨channel, hsame.trans hchannel, hcapacity⟩
    · obtain rfl := Option.some.inj (hchannel.symm.trans hchannel')
      obtain ⟨-, -, rfl⟩ := Channel.trySend_eq_some.mp htry
      exact ⟨_, hsent, hcapacity⟩
  · intro other hother
    rcases route_streams s env other with hsame | ⟨-, -, hnone⟩
    · exact h.stream other (hsame.symm.trans hother)
    · rw [hnone] at hother
      cases hother
  · rw [route_eventSubs]
    exact h.eventSub

theorem view_of_channel {channel : Channel} (h : s.conn.channels[id]? = some channel) :
    s.view correlation id =
      { unread := channel.unread, received := s.taken id,
        sending := s.conn.streams[correlation]? == some id, receiving := channel.isOpen } := by
  rw [view, h]
  rfl

theorem view_eq_of_same {next : Mux} (hchannel : next.conn.channels[id]? = s.conn.channels[id]?)
    (hstream : (next.conn.streams[correlation]? == some id) =
      (s.conn.streams[correlation]? == some id))
    (htaken : next.taken id = s.taken id) :
    next.view correlation id = s.view correlation id := by
  rw [view, view, hchannel, hstream, htaken]

/-- An envelope that is not for the stream leaves it alone. -/
theorem view_route_of_not_targets (hnot : ¬s.conn.Targets env id)
    (hstream : (s.route env).conn.streams[correlation]? = some id ↔
      s.conn.streams[correlation]? = some id) :
    (s.route env).view correlation id = s.view correlation id := by
  apply view_eq_of_same
  · rcases route_channels s env id with hsame | ⟨htarget, -⟩
    · exact hsame
    · exact absurd htarget hnot
  · rw [Bool.eq_iff_iff, beq_iff_eq, beq_iff_eq]
    exact hstream
  · rfl

theorem view_route_chunk (h : s.Owns correlation id) (htyp : env.payload.typ = .streamChunk)
    (hcorrelation : env.payload.correlation = correlation) :
    (s.route env).view correlation id =
      (s.view correlation id).send endsStream streamCapacity env := by
  subst hcorrelation
  by_cases hstream : s.conn.streams[env.payload.correlation]? = some id
  · obtain ⟨channel, hchannel, hcapacity⟩ := h.channel
    have hview : s.view env.payload.correlation id =
        { unread := channel.unread, received := s.taken id, sending := true,
          receiving := channel.isOpen } := by
      rw [view_of_channel hchannel, hstream, beq_self_eq_true]
    rw [hview, Stream.send, if_pos rfl]
    by_cases hroom : channel.isOpen = true ∧ channel.unread.length < streamCapacity
    · rw [if_pos hroom]
      have htry : channel.trySend env = some { channel with unread := channel.unread ++ [env] } :=
        Channel.trySend_eq_some.mpr ⟨hroom.1, hcapacity ▸ hroom.2, rfl⟩
      have hsome := Conn.toChannel_eq_some.mpr ⟨channel, _, hchannel, htry, rfl⟩
      cases hend : env.payload.streamEnd with
      | true =>
          simp [view, Mux.route, Conn.route, htyp, hstream, hsome, hend, endsStream, taken]
      | false =>
          simp [view, Mux.route, Conn.route, htyp, hstream, hsome, hend, endsStream, taken]
    · rw [if_neg hroom]
      have hnone : s.conn.toChannel id env = none := by
        rw [Option.eq_none_iff_forall_ne_some]
        intro conn hsome
        obtain ⟨channel', sent, hchannel', htry, -⟩ := Conn.toChannel_eq_some.mp hsome
        obtain rfl := Option.some.inj (hchannel.symm.trans hchannel')
        obtain ⟨hopen, hlen, -⟩ := Channel.trySend_eq_some.mp htry
        exact hroom ⟨hopen, hcapacity ▸ hlen⟩
      simp [view, Mux.route, Conn.route, htyp, hstream, hnone, hchannel, taken]
  · have hnot : ¬s.conn.Targets env id := by
      intro htarget
      rcases htarget with ⟨-, htarget⟩ | ⟨topic, htarget⟩
      · exact hstream htarget
      · exact h.eventSub topic htarget
    have hclosed : (s.view env.payload.correlation id).sending = false := by
      simpa [view] using hstream
    rw [Stream.send, if_neg (by simp [hclosed])]
    apply view_route_of_not_targets hnot
    rcases route_streams s env env.payload.correlation with hsame | ⟨-, -, hnone⟩
    · rw [hsame]
    · rw [hnone]
      exact iff_of_false (by simp) hstream

theorem view_route_other (h : s.Owns correlation id)
    (hother : ¬(env.payload.typ = .streamChunk ∧ env.payload.correlation = correlation)) :
    (s.route env).view correlation id = s.view correlation id := by
  apply view_route_of_not_targets
  · intro htarget
    rcases htarget with ⟨htyp, htarget⟩ | ⟨topic, htarget⟩
    · exact hother ⟨htyp, h.stream _ htarget⟩
    · exact h.eventSub topic htarget
  · rcases route_streams s env correlation with hsame | ⟨htyp, hcorrelation, -⟩
    · rw [hsame]
    · exact absurd ⟨htyp, hcorrelation⟩ hother

/-! ### The local side -/

theorem taken_append (s : Mux) (id n : Nat) (env : SignedEnvelope) :
    taken { s with received := s.received ++ [(n, env)] } id =
      s.taken id ++ (if n = id then [env] else []) := by
  by_cases hn : n = id <;> simp [taken, hn]

/-- What an event does to one stream. -/
def Steps (correlation : Bytes) (id : Nat) (event : MuxEvent) (s next : Mux) : Prop :=
  next.Owns correlation id ∧ next.view correlation id =
    match own correlation id event with
    | none => s.view correlation id
    | some e => (s.view correlation id).step endsStream streamCapacity e

theorem getElem?_insert_self (channels : HashMap Nat Channel) (n : Nat) (channel : Channel) :
    (channels.insert n channel)[n]? = some channel := by
  rw [HashMap.getElem?_insert, if_pos rfl]

theorem getElem?_insert_ne {channels : HashMap Nat Channel} {n : Nat} (hn : n ≠ id)
    (channel : Channel) : (channels.insert n channel)[id]? = channels[id]? := by
  rw [HashMap.getElem?_insert, if_neg hn.symm]

/-- A channel that is opened for something else. -/
theorem steps_open (h : s.Owns correlation id) {event : MuxEvent}
    (howned : own correlation id event = none) {streams : HashMap Bytes Nat}
    {eventSubs : HashMap String Nat}
    (hstreams : ∀ other : Bytes, streams[other]? = s.conn.streams[other]? ∨
      other ≠ correlation ∧ streams[other]? = some s.nextId)
    (heventSubs : ∀ topic : String, eventSubs[topic]? = s.conn.eventSubs[topic]? ∨
      eventSubs[topic]? = some s.nextId) :
    Steps correlation id event s { s with
      nextId := s.nextId + 1
      conn := { s.conn with
        streams, eventSubs, channels := s.conn.channels.insert s.nextId newChannel } } := by
  have hne : s.nextId ≠ id := by
    have hid := h.id
    omega
  rw [Steps, howned]
  refine ⟨⟨?_, ?_, ?_, ?_⟩, ?_⟩
  · obtain ⟨channel, hchannel, hcapacity⟩ := h.channel
    exact ⟨channel, (getElem?_insert_ne hne _).trans hchannel, hcapacity⟩
  · intro other hother
    rcases hstreams other with hsame | ⟨-, hnew⟩
    · exact h.stream other (hsame.symm.trans hother)
    · exact absurd (Option.some.inj (hnew.symm.trans hother)) hne
  · intro topic htopic
    rcases heventSubs topic with hsame | hnew
    · exact h.eventSub topic (hsame.symm.trans htopic)
    · exact hne (Option.some.inj (hnew.symm.trans htopic))
  · exact Nat.lt_succ_of_lt h.id
  · apply view_eq_of_same
    · exact getElem?_insert_ne hne _
    · rcases hstreams correlation with hsame | ⟨hother, -⟩
      · change (streams[correlation]? == _) = _
        rw [hsame]
      · exact absurd rfl hother
    · rfl

/-- The consumer of another channel. -/
theorem steps_other (h : s.Owns correlation id) {event : MuxEvent}
    (howned : own correlation id event = none) {n : Nat} (hn : n ≠ id) (channel : Channel)
    (received : List (Nat × SignedEnvelope))
    (htaken : taken { s with received } id = s.taken id) :
    Steps correlation id event s { s with
      received, conn := { s.conn with channels := s.conn.channels.insert n channel } } := by
  rw [Steps, howned]
  refine ⟨⟨?_, h.stream, h.eventSub, h.id⟩, ?_⟩
  · obtain ⟨own, hown, hcapacity⟩ := h.channel
    exact ⟨own, (getElem?_insert_ne hn _).trans hown, hcapacity⟩
  · apply view_eq_of_same
    · exact getElem?_insert_ne hn _
    · rfl
    · exact htaken

theorem steps_recv (h : s.Owns correlation id) (n : Nat) :
    Steps correlation id (.act (.recv n)) s (s.act (.recv n)) := by
  by_cases hn : n = id
  · subst hn
    obtain ⟨channel, hchannel, hcapacity⟩ := h.channel
    have howned : own correlation n (.act (.recv n)) = some .recv := if_pos rfl
    rw [Steps, howned]
    rw [view_of_channel hchannel]
    cases hunread : channel.unread with
    | nil =>
        have hnone : s.conn.channels[n]?.bind Channel.recv = none := by
          simp [hchannel, Channel.recv, hunread]
        simp only [act, hnone, Stream.step]
        exact ⟨h, (view_of_channel hchannel).trans (by rw [hunread])⟩
    | cons env unread =>
        have hsome : s.conn.channels[n]?.bind Channel.recv =
            some (env, { channel with unread }) := by
          simp [hchannel, Channel.recv, hunread]
        simp only [act, hsome, Stream.step]
        have hnew := getElem?_insert_self s.conn.channels n { channel with unread }
        refine ⟨⟨⟨_, hnew, hcapacity⟩, h.stream, h.eventSub, h.id⟩, ?_⟩
        have htaken := taken_append s n n env
        rw [if_pos rfl] at htaken
        rw [← htaken]
        simp only [view, hnew]
        rfl
  · have howned : own correlation id (.act (.recv n)) = none := if_neg hn
    rw [act]
    split
    · rw [Steps, howned]
      exact ⟨h, rfl⟩
    · next env channel _ =>
        apply steps_other h howned hn
        exact (taken_append s id n env).trans (by rw [if_neg hn, List.append_nil])

theorem steps_drop (h : s.Owns correlation id) (n : Nat) :
    Steps correlation id (.act (.drop n)) s (s.act (.drop n)) := by
  by_cases hn : n = id
  · subst hn
    obtain ⟨channel, hchannel, hcapacity⟩ := h.channel
    have howned : own correlation n (.act (.drop n)) = some .drop := if_pos rfl
    rw [Steps, howned, view_of_channel hchannel]
    simp only [act, hchannel, Stream.step]
    have hnew := getElem?_insert_self s.conn.channels n channel.drop
    refine ⟨⟨⟨_, hnew, hcapacity⟩, h.stream, h.eventSub, h.id⟩, ?_⟩
    simp only [view, hnew]
    rfl
  · have howned : own correlation id (.act (.drop n)) = none := if_neg hn
    rw [act]
    split
    · rw [Steps, howned]
      exact ⟨h, rfl⟩
    · exact steps_other h howned hn _ _ rfl

/-- **Every event is one of the stream's own, or nothing to it.** -/
theorem steps_step (h : s.Owns correlation id) {event : MuxEvent}
    (hevent : event ≠ .act (.callStream correlation)) :
    Steps correlation id event s (s.step event) := by
  cases event with
  | route env =>
      refine ⟨h.route env, ?_⟩
      by_cases hown : env.payload.typ = .streamChunk ∧ env.payload.correlation = correlation
      · have howned : own correlation id (.route env) = some (.item env) := if_pos hown
        rw [howned]
        exact view_route_chunk h hown.1 hown.2
      · have howned : own correlation id (.route env) = none := if_neg hown
        rw [howned]
        exact view_route_other h hown
  | act op =>
      cases op with
      | call other =>
          exact ⟨⟨h.channel, h.stream, h.eventSub, Nat.lt_succ_of_lt h.id⟩, rfl⟩
      | timeout other => exact ⟨⟨h.channel, h.stream, h.eventSub, h.id⟩, rfl⟩
      | callStream other =>
          have hother : other ≠ correlation := fun heq => hevent (by rw [heq])
          refine steps_open h rfl (fun c => ?_) fun topic => Or.inl rfl
          rw [HashMap.getElem?_insert]
          split_ifs with hc
          · exact Or.inr ⟨hc ▸ hother, rfl⟩
          · exact Or.inl rfl
      | subscribe topic =>
          refine steps_open h rfl (fun c => Or.inl rfl) fun t => ?_
          rw [HashMap.getElem?_insert]
          split_ifs
          · exact Or.inr rfl
          · exact Or.inl rfl
      | recv n => exact steps_recv h n
      | drop n => exact steps_drop h n
      | recvRequest =>
          change Steps correlation id (.act .recvRequest) s (s.act .recvRequest)
          rw [act]
          split
          · exact ⟨h, rfl⟩
          · exact ⟨⟨h.channel, h.stream, h.eventSub, h.id⟩, rfl⟩

/-! ### Numbers -/

theorem numbered_established (peer : VerifiedPeer) : (Mux.established peer).Numbered := by
  refine ⟨fun c id h => ?_, fun t id h => ?_, fun r hr => ?_, fun id channel h => ?_⟩
  · change (∅ : HashMap Bytes Nat)[c]? = some id at h
    simp at h
  · change (∅ : HashMap String Nat)[t]? = some id at h
    simp at h
  · cases hr
  · change (∅ : HashMap Nat Channel)[id]? = some channel at h
    simp at h

theorem Numbered.route (h : s.Numbered) (env : SignedEnvelope) : (s.route env).Numbered := by
  refine ⟨fun c id hid => ?_, fun t id hid => ?_, h.received, fun id channel hid => ?_⟩
  · rcases route_streams s env c with hsame | ⟨-, -, hnone⟩
    · exact h.streams c id (hsame.symm.trans hid)
    · rw [hnone] at hid
      cases hid
  · rw [route_eventSubs] at hid
    exact h.eventSubs t id hid
  · rcases route_channels s env id with hsame | ⟨-, before, -, hbefore, -⟩
    · exact h.channels id channel (hsame.symm.trans hid)
    · exact h.channels id before hbefore

/-- A channel that is opened takes the next number. -/
theorem Numbered.opened (h : s.Numbered) {streams : HashMap Bytes Nat}
    {eventSubs : HashMap String Nat} {channel : Channel}
    (hstreams : ∀ c : Bytes, streams[c]? = s.conn.streams[c]? ∨ streams[c]? = some s.nextId)
    (heventSubs : ∀ t : String, eventSubs[t]? = s.conn.eventSubs[t]? ∨
      eventSubs[t]? = some s.nextId) :
    Numbered { s with
      nextId := s.nextId + 1
      conn := { s.conn with
        streams, eventSubs, channels := s.conn.channels.insert s.nextId channel } } := by
  refine ⟨fun c id hid => ?_, fun t id hid => ?_, fun r hr => ?_, fun id channel' hid => ?_⟩
  · rcases hstreams c with hsame | hnew
    · exact Nat.lt_succ_of_lt (h.streams c id (hsame.symm.trans hid))
    · rw [← Option.some.inj (hnew.symm.trans hid)]
      exact Nat.lt_succ_self _
  · rcases heventSubs t with hsame | hnew
    · exact Nat.lt_succ_of_lt (h.eventSubs t id (hsame.symm.trans hid))
    · rw [← Option.some.inj (hnew.symm.trans hid)]
      exact Nat.lt_succ_self _
  · exact Nat.lt_succ_of_lt (h.received r hr)
  · by_cases hn : s.nextId = id
    · rw [← hn]
      exact Nat.lt_succ_self _
    · exact Nat.lt_succ_of_lt (h.channels id channel' ((getElem?_insert_ne hn _).symm.trans hid))

/-- A channel that exists is changed. -/
theorem Numbered.insert (h : s.Numbered) {n : Nat} {channel : Channel}
    {received : List (Nat × SignedEnvelope)} (hn : n < s.nextId)
    (hreceived : ∀ r ∈ received, r.1 < s.nextId) :
    Numbered { s with
      received, conn := { s.conn with channels := s.conn.channels.insert n channel } } := by
  refine ⟨h.streams, h.eventSubs, hreceived, fun id channel' hid => ?_⟩
  by_cases heq : n = id
  · rw [← heq]
    exact hn
  · exact h.channels id channel' ((getElem?_insert_ne heq _).symm.trans hid)

theorem Numbered.step (h : s.Numbered) (event : MuxEvent) : (s.step event).Numbered := by
  cases event with
  | route env => exact h.route env
  | act op =>
      cases op with
      | call other =>
          exact ⟨fun c id hid => Nat.lt_succ_of_lt (h.streams c id hid),
            fun t id hid => Nat.lt_succ_of_lt (h.eventSubs t id hid),
            fun r hr => Nat.lt_succ_of_lt (h.received r hr),
            fun id channel hid => Nat.lt_succ_of_lt (h.channels id channel hid)⟩
      | timeout other => exact ⟨h.streams, h.eventSubs, h.received, h.channels⟩
      | callStream other =>
          refine h.opened (fun c => ?_) fun t => Or.inl rfl
          rw [HashMap.getElem?_insert]
          split_ifs
          · exact Or.inr rfl
          · exact Or.inl rfl
      | subscribe topic =>
          refine h.opened (fun c => Or.inl rfl) fun t => ?_
          rw [HashMap.getElem?_insert]
          split_ifs
          · exact Or.inr rfl
          · exact Or.inl rfl
      | recv n =>
          change Numbered (s.act (.recv n))
          rw [act]
          split
          · exact h
          · next env channel hrecv =>
              obtain ⟨before, hbefore, -⟩ := Option.bind_eq_some_iff.mp hrecv
              have hn := h.channels n before hbefore
              refine h.insert hn fun r hr => ?_
              rcases List.mem_append.mp hr with hr | hr
              · exact h.received r hr
              · rw [List.mem_singleton.mp hr]
                exact hn
      | drop n =>
          change Numbered (s.act (.drop n))
          rw [act]
          split
          · exact h
          · next channel hchannel => exact h.insert (h.channels n channel hchannel) h.received
      | recvRequest =>
          change Numbered (s.act .recvRequest)
          rw [act]
          split
          · exact h
          · exact ⟨h.streams, h.eventSubs, h.received, h.channels⟩

/-- Nothing was taken out of a channel that is yet to be opened. -/
theorem Numbered.taken_nextId (h : s.Numbered) : s.taken s.nextId = [] := by
  rw [taken, List.map_eq_nil_iff, List.filter_eq_nil_iff]
  intro r hr heq
  have hlt := h.received r hr
  rw [beq_iff_eq] at heq
  omega

/-- A stream is opened on a channel of its own. -/
theorem steps_callStream (h : s.Numbered) (correlation : Bytes) :
    (s.act (.callStream correlation)).Owns correlation s.nextId ∧
      (s.act (.callStream correlation)).view correlation s.nextId = Stream.new := by
  have hchannel := getElem?_insert_self s.conn.channels s.nextId newChannel
  refine ⟨⟨⟨newChannel, hchannel, rfl⟩, fun other hother => ?_, fun topic htopic => ?_,
    Nat.lt_succ_self _⟩, ?_⟩
  · change (s.conn.streams.insert correlation s.nextId)[other]? = _ at hother
    rw [HashMap.getElem?_insert] at hother
    split_ifs at hother with heq
    · exact heq
    · exact absurd (h.streams other _ hother) (Nat.lt_irrefl _)
  · exact absurd (h.eventSubs topic _ htopic) (Nat.lt_irrefl _)
  · have hsame : (s.act (.callStream correlation)).taken s.nextId = s.taken s.nextId := rfl
    rw [view, hsame, h.taken_nextId]
    simp [act, Stream.new, newChannel]

end Mux

/-! ### Runs -/

/-- The state that a connection's events lead to. -/
def reached (peer : VerifiedPeer) (events : List MuxEvent) : Mux :=
  Run.exec Mux.step (.established peer) events

theorem reached_append (peer : VerifiedPeer) (events : List MuxEvent) (event : MuxEvent) :
    reached peer (events ++ [event]) = (reached peer events).step event := by
  rw [reached, Run.exec_append]
  rfl

/-- A run of a connection in which a stream is opened, with a correlation that is not used for another
stream while it lasts. -/
structure StreamRun where
  peer : VerifiedPeer
  before : List MuxEvent
  correlation : Bytes
  after : List MuxEvent
  distinct : .act (.callStream correlation) ∉ after

namespace StreamRun

/-- The connection when the stream is opened. -/
def start (run : StreamRun) : Mux := Run.exec Mux.step (.established run.peer) run.before

def id (run : StreamRun) : Nat := run.start.nextId

def final (run : StreamRun) : Mux :=
  Run.exec Mux.step (run.start.step (.act (.callStream run.correlation))) run.after

/-- What the consumer of the stream has received, and what it has yet to read. -/
def received (run : StreamRun) : List SignedEnvelope := run.final.taken run.id

def unread (run : StreamRun) : List SignedEnvelope :=
  (run.final.view run.correlation run.id).unread

/-- The chunks of the stream that arrived, in order. -/
def chunks (run : StreamRun) : List SignedEnvelope :=
  run.after.filterMap fun
    | .route env =>
        if env.payload.typ = .streamChunk ∧ env.payload.correlation = run.correlation then some env
        else none
    | .act _ => none

def own (run : StreamRun) : List (BoundedStream.Event SignedEnvelope) :=
  run.after.filterMap (Mux.own run.correlation run.id)

/-- The run so far. -/
def take (run : StreamRun) (n : Nat) : StreamRun :=
  { run with
    after := run.after.take n
    distinct := fun h => run.distinct (List.mem_of_mem_take h) }

/-- The consumer stays, and has at no time more unread chunks than its channel holds. -/
structure KeepsUp (run : StreamRun) : Prop where
  stays : .act (.drop run.id) ∉ run.after
  keeps : ∀ n, (upToLast endsStream (run.take n).chunks).length ≤
    (run.take n).received.length + streamCapacity

theorem view_exec {s : Mux} {correlation : Bytes} {id : Nat} (h : s.Owns correlation id)
    {events : List MuxEvent} (hdistinct : .act (.callStream correlation) ∉ events) :
    (Run.exec Mux.step s events).view correlation id =
      Run.exec (Stream.step endsStream streamCapacity) (s.view correlation id)
        (events.filterMap (Mux.own correlation id)) := by
  induction events generalizing s with
  | nil => rfl
  | cons event events ih =>
      have hevent : event ≠ .act (.callStream correlation) := by
        intro heq
        exact hdistinct (heq ▸ List.mem_cons_self)
      obtain ⟨howns, hview⟩ := Mux.steps_step h hevent
      have hrest := ih howns fun hmem => hdistinct (List.mem_cons_of_mem _ hmem)
      rw [Run.exec_cons, hrest, hview, List.filterMap_cons]
      cases Mux.own correlation id event with
      | none => rfl
      | some e => rfl

/-- The stream is a bounded stream that its own events drive. -/
theorem view_final (run : StreamRun) : run.final.view run.correlation run.id =
    Run.exec (Stream.step endsStream streamCapacity) .new run.own := by
  have hnumbered : run.start.Numbered := by
    exact Run.exec_preserves Mux.Numbered (fun _ event h => h.step event)
      (Mux.numbered_established run.peer) run.before
  obtain ⟨howns, hview⟩ := Mux.steps_callStream hnumbered run.correlation
  have hexec := view_exec howns run.distinct
  rw [hview] at hexec
  exact hexec

theorem received_eq (run : StreamRun) : run.received =
    (Run.exec (Stream.step endsStream streamCapacity) .new run.own).received := by
  rw [← view_final]
  rfl

theorem sentItems_own (run : StreamRun) : BoundedStream.sentItems run.own = run.chunks := by
  rw [BoundedStream.sentItems, own, chunks, List.filterMap_filterMap]
  apply List.filterMap_congr
  intro event _
  cases event with
  | route env =>
      by_cases hown : env.payload.typ = .streamChunk ∧ env.payload.correlation = run.correlation
      · simp [Mux.own, hown, BoundedStream.Event.item?]
      · simp [Mux.own, hown]
  | act op =>
      cases op with
      | recv n => by_cases hn : n = run.id <;> simp [Mux.own, hn, BoundedStream.Event.item?]
      | drop n => by_cases hn : n = run.id <;> simp [Mux.own, hn, BoundedStream.Event.item?]
      | _ => rfl

theorem KeepsUp.own {run : StreamRun} (h : run.KeepsUp) :
    BoundedStream.KeepsUp endsStream streamCapacity run.own := by
  refine ⟨fun hdrop => ?_, fun before hbefore => ?_⟩
  · obtain ⟨event, hmem, hown⟩ := List.mem_filterMap.mp hdrop
    have hevent : event = .act (.drop run.id) := by
      cases event with
      | route env =>
          rw [Mux.own] at hown
          split_ifs at hown
          cases hown
      | act op =>
          cases op with
          | drop n =>
              rw [Mux.own] at hown
              split_ifs at hown with hn
              rw [hn]
          | recv n =>
              rw [Mux.own] at hown
              split_ifs at hown
              cases hown
          | _ => cases hown
    exact h.stays (hevent ▸ hmem)
  · obtain ⟨events, hevents, rfl⟩ := List.prefix_filterMap_iff.mp hbefore
    have hkeeps := h.keeps events.length
    have htake : (run.take events.length).own = events.filterMap (Mux.own run.correlation run.id) := by
      change (run.after.take events.length).filterMap _ = _
      rw [← List.prefix_iff_eq_take.mp hevents]
      rfl
    rwa [received_eq, ← sentItems_own, htake] at hkeeps

end StreamRun

/-- **Streams are independent.** What a consumer receives is a first part of the chunks of its own
stream, up to the one that ends it; it is all of them if the consumer keeps up; and nothing that is not
the stream's own matters to it. -/
theorem streams_are_independent (run : StreamRun) :
    run.received ++ run.unread <+: upToLast endsStream run.chunks ∧
    (run.KeepsUp → run.received ++ run.unread = upToLast endsStream run.chunks) ∧
    ∀ other : StreamRun, other.own = run.own →
      other.received = run.received ∧ other.unread = run.unread := by
  have hview : run.received ++ run.unread =
      (Run.exec (Stream.step endsStream streamCapacity) .new run.own).received ++
        (Run.exec (Stream.step endsStream streamCapacity) .new run.own).unread := by
    rw [← StreamRun.view_final]
    rfl
  refine ⟨?_, fun hkeeps => ?_, fun other hown => ?_⟩
  · rw [hview, ← StreamRun.sentItems_own]
    exact BoundedStream.through_prefix streamCapacity run.own
  · rw [hview, ← StreamRun.sentItems_own]
    exact BoundedStream.through_eq hkeeps.own
  · have hsame := other.view_final
    rw [hown, ← run.view_final] at hsame
    exact ⟨congrArg Stream.received hsame, congrArg Stream.unread hsame⟩

/-! ### A stream beside a stalled one -/

def sampleChunk (correlation : Bytes) (streamEnd : Bool) : SignedEnvelope :=
  { payload := { v := 1, fromId := ⟨[]⟩, toId := ⟨[]⟩, typ := .streamChunk, capability := none,
                 correlation, contentType := none, context := Context.empty, auth := none,
                 streamSeq := none, streamEnd, error := none, body := [], ext := ∅ },
    signerPub := [], signature := [] }

/-- Two streams are open; the consumer of the other one stalls. -/
def sampleRun : StreamRun where
  peer := { id := ⟨[]⟩, workingPub := [], keyNotAfter := 0 }
  before := [.act (.callStream [1])]
  correlation := [2]
  after := [.route (sampleChunk [1] false), .route (sampleChunk [2] false), .act (.recv 1),
    .route (sampleChunk [1] false), .route (sampleChunk [2] true)]
  distinct := by simp

theorem streams_are_independent_sample :
    sampleRun.received ++ sampleRun.unread = [sampleChunk [2] false, sampleChunk [2] true] := by
  have hkeeps : sampleRun.KeepsUp := by
    refine ⟨by simp [sampleRun], fun n => ?_⟩
    refine le_trans ?_ (Nat.le_add_left _ _)
    refine (BoundedStream.upToLast_prefix _).length_le.trans ?_
    refine (List.length_filterMap_le _ _).trans ?_
    exact (List.length_take_le' _ _).trans (by decide)
  exact (streams_are_independent sampleRun).2.1 hkeeps

end Thicket.Net
