import Thicket.Net.Streams

/-!
# Where events go

"Events for topics with no subscriber fall through to `recv_request`." A subscription stays in the
table when its receiver is dropped, so from then on the topic's events are neither read nor fall
through, until somebody subscribes again.
-/

namespace Thicket.Net

open Cbor (Bytes)

/-- `env.payload.capability.clone().unwrap_or_default()` -/
def topicOf (env : SignedEnvelope) : String := env.payload.capability.getD ""

namespace Mux

/-- The receiver of the channel is there. -/
def Alive (s : Mux) (id : Nat) : Prop :=
  ∃ channel, s.conn.channels[id]? = some channel ∧ channel.isOpen = true

/-- The envelope is put into the channel, and dropped only if that is full. -/
inductive HandedTo (s : Mux) (env : SignedEnvelope) (id : Nat) : Mux → Prop
  | taken (channel : Channel) (hchannel : s.conn.channels[id]? = some channel)
      (hroom : channel.unread.length < channel.capacity) :
      HandedTo s env id
        { s with conn := { s.conn with
            channels := s.conn.channels.insert id
              { channel with unread := channel.unread ++ [env] } } }
  | full (channel : Channel) (hchannel : s.conn.channels[id]? = some channel)
      (hfull : channel.capacity ≤ channel.unread.length) : HandedTo s env id s

/-- The envelope is put into the inbound queue, and dropped only if that is full. -/
inductive Surfaced (s : Mux) (env : SignedEnvelope) : Mux → Prop
  | taken (hroom : s.conn.inbound.unread.length < s.conn.inbound.capacity) :
      Surfaced s env
        { s with conn := { s.conn with
            inbound := { s.conn.inbound with unread := s.conn.inbound.unread ++ [env] } } }
  | full (hfull : s.conn.inbound.capacity ≤ s.conn.inbound.unread.length) : Surfaced s env s

/-- If an event arrives for a topic whose current subscription has lost its receiver, the inbound
queue is full. -/
def NotLost (s : Mux) (event : MuxEvent) : Prop :=
  ∀ env, event = .route env → env.payload.typ = .event →
    ∀ id, s.conn.eventSubs[topicOf env]? = some id → ¬s.Alive id →
      s.conn.inbound.capacity ≤ s.conn.inbound.unread.length

variable {s : Mux} {env : SignedEnvelope} {id : Nat}

theorem surfaced_toInbound (hopen : s.conn.inbound.isOpen = true) :
    s.Surfaced env { s with conn := s.conn.toInbound env } := by
  by_cases hroom : s.conn.inbound.unread.length < s.conn.inbound.capacity
  · have htry : s.conn.inbound.trySend env =
        some { s.conn.inbound with unread := s.conn.inbound.unread ++ [env] } :=
      Channel.trySend_eq_some.mpr ⟨hopen, hroom, rfl⟩
    rw [Conn.toInbound, htry]
    exact .taken hroom
  · have htry : s.conn.inbound.trySend env = none := by
      rw [Option.eq_none_iff_forall_ne_some]
      intro sent hsent
      exact hroom (Channel.trySend_eq_some.mp hsent).2.1
    rw [Conn.toInbound, htry]
    exact .full (Nat.le_of_not_lt hroom)

theorem handedTo_toChannel {channel : Channel} (hchannel : s.conn.channels[id]? = some channel)
    (hopen : channel.isOpen = true) :
    s.HandedTo env id { s with conn := (s.conn.toChannel id env).getD s.conn } := by
  by_cases hroom : channel.unread.length < channel.capacity
  · have htry : channel.trySend env = some { channel with unread := channel.unread ++ [env] } :=
      Channel.trySend_eq_some.mpr ⟨hopen, hroom, rfl⟩
    rw [Conn.toChannel_eq_some.mpr ⟨channel, _, hchannel, htry, rfl⟩]
    exact .taken channel hchannel hroom
  · have hnone : s.conn.toChannel id env = none := by
      rw [Option.eq_none_iff_forall_ne_some]
      intro conn hsome
      obtain ⟨channel', sent, hchannel', htry, -⟩ := Conn.toChannel_eq_some.mp hsome
      obtain rfl := Option.some.inj (hchannel.symm.trans hchannel')
      exact hroom (Channel.trySend_eq_some.mp htry).2.1
    rw [hnone]
    exact .full channel hchannel (Nat.le_of_not_lt hroom)

theorem toChannel_of_not_alive (h : ¬s.Alive id) : s.conn.toChannel id env = none := by
  rw [Option.eq_none_iff_forall_ne_some]
  intro conn hsome
  obtain ⟨channel, sent, hchannel, htry, -⟩ := Conn.toChannel_eq_some.mp hsome
  exact h ⟨channel, hchannel, (Channel.trySend_eq_some.mp htry).1⟩

theorem route_event_some (htyp : env.payload.typ = .event)
    (hsub : s.conn.eventSubs[topicOf env]? = some id) :
    s.route env = { s with conn := (s.conn.toChannel id env).getD s.conn } := by
  rw [topicOf] at hsub
  simp only [Mux.route, Conn.route, htyp, hsub]

theorem route_event_none (htyp : env.payload.typ = .event)
    (hsub : s.conn.eventSubs[topicOf env]? = none) :
    s.route env = { s with conn := s.conn.toInbound env } := by
  rw [topicOf] at hsub
  simp only [Mux.route, Conn.route, htyp, hsub]

/-- An event goes to its topic's subscriber if that is there, and to the inbound queue otherwise. -/
structure Goes (s : Mux) (env : SignedEnvelope) (latest : Nat → Prop) : Prop where
  subscriber : ∀ id, latest id → s.Alive id → s.HandedTo env id (s.route env)
  otherwise : (∀ id, latest id → ¬s.Alive id) → s.Surfaced env (s.route env)

/-- What finds room in the inbound queue is put there. -/
theorem Surfaced.unread {next : Mux} (h : s.Surfaced env next)
    (hroom : s.conn.inbound.unread.length < s.conn.inbound.capacity) :
    next.conn.inbound.unread = s.conn.inbound.unread ++ [env] := by
  cases h with
  | taken _ => rfl
  | full hfull => omega

/-- The event goes where it should unless it is lost to a subscription without a receiver. -/
theorem goes_iff (hopen : s.conn.inbound.isOpen = true) (htyp : env.payload.typ = .event)
    {latest : Nat → Prop} (hlatest : ∀ id, latest id ↔ s.conn.eventSubs[topicOf env]? = some id) :
    s.Goes env latest ↔ s.NotLost (.route env) := by
  cases hsub : s.conn.eventSubs[topicOf env]? with
  | none =>
      have hroute := route_event_none htyp hsub
      have hnone : ∀ id, ¬latest id := by
        intro id hid
        exact absurd (hsub.symm.trans ((hlatest id).mp hid)) nofun
      refine iff_of_true ⟨fun id hid => absurd hid (hnone id), fun _ => ?_⟩ ?_
      · rw [hroute]
        exact surfaced_toInbound hopen
      · intro _ heq _ id hid
        obtain rfl := MuxEvent.route.inj heq
        exact absurd (hsub.symm.trans hid) nofun
  | some sub =>
      have hroute := route_event_some htyp hsub
      have hsame : ∀ id, latest id ↔ id = sub := by
        intro id
        rw [hlatest, hsub, Option.some.injEq, eq_comm]
      by_cases halive : s.Alive sub
      · refine iff_of_true ⟨?_, fun hdead => absurd halive (hdead sub ((hsame sub).mpr rfl))⟩ ?_
        · intro id hid _
          obtain rfl := (hsame id).mp hid
          obtain ⟨channel, hchannel, hreceiving⟩ := halive
          rw [hroute]
          exact handedTo_toChannel hchannel hreceiving
        · intro _ heq _ id hid hdead
          obtain rfl := MuxEvent.route.inj heq
          obtain rfl := Option.some.inj (hsub.symm.trans hid)
          exact absurd halive hdead
      · have hself : s.route env = s := by
          rw [hroute, toChannel_of_not_alive halive]
          rfl
        constructor
        · intro hgoes other heq _ id hid _
          obtain rfl := MuxEvent.route.inj heq
          have hsurfaced := hgoes.otherwise fun id hid => (hsame id).mp hid ▸ halive
          by_contra hroom
          have hunread := hsurfaced.unread (Nat.lt_of_not_le hroom)
          rw [hself] at hunread
          exact absurd hunread (by simp)
        · intro hnotLost
          refine ⟨fun id hid hreceiving => absurd ((hsame id).mp hid ▸ hreceiving) halive, fun _ => ?_⟩
          rw [hself]
          exact .full (hnotLost env rfl htyp sub hsub halive)

/-! ### In the order of arrival -/

/-- What was taken out of a channel and what is in it. -/
def got (s : Mux) (id : Nat) : List SignedEnvelope :=
  s.taken id ++ (s.conn.channels[id]?.map Channel.unread).getD []

/-- The same for the inbound queue. -/
def surfaced (s : Mux) : List SignedEnvelope := s.requests ++ s.conn.inbound.unread

theorem got_eq_of_same {next : Mux} (hchannel : next.conn.channels[id]? = s.conn.channels[id]?)
    (htaken : next.taken id = s.taken id) : next.got id = s.got id := by
  rw [got, got, hchannel, htaken]

theorem got_sublist_of_same {next : Mux}
    (hchannel : next.conn.channels[id]? = s.conn.channels[id]?)
    (htaken : next.taken id = s.taken id) : (next.got id).Sublist (s.got id) := by
  rw [got_eq_of_same hchannel htaken]

theorem got_of_channel {channel : Channel} (h : s.conn.channels[id]? = some channel) :
    s.got id = s.taken id ++ channel.unread := by
  rw [got, h]
  rfl

/-- The local side adds nothing to a channel. -/
theorem got_act (op : LocalOp) (hid : id < s.nextId) : ((s.act op).got id).Sublist (s.got id) := by
  have hnew (channel : Channel) : (s.conn.channels.insert s.nextId channel)[id]? =
      s.conn.channels[id]? := getElem?_insert_ne (by omega) channel
  cases op with
  | callStream other | subscribe other =>
      exact got_sublist_of_same (hnew _) rfl
  | recv n =>
      rw [act]
      split
      · exact List.Sublist.refl _
      · next env channel hrecv =>
          obtain ⟨before, hbefore, hrecv⟩ := Option.bind_eq_some_iff.mp hrecv
          obtain ⟨unread, hunread, rfl⟩ := Channel.recv_eq_some.mp hrecv
          have htaken := taken_append s id n env
          by_cases hn : n = id
          · subst hn
            rw [if_pos rfl] at htaken
            rw [got_of_channel (getElem?_insert_self _ _ _), got_of_channel hbefore, hunread]
            show (taken { s with received := s.received ++ [(n, env)] } n ++ unread).Sublist _
            rw [htaken, List.append_assoc]
            exact List.Sublist.refl _
          · rw [if_neg hn, List.append_nil] at htaken
            exact got_sublist_of_same (getElem?_insert_ne hn _) htaken
  | drop n =>
      rw [act]
      split
      · exact List.Sublist.refl _
      · next channel hchannel =>
          by_cases hn : n = id
          · subst hn
            rw [got_of_channel (getElem?_insert_self _ _ _), got_of_channel hchannel]
            exact List.Sublist.append_left (List.nil_sublist _) _
          · exact got_sublist_of_same (getElem?_insert_ne hn _) rfl
  | recvRequest =>
      rw [act]
      split <;> exact List.Sublist.refl _
  | _ => exact List.Sublist.refl _

theorem surfaced_act (op : LocalOp) : (s.act op).surfaced = s.surfaced := by
  cases op with
  | recvRequest =>
      rw [act]
      split
      · rfl
      · next env inbound hrecv =>
          obtain ⟨unread, hunread, rfl⟩ := Channel.recv_eq_some.mp hrecv
          rw [surfaced, surfaced, hunread]
          simp
  | recv n | drop n =>
      rw [act]
      split <;> rfl
  | _ => rfl

theorem surfaced_route (s : Mux) (env : SignedEnvelope) :
    ((s.route env).surfaced).Sublist (s.surfaced ++ [env]) := by
  rcases s.conn.route_inbound env with hsame | hmore
  · have heq : (s.route env).surfaced = s.surfaced := congrArg (s.requests ++ ·) hsame
    rw [heq]
    exact List.sublist_append_left _ _
  · have heq : (s.route env).surfaced = s.surfaced ++ [env] :=
      (congrArg (s.requests ++ ·) hmore).trans (List.append_assoc _ _ _).symm
    rw [heq]

/-- What is no event reaches only the channels of streams. -/
theorem channels_route_of_ne_event
    (hstream : ∀ correlation : Bytes, s.conn.streams[correlation]? ≠ some id)
    (htyp : env.payload.typ ≠ .event) :
    (s.route env).conn.channels[id]? = s.conn.channels[id]? := by
  show (s.conn.route env).channels[id]? = _
  cases hother : env.payload.typ with
  | event => exact absurd hother htyp
  | response | error =>
      cases hpending : s.conn.pending[env.payload.correlation]? <;>
        simp [Conn.route, hother, hpending]
  | streamChunk =>
      cases hopen : s.conn.streams[env.payload.correlation]? with
      | none =>
          simp only [Conn.route, hother, hopen]
          split_ifs <;> rfl
      | some sub =>
          have hne : sub ≠ id := by
            rintro rfl
            exact hstream _ hopen
          cases hsend : s.conn.toChannel sub env with
          | none => simp only [Conn.route, hother, hopen, hsend]
          | some conn =>
              obtain ⟨channel, sent, -, -, rfl⟩ := Conn.toChannel_eq_some.mp hsend
              simp only [Conn.route, hother, hopen, hsend]
              split_ifs
              · exact getElem?_insert_ne hne _
              · exact getElem?_insert_ne hne _
  | request | cancel => simp [Conn.route, hother, Conn.toInbound]

/-- A channel of a subscription to the topic, and of nothing else. -/
structure Serves (s : Mux) (topic : String) (id : Nat) : Prop where
  stream : ∀ correlation : Bytes, s.conn.streams[correlation]? ≠ some id
  eventSub : ∀ other : String, s.conn.eventSubs[other]? = some id → other = topic
  id : id < s.nextId

/-- The event, if it is one of the topic. -/
def arrival (topic : String) : MuxEvent → Option SignedEnvelope
  | .route env => if env.payload.typ = .event ∧ topicOf env = topic then some env else none
  | .act _ => none

theorem Serves.step {topic : String} (h : s.Serves topic id) (event : MuxEvent) :
    (s.step event).Serves topic id := by
  cases event with
  | route env =>
      refine ⟨?_, ?_, h.id⟩
      · intro correlation hstream
        rcases route_streams s env correlation with hsame | ⟨-, -, hnone⟩
        · exact h.stream correlation (hsame.symm.trans hstream)
        · exact absurd (hnone.symm.trans hstream) nofun
      · rw [show (s.step (.route env)).conn.eventSubs = s.conn.eventSubs from route_eventSubs s env]
        exact h.eventSub
  | act op =>
      have hfresh : s.nextId ≠ id := by
        have hid := h.id
        omega
      cases op with
      | callStream other =>
          refine ⟨?_, h.eventSub, Nat.lt_succ_of_lt h.id⟩
          intro correlation hstream
          change (s.conn.streams.insert other s.nextId)[correlation]? = some id at hstream
          rw [HashMap.getElem?_insert] at hstream
          split_ifs at hstream
          · exact hfresh (Option.some.inj hstream)
          · exact h.stream correlation hstream
      | subscribe other =>
          refine ⟨h.stream, ?_, Nat.lt_succ_of_lt h.id⟩
          intro other' hsub
          change (s.conn.eventSubs.insert other s.nextId)[other']? = some id at hsub
          rw [HashMap.getElem?_insert] at hsub
          split_ifs at hsub
          · exact absurd (Option.some.inj hsub) hfresh
          · exact h.eventSub other' hsub
      | call other => exact ⟨h.stream, h.eventSub, Nat.lt_succ_of_lt h.id⟩
      | timeout other => exact ⟨h.stream, h.eventSub, h.id⟩
      | recv n | drop n | recvRequest =>
          rw [Mux.step, act]
          split
          · exact h
          · exact ⟨h.stream, h.eventSub, h.id⟩

/-- Only events of its topic are put into a subscription's channel. -/
theorem Serves.got_route {topic : String} (h : s.Serves topic id) (env : SignedEnvelope) :
    (s.route env).got id = s.got id ∨
      env.payload.typ = .event ∧ topicOf env = topic ∧ (s.route env).got id = s.got id ++ [env] := by
  by_cases htyp : env.payload.typ = .event
  · cases hsub : s.conn.eventSubs[topicOf env]? with
    | none =>
        left
        rw [route_event_none htyp hsub]
        rfl
    | some sub =>
        rw [route_event_some htyp hsub]
        cases hsend : s.conn.toChannel sub env with
        | none => exact Or.inl rfl
        | some conn =>
            obtain ⟨channel, sent, hchannel, htry, rfl⟩ := Conn.toChannel_eq_some.mp hsend
            by_cases hid : sub = id
            · subst hid
              obtain ⟨-, -, rfl⟩ := Channel.trySend_eq_some.mp htry
              refine Or.inr ⟨htyp, h.eventSub _ hsub, ?_⟩
              rw [got_of_channel (getElem?_insert_self _ _ _), got_of_channel hchannel,
                List.append_assoc]
              rfl
            · exact Or.inl (got_eq_of_same (getElem?_insert_ne hid _) rfl)
  · exact Or.inl (got_eq_of_same (channels_route_of_ne_event h.stream htyp) rfl)

theorem Serves.got_step {topic : String} (h : s.Serves topic id) (event : MuxEvent) :
    ((s.step event).got id).Sublist (s.got id ++ (arrival topic event).toList) := by
  cases event with
  | route env =>
      rcases h.got_route env with hsame | ⟨htyp, htopic, hmore⟩
      · rw [show (s.step (.route env)).got id = s.got id from hsame]
        exact List.sublist_append_left _ _
      · rw [show (s.step (.route env)).got id = s.got id ++ [env] from hmore, arrival,
          if_pos ⟨htyp, htopic⟩]
        exact List.Sublist.refl _
  | act op =>
      exact (got_act op h.id).trans (List.sublist_append_left _ _)

/-! ### The inbound queue stays open -/

theorem inbound_step (event : MuxEvent) (h : s.conn.inbound.isOpen = true) :
    (s.step event).conn.inbound.isOpen = true := by
  cases event with
  | route env =>
      have hrouted := s.conn.routed env
      change (s.conn.route env).inbound.isOpen = true
      generalize s.conn.route env = conn at hrouted
      cases hrouted with
      | inbound inbound hsent =>
          obtain ⟨-, -, rfl⟩ := Channel.trySend_eq_some.mp hsent
          exact h
      | _ => exact h
  | act op =>
      cases op with
      | recvRequest =>
          rw [Mux.step, act]
          split
          · exact h
          · next env inbound hrecv =>
              obtain ⟨_, -, rfl⟩ := Channel.recv_eq_some.mp hrecv
              exact h
      | recv n | drop n =>
          rw [Mux.step, act]
          split <;> exact h
      | _ => exact h

end Mux

/-! ### Runs -/

theorem inbound_reached (peer : VerifiedPeer) (events : List MuxEvent) :
    (reached peer events).conn.inbound.isOpen = true :=
  Run.exec_preserves (fun s : Mux => s.conn.inbound.isOpen = true)
    (fun _ event h => Mux.inbound_step event h) rfl events

theorem numbered_reached (peer : VerifiedPeer) (events : List MuxEvent) :
    (reached peer events).Numbered :=
  Run.exec_preserves Mux.Numbered (fun _ event h => h.step event) (Mux.numbered_established peer)
    events

/-- The most recent subscription of the topic, with the number of its channel. -/
def Latest (peer : VerifiedPeer) (events : List MuxEvent) (topic : String) (id : Nat) : Prop :=
  ∃ before after, events = before ++ .act (.subscribe topic) :: after ∧
    .act (.subscribe topic) ∉ after ∧ id = (reached peer before).nextId

variable {peer : VerifiedPeer} {topic : String} {id : Nat}

/-- Where the last event of a run is in a split of it. -/
theorem split_concat {events before after : List MuxEvent} {last event : MuxEvent}
    (h : events ++ [last] = before ++ event :: after) :
    after = [] ∧ before = events ∧ event = last ∨
      ∃ after', after = after' ++ [last] ∧ events = before ++ event :: after' := by
  cases List.eq_nil_or_concat after with
  | inl hnil =>
      subst hnil
      obtain ⟨hbefore, hsame⟩ := List.append_inj' h rfl
      exact Or.inl ⟨rfl, hbefore.symm, (List.cons.inj hsame).1.symm⟩
  | inr hconcat =>
      obtain ⟨after', other, rfl⟩ := hconcat
      rw [List.concat_eq_append, ← List.cons_append, ← List.append_assoc] at h
      obtain ⟨hevents, hsame⟩ := List.append_inj' h rfl
      obtain rfl := (List.cons.inj hsame).1
      exact Or.inr ⟨after', List.concat_eq_append, hevents⟩

theorem latest_subscribe (events : List MuxEvent) :
    Latest peer (events ++ [.act (.subscribe topic)]) topic id ↔
      id = (reached peer events).nextId := by
  constructor
  · intro ⟨before, after, hevents, hlast, hid⟩
    rcases split_concat hevents with ⟨-, rfl, -⟩ | ⟨after', rfl, -⟩
    · exact hid
    · exact absurd (List.mem_append_right _ List.mem_cons_self) hlast
  · intro hid
    exact ⟨events, [], rfl, List.not_mem_nil, hid⟩

theorem latest_other {events : List MuxEvent} {event : MuxEvent}
    (hevent : event ≠ .act (.subscribe topic)) :
    Latest peer (events ++ [event]) topic id ↔ Latest peer events topic id := by
  constructor
  · intro ⟨before, after, hevents, hlast, hid⟩
    rcases split_concat hevents with ⟨-, -, hsame⟩ | ⟨after', rfl, hfront⟩
    · exact absurd hsame.symm hevent
    · exact ⟨before, after', hfront, fun hmem => hlast (List.mem_append_left _ hmem), hid⟩
  · intro ⟨before, after, hevents, hlast, hid⟩
    refine ⟨before, after ++ [event], by rw [hevents]; simp, ?_, hid⟩
    intro hmem
    cases List.mem_append.mp hmem with
    | inl hafter => exact hlast hafter
    | inr hsame => exact hevent (List.mem_singleton.mp hsame).symm

theorem eventSubs_step {s : Mux} {event : MuxEvent} (hevent : event ≠ .act (.subscribe topic)) :
    (s.step event).conn.eventSubs[topic]? = s.conn.eventSubs[topic]? := by
  cases event with
  | route env =>
      rw [show (s.step (.route env)).conn.eventSubs = s.conn.eventSubs from Mux.route_eventSubs s env]
  | act op =>
      cases op with
      | subscribe other =>
          have hother : topic ≠ other := by
            rintro rfl
            exact hevent rfl
          change (s.conn.eventSubs.insert other s.nextId)[topic]? = _
          rw [HashMap.getElem?_insert, if_neg hother]
      | recv n | drop n | recvRequest =>
          rw [Mux.step, Mux.act]
          split <;> rfl
      | _ => rfl

/-- The table holds the most recent subscription. -/
theorem latest_iff (events : List MuxEvent) :
    Latest peer events topic id ↔ (reached peer events).conn.eventSubs[topic]? = some id := by
  induction events using List.reverseRecOn with
  | nil =>
      refine iff_of_false ?_ ?_
      · intro ⟨before, after, hevents, _⟩
        simp at hevents
      · change ¬(∅ : HashMap String Nat)[topic]? = some id
        simp
  | append_singleton events event ih =>
      rw [reached_append]
      by_cases hevent : event = .act (.subscribe topic)
      · subst hevent
        rw [latest_subscribe]
        change _ ↔ ((reached peer events).conn.eventSubs.insert topic _)[topic]? = some id
        rw [HashMap.getElem?_insert, if_pos rfl, Option.some.injEq, eq_comm]
      · rw [latest_other hevent, eventSubs_step hevent, ih]

/-! ### What a receiver gets -/

/-- A subscription in a run. -/
structure Subscription where
  before : List MuxEvent
  topic : String
  after : List MuxEvent

namespace Subscription

variable (sub : Subscription)

def events : List MuxEvent := sub.before ++ .act (.subscribe sub.topic) :: sub.after

def channel (peer : VerifiedPeer) : Nat := (reached peer sub.before).nextId

/-- The connection when the subscription is made. -/
def start (peer : VerifiedPeer) : Mux := (reached peer sub.before).step (.act (.subscribe sub.topic))

/-- The events of the topic that arrive after the subscription. -/
def arrivals : List SignedEnvelope := sub.after.filterMap (Mux.arrival sub.topic)

theorem serves (peer : VerifiedPeer) : (sub.start peer).Serves sub.topic (sub.channel peer) := by
  have hnumbered := numbered_reached peer sub.before
  refine ⟨?_, ?_, Nat.lt_succ_self _⟩
  · intro correlation hstream
    exact absurd (hnumbered.streams correlation _ hstream) (Nat.lt_irrefl _)
  · intro other hsub
    change ((reached peer sub.before).conn.eventSubs.insert sub.topic _)[other]? = some _ at hsub
    rw [HashMap.getElem?_insert] at hsub
    split_ifs at hsub with hother
    · exact hother
    · exact absurd (hnumbered.eventSubs other _ hsub) (Nat.lt_irrefl _)

theorem got_start (peer : VerifiedPeer) : (sub.start peer).got (sub.channel peer) = [] := by
  have hnone := (numbered_reached peer sub.before).taken_nextId
  rw [Mux.got_of_channel (Mux.getElem?_insert_self _ _ Mux.newChannel)]
  show (reached peer sub.before).taken _ ++ [] = []
  rw [channel, hnone]
  rfl

end Subscription

theorem got_exec {s : Mux} (h : s.Serves topic id) (after : List MuxEvent) :
    ((Run.exec Mux.step s after).got id).Sublist
      (s.got id ++ after.filterMap (Mux.arrival topic)) := by
  induction after generalizing s with
  | nil => simp
  | cons event after ih =>
      have hrest := ih (h.step event)
      have hstep := (h.got_step event).append_right (after.filterMap (Mux.arrival topic))
      have hsame : s.got id ++ (event :: after).filterMap (Mux.arrival topic) =
          s.got id ++ (Mux.arrival topic event).toList ++ after.filterMap (Mux.arrival topic) := by
        rw [List.append_assoc]
        cases harrival : Mux.arrival topic event <;> simp [harrival]
      rw [Run.exec_cons, hsame]
      exact hrest.trans hstep

/-- A receiver gets events of its topic, in the order of their arrival. -/
theorem got_in_order (peer : VerifiedPeer) (sub : Subscription) :
    ((reached peer sub.events).got (sub.channel peer)).Sublist sub.arrivals := by
  have hreached : reached peer sub.events = Run.exec Mux.step (sub.start peer) sub.after := by
    rw [reached, Subscription.events, Run.exec_append]
    rfl
  have hgot := got_exec (sub.serves peer) sub.after
  rw [sub.got_start peer, List.nil_append] at hgot
  rw [hreached]
  exact hgot

/-- The envelope that arrives, if one does. -/
def MuxEvent.routed : MuxEvent → Option SignedEnvelope
  | .route env => some env
  | .act _ => none

/-- What comes out of the inbound queue is in the order of arrival as well. -/
theorem surfaced_in_order (peer : VerifiedPeer) (events : List MuxEvent) :
    ((reached peer events).surfaced).Sublist (events.filterMap MuxEvent.routed) := by
  induction events using List.reverseRecOn with
  | nil => exact List.nil_sublist _
  | append_singleton events event ih =>
      rw [reached_append, List.filterMap_append]
      cases event with
      | route env => exact (Mux.surfaced_route _ env).trans (ih.append_right _)
      | act op =>
          rw [show ((reached peer events).step (.act op)).surfaced = (reached peer events).surfaced
            from Mux.surfaced_act op]
          exact ih.trans (List.sublist_append_left _ _)

/-- **Which runs lose no event.** Every event goes to the receiver of the most recent subscription
of its topic or, without one, to the inbound queue, and each receiver gets its events in the order
of their arrival, if and only if no event arrives for a topic whose most recent subscription has
lost its receiver while there is room in the inbound queue. -/
theorem events_reach_receivers_iff (peer : VerifiedPeer) (events : List MuxEvent) :
    ((∀ front env rest, events = front ++ .route env :: rest → env.payload.typ = .event →
        (reached peer front).Goes env (Latest peer front (topicOf env))) ∧
      (∀ sub : Subscription, sub.events = events →
        ((reached peer events).got (sub.channel peer)).Sublist sub.arrivals) ∧
      ((reached peer events).surfaced).Sublist (events.filterMap MuxEvent.routed)) ↔
    Run.EachStep Mux.step Mux.NotLost (.established peer) events := by
  rw [Run.eachStep_iff_split]
  constructor
  · intro ⟨hgoes, _⟩ front event rest hevents env heq htyp
    obtain rfl := heq
    have hgoesHere := hgoes front env rest hevents htyp
    exact (Mux.goes_iff (inbound_reached peer front) htyp fun _ => latest_iff front).mp hgoesHere
      env rfl htyp
  · intro hall
    refine ⟨?_, ?_, surfaced_in_order peer events⟩
    · intro front env rest hevents htyp
      exact (Mux.goes_iff (inbound_reached peer front) htyp fun _ => latest_iff front).mpr
        (hall front (.route env) rest hevents)
    · intro sub hsub
      rw [← hsub]
      exact got_in_order peer sub

/-! ### A dropped receiver -/

def someone : VerifiedPeer := { id := ⟨[]⟩, workingPub := [], keyNotAfter := 0 }

def tick : SignedEnvelope :=
  { payload := { v := 1, fromId := ⟨[]⟩, toId := ⟨[]⟩, typ := .event, capability := some "ticks",
                 correlation := [], contentType := none, context := Context.empty, auth := none,
                 streamSeq := none, streamEnd := false, error := none, body := [], ext := ∅ },
    signerPub := [], signature := [] }

/-- Somebody subscribes and leaves, and an event arrives. -/
def abandoned : List MuxEvent := [.act (.subscribe "ticks"), .act (.drop 0), .route tick]

/-- The event is nowhere, though the inbound queue is empty. -/
theorem event_lost_to_dropped_receiver :
    ¬(∀ front env rest, abandoned = front ++ .route env :: rest → env.payload.typ = .event →
      (reached someone front).Goes env (Latest someone front (topicOf env))) ∧
    (reached someone abandoned).surfaced = [] ∧ (reached someone abandoned).got 0 = [] := by
  refine ⟨?_, by rfl, by rfl⟩
  intro h
  have hgoes := h [.act (.subscribe "ticks"), .act (.drop 0)] tick [] rfl rfl
  have hnotLost := (Mux.goes_iff (inbound_reached _ _) rfl fun _ => latest_iff _).mp hgoes
  have hdead : ¬(reached someone [.act (.subscribe "ticks"), .act (.drop 0)]).Alive 0 := by
    intro ⟨channel, hchannel, hopen⟩
    obtain rfl : Mux.newChannel.drop = channel := Option.some.inj hchannel
    cases hopen
  exact absurd (hnotLost tick rfl rfl 0 rfl hdead) (by decide)

end Thicket.Net
