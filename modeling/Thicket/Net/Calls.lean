import Thicket.Net.Mux
import Thicket.Net.Server

/-!
# Calls against a server

The two ends of a connection: calls that register, send their request and wait, and a server that takes
one request after the other from its inbound queue. Messages stay in order on the way, but a request that
finds the queue full is dropped, as is a reply that comes too late.
-/

namespace Thicket.Net

open Cbor (Bytes)
open Result Serde

inductive CallState where
  | sending
  | waiting
  | returned (result : Except NetError SignedEnvelope)

/-- An invocation of `Conn::call` whose request is signed and registered. -/
structure Call where
  request : SignedEnvelope
  state : CallState

/-- Both ends of a connection, with the plaintext messages on their way up to the server and down from
it. The handler keeps a state of its own; `handled` holds what it was given and what it returned. -/
structure Exchange (σ : Type) where
  client : Mux
  clientReads : Bool
  calls : List Call
  up : List Bytes
  server : Mux
  serverReads : Bool
  handler : σ
  handled : List (SignedEnvelope × Reply)
  down : List Bytes

inductive ExchangeEvent where
  | call (payload : EnvelopePayload)
  | send (call : Nat)
  | resume (call : Nat)
  | timeout (call : Nat)
  | arriveUp (now : UInt64)
  | arriveDown (now : UInt64)
  | serve

namespace Exchange

variable {σ : Type} {crypto : Crypto}

/-- A connection between a client and a server, each as the other one knows it. -/
def new (client server : VerifiedPeer) (handler : σ) : Exchange σ :=
  { client := .established server, clientReads := true, calls := [], up := [],
    server := .established client, serverReads := true, handler, handled := [], down := [] }

section

variable (clientKey : WorkingKey crypto)

/-- The call is registered before its request is sent. -/
def begin (self : Exchange σ) (payload : EnvelopePayload) : Exchange σ :=
  match payload.sign clientKey with
  | .error _ => self
  | .ok request =>
      { self with client := self.client.act (.call payload.correlation),
                  calls := self.calls ++ [{ request, state := .sending }] }

end

def setState (self : Exchange σ) (call : Nat) (state : CallState) : Exchange σ :=
  { self with calls := self.calls.modify call fun c => { c with state } }

/-- `out_tx.send(to_cbor(&signed)?)` -/
def send (self : Exchange σ) (call : Nat) : Exchange σ :=
  match self.calls[call]? with
  | some { request, state := .sending } =>
      match intoWriter request with
      | none => self.setState call (.returned (.error .codec))
      | some blob => { self.setState call .waiting with up := self.up ++ [blob] }
  | _ => self

/-- The reply is there. -/
def resume (self : Exchange σ) (call : Nat) : Exchange σ :=
  match self.calls[call]?, self.client.conn.replies[call]? with
  | some { state := .waiting, .. }, some env => self.setState call (.returned (.ok env))
  | _, _ => self

def timeout (self : Exchange σ) (call : Nat) : Exchange σ :=
  match self.calls[call]? with
  | some { request, state := .waiting } =>
      { self.setState call (.returned (.error .timeout)) with
        client := self.client.act (.timeout request.payload.correlation) }
  | _ => self

section

variable (crypto)

/-- The reader of an end gets a message; it stops when the peer's key has expired. -/
def arrive (mux : Mux) (reads : Bool) (now : UInt64) (blob : Bytes) : Mux × Bool :=
  if reads then
    match mux.conn.onFrame crypto now (.ok blob) with
    | none => (mux, false)
    | some conn => ({ mux with conn }, true)
  else (mux, false)

def arriveUp (self : Exchange σ) (now : UInt64) : Exchange σ :=
  match self.up with
  | [] => self
  | blob :: up =>
      let (server, serverReads) := arrive crypto self.server self.serverReads now blob
      { self with up, server, serverReads }

def arriveDown (self : Exchange σ) (now : UInt64) : Exchange σ :=
  match self.down with
  | [] => self
  | blob :: down =>
      let (client, clientReads) := arrive crypto self.client self.clientReads now blob
      { self with down, client, clientReads }

end

section

variable (serverId : LocalIdentity crypto) (handler : σ → Request → Reply × σ)

/-- The bytes of a reply, if it can be signed and encoded. -/
def replyBytes (request : EnvelopePayload) (reply : Reply) : Option Bytes :=
  match (reply.payload serverId.id request).sign serverId.working with
  | .error _ => none
  | .ok signed => intoWriter signed

/-- One turn of `serve_conn`. -/
def serve (self : Exchange σ) : Exchange σ :=
  match self.server.conn.inbound.recv with
  | none => self
  | some (env, _) =>
      let self := { self with server := self.server.act .recvRequest }
      -- Events and cancels are not request and reply.
      if env.payload.typ ≠ .request then self
      else
        let (reply, state) := handler self.handler (.of self.server.conn.peer env)
        { self with handler := state, handled := self.handled ++ [(env, reply)],
                    down := self.down ++ (replyBytes serverId env.payload reply).toList }

end

variable (clientKey : WorkingKey crypto) (serverId : LocalIdentity crypto)
  (handler : σ → Request → Reply × σ)

def step (self : Exchange σ) : ExchangeEvent → Exchange σ
  | .call payload => self.begin clientKey payload
  | .send call => self.send call
  | .resume call => self.resume call
  | .timeout call => self.timeout call
  | .arriveUp now => self.arriveUp crypto now
  | .arriveDown now => self.arriveDown crypto now
  | .serve => self.serve serverId handler

/-- What the handler returns for requests that it is given one after the other. -/
def answers (peer : VerifiedPeer) (state : σ) (requests : List SignedEnvelope) :
    List Reply × σ :=
  requests.foldl (fun acc env =>
    let (reply, state) := handler acc.2 (.of peer env)
    (acc.1 ++ [reply], state)) ([], state)

/-- The requests that are on their way, in the server's queue or handled. -/
def flight (self : Exchange σ) : List SignedEnvelope :=
  self.handled.map Prod.fst ++
    (self.server.conn.inbound.unread ++ self.up.filterMap fromReader)

def correlation (env : SignedEnvelope) : Bytes := env.payload.correlation

/-- The correlations of the calls. -/
def keys (self : Exchange σ) : List Bytes := self.calls.map fun c => correlation c.request

/-! ### What is kept -/

/-- The call's reply is that of the handler for a request with its correlation. -/
def Answered (serverId : LocalIdentity crypto) (s : Exchange σ) (call : Nat) (env : SignedEnvelope) :
    Prop :=
  ∃ c, s.calls[call]? = some c ∧ ∃ h ∈ s.handled, correlation h.1 = correlation c.request ∧
    (h.2.payload serverId.id h.1.payload).sign serverId.working = .ok env

/-- The requests of the calls have different correlations, each is in one place at most once it is
sent, and what goes back to a call is the reply to its correlation. -/
structure Inv (serverId : LocalIdentity crypto) (s : Exchange σ) : Prop where
  numbered : s.client.nextId = s.calls.length
  distinct : s.keys.Nodup
  pending : ∀ (key : Bytes) (call : Nat), s.client.conn.pending[key]? = some call →
    ∃ c, s.calls[call]? = some c ∧ correlation c.request = key
  replies : ∀ (call : Nat) (env : SignedEnvelope), s.client.conn.replies[call]? = some env →
    Answered serverId s call env
  returned : ∀ (call : Nat) (request env : SignedEnvelope),
    s.calls[call]? = some { request, state := .returned (.ok env) } → Answered serverId s call env
  once : (s.flight.map correlation).Nodup
  sent : ∀ env ∈ s.flight, ∃ c ∈ s.calls, c.request = env ∧ c.state ≠ .sending
  down : ∀ blob ∈ s.down, ∃ h ∈ s.handled, replyBytes serverId h.1.payload h.2 = some blob

theorem inv_new (serverId : LocalIdentity crypto) (client server : VerifiedPeer) (handler : σ) :
    Inv serverId (new client server handler) := by
  refine ⟨rfl, List.nodup_nil, ?_, ?_, ?_, List.nodup_nil, ?_, ?_⟩
  · intro key call h
    change (∅ : HashMap Bytes Nat)[key]? = some call at h
    simp at h
  · intro call env h
    change (∅ : HashMap Nat SignedEnvelope)[call]? = some env at h
    simp at h
  · intro call request env h
    cases h
  · intro env h
    cases h
  · intro blob h
    cases h

variable {serverId : LocalIdentity crypto} {s : Exchange σ}

/-! ### The state of a call -/

theorem getElem?_setState (s : Exchange σ) (call k : Nat) (state : CallState) :
    (s.setState call state).calls[k]? =
      (s.calls[k]?).map fun c => if call = k then { c with state } else c := by
  change (s.calls.modify call _)[k]? = _
  rw [List.getElem?_modify]
  by_cases hk : call = k <;> simp [hk]

theorem map_request_setState (s : Exchange σ) (call : Nat) (state : CallState) :
    (s.setState call state).calls.map Call.request = s.calls.map Call.request := by
  apply List.ext_getElem?
  intro k
  rw [List.getElem?_map, List.getElem?_map, getElem?_setState, Option.map_map]
  congr 1
  funext c
  change Call.request (if call = k then _ else c) = c.request
  split_ifs <;> rfl

theorem keys_setState (s : Exchange σ) (call : Nat) (state : CallState) :
    (s.setState call state).keys = s.keys := by
  have hrequests := congrArg (List.map correlation) (map_request_setState s call state)
  rwa [List.map_map, List.map_map] at hrequests

/-- The calls with their requests are the same, and so is the log of the handler. -/
theorem Answered.mono {t : Exchange σ} {call : Nat} {env : SignedEnvelope}
    (hcalls : ∀ c, s.calls[call]? = some c → ∃ c', t.calls[call]? = some c' ∧
      c'.request = c.request)
    (hhandled : ∀ h ∈ s.handled, h ∈ t.handled) (h : Answered serverId s call env) :
    Answered serverId t call env := by
  obtain ⟨c, hc, handled, hmem, hcorrelation, hsign⟩ := h
  obtain ⟨c', hc', hrequest⟩ := hcalls c hc
  exact ⟨c', hc', handled, hhandled _ hmem, hrequest ▸ hcorrelation, hsign⟩

theorem exists_setState {k : Nat} {c : Call} (hc : s.calls[k]? = some c) (call : Nat)
    (state : CallState) :
    ∃ c', (s.setState call state).calls[k]? = some c' ∧ c'.request = c.request := by
  rw [getElem?_setState, hc]
  by_cases hk : call = k
  · exact ⟨{ c with state }, by simp [hk], rfl⟩
  · exact ⟨c, by simp [hk], rfl⟩

theorem Inv.setState (h : Inv serverId s) (call : Nat) {state : CallState}
    (hstate : state ≠ .sending)
    (hreturned : ∀ env, state = .returned (.ok env) → Answered serverId s call env) :
    Inv serverId (s.setState call state) := by
  have hmono : ∀ {k env}, Answered serverId s k env → Answered serverId (s.setState call state) k env :=
    fun hanswered => hanswered.mono (fun _ hc => exists_setState hc _ _) fun _ hh => hh
  refine ⟨?_, ?_, ?_, fun k env hk => hmono (h.replies k env hk), ?_, h.once, ?_, h.down⟩
  · have hlen := congrArg List.length (map_request_setState s call state)
    rw [List.length_map, List.length_map] at hlen
    exact h.numbered.trans hlen.symm
  · rw [keys_setState]
    exact h.distinct
  · intro key k hk
    obtain ⟨c, hc, hkey⟩ := h.pending key k hk
    obtain ⟨c', hc', hrequest⟩ := exists_setState hc call state
    exact ⟨c', hc', hrequest ▸ hkey⟩
  · intro k request env hk
    rw [getElem?_setState, Option.map_eq_some_iff] at hk
    obtain ⟨c, hc, heq⟩ := hk
    split_ifs at heq with hcall
    · subst hcall
      exact hmono (hreturned env (Call.mk.inj heq).2)
    · exact hmono (h.returned k request env (heq ▸ hc))
  · intro env henv
    obtain ⟨c, hc, hrequest, hsent⟩ := h.sent env henv
    obtain ⟨k, hk⟩ := List.mem_iff_getElem?.mp hc
    have hk' := getElem?_setState s call k state
    rw [hk] at hk'
    refine ⟨_, List.mem_of_getElem? hk', ?_, ?_⟩
    · change Call.request (if call = k then _ else c) = env
      split_ifs <;> exact hrequest
    · change Call.state (if call = k then _ else c) ≠ _
      split_ifs
      · exact hstate
      · exact hsent

/-! ### The client -/

theorem Inv.eq_of_correlation (h : Inv serverId s) {c c' : Call} (hc : c ∈ s.calls)
    (hc' : c' ∈ s.calls) (heq : correlation c.request = correlation c'.request) : c = c' :=
  List.inj_on_of_nodup_map h.distinct hc hc' heq

variable {clientKey : WorkingKey crypto}

theorem Inv.begin (h : Inv serverId s) {payload : EnvelopePayload}
    (hfresh : payload.correlation ∉ s.keys) : Inv serverId (s.begin clientKey payload) := by
  unfold Exchange.begin
  split
  · exact h
  · next request hsign =>
      have hcorrelation : correlation request = payload.correlation := by
        rw [correlation, EnvelopePayload.payload_of_sign hsign]
      have hold : ∀ {k : Nat} {c : Call}, s.calls[k]? = some c →
          (s.calls ++ [{ request, state := .sending }])[k]? = some c := by
        intro k c hc
        exact (List.getElem?_append_left (List.getElem?_eq_some_iff.mp hc).1).trans hc
      have hnew : (s.calls ++ [{ request, state := .sending }])[s.client.nextId]? =
          some { request, state := .sending } := by
        rw [h.numbered]
        exact List.getElem?_concat_length
      have hmono : ∀ {k env}, Answered serverId s k env → Answered serverId
          { s with client := s.client.act (.call payload.correlation),
                   calls := s.calls ++ [{ request, state := .sending }] } k env :=
        fun hanswered => hanswered.mono (fun c hc => ⟨c, hold hc, rfl⟩) fun _ hh => hh
      refine ⟨?_, ?_, ?_, fun k env hk => hmono (h.replies k env hk), ?_, h.once, ?_, h.down⟩
      · change s.client.nextId + 1 = (s.calls ++ [_]).length
        rw [h.numbered, List.length_append, List.length_singleton]
      · change ((s.calls ++ [_]).map _).Nodup
        rw [List.map_append, List.nodup_append]
        refine ⟨h.distinct, List.nodup_singleton _, ?_⟩
        intro a ha b hb hab
        rw [List.map_singleton, List.mem_singleton] at hb
        exact hfresh ((hab.trans (hb.trans hcorrelation)) ▸ ha)
      · intro key k hk
        change (s.client.conn.pending.insert payload.correlation s.client.nextId)[key]? = _ at hk
        rw [HashMap.getElem?_insert] at hk
        split_ifs at hk with hkey
        · rw [← Option.some.inj hk, hkey]
          exact ⟨_, hnew, hcorrelation⟩
        · obtain ⟨c, hc, hcorr⟩ := h.pending key k hk
          exact ⟨c, hold hc, hcorr⟩
      · intro k request' env hk
        rcases Nat.lt_or_ge k s.calls.length with hlt | hge
        · exact hmono (h.returned k request' env ((List.getElem?_append_left hlt).symm.trans hk))
        · have hmem := List.mem_of_getElem? ((List.getElem?_append_right hge).symm.trans hk)
          cases (Call.mk.inj (List.mem_singleton.mp hmem)).2
      · intro env henv
        obtain ⟨c, hc, hrequest, hsent⟩ := h.sent env henv
        exact ⟨c, List.mem_append_left _ hc, hrequest, hsent⟩

theorem Inv.send (h : Inv serverId s) (call : Nat) : Inv serverId (s.send call) := by
  unfold Exchange.send
  split
  · next request hcall =>
      split
      · apply h.setState call
        · intro heq
          cases heq
        · intro env heq
          cases heq
      · next blob hblob =>
          have hset : Inv serverId (s.setState call .waiting) := by
            apply h.setState call
            · intro heq
              cases heq
            · intro env heq
              cases heq
          have hflight : flight { s.setState call .waiting with up := s.up ++ [blob] } =
              s.flight ++ [request] := by
            change s.handled.map Prod.fst ++ (s.server.conn.inbound.unread ++
              (s.up ++ [blob]).filterMap fromReader) = _
            rw [List.filterMap_append, flight, List.append_assoc, List.append_assoc]
            simp [fromReader_intoWriter hblob]
          refine ⟨hset.numbered, hset.distinct, hset.pending, hset.replies, hset.returned, ?_, ?_,
            hset.down⟩
          · rw [hflight, List.map_append, List.nodup_append]
            refine ⟨h.once, List.nodup_singleton _, ?_⟩
            -- What is in flight was sent by a call that is not sending any more.
            intro a ha b hb hab
            obtain ⟨env, henv, rfl⟩ := List.mem_map.mp ha
            rw [List.map_singleton, List.mem_singleton] at hb
            obtain ⟨c, hc, rfl, hsent⟩ := h.sent env henv
            have hsame := h.eq_of_correlation hc (List.mem_of_getElem? hcall) (hab.trans hb)
            rw [hsame] at hsent
            exact hsent rfl
          · intro env henv
            rw [hflight] at henv
            rcases List.mem_append.mp henv with henv | henv
            · exact hset.sent env henv
            · have hwaiting := getElem?_setState s call call .waiting
              rw [hcall] at hwaiting
              refine ⟨_, List.mem_of_getElem? hwaiting, ?_, ?_⟩
              · simp [List.mem_singleton.mp henv]
              · simp
  · exact h

theorem Inv.resume (h : Inv serverId s) (call : Nat) : Inv serverId (s.resume call) := by
  unfold Exchange.resume
  split
  · next request env hcall hreply =>
      apply h.setState call
      · intro heq
        cases heq
      · intro env' heq
        cases heq
        exact h.replies call env hreply
  · exact h

theorem Inv.timeout (h : Inv serverId s) (call : Nat) : Inv serverId (s.timeout call) := by
  unfold Exchange.timeout
  split
  · next request hcall =>
      have hset : Inv serverId (s.setState call (.returned (.error .timeout))) := by
        apply h.setState call
        · intro heq
          cases heq
        · intro env heq
          cases heq
      refine ⟨hset.numbered, hset.distinct, ?_, hset.replies, hset.returned, hset.once, hset.sent,
        hset.down⟩
      intro key k hk
      change (s.client.conn.pending.erase request.payload.correlation)[key]? = _ at hk
      rw [HashMap.getElem?_erase] at hk
      split_ifs at hk
      exact hset.pending key k hk
  · exact h

/-! ### Arrivals -/

theorem arrive_cases (crypto : Crypto) (mux : Mux) (reads : Bool) (now : UInt64) (blob : Bytes) :
    (arrive crypto mux reads now blob).1 = mux ∨
      ∃ env, fromReader blob = some env ∧ (arrive crypto mux reads now blob).1 = mux.route env := by
  unfold arrive
  split_ifs
  · rcases mux.conn.onFrame_cases crypto now blob with
      hstop | hsame | ⟨env, hread, -, -, -, hroute⟩
    · rw [hstop]
      exact Or.inl rfl
    · rw [hsame]
      exact Or.inl rfl
    · rw [hroute]
      exact Or.inr ⟨env, hread, rfl⟩
  · exact Or.inl rfl

/-- A request reaches the server's queue or is dropped. -/
theorem Inv.arriveUp (h : Inv serverId s) (now : UInt64) :
    Inv serverId (s.arriveUp crypto now) := by
  unfold Exchange.arriveUp
  split
  · exact h
  · next blob up hup =>
      have hinbound : List.Sublist
          ((arrive crypto s.server s.serverReads now blob).1.conn.inbound.unread ++
            up.filterMap fromReader)
          (s.server.conn.inbound.unread ++ s.up.filterMap fromReader) := by
        rw [hup]
        rcases arrive_cases crypto s.server s.serverReads now blob with hsame | ⟨env, hread, hroute⟩
        · rw [hsame, List.filterMap_cons]
          apply List.Sublist.append_left
          split
          · exact List.Sublist.refl _
          · exact List.sublist_cons_self _ _
        · have hcons : (blob :: up).filterMap (fromReader (α := SignedEnvelope)) =
              env :: up.filterMap fromReader := by
            rw [List.filterMap_cons, hread]
          rw [hroute, hcons]
          rcases s.server.conn.route_inbound env with hdropped | hqueued
          · change List.Sublist ((s.server.conn.route env).inbound.unread ++ _) _
            rw [hdropped]
            exact (List.sublist_cons_self _ _).append_left _
          · change List.Sublist ((s.server.conn.route env).inbound.unread ++ _) _
            rw [hqueued, List.append_assoc]
            exact List.Sublist.refl _
      have hflight := hinbound.append_left (s.handled.map Prod.fst)
      refine ⟨h.numbered, h.distinct, h.pending, h.replies, h.returned, ?_, ?_, h.down⟩
      · exact h.once.sublist (hflight.map correlation)
      · intro env henv
        exact h.sent env (hflight.subset henv)

theorem replyBytes_eq_some {request : EnvelopePayload} {reply : Reply} {blob : Bytes} :
    replyBytes serverId request reply = some blob ↔ ∃ signed,
      (reply.payload serverId.id request).sign serverId.working = .ok signed ∧
        intoWriter signed = some blob := by
  unfold replyBytes
  split
  · next e he => simp [he]
  · next signed hsigned => simp [hsigned]

/-- A reply reaches the call that waits for its correlation, or nobody. -/
theorem Inv.arriveDown (h : Inv serverId s) (now : UInt64) :
    Inv serverId (s.arriveDown crypto now) := by
  unfold Exchange.arriveDown
  split
  · exact h
  · next blob down hdown =>
      have hrest : ∀ b ∈ down, ∃ handled ∈ s.handled,
          replyBytes serverId handled.1.payload handled.2 = some b :=
        fun b hb => h.down b (hdown ▸ List.mem_cons_of_mem _ hb)
      rcases arrive_cases crypto s.client s.clientReads now blob with hsame | ⟨env, hread, hroute⟩
      · simp only [hsame]
        exact ⟨h.numbered, h.distinct, h.pending, h.replies, h.returned, h.once, h.sent, hrest⟩
      · simp only [hroute]
        rcases s.client.conn.route_replies env with ⟨hpending, hreplies⟩ |
          ⟨call, hcall, hpending, hreplies⟩
        · refine ⟨h.numbered, h.distinct, ?_, ?_, h.returned, h.once, h.sent, hrest⟩
          · intro key k hk
            change (s.client.conn.route env).pending[key]? = _ at hk
            rw [hpending] at hk
            exact h.pending key k hk
          · intro k env' hk
            change (s.client.conn.route env).replies[k]? = _ at hk
            rw [hreplies] at hk
            exact h.replies k env' hk
        · refine ⟨h.numbered, h.distinct, ?_, ?_, h.returned, h.once, h.sent, hrest⟩
          · intro key k hk
            change (s.client.conn.route env).pending[key]? = _ at hk
            rw [hpending, HashMap.getElem?_erase] at hk
            split_ifs at hk
            exact h.pending key k hk
          · intro k env' hk
            change (s.client.conn.route env).replies[k]? = _ at hk
            rw [hreplies, HashMap.getElem?_insert] at hk
            split_ifs at hk with heq
            · -- The call waits for the correlation of the request that was answered.
              obtain rfl := Option.some.inj hk
              obtain ⟨handled, hmem, hbytes⟩ := h.down blob (hdown ▸ List.mem_cons_self)
              obtain ⟨signed, hsign, hwrite⟩ := replyBytes_eq_some.mp hbytes
              obtain rfl := Option.some.inj ((fromReader_intoWriter hwrite).symm.trans hread)
              obtain ⟨c, hc, hcorr⟩ := h.pending _ call hcall
              have hreply : correlation signed = correlation handled.1 := by
                rw [correlation, EnvelopePayload.payload_of_sign hsign,
                  Reply.payload_correlation, correlation]
              rw [heq]
              exact ⟨c, hc, handled, hmem, hreply.symm.trans hcorr.symm, hsign⟩
            · exact h.replies k env' hk

/-! ### The server -/

variable {handler : σ → Request → Reply × σ}

/-- The request at the head of the queue is handled or passed over. -/
theorem Inv.serve (h : Inv serverId s) : Inv serverId (s.serve serverId handler) := by
  unfold Exchange.serve
  split
  · exact h
  · next env inbound hrecv =>
      obtain ⟨unread, hunread, rfl⟩ := Channel.recv_eq_some.mp hrecv
      have hserver : (s.server.act .recvRequest).conn.inbound.unread = unread := by
        rw [Mux.act, hrecv]
      split_ifs
      · have hflight : List.Sublist
            (flight { s with server := s.server.act .recvRequest }) s.flight := by
          change List.Sublist (s.handled.map Prod.fst ++
            ((s.server.act .recvRequest).conn.inbound.unread ++ _)) (_ ++ _)
          rw [hserver, hunread]
          exact (List.sublist_cons_self _ _).append_left _
        refine ⟨h.numbered, h.distinct, h.pending, h.replies, h.returned, ?_, ?_, h.down⟩
        · exact h.once.sublist (hflight.map correlation)
        · intro env' henv
          exact h.sent env' (hflight.subset henv)
      · dsimp only
        generalize handler s.handler _ = result
        obtain ⟨reply, state⟩ := result
        let next : Exchange σ := { s with
          server := s.server.act .recvRequest, handler := state,
          handled := s.handled ++ [(env, reply)],
          down := s.down ++ (replyBytes serverId env.payload reply).toList }
        have hflight : next.flight = s.flight := by
          change (s.handled ++ [(env, reply)]).map Prod.fst ++
            ((s.server.act .recvRequest).conn.inbound.unread ++ _) = _ ++ _
          rw [hserver, hunread, List.map_append, List.append_assoc]
          rfl
        have hmono : ∀ {k env}, Answered serverId s k env → Answered serverId next k env :=
          fun hanswered => hanswered.mono (s := s) (fun c hc => ⟨c, hc, rfl⟩)
            fun _ hh => List.mem_append_left _ hh
        change Inv serverId next
        refine ⟨h.numbered, h.distinct, h.pending, fun k env hk => hmono (h.replies k env hk),
          fun k request env hk => hmono (h.returned k request env hk), ?_, ?_, ?_⟩
        · rw [hflight]
          exact h.once
        · rw [hflight]
          exact h.sent
        · intro blob hblob
          rcases List.mem_append.mp hblob with hblob | hblob
          · obtain ⟨handled, hmem, hbytes⟩ := h.down blob hblob
            exact ⟨handled, List.mem_append_left _ hmem, hbytes⟩
          · rw [Option.mem_toList] at hblob
            exact ⟨(env, reply), List.mem_append_right _ List.mem_cons_self, hblob⟩

/-! ### Runs -/

/-- A call is registered with a correlation of its own. -/
def Fresh (s : Exchange σ) : ExchangeEvent → Prop
  | .call payload => payload.correlation ∉ s.keys
  | _ => True

theorem Inv.step (h : Inv serverId s) {event : ExchangeEvent} (hfresh : s.Fresh event) :
    Inv serverId (s.step clientKey serverId handler event) := by
  cases event with
  | call payload => exact h.begin hfresh
  | send call => exact h.send call
  | resume call => exact h.resume call
  | timeout call => exact h.timeout call
  | arriveUp now => exact h.arriveUp now
  | arriveDown now => exact h.arriveDown now
  | serve => exact h.serve

theorem keys_begin (clientKey : WorkingKey crypto) (s : Exchange σ) (payload : EnvelopePayload) :
    (s.begin clientKey payload).keys = s.keys ∨
      (s.begin clientKey payload).keys = s.keys ++ [payload.correlation] := by
  unfold Exchange.begin
  split
  · exact Or.inl rfl
  · next request hsign =>
      right
      change (s.calls ++ [_]).map _ = _
      rw [List.map_append, List.map_singleton, correlation, EnvelopePayload.payload_of_sign hsign]
      rfl

theorem keys_step (clientKey : WorkingKey crypto) (serverId : LocalIdentity crypto)
    (handler : σ → Request → Reply × σ) (s : Exchange σ) (event : ExchangeEvent) :
    (s.step clientKey serverId handler event).keys = s.keys ∨ ∃ payload, event = .call payload ∧
      (s.step clientKey serverId handler event).keys = s.keys ++ [payload.correlation] := by
  cases event with
  | call payload =>
      rcases keys_begin clientKey s payload with hsame | hnew
      · exact Or.inl hsame
      · exact Or.inr ⟨payload, rfl, hnew⟩
  | send call =>
      left
      change (s.send call).keys = _
      unfold Exchange.send
      split
      · split
        · exact keys_setState s call _
        · exact keys_setState s call _
      · rfl
  | resume call =>
      left
      change (s.resume call).keys = _
      unfold Exchange.resume
      split
      · exact keys_setState s call _
      · rfl
  | timeout call =>
      left
      change (s.timeout call).keys = _
      unfold Exchange.timeout
      split
      · exact keys_setState s call _
      · rfl
  | arriveUp now =>
      left
      change (s.arriveUp crypto now).keys = _
      unfold Exchange.arriveUp
      split <;> rfl
  | arriveDown now =>
      left
      change (s.arriveDown crypto now).keys = _
      unfold Exchange.arriveDown
      split <;> rfl
  | serve =>
      left
      change (s.serve serverId handler).keys = _
      unfold Exchange.serve
      split
      · rfl
      · split_ifs <;> rfl

/-- The correlations of the calls of a run. -/
def correlations (events : List ExchangeEvent) : List Bytes :=
  events.filterMap fun
    | .call payload => some payload.correlation
    | _ => none

theorem eachStep_fresh {events : List ExchangeEvent} (hdistinct : (correlations events).Nodup)
    (hkeys : ∀ key ∈ s.keys, key ∉ correlations events) :
    Run.EachStep (step clientKey serverId handler) Fresh s events := by
  induction events generalizing s with
  | nil => trivial
  | cons event events ih =>
      have hrest : ∀ key ∈ correlations events, key ∈ correlations (event :: events) := by
        intro key hkey
        rw [correlations, List.filterMap_cons]
        split
        · exact hkey
        · exact List.mem_cons_of_mem _ hkey
      have htail : (correlations events).Nodup := by
        rw [correlations, List.filterMap_cons] at hdistinct
        split at hdistinct
        · exact hdistinct
        · exact (List.nodup_cons.mp hdistinct).2
      refine ⟨?_, ih htail ?_⟩
      · cases event with
        | call payload =>
            intro hmem
            exact hkeys _ hmem List.mem_cons_self
        | _ => trivial
      · intro key hkey hmem
        rcases keys_step clientKey serverId handler s event with hsame | ⟨payload, rfl, hnew⟩
        · rw [hsame] at hkey
          exact hkeys key hkey (hrest key hmem)
        · rw [hnew] at hkey
          rcases List.mem_append.mp hkey with hkey | hkey
          · exact hkeys key hkey (hrest key hmem)
          · rw [List.mem_singleton.mp hkey] at hmem
            exact (List.nodup_cons.mp hdistinct).1 hmem

/-- The replies are those of the handler, which the server's loop gives one request after the other. -/
structure Served (handler : σ → Request → Reply × σ) (peer : VerifiedPeer) (state : σ)
    (s : Exchange σ) : Prop where
  client : s.server.conn.peer = peer
  replies : answers handler peer state (s.handled.map Prod.fst) =
    (s.handled.map Prod.snd, s.handler)

variable {peer : VerifiedPeer} {state : σ}

theorem Served.step (h : Served handler peer state s) (event : ExchangeEvent) :
    Served handler peer state (s.step clientKey serverId handler event) := by
  cases event with
  | call payload =>
      change Served _ _ _ (s.begin clientKey payload)
      unfold Exchange.begin
      split
      · exact h
      · exact ⟨h.client, h.replies⟩
  | send call =>
      change Served _ _ _ (s.send call)
      unfold Exchange.send
      split
      · split
        · exact ⟨h.client, h.replies⟩
        · exact ⟨h.client, h.replies⟩
      · exact h
  | resume call =>
      change Served _ _ _ (s.resume call)
      unfold Exchange.resume
      split
      · exact ⟨h.client, h.replies⟩
      · exact h
  | timeout call =>
      change Served _ _ _ (s.timeout call)
      unfold Exchange.timeout
      split
      · exact ⟨h.client, h.replies⟩
      · exact h
  | arriveUp now =>
      change Served _ _ _ (s.arriveUp crypto now)
      unfold Exchange.arriveUp
      split
      · exact h
      · next blob up _ =>
          refine ⟨?_, h.replies⟩
          rcases arrive_cases crypto s.server s.serverReads now blob with hsame | ⟨env, -, hroute⟩
          · exact (congrArg (fun m => m.conn.peer) hsame).trans h.client
          · refine (congrArg (fun m => m.conn.peer) hroute).trans ?_
            exact (s.server.conn.route_peer env).trans h.client
  | arriveDown now =>
      change Served _ _ _ (s.arriveDown crypto now)
      unfold Exchange.arriveDown
      split
      · exact h
      · exact ⟨h.client, h.replies⟩
  | serve =>
      have hpeer := (s.server.act_peer .recvRequest).trans h.client
      change Served _ _ _ (s.serve serverId handler)
      unfold Exchange.serve
      split
      · exact h
      · next env inbound _ =>
          split_ifs
          · exact ⟨hpeer, h.replies⟩
          · dsimp only
            rw [hpeer]
            cases hreply : handler s.handler (.of peer env) with
            | mk reply next =>
                refine ⟨hpeer, ?_⟩
                have hbefore := h.replies
                change Exchange.answers handler peer state ((s.handled ++ [(env, reply)]).map _) =
                  ((s.handled ++ [(env, reply)]).map _, next)
                unfold Exchange.answers at hbefore ⊢
                rw [List.map_append, List.foldl_append, hbefore, List.map_append]
                simp [hreply]

/-- The correlation of an answer is that of the call it answers. -/
theorem correlation_of_answered {call : Nat} {env : SignedEnvelope}
    (h : Answered serverId s call env) : s.keys[call]? = some (correlation env) := by
  obtain ⟨c, hc, handled, -, hcorrelation, hsign⟩ := h
  have hkey : correlation c.request = correlation env := by
    rw [← hcorrelation, correlation, correlation, EnvelopePayload.payload_of_sign hsign,
      Reply.payload_correlation]
  rw [keys, List.getElem?_map, hc, ← hkey]
  rfl

theorem Inv.eq_of_answered (h : Inv serverId s) {call call' : Nat} {env : SignedEnvelope}
    (hcall : Answered serverId s call env) (hcall' : Answered serverId s call' env) :
    call = call' := by
  have hkey := correlation_of_answered hcall
  have hlt := (List.getElem?_eq_some_iff.mp hkey).1
  exact (List.getElem?_inj hlt h.distinct).mp (hkey.trans (correlation_of_answered hcall').symm)

end Exchange

open Exchange in
/-- **Calls never cross.** Under every schedule each request is handled at most once, and a call that
returns an envelope returns the signed reply of the handler to the call's own request, which no other
call gets. -/
theorem concurrent_calls_never_cross {σ : Type} {crypto : Crypto} (clientKey : WorkingKey crypto)
    (serverId : LocalIdentity crypto) (handler : σ → Request → Reply × σ)
    (client server : VerifiedPeer) (state : σ) (events : List ExchangeEvent)
    (hdistinct : (correlations events).Nodup) :
    ∀ s : Exchange σ,
      s ∈ Run.states (step clientKey serverId handler) (new client server state) events →
      (s.handled.map Prod.fst).Nodup ∧
      (∀ h ∈ s.handled, ∃ c ∈ s.calls, c.request = h.1) ∧
      answers handler client state (s.handled.map Prod.fst) =
        (s.handled.map Prod.snd, s.handler) ∧
      (∀ (call : Nat) (request env : SignedEnvelope),
        s.calls[call]? = some { request, state := .returned (.ok env) } →
        ∃ reply, (request, reply) ∈ s.handled ∧
          (reply.payload serverId.id request.payload).sign serverId.working = .ok env) ∧
      ∀ (call call' : Nat) (request request' env : SignedEnvelope),
        s.calls[call]? = some { request, state := .returned (.ok env) } →
        s.calls[call']? = some { request := request', state := .returned (.ok env) } →
        call = call' := by
  intro s hs
  have hfresh : Run.EachStep (step clientKey serverId handler) Fresh (new client server state)
      events := by
    apply eachStep_fresh hdistinct
    intro key hkey
    cases hkey
  have hinv : Inv serverId s := by
    exact Run.states_invariant (fun _ _ h hop => h.step hop) (inv_new serverId client server state)
      hfresh s hs
  have hserved : Served handler client state s := by
    exact Run.states_preserves (Served handler client state) (fun _ event h => h.step event)
      ⟨rfl, rfl⟩ events s hs
  have hhandled : ∀ h ∈ s.handled, ∃ c ∈ s.calls, c.request = h.1 := by
    intro h hh
    obtain ⟨c, hc, hrequest, -⟩ := hinv.sent h.1
      (List.mem_append_left _ (List.mem_map_of_mem hh))
    exact ⟨c, hc, hrequest⟩
  refine ⟨?_, hhandled, hserved.replies, ?_, ?_⟩
  · exact (List.Nodup.of_map _ hinv.once).sublist (List.sublist_append_left _ _)
  · intro call request env hcall
    obtain ⟨c, hc, ⟨handled, reply⟩, hmem, hcorrelation, hsign⟩ := hinv.returned call request env hcall
    obtain rfl := Option.some.inj (hcall.symm.trans hc)
    -- The handled request is that of a call with this correlation, so it is this call's.
    obtain ⟨c', hc', hrequest⟩ := hhandled _ hmem
    change c'.request = handled at hrequest
    have hsame := hinv.eq_of_correlation hc' (List.mem_of_getElem? hcall)
      ((congrArg correlation hrequest).trans hcorrelation)
    rw [hsame] at hrequest
    change request = handled at hrequest
    rw [hrequest]
    exact ⟨reply, hmem, hsign⟩
  · intro call call' request request' env hcall hcall'
    exact hinv.eq_of_answered (hinv.returned call request env hcall)
      (hinv.returned call' request' env hcall')

/-! ### Two calls at once -/

def sampleClientKey : WorkingKey Crypto.checked := ⟨(1 : UInt8)⟩

def sampleServerId : LocalIdentity Crypto.checked :=
  { id := ⟨[2]⟩, rootPublicKey := [], endorsements := [], working := ⟨(2 : UInt8)⟩ }

def sampleRequest (correlation : Bytes) : EnvelopePayload :=
  EnvelopePayload.base ⟨[1]⟩ ⟨[2]⟩ .request correlation

/-- The second call is sent first; the handler counts. -/
def sampleExchange : List ExchangeEvent :=
  [.call (sampleRequest [7]), .call (sampleRequest [8]), .send 1, .send 0, .arriveUp 10,
   .arriveUp 10, .serve, .serve, .arriveDown 10, .arriveDown 10, .resume 0, .resume 1]

def sampleEnd : Exchange Nat :=
  Run.exec (Exchange.step sampleClientKey sampleServerId fun n _ => (.ok [UInt8.ofNat n], n + 1))
    (Exchange.new { id := ⟨[1]⟩, workingPub := sampleClientKey.public, keyNotAfter := 100 }
      { id := ⟨[2]⟩, workingPub := sampleServerId.working.public, keyNotAfter := 100 } 0)
    sampleExchange

def CallState.body : CallState → Option Bytes
  | .returned (.ok env) => some env.payload.body
  | _ => none

theorem concurrent_calls_never_cross_counting :
    sampleEnd.calls.map (fun c => c.state.body) = [some [1], some [0]] ∧
      (sampleEnd.handled.map Prod.fst).Nodup := by
  refine ⟨by decide +kernel, ?_⟩
  exact (concurrent_calls_never_cross sampleClientKey sampleServerId _ _ _ 0 sampleExchange
    (by decide) sampleEnd Run.exec_mem_states).1

end Thicket.Net
