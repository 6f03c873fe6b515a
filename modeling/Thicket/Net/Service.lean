import Thicket.Lib.Linearizable
import Thicket.Net.Calls

/-!
# A server and its connections

Each connection of a server has a task of its own, and all the tasks call one handler. Where the
handler takes effect at one point, as under a lock on what it keeps, the server is an object that
carries out one request at a time, and every run of its connections is linearized by the requests in
the order in which they were handled. A handler that lets other tasks run between reading what it
keeps and writing it is not one of these.
-/

namespace Thicket.Net

open Cbor (Bytes)
open Result Serde

/-! ### One turn of a connection -/

namespace Exchange

variable {σ : Type} {crypto : Crypto} {serverId : LocalIdentity crypto}
  {handler : σ → Request → Reply × σ}

theorem Inv.withHandler {s : Exchange σ} (h : Inv serverId s) (state : σ) :
    Inv serverId { s with handler := state } :=
  ⟨h.numbered, h.distinct, h.pending, h.replies, h.returned, h.once, h.sent, h.down⟩

/-- A turn hands one request to the handler at most. -/
inductive Turn (handler : σ → Request → Reply × σ) (s : Exchange σ) : Exchange σ → Prop
  | nothing {t : Exchange σ} (hhandled : t.handled = s.handled) (hhandler : t.handler = s.handler)
      (hpeer : t.server.conn.peer = s.server.conn.peer) : Turn handler s t
  | handled {t : Exchange σ} (env : SignedEnvelope) (reply : Reply) (state : σ)
      (hreply : handler s.handler (.of s.server.conn.peer env) = (reply, state))
      (hhandled : t.handled = s.handled ++ [(env, reply)]) (hhandler : t.handler = state)
      (hpeer : t.server.conn.peer = s.server.conn.peer) : Turn handler s t

theorem turn_step (clientKey : WorkingKey crypto) (s : Exchange σ) (event : ExchangeEvent) :
    Turn handler s (s.step clientKey serverId handler event) := by
  cases event with
  | call payload =>
      change Turn _ s (s.begin clientKey payload)
      unfold Exchange.begin
      split <;> exact .nothing rfl rfl rfl
  | send call =>
      change Turn _ s (s.send call)
      unfold Exchange.send
      split
      · split <;> exact .nothing rfl rfl rfl
      · exact .nothing rfl rfl rfl
  | resume call =>
      change Turn _ s (s.resume call)
      unfold Exchange.resume
      split <;> exact .nothing rfl rfl rfl
  | timeout call =>
      change Turn _ s (s.timeout call)
      unfold Exchange.timeout
      split <;> exact .nothing rfl rfl rfl
  | arriveUp now =>
      change Turn _ s (s.arriveUp crypto now)
      unfold Exchange.arriveUp
      split
      · exact .nothing rfl rfl rfl
      · next blob up _ =>
          refine .nothing rfl rfl ?_
          rcases arrive_cases crypto s.server s.serverReads now blob with hsame | ⟨env, -, hroute⟩
          · exact congrArg (fun m => m.conn.peer) hsame
          · exact (congrArg (fun m => m.conn.peer) hroute).trans (s.server.conn.route_peer env)
  | arriveDown now =>
      change Turn _ s (s.arriveDown crypto now)
      unfold Exchange.arriveDown
      split <;> exact .nothing rfl rfl rfl
  | serve =>
      have hpeer := s.server.act_peer .recvRequest
      change Turn _ s (s.serve serverId handler)
      unfold Exchange.serve
      split
      · exact .nothing rfl rfl rfl
      · next env inbound _ =>
          split_ifs
          · exact .nothing rfl rfl hpeer
          · dsimp only
            rw [hpeer]
            cases hreply : handler s.handler (.of s.server.conn.peer env) with
            | mk reply state => exact .handled env reply state hreply rfl rfl hpeer

theorem Inv.handled_nodup {s : Exchange σ} (h : Inv serverId s) :
    (s.handled.map fun h => correlation h.1).Nodup := by
  have honce := h.once
  rw [flight, List.map_append, List.map_map] at honce
  exact (List.nodup_append.mp honce).1

theorem Inv.mem_keys_of_handled {s : Exchange σ} (h : Inv serverId s)
    {handled : SignedEnvelope × Reply} (hmem : handled ∈ s.handled) :
    correlation handled.1 ∈ s.keys := by
  obtain ⟨c, hc, hrequest, -⟩ := h.sent handled.1
    (List.mem_append_left _ (List.mem_map_of_mem hmem))
  rw [← hrequest]
  exact List.mem_map_of_mem hc

/-- What a call returned is the signed reply to its request. -/
theorem Inv.exists_handled {s : Exchange σ} (h : Inv serverId s) {c : Call} {env : SignedEnvelope}
    (hc : c ∈ s.calls) (hstate : c.state = .returned (.ok env)) :
    ∃ reply, (c.request, reply) ∈ s.handled ∧
      (reply.payload serverId.id c.request.payload).sign serverId.working = .ok env := by
  obtain ⟨call, hcall⟩ := List.getElem?_of_mem hc
  have hreturned :
      s.calls[call]? = some { request := c.request, state := .returned (.ok env) } := by
    rw [hcall, ← hstate]
  obtain ⟨c', hc', ⟨handled, reply⟩, hmem, hcorrelation, hsign⟩ :=
    h.returned call c.request env hreturned
  obtain rfl := Option.some.inj (hcall.symm.trans hc')
  -- The handled request is that of a call with this correlation, so it is this call's.
  obtain ⟨c', hc', hrequest, -⟩ :=
    h.sent handled (List.mem_append_left _ (List.mem_map_of_mem hmem))
  have hsame := h.eq_of_correlation hc' hc ((congrArg correlation hrequest).trans hcorrelation)
  rw [hsame] at hrequest
  change c.request = handled at hrequest
  rw [hrequest]
  exact ⟨reply, hmem, hsign⟩

end Exchange

/-! ### All connections -/

/-- A connection, and the key that its client signs with. -/
structure Line (crypto : Crypto) (σ : Type) where
  clientKey : WorkingKey crypto
  exchange : Exchange σ

/-- What changes the state that is shared: a request on a connection, for which the handler also
reads an input of its own, such as the time; or an operation of the host. -/
inductive Act (τ ω : Type) where
  | handle (conn : Nat) (input : τ) (request : Request)
  | own (op : ω)

structure Service (crypto : Crypto) (σ τ ω : Type) where
  state : σ
  lines : List (Line crypto σ)
  log : List (Act τ ω)

inductive ServiceEvent (crypto : Crypto) (τ ω : Type) where
  | connect (client server : VerifiedPeer) (clientKey : WorkingKey crypto)
  | line (conn : Nat) (input : τ) (event : ExchangeEvent)
  | own (op : ω)

/-- The call that an event registers. -/
def ServiceEvent.registers {crypto : Crypto} {τ ω : Type} :
    ServiceEvent crypto τ ω → Option (Nat × Bytes)
  | .line conn _ (.call payload) => some (conn, payload.correlation)
  | _ => none

namespace Service

variable {crypto : Crypto} {σ τ ω : Type}

def start (crypto : Crypto) (τ ω : Type) (state : σ) : Service crypto σ τ ω :=
  { state, lines := [], log := [] }

section

variable (serverId : LocalIdentity crypto) (handler : τ → σ → Request → Reply × σ)
  (apply : ω → σ → σ)

/-- A turn of a connection, at the state that the others have left. -/
def turn (self : Service crypto σ τ ω) (conn : Nat) (input : τ) (event : ExchangeEvent) :
    Service crypto σ τ ω :=
  match self.lines[conn]? with
  | none => self
  | some line =>
      let before := { line.exchange with handler := self.state }
      let after := before.step line.clientKey serverId (handler input) event
      { state := after.handler, lines := self.lines.set conn { line with exchange := after },
        log := self.log ++ (after.handled.drop before.handled.length).map fun h =>
          .handle conn input (.of before.server.conn.peer h.1) }

def step (self : Service crypto σ τ ω) : ServiceEvent crypto τ ω → Service crypto σ τ ω
  | .connect client server clientKey =>
      { self with lines := self.lines ++ [⟨clientKey, .new client server self.state⟩] }
  | .line conn input event => self.turn serverId handler conn input event
  | .own op => { self with state := apply op self.state, log := self.log ++ [.own op] }

/-- What is shared, as the object that it is to the callers. A call is named by its connection and
its correlation. -/
def object : SharedObject σ (Act τ ω) (Nat × Bytes) Request SignedEnvelope where
  act s
    | .handle _ input request => (handler input s request).2
    | .own op => apply op s
  call
    | .handle conn _ request => some (conn, Exchange.correlation request.envelope)
    | .own _ => none
  Answers s act request env := ∃ conn input, act = .handle conn input request ∧
    ((handler input s request).1.payload serverId.id request.envelope.payload).sign
      serverId.working = .ok env

end

def calls : Calls (Service crypto σ τ ω) (Nat × Bytes) Request SignedEnvelope where
  Began s k := ∃ line, s.lines[k.1]? = some line ∧ k.2 ∈ line.exchange.keys
  Returned s k request env := ∃ line c, s.lines[k.1]? = some line ∧ c ∈ line.exchange.calls ∧
    c.state = .returned (.ok env) ∧ Exchange.correlation c.request = k.2 ∧
    request = .of line.exchange.server.conn.peer c.request

/-! ### What is kept -/

variable {serverId : LocalIdentity crypto} {handler : τ → σ → Request → Reply × σ}
  {apply : ω → σ → σ} {initial : σ} {s : Service crypto σ τ ω}

/-- The act is what the handler did with a request of the connection. -/
def Handles (serverId : LocalIdentity crypto) (handler : τ → σ → Request → Reply × σ)
    (apply : ω → σ → σ) (initial : σ) (log : List (Act τ ω)) (conn : Nat) (peer : VerifiedPeer)
    (handled : SignedEnvelope × Reply) : Prop :=
  ∃ i input, log[i]? = some (.handle conn input (.of peer handled.1)) ∧
    (handler input ((object serverId handler apply).stateAt initial log i)
      (.of peer handled.1)).1 = handled.2

structure Inv (serverId : LocalIdentity crypto) (handler : τ → σ → Request → Reply × σ)
    (apply : ω → σ → σ) (initial : σ) (s : Service crypto σ τ ω) : Prop where
  state : s.state = Run.exec (object serverId handler apply).act initial s.log
  lines : ∀ (conn : Nat) (line : Line crypto σ), s.lines[conn]? = some line →
    Exchange.Inv serverId line.exchange
  handled : ∀ (conn : Nat) (line : Line crypto σ), s.lines[conn]? = some line →
    ∀ h ∈ line.exchange.handled,
      Handles serverId handler apply initial s.log conn line.exchange.server.conn.peer h
  called : ∀ k ∈ (object serverId handler apply).called s.log, ∃ line : Line crypto σ,
    s.lines[k.1]? = some line ∧ k.2 ∈ line.exchange.handled.map fun h => Exchange.correlation h.1
  once : ((object serverId handler apply).called s.log).Nodup

theorem inv_start (state : σ) : Inv serverId handler apply state (start crypto τ ω state) := by
  refine ⟨rfl, ?_, ?_, ?_, List.nodup_nil⟩
  · intro conn line h
    cases h
  · intro conn line h
    cases h
  · intro k hk
    cases hk

theorem Handles.append {log : List (Act τ ω)} {conn : Nat} {peer : VerifiedPeer}
    {h : SignedEnvelope × Reply} (hh : Handles serverId handler apply initial log conn peer h)
    (more : List (Act τ ω)) :
    Handles serverId handler apply initial (log ++ more) conn peer h := by
  obtain ⟨i, input, hi, hreply⟩ := hh
  have hlt := (List.getElem?_eq_some_iff.mp hi).1
  refine ⟨i, input, by rw [List.getElem?_append_left hlt, hi], ?_⟩
  rw [SharedObject.stateAt, List.take_append_of_le_length (Nat.le_of_lt hlt)]
  exact hreply

theorem Inv.connect (h : Inv serverId handler apply initial s) (client server : VerifiedPeer)
    (clientKey : WorkingKey crypto) : Inv serverId handler apply initial
      (s.step serverId handler apply (.connect client server clientKey)) := by
  have hnew {conn : Nat} {line : Line crypto σ}
      (hline : (s.lines ++ [⟨clientKey, .new client server s.state⟩])[conn]? = some line) :
      s.lines[conn]? = some line ∨ line.exchange = .new client server s.state := by
    rw [List.getElem?_append] at hline
    split_ifs at hline
    · exact Or.inl hline
    · obtain rfl := List.mem_singleton.mp (List.mem_of_getElem? hline)
      exact Or.inr rfl
  refine ⟨h.state, ?_, ?_, ?_, h.once⟩
  · intro conn line hline
    rcases hnew hline with hline | hline
    · exact h.lines conn line hline
    · rw [hline]
      exact Exchange.inv_new serverId client server s.state
  · intro conn line hline handled hmem
    rcases hnew hline with hline | hline
    · exact h.handled conn line hline handled hmem
    · rw [hline] at hmem
      cases hmem
  · intro k hk
    obtain ⟨line, hline, hmem⟩ := h.called k hk
    refine ⟨line, ?_, hmem⟩
    have hlt := (List.getElem?_eq_some_iff.mp hline).1
    show (s.lines ++ _)[k.1]? = _
    rw [List.getElem?_append_left hlt, hline]

theorem Inv.own (h : Inv serverId handler apply initial s) (op : ω) :
    Inv serverId handler apply initial (s.step serverId handler apply (.own op)) := by
  have hcalled : (object serverId handler apply).called (s.log ++ [.own op]) =
      (object serverId handler apply).called s.log := by
    rw [SharedObject.called_append]
    exact List.append_nil _
  refine ⟨?_, h.lines, ?_, ?_, ?_⟩
  · show apply op s.state = Run.exec _ _ (s.log ++ [.own op])
    rw [h.state, Run.exec_append]
    rfl
  · intro conn line hline handled hmem
    exact (h.handled conn line hline handled hmem).append _
  · intro k hk
    exact h.called k (hcalled ▸ hk)
  · exact hcalled ▸ h.once

section Turn

variable {conn : Nat} {line : Line crypto σ} {after : Exchange σ}

theorem getElem?_set_line (hline : s.lines[conn]? = some line) (conn' : Nat) :
    (s.lines.set conn { line with exchange := after })[conn']? =
      if conn' = conn then some { line with exchange := after } else s.lines[conn']? := by
  have hlt := (List.getElem?_eq_some_iff.mp hline).1
  rw [List.getElem?_set]
  by_cases hconn : conn = conn'
  · rw [if_pos hconn, if_pos hlt, if_pos hconn.symm]
  · rw [if_neg hconn, if_neg (Ne.symm hconn)]

theorem Inv.set_lines (h : Inv serverId handler apply initial s)
    (hline : s.lines[conn]? = some line) (hafter : Exchange.Inv serverId after) (conn' : Nat)
    (line' : Line crypto σ)
    (hline' : (s.lines.set conn { line with exchange := after })[conn']? = some line') :
    Exchange.Inv serverId line'.exchange := by
  rw [getElem?_set_line hline] at hline'
  split_ifs at hline'
  · obtain rfl := Option.some.inj hline'
    exact hafter
  · exact h.lines conn' line' hline'

/-- The calls that were carried out are on their connections. -/
theorem Inv.set_called (h : Inv serverId handler apply initial s)
    (hline : s.lines[conn]? = some line)
    (hhandled : line.exchange.handled ⊆ after.handled) {k : Nat × Bytes}
    (hk : k ∈ (object serverId handler apply).called s.log) :
    ∃ line' : Line crypto σ,
      (s.lines.set conn { line with exchange := after })[k.1]? = some line' ∧
        k.2 ∈ line'.exchange.handled.map fun h => Exchange.correlation h.1 := by
  obtain ⟨line', hline', hmem⟩ := h.called k hk
  by_cases hconn : k.1 = conn
  · rw [hconn, hline] at hline'
    obtain rfl := Option.some.inj hline'
    refine ⟨_, by rw [getElem?_set_line hline, if_pos hconn], ?_⟩
    exact List.map_subset _ hhandled hmem
  · exact ⟨line', by rw [getElem?_set_line hline, if_neg hconn, hline'], hmem⟩

/-- The requests that were handled are in a log that goes on, if those of the one line are. -/
theorem Inv.set_handled (h : Inv serverId handler apply initial s)
    (hline : s.lines[conn]? = some line) {log : List (Act τ ω)} (hlog : s.log <+: log)
    (hpeer : after.server.conn.peer = line.exchange.server.conn.peer)
    (hhandled : ∀ handled ∈ after.handled,
      Handles serverId handler apply initial log conn line.exchange.server.conn.peer handled)
    (conn' : Nat) (line' : Line crypto σ)
    (hline' : (s.lines.set conn { line with exchange := after })[conn']? = some line')
    (handled : SignedEnvelope × Reply) (hmem : handled ∈ line'.exchange.handled) :
    Handles serverId handler apply initial log conn' line'.exchange.server.conn.peer handled := by
  rw [getElem?_set_line hline] at hline'
  split_ifs at hline' with hconn
  · obtain rfl := Option.some.inj hline'
    rw [hconn, hpeer]
    exact hhandled handled hmem
  · obtain ⟨more, rfl⟩ := hlog
    exact (h.handled conn' line' hline' handled hmem).append more

theorem Inv.not_called (h : Inv serverId handler apply initial s)
    (hline : s.lines[conn]? = some line) {env : SignedEnvelope} {reply : Reply}
    (hnodup : ((line.exchange.handled ++ [(env, reply)]).map fun h =>
      Exchange.correlation h.1).Nodup) :
    (conn, Exchange.correlation env) ∉ (object serverId handler apply).called s.log := by
  intro hk
  obtain ⟨line', hline', hmem⟩ := h.called _ hk
  rw [hline] at hline'
  obtain rfl := Option.some.inj hline'
  rw [List.map_append] at hnodup
  exact List.disjoint_of_nodup_append hnodup hmem List.mem_cons_self

theorem Inv.idle (h : Inv serverId handler apply initial s) (hline : s.lines[conn]? = some line)
    (hafter : Exchange.Inv serverId after) (hhandled : after.handled = line.exchange.handled)
    (hpeer : after.server.conn.peer = line.exchange.server.conn.peer) :
    Inv serverId handler apply initial
      { s with lines := s.lines.set conn { line with exchange := after } } := by
  refine ⟨h.state, h.set_lines hline hafter, ?_, ?_, h.once⟩
  · apply h.set_handled hline List.prefix_rfl hpeer
    intro handled hmem
    exact h.handled conn line hline handled (hhandled ▸ hmem)
  · intro k hk
    exact h.set_called hline (hhandled ▸ List.Subset.refl _) hk

/-- The request that is handled is not one that was handled before. -/
theorem Inv.handle (h : Inv serverId handler apply initial s) (hline : s.lines[conn]? = some line)
    (hafter : Exchange.Inv serverId after) {input : τ} {env : SignedEnvelope} {reply : Reply}
    {state : σ} (hhandled : after.handled = line.exchange.handled ++ [(env, reply)])
    (hreply : handler input s.state (.of line.exchange.server.conn.peer env) = (reply, state))
    (hpeer : after.server.conn.peer = line.exchange.server.conn.peer) :
    Inv serverId handler apply initial
      { state, lines := s.lines.set conn { line with exchange := after },
        log := s.log ++ [.handle conn input (.of line.exchange.server.conn.peer env)] } := by
  have hcalled : (object serverId handler apply).called
      (s.log ++ [.handle conn input (.of line.exchange.server.conn.peer env)]) =
        (object serverId handler apply).called s.log ++ [(conn, Exchange.correlation env)] :=
    SharedObject.called_append
  refine ⟨?_, h.set_lines hline hafter, ?_, ?_, ?_⟩
  · rw [Run.exec_append, ← h.state]
    exact (congrArg Prod.snd hreply).symm
  · apply h.set_handled hline (List.prefix_append _ _) hpeer
    intro handled hmem
    rw [hhandled] at hmem
    rcases List.mem_append.mp hmem with hmem | hmem
    · exact (h.handled conn line hline handled hmem).append _
    · rw [List.mem_singleton.mp hmem]
      refine ⟨s.log.length, input, List.getElem?_concat_length, ?_⟩
      rw [SharedObject.stateAt, List.take_left, ← h.state]
      exact congrArg Prod.fst hreply
  · intro k hk
    rw [hcalled] at hk
    rcases List.mem_append.mp hk with hk | hk
    · exact h.set_called hline (hhandled ▸ List.subset_append_left _ _) hk
    · rw [List.mem_singleton.mp hk]
      refine ⟨_, by rw [getElem?_set_line hline, if_pos rfl], ?_⟩
      rw [hhandled, List.map_append]
      exact List.mem_append_right _ List.mem_cons_self
  · rw [hcalled]
    apply List.nodup_append.mpr ⟨h.once, List.nodup_singleton _, ?_⟩
    intro k hk k' hk' heq
    rw [List.mem_singleton.mp hk'] at heq
    exact h.not_called hline (hhandled ▸ hafter.handled_nodup) (heq ▸ hk)

end Turn

/-- A call is registered with a correlation that is new on its connection. -/
def Fresh (s : Service crypto σ τ ω) : ServiceEvent crypto τ ω → Prop
  | .line conn _ event => ∀ line, s.lines[conn]? = some line →
      Exchange.Fresh { line.exchange with handler := s.state } event
  | _ => True

theorem Inv.turn (h : Inv serverId handler apply initial s) {conn : Nat} {input : τ}
    {event : ExchangeEvent} (hfresh : s.Fresh (.line conn input event)) :
    Inv serverId handler apply initial (s.turn serverId handler conn input event) := by
  rw [Service.turn]
  cases hline : s.lines[conn]? with
  | none => exact h
  | some line =>
      let before : Exchange σ := { line.exchange with handler := s.state }
      have hafter : Exchange.Inv serverId
          (before.step line.clientKey serverId (handler input) event) :=
        ((h.lines conn line hline).withHandler s.state).step (hfresh line hline)
      dsimp only
      rcases Exchange.turn_step line.clientKey before event with
        ⟨hhandled, hhandler, hpeer⟩ | ⟨env, reply, state, hreply, hhandled, hhandler, hpeer⟩
      · rw [hhandled, List.drop_length, List.map_nil, List.append_nil, hhandler]
        exact h.idle hline hafter hhandled hpeer
      · rw [hhandled, List.drop_left, List.map_singleton, hhandler]
        exact h.handle hline hafter hhandled hreply hpeer

theorem Inv.step (h : Inv serverId handler apply initial s) {event : ServiceEvent crypto τ ω}
    (hfresh : s.Fresh event) :
    Inv serverId handler apply initial (s.step serverId handler apply event) := by
  cases event with
  | connect client server clientKey => exact h.connect client server clientKey
  | line conn input event => exact h.turn hfresh
  | own op => exact h.own op

/-! ### Runs -/

theorem Inv.logs (h : Inv serverId handler apply initial s) :
    Logs calls (object serverId handler apply) initial Service.log s := by
  refine ⟨?_, h.once, ?_⟩
  · intro k request env hk
    obtain ⟨line, c, hline, hc, hstate, hkey, rfl⟩ := hk
    obtain ⟨reply, hmem, hsign⟩ := (h.lines k.1 line hline).exists_handled hc hstate
    obtain ⟨i, input, hi, hreply⟩ := h.handled k.1 line hline _ hmem
    refine ⟨i, _, hi, congrArg (fun key => some (k.1, key)) hkey, k.1, input, rfl, ?_⟩
    rw [hreply]
    exact hsign
  · intro k hk
    obtain ⟨line, hline, hmem⟩ := h.called k hk
    obtain ⟨handled, hmem, hkey⟩ := List.mem_map.mp hmem
    exact ⟨line, hline, hkey ▸ (h.lines k.1 line hline).mem_keys_of_handled hmem⟩

/-- A request is handled with an input that suits the state. -/
def Suits (ok : σ → τ → Prop) (state : σ) : Act τ ω → Prop
  | .handle _ input _ => ok state input
  | .own _ => True

def Allows (ok : σ → τ → Prop) (s : Service crypto σ τ ω) : ServiceEvent crypto τ ω → Prop
  | .line _ input _ => ok s.state input
  | _ => True

/-- A step carries out the acts that it adds to the log. -/
theorem step_acts (s : Service crypto σ τ ω) (event : ServiceEvent crypto τ ω) :
    ∃ acts, (s.step serverId handler apply event).log = s.log ++ acts ∧
      (s.step serverId handler apply event).state =
        Run.exec (object serverId handler apply).act s.state acts ∧
      ∀ ok : σ → τ → Prop, s.Allows ok event →
        Run.EachStep (object serverId handler apply).act (Suits ok) s.state acts := by
  cases event with
  | connect client server clientKey => exact ⟨[], (List.append_nil _).symm, rfl, fun _ _ => trivial⟩
  | own op => exact ⟨[.own op], rfl, rfl, fun _ _ => ⟨trivial, trivial⟩⟩
  | line conn input event =>
      show ∃ acts, (s.turn serverId handler conn input event).log = _ ∧
        (s.turn serverId handler conn input event).state = _ ∧ _
      rw [turn]
      cases s.lines[conn]? with
      | none => exact ⟨[], (List.append_nil _).symm, rfl, fun _ _ => trivial⟩
      | some line =>
          refine ⟨_, rfl, ?_⟩
          dsimp only
          let before : Exchange σ := { line.exchange with handler := s.state }
          rcases Exchange.turn_step line.clientKey before event with
            ⟨hhandled, hhandler, -⟩ | ⟨env, reply, state, hreply, hhandled, hhandler, -⟩
          · rw [hhandled, List.drop_length, hhandler]
            exact ⟨rfl, fun _ _ => trivial⟩
          · rw [hhandled, List.drop_left, hhandler]
            exact ⟨(congrArg Prod.snd hreply).symm, fun _ hok => ⟨hok, trivial⟩⟩

theorem log_prefix_step (s : Service crypto σ τ ω) (event : ServiceEvent crypto τ ω) :
    s.log <+: (s.step serverId handler apply event).log := by
  obtain ⟨acts, hlog, -⟩ :=
    @step_acts crypto σ τ ω serverId handler apply s event
  rw [hlog]
  exact List.prefix_append _ _

theorem eachStep_log {ok : σ → τ → Prop} {events : List (ServiceEvent crypto τ ω)}
    (hstate : s.state = Run.exec (object serverId handler apply).act initial s.log)
    (hlog : Run.EachStep (object serverId handler apply).act (Suits ok) initial s.log)
    (hok : Run.EachStep (step serverId handler apply) (Allows ok) s events) :
    Run.EachStep (object serverId handler apply).act (Suits ok) initial
      (Run.exec (step serverId handler apply) s events).log := by
  induction events generalizing s with
  | nil => exact hlog
  | cons event events ih =>
      obtain ⟨acts, hacts, hnext, hallowed⟩ :=
        @step_acts crypto σ τ ω serverId handler apply s event
      apply ih _ _ hok.2
      · rw [hnext, hacts, Run.exec_append, hstate]
      · rw [hacts, Run.eachStep_append, ← hstate]
        exact ⟨hlog, hallowed ok hok.1⟩

/-- No call that is there is registered again. -/
def Unused (s : Service crypto σ τ ω) (events : List (ServiceEvent crypto τ ω)) : Prop :=
  ∀ (conn : Nat) (line : Line crypto σ), s.lines[conn]? = some line →
    ∀ key ∈ line.exchange.keys, (conn, key) ∉ events.filterMap ServiceEvent.registers

theorem Unused.fresh {event : ServiceEvent crypto τ ω} {events : List (ServiceEvent crypto τ ω)}
    (h : s.Unused (event :: events)) : s.Fresh event := by
  cases event with
  | connect client server clientKey => trivial
  | own op => trivial
  | line conn input event =>
      intro line hline
      cases event with
      | call payload =>
          intro hmem
          apply h conn line hline _ hmem
          exact List.mem_filterMap.mpr ⟨_, List.mem_cons_self, rfl⟩
      | _ => trivial

/-- The lines after an event on one of them. -/
theorem lines_turn {conn conn' : Nat} {input : τ} {event : ExchangeEvent} {line' : Line crypto σ}
    (hline' : (s.turn serverId handler conn input event).lines[conn']? = some line') :
    s.lines[conn']? = some line' ∨ ∃ line : Line crypto σ, conn' = conn ∧
      s.lines[conn]? = some line ∧ line'.exchange =
        ({ line.exchange with handler := s.state } : Exchange σ).step line.clientKey serverId
          (handler input) event := by
  rw [turn] at hline'
  cases hline : s.lines[conn]? with
  | none =>
      rw [hline] at hline'
      exact Or.inl hline'
  | some line =>
      rw [hline] at hline'
      dsimp only at hline'
      rw [getElem?_set_line hline] at hline'
      split_ifs at hline' with hconn
      · obtain rfl := Option.some.inj hline'
        exact Or.inr ⟨line, hconn, rfl, rfl⟩
      · exact Or.inl hline'

theorem Unused.step {event : ServiceEvent crypto τ ω} {events : List (ServiceEvent crypto τ ω)}
    (h : s.Unused (event :: events))
    (hdistinct : ((event :: events).filterMap ServiceEvent.registers).Nodup) :
    (s.step serverId handler apply event).Unused events := by
  have hrest : s.Unused events := by
    intro conn line hline key hkey hmem
    apply h conn line hline key hkey
    exact List.Sublist.subset (List.Sublist.filterMap _ (List.sublist_cons_self _ _)) hmem
  cases event with
  | own op => exact hrest
  | connect client server clientKey =>
      intro conn line hline key hkey
      change (s.lines ++ [_])[conn]? = some line at hline
      rw [List.getElem?_append] at hline
      split_ifs at hline
      · exact hrest conn line hline key hkey
      · rw [List.mem_singleton.mp (List.mem_of_getElem? hline)] at hkey
        cases hkey
  | line conn input event =>
      intro conn' line' hline' key hkey hmem
      rcases lines_turn hline' with hline' | ⟨line, rfl, hline, hafter⟩
      · exact hrest conn' line' hline' key hkey hmem
      rw [hafter] at hkey
      rcases Exchange.keys_step line.clientKey serverId (handler input)
        { line.exchange with handler := s.state } event with hsame | ⟨payload, rfl, hnew⟩
      · rw [hsame] at hkey
        exact hrest conn' line hline key hkey hmem
      · rw [hnew] at hkey
        rcases List.mem_append.mp hkey with hkey | hkey
        · exact hrest conn' line hline key hkey hmem
        · rw [List.mem_singleton.mp hkey] at hmem
          exact (List.nodup_cons.mp hdistinct).1 hmem

theorem eachStep_fresh {events : List (ServiceEvent crypto τ ω)} (h : s.Unused events)
    (hdistinct : (events.filterMap ServiceEvent.registers).Nodup) :
    Run.EachStep (step serverId handler apply) Fresh s events := by
  induction events generalizing s with
  | nil => trivial
  | cons event events ih =>
      refine ⟨h.fresh, ih (h.step hdistinct) ?_⟩
      exact hdistinct.sublist (List.Sublist.filterMap _ (List.sublist_cons_self _ _))

/-- What the server's log says of a run. -/
theorem inv_exec {events : List (ServiceEvent crypto τ ω)}
    (hdistinct : (events.filterMap ServiceEvent.registers).Nodup)
    {before after : List (ServiceEvent crypto τ ω)} (hevents : events = before ++ after) :
    Inv serverId handler apply initial
      (Run.exec (step serverId handler apply) (start crypto τ ω initial) before) := by
  have hbefore : (before.filterMap ServiceEvent.registers).Nodup := by
    rw [hevents, List.filterMap_append] at hdistinct
    exact (List.nodup_append.mp hdistinct).1
  have hunused : (start crypto τ ω initial).Unused before := by
    intro conn line hline
    cases hline
  exact Run.states_invariant (fun _ _ h hfresh => h.step hfresh) (inv_start initial)
    (eachStep_fresh hunused hbefore) _ Run.exec_mem_states

theorem linearization {events : List (ServiceEvent crypto τ ω)}
    (hdistinct : (events.filterMap ServiceEvent.registers).Nodup) :
    Linearization (step serverId handler apply) calls (object serverId handler apply)
      (start crypto τ ω initial) initial events
      (Run.exec (step serverId handler apply) (start crypto τ ω initial) events).log
      ((object serverId handler apply).position
        (Run.exec (step serverId handler apply) (start crypto τ ω initial) events).log) :=
  linearization_of_logs log_prefix_step fun _ _ hevents => (inv_exec hdistinct hevents).logs

end Service

open Service in
/-- **A server is linearizable** if its handler takes effect at one point, as one does that holds a
lock. Whatever its connections do and however they interleave, a call that has returned has got what
the handler replies when it is given one request after the other, in an order that agrees with the
order in which calls return and begin, and that has each request once at most; and the state that is
left is the one that the handler then leaves. -/
theorem service_linearizable {crypto : Crypto} {σ τ ω : Type} (serverId : LocalIdentity crypto)
    (handler : τ → σ → Request → Reply × σ) (apply : ω → σ → σ) (initial : σ)
    (events : List (ServiceEvent crypto τ ω))
    (hdistinct : (events.filterMap ServiceEvent.registers).Nodup) :
    ∃ acts position, Linearization (step serverId handler apply) calls
      (object serverId handler apply) (start crypto τ ω initial) initial events acts position ∧
        (Run.exec (step serverId handler apply) (start crypto τ ω initial) events).state =
          Run.exec (object serverId handler apply).act initial acts :=
  ⟨_, _, linearization hdistinct, (inv_exec hdistinct (List.append_nil events).symm).state⟩

/-! ### Two clients at once -/

def callerPeer (id : UInt8) (key : WorkingKey Crypto.checked) : VerifiedPeer :=
  { id := ⟨[id]⟩, workingPub := key.public, keyNotAfter := 100 }

/-- A call on a connection, up to where its request is in the server's queue. -/
def sampleCall (conn : Nat) : List (ServiceEvent Crypto.checked Unit Unit) :=
  [.line conn () (.call (sampleRequest [7])), .line conn () (.send 0),
   .line conn () (.arriveUp 10)]

/-- The rest of the call. -/
def sampleReturn (conn : Nat) : List (ServiceEvent Crypto.checked Unit Unit) :=
  [.line conn () .serve, .line conn () (.arriveDown 10), .line conn () (.resume 0)]

/-- The second client is served first. -/
def sampleService : List (ServiceEvent Crypto.checked Unit Unit) :=
  .connect (callerPeer 1 sampleClientKey) (callerPeer 2 sampleServerId.working) sampleClientKey ::
  .connect (callerPeer 1 sampleClientKey) (callerPeer 2 sampleServerId.working) sampleClientKey ::
    (sampleCall 0 ++ sampleCall 1 ++ sampleReturn 1 ++ sampleReturn 0)

def sampleHandler (_ : Unit) (n : Nat) (_ : Request) : Reply × Nat := (.ok [UInt8.ofNat n], n + 1)

def sampleApply (_ : Unit) (n : Nat) : Nat := n

theorem service_linearizable_two :
    (Run.exec (Service.step sampleServerId sampleHandler sampleApply)
      (Service.start Crypto.checked Unit Unit 0) sampleService).lines.map
        (fun line => line.exchange.calls.map fun c => c.state.body) = [[some [1]], [some [0]]] ∧
    ∃ acts position, Linearization (Service.step sampleServerId sampleHandler sampleApply)
      Service.calls (Service.object sampleServerId sampleHandler sampleApply)
      (Service.start Crypto.checked Unit Unit 0) 0 sampleService acts position ∧
        (Run.exec (Service.step sampleServerId sampleHandler sampleApply)
          (Service.start Crypto.checked Unit Unit 0) sampleService).state =
            Run.exec (Service.object sampleServerId sampleHandler sampleApply).act 0 acts :=
  ⟨by decide +kernel, service_linearizable _ _ _ _ _ (by decide)⟩

end Thicket.Net
