import Thicket.Py.Client

/-!
# Recovery from dropped connections

A client writes to no connection that is closed. An operation that fails because a connection
dropped, an endpoint refused or another identity answered takes what it discovered out of the cache,
except in four cases: the directory connection is never given up, a `gather` that cannot open its
channel does not evict, and neither does a `call` to an endpoint where another identity answers or
that drops the connection during the handshake.
-/

namespace Thicket.Py.Client

open Cbor (Bytes)
open Raising

/-! ### What recovery is -/

/-- The operation failed because a connection dropped, an endpoint refused or another identity
answered. -/
def failedToReach : Except Exn Value → Bool
  | .error (.raised .os) | .error .wrongPeer | .error .cutOff => true
  | _ => false

/-- An operation of a run: whether the operation before it for the same kind and capability failed
to reach the fiber, what it sent, and whether no connection to the directory could be opened for it.
-/
structure Entry where
  owed : Bool
  sent : List Sent
  unreachable : Bool

/-- Nothing is sent on a closed connection, and a discovery that is owed is made over a live
connection to the directory. -/
def Entry.Recovers (entry : Entry) : Prop :=
  (∀ m ∈ entry.sent, m.closed = false) ∧
  (entry.owed = true → (∃ m ∈ entry.sent, m.search = true) ∨ entry.unreachable = true)

instance (entry : Entry) : Decidable entry.Recovers :=
  inferInstanceAs (Decidable (_ ∧ (_ → _)))

structure System where
  client : Client
  owed : String × String → Bool
  history : List Entry

def System.initial : System := { client := .initial, owed := fun _ => false, history := [] }

inductive Event where
  | drop (conns : List ConnId)
  | operate (op : Operation)

/-- The operation finds no directory connection and cannot open one. -/
def unreachable (self : Client) (op : Operation) : Bool :=
  (self.disc op.key).isNone && self.dc.isNone && op.directory.result matches .error _

def step (repr : String → String) (system : System) : Event → System
  | .drop conns => { system with client := system.client.drop conns }
  | .operate op =>
      let (result, client) := perform repr op { system.client with sent := [] }
      { client, owed := Function.update system.owed op.key (failedToReach result),
        history := { owed := system.owed op.key, sent := client.sent,
                     unreachable := unreachable system.client op } :: system.history }

def Recovers (system : System) : Prop := ∀ entry ∈ system.history, entry.Recovers

instance (system : System) : Decidable (Recovers system) :=
  inferInstanceAs (Decidable (∀ entry ∈ system.history, entry.Recovers))

/-! ### When a client recovers -/

/-- The fiber the operation goes to: the cached one, or the first hit of its search. -/
def target (self : Client) (op : Operation) : Option Target :=
  match self.disc op.key, op.search.result with
  | some target, _ => some target
  | none, .ok (.ok target :: _) => some target
  | none, _ => none

/-- The closed event is set by the time the operation looks for its channel. -/
def ClosesBefore (self : Client) (op : Operation) (conn : ConnId) : Prop :=
  self.closed conn = true ∨ self.disc op.key = none ∧
    (self.dc = none ∧ conn ∈ op.directory.closes ∨ conn ∈ op.search.closes)

/-- The operation has to open a channel to the fiber. -/
def Opens (self : Client) (op : Operation) (target : Target) : Prop :=
  ∀ conn, self.conns target.fiberId = some conn → self.ClosesBefore op conn

/-- Failures to open a channel that `except (ConnectionError, OSError)` does not catch. -/
def Uncaught (e : Exn) : Prop := e = .wrongPeer ∨ e = .cutOff

/-- The failures to open a channel after which the discovery stays cached. -/
def Keeps : Use → Exn → Prop
  | .call _, e => Uncaught e
  | .gather _, e => Uncaught e ∨ e = .raised .os

/-- A discovery that is needed finds the directory connection alive, and a channel that is needed is
not refused to a `gather`, answered by another identity or dropped during the handshake. -/
def Reaches (self : Client) (op : Operation) : Prop :=
  (self.disc op.key = none → ∀ dc, self.dc = some dc → self.closed dc = false) ∧
  ∀ t, self.target op = some t → self.Opens op t →
    ∀ e, op.channel.result = .error e → ¬Keeps op.use e

def Allowed (system : System) : Event → Prop
  | .drop _ => True
  | .operate op => system.client.Reaches op

/-! ### What the parts of an operation do -/

variable {repr : String → String} {op : Operation} {start : Client} {target : Target}

/-- What every part of an operation keeps, from the client it started with. -/
structure Frame (start : Client) (op : Operation) (client : Client) : Prop where
  sent : ∀ m ∈ client.sent, m.closed = false
  disc : ∀ key, key ≠ op.key → client.disc key = start.disc key

/-- The discovery that the operation owes has been made. -/
def Discovers (start : Client) (op : Operation) (self : Client) : Prop :=
  start.disc op.key = none → (∃ m ∈ self.sent, m.search = true) ∨ start.unreachable op = true

variable {client : Client}

theorem Frame.drop (h : Frame start op client) (conns : List ConnId) :
    Frame start op (client.drop conns) := ⟨h.sent, h.disc⟩

theorem Frame.update (h : Frame start op client) (entry : Option Target)
    (conns : Bytes → Option ConnId) :
    Frame start op { client with disc := Function.update client.disc op.key entry, conns } where
  sent := h.sent
  disc key hkey := by
    show Function.update client.disc op.key entry key = _
    rw [Function.update_of_ne hkey]
    exact h.disc key hkey

/-! Awaiting, connecting and sending keep what the closed events and the new connection keep. -/

theorem triple_awaiting {ε α : Type} {await : Await ε α} {raised : ε → Exn} {P : Client → Prop}
    (hdrop : ∀ client, P client → P (client.drop await.closes)) :
    Triple P (awaiting await raised) (fun a s => P s ∧ await.result = .ok a)
      (fun e s => P s ∧ ∃ e', await.result = .error e' ∧ raised e' = e) := by
  intro s h
  show Meets _ _ (await.result.mapError raised, s.drop await.closes)
  cases await.result with
  | ok a => exact ⟨hdrop s h, rfl⟩
  | error e => exact ⟨hdrop s h, e, rfl, rfl⟩

/-- The client after a connection was opened. -/
def withNew (client : Client) : Client :=
  { client with opened := client.opened + 1,
                closed := Function.update client.closed client.opened false }

theorem triple_connect (await : Await Exn Unit) {P : Client → Prop}
    (hdrop : ∀ client, P client → P (client.drop await.closes))
    (hopen : ∀ client, P client → P client.withNew) :
    Triple P (connect await) (fun conn s => P s ∧ s.closed conn = false)
      (fun e s => P s ∧ await.result = .error e) := by
  refine Triple.bind (Q := fun _ s => P s) ?_ fun _ => ?_
  · apply (triple_awaiting hdrop).weaken (fun _ h => h) (fun _ _ h => h.1)
    intro e s ⟨hs, e', hresult, he⟩
    exact ⟨hs, he ▸ hresult⟩
  · intro s hs
    show P s.withNew ∧ Function.update s.closed s.opened false s.opened = false
    exact ⟨hopen s hs, Function.update_self _ _ _⟩

theorem triple_request {α : Type} {conn : ConnId} {search : Bool} {await : Await Fault α}
    {P P' : Client → Prop}
    (hsend : ∀ client, P client → P'
      { client with sent := client.sent ++ [{ conn, search, closed := false }] })
    (hdrop : ∀ client, P' client → P' (client.drop await.closes)) :
    Triple (fun s => P s ∧ s.closed conn = false) (request conn search await)
      (fun a s => P' s ∧ await.result = .ok a)
      (fun e s => P' s ∧ ∃ fault, await.result = .error fault ∧ .raised fault = e) := by
  intro s ⟨hs, hopen⟩
  have hrun : request conn search await s = awaiting await .raised
      { s with sent := s.sent ++ [{ conn, search, closed := false }] } := by
    show (if s.closed conn = true then _ else _ : Code α) s = _
    rw [if_neg (by rw [hopen]; exact Bool.false_ne_true), ← hopen]
    rfl
  rw [hrun]
  exact triple_awaiting hdrop _ (hsend s hs)

/-! ### Discovery -/

/-- What holds until the operation looks for its channel. -/
structure Before (start : Client) (op : Operation) (client : Client) : Prop where
  frame : Frame start op client
  conns : client.conns = start.conns
  closed : ∀ conn, client.closed conn = true → start.ClosesBefore op conn

/-- What holds while a discovery is made. -/
structure Searching (start : Client) (op : Operation) (client : Client) : Prop
    extends Before start op client where
  missing : client.disc op.key = none

theorem Searching.drop {conns : List ConnId} (h : Searching start op client)
    (hconns : ∀ conn ∈ conns, start.ClosesBefore op conn) :
    Searching start op (client.drop conns) where
  frame := h.frame.drop conns
  conns := h.conns
  missing := h.missing
  closed conn hclosed := by
    rcases Bool.or_eq_true _ _ |>.mp hclosed with hclosed | hdropped
    · exact h.closed conn hclosed
    · exact hconns conn (List.contains_iff_mem.mp hdropped)

theorem closed_of_withNew {conn : ConnId} (h : client.withNew.closed conn = true) :
    client.closed conn = true := by
  by_cases hnew : conn = client.opened
  · subst hnew
    simp [withNew] at h
  · simpa [withNew, Function.update_of_ne hnew] using h

theorem Searching.withNew (h : Searching start op client) : Searching start op client.withNew where
  frame := ⟨h.frame.sent, h.frame.disc⟩
  conns := h.conns
  missing := h.missing
  closed conn hclosed := h.closed conn (closed_of_withNew hclosed)

theorem searching_start (hsent : start.sent = []) (hmissing : start.disc op.key = none) :
    Searching start op start where
  frame := ⟨by simp [hsent], fun _ _ => rfl⟩
  conns := rfl
  missing := hmissing
  closed _ hclosed := .inl hclosed

theorem triple_directory (hsent : start.sent = []) (hmissing : start.disc op.key = none)
    (hlive : ∀ dc, start.dc = some dc → start.closed dc = false) :
    Triple (fun s => s = start) (directory op)
      (fun dc s => Searching start op s ∧ s.closed dc = false)
      (fun _ s => Searching start op s ∧ start.unreachable op = true) := by
  intro s hs
  subst hs
  cases hdc : s.dc with
  | some dc =>
      rw [directory, read_bind, hdc]
      exact ⟨searching_start hsent hmissing, hlive dc hdc⟩
  | none =>
      rw [directory, read_bind, hdc]
      have hconnect := triple_connect op.directory (P := Searching s op)
        (fun client h => h.drop fun conn hconn => .inr ⟨hmissing, .inl ⟨hdc, hconn⟩⟩)
        (fun client h => h.withNew)
      refine Triple.bind hconnect (fun dc => ?_) |>.weaken (fun _ h => h) (fun _ _ h => h) ?_ s
        (searching_start hsent hmissing)
      · intro s' h
        obtain ⟨hs', hopen⟩ := h
        exact ⟨⟨⟨⟨hs'.frame.sent, hs'.frame.disc⟩, hs'.conns, hs'.closed⟩, hs'.missing⟩, hopen⟩
      · intro e s' h
        obtain ⟨hs', hresult⟩ := h
        refine ⟨hs', ?_⟩
        simp [unreachable, hmissing, hdc, hresult]

/-- The discovery that the operation may owe. -/
theorem Searching.send {conn : ConnId} (h : Searching start op client) : Searching start op
    { client with sent := client.sent ++ [{ conn, search := true, closed := false }] } ∧
    Discovers start op
      { client with sent := client.sent ++ [{ conn, search := true, closed := false }] } := by
  refine ⟨⟨⟨⟨fun m hm => ?_, h.frame.disc⟩, h.conns, h.closed⟩, h.missing⟩, fun _ => .inl ?_⟩
  · rcases List.mem_append.mp hm with hm | hm
    · exact h.frame.sent m hm
    · rw [List.mem_singleton.mp hm]
  · exact ⟨_, List.mem_append_right _ (List.mem_singleton_self _), rfl⟩

theorem triple_discover (repr : String → String) (hsent : start.sent = [])
    (hlive : start.disc op.key = none → ∀ dc, start.dc = some dc → start.closed dc = false) :
    Triple (fun s => s = start) (discover repr op)
      (fun t s => Before start op s ∧ start.target op = some t ∧ Discovers start op s)
      (fun _ s => Searching start op s ∧ Discovers start op s) := by
  intro s hs
  subst hs
  cases hcached : s.disc op.key with
  | some t =>
      rw [discover, read_bind, hcached]
      refine ⟨⟨⟨by simp [hsent], fun _ _ => rfl⟩, rfl, fun _ h => .inl h⟩, ?_, fun hnone => ?_⟩
      · rw [target, hcached]
      · rw [hnone] at hcached
        cases hcached
  | none =>
      rw [discover, read_bind, hcached]
      refine Triple.bind (triple_directory hsent hcached (hlive hcached) |>.weaken (fun _ h => h)
        (fun _ _ h => h) fun _ s' h => ⟨h.1, fun _ => .inr h.2⟩) (fun dc => ?_) s rfl
      have hrequest : Triple (fun s' => Searching s op s' ∧ s'.closed dc = false)
          (request dc true op.search)
          (fun hits s' => (Searching s op s' ∧ Discovers s op s') ∧ op.search.result = .ok hits)
          (fun _ s' => Searching s op s' ∧ Discovers s op s') := by
        refine (triple_request (fun _ h => h.send) fun client h => ?_).weaken (fun _ h => h)
          (fun _ _ h => h) fun _ _ h => h.1
        exact ⟨h.1.drop fun _ hconn => .inr ⟨hcached, .inr hconn⟩, h.2⟩
      refine Triple.bind hrequest fun hits => ?_
      intro s' h
      obtain ⟨⟨hs', hdiscovers⟩, hresult⟩ := h
      cases hits with
      | nil => exact ⟨hs', hdiscovers⟩
      | cons hit hits =>
          cases hit with
          | error fault => exact ⟨hs', hdiscovers⟩
          | ok t =>
              refine ⟨⟨hs'.frame.update (some t) s'.conns, hs'.conns, hs'.closed⟩, ?_, hdiscovers⟩
              rw [target, hcached, hresult]

/-! ### The rest of an operation -/

/-- What holds from then on. -/
structure After (start : Client) (op : Operation) (client : Client) : Prop where
  frame : Frame start op client
  discovers : Discovers start op client

theorem After.drop (h : After start op client) (conns : List ConnId) :
    After start op (client.drop conns) := ⟨h.frame.drop conns, h.discovers⟩

theorem After.withNew (h : After start op client) : After start op client.withNew :=
  ⟨⟨h.frame.sent, h.frame.disc⟩, h.discovers⟩

theorem After.setConns (h : After start op client) (conns : Bytes → Option ConnId) :
    After start op { client with conns } := ⟨⟨h.frame.sent, h.frame.disc⟩, h.discovers⟩

theorem After.send {conn : ConnId} (h : After start op client) : After start op
    { client with sent := client.sent ++ [{ conn, search := false, closed := false }] } := by
  refine ⟨⟨fun m hm => ?_, h.frame.disc⟩, fun hmissing => ?_⟩
  · rcases List.mem_append.mp hm with hm | hm
    · exact h.frame.sent m hm
    · rw [List.mem_singleton.mp hm]
  · rcases h.discovers hmissing with ⟨m, hm, hsearch⟩ | hunreachable
    · exact .inl ⟨m, List.mem_append_left _ hm, hsearch⟩
    · exact .inr hunreachable

/-- A cached channel is found alive, or a channel has to be opened. -/
theorem triple_live (t : Target) :
    Triple (fun s => Before start op s ∧ Discovers start op s) (live t.fiberId)
      (fun found s => After start op s ∧ (∀ conn, found = some conn → s.closed conn = false) ∧
        (found = none → start.Opens op t))
      (fun _ _ => False) := by
  intro s h
  obtain ⟨hs, hdiscovers⟩ := h
  have hafter : After start op s := ⟨hs.frame, hdiscovers⟩
  rw [live, read_bind]
  cases hconn : s.conns t.fiberId with
  | none =>
      refine ⟨hafter, by simp, fun _ conn hcached => ?_⟩
      rw [← hs.conns, hconn] at hcached
      cases hcached
  | some conn =>
      simp only
      split
      next hclosed =>
        refine ⟨hafter.setConns _, by simp, fun _ conn' hcached => ?_⟩
        rw [← hs.conns, hconn] at hcached
        obtain rfl := Option.some.inj hcached
        exact hs.closed conn hclosed
      next hopen =>
        refine ⟨hafter, fun conn' hfound => ?_, by simp⟩
        obtain rfl := Option.some.inj hfound
        simpa using hopen

/-- A failure to open a channel, where one has to be opened. -/
theorem triple_channel (t : Target) :
    Triple (fun s => Before start op s ∧ Discovers start op s) (channel op t)
      (fun conn s => After start op s ∧ s.closed conn = false)
      (fun e s => After start op s ∧ start.Opens op t ∧ op.channel.result = .error e) := by
  refine Triple.bind ((triple_live t).weaken (fun _ h => h) (fun _ _ h => h) fun _ _ h => h.elim)
    fun found => ?_
  cases found with
  | some conn =>
      intro s ⟨hs, hopen, _⟩
      exact ⟨hs, hopen conn rfl⟩
  | none =>
      intro s ⟨hs, _, hopens⟩
      have hconnect := triple_connect op.channel (P := After start op)
        (fun _ h => h.drop _) (fun _ h => h.withNew)
      refine Triple.bind (hconnect.weaken (fun _ h => h) (fun _ _ h => h)
        fun _ _ h => ⟨h.1, hopens rfl, h.2⟩) (fun conn => ?_) s hs
      exact fun s ⟨hs, hopen⟩ => ⟨hs.setConns _, hopen⟩

/-- What holds after an operation has raised: if it failed to reach the fiber, it left nothing to be
used instead of a discovery. -/
def Raised (start : Client) (op : Operation) (e : Exn) (client : Client) : Prop :=
  After start op client ∧
    (failedToReach (.error e) = true → client.disc op.key = none)

theorem triple_evicting {α : Type} (fiberId : Bytes) {code : Code α} {P : Client → Prop}
    {Q : α → Client → Prop}
    (h : Triple P code Q fun e s => After start op s ∧ ¬Uncaught e) :
    Triple P (evicting op fiberId code) Q (Raised start op) := by
  refine Triple.attempt h fun e => ?_
  intro s ⟨hs, hcaught⟩
  cases e with
  | wrongPeer => exact absurd (.inl rfl) hcaught
  | cutOff => exact absurd (.inr rfl) hcaught
  | thicketError code message => exact ⟨hs, Bool.noConfusion⟩
  | raised fault =>
      cases fault with
      | other => exact ⟨hs, Bool.noConfusion⟩
      | os =>
          refine ⟨⟨hs.frame.update none _, hs.discovers⟩, fun _ => ?_⟩
          show Function.update s.disc op.key none op.key = none
          exact Function.update_self _ _ _

theorem not_uncaught_raised (fault : Fault) : ¬Uncaught (.raised fault) := by
  rintro (h | h) <;> cases h

/-- The request on the channel, with its arguments encoded. -/
theorem triple_use {α : Type} (conn : ConnId) (await : Await Fault α) :
    Triple (fun s => After start op s ∧ s.closed conn = false)
      (encoded op.args >>= fun _ => request conn false await)
      (fun _ s => After start op s) (fun e s => After start op s ∧ ¬Uncaught e) := by
  refine Triple.bind (Q := fun _ s => After start op s ∧ s.closed conn = false) ?_ fun _ => ?_
  · intro s hs
    show Meets _ _ ((encodeBody op.args).mapError fun _ => Exn.raised .other, s)
    cases encodeBody op.args with
    | ok body => exact hs
    | error e => exact ⟨hs.1, not_uncaught_raised .other⟩
  · refine (triple_request (fun _ h => h.send) (fun _ h => h.drop _)).weaken (fun _ h => h)
      (fun _ _ h => h.1) ?_
    intro e s ⟨hs, fault, _, he⟩
    exact ⟨hs, he ▸ not_uncaught_raised fault⟩

/-- A search that fails has found nothing in the cache, and leaves it so. -/
theorem triple_discover_raised (repr : String → String) (hsent : start.sent = [])
    (hreaches : start.Reaches op) :
    Triple (fun s => s = start) (discover repr op)
      (fun t s => Before start op s ∧ start.target op = some t ∧ Discovers start op s)
      (Raised start op) := by
  apply (triple_discover repr hsent hreaches.1).weaken (fun _ h => h) (fun _ _ h => h)
  intro e s ⟨hs, hdiscovers⟩
  exact ⟨⟨hs.frame, hdiscovers⟩, fun _ => hs.missing⟩

theorem triple_call (repr : String → String) (hsent : start.sent = [])
    (hreaches : start.Reaches op) {reply : Await Fault ClientReply} (huse : op.use = .call reply) :
    Triple (fun s => s = start) (call repr op reply) (fun _ s => After start op s)
      (Raised start op) := by
  refine Triple.bind (triple_discover_raised repr hsent hreaches) fun t => ?_
  intro s ⟨hs, htarget, hdiscovers⟩
  have hchannel : Triple (fun s => Before start op s ∧ Discovers start op s) (channel op t)
      (fun conn s => After start op s ∧ s.closed conn = false)
      (fun e s => After start op s ∧ ¬Uncaught e) := by
    apply (triple_channel t).weaken (fun _ h => h) (fun _ _ h => h)
    intro e s ⟨hs, hopens, he⟩
    refine ⟨hs, fun huncaught => hreaches.2 t htarget hopens e he ?_⟩
    rw [huse]
    exact huncaught
  have hrequest := Triple.bind hchannel fun conn => triple_use conn reply
  refine Triple.bind (triple_evicting t.fiberId hrequest) (fun reply => ?_) s ⟨hs, hdiscovers⟩
  intro s hs
  cases reply with
  | error code message => exact ⟨hs, Bool.noConfusion⟩
  | body body => exact hs

theorem triple_gather (repr : String → String) (hsent : start.sent = [])
    (hreaches : start.Reaches op) {chunks : Await Fault (List Bytes)}
    (huse : op.use = .gather chunks) :
    Triple (fun s => s = start) (gather repr op chunks) (fun _ s => After start op s)
      (Raised start op) := by
  refine Triple.bind (triple_discover_raised repr hsent hreaches) fun t => ?_
  intro s ⟨hs, htarget, hdiscovers⟩
  have hchannel : Triple (fun s => Before start op s ∧ Discovers start op s) (channel op t)
      (fun conn s => After start op s ∧ s.closed conn = false) (Raised start op) := by
    apply (triple_channel t).weaken (fun _ h => h) (fun _ _ h => h)
    intro e s ⟨hs, hopens, he⟩
    have hkeeps := hreaches.2 t htarget hopens e he
    rw [huse] at hkeeps
    refine ⟨hs, fun hfailed => absurd ?_ hkeeps⟩
    match e with
    | .raised .os => exact .inr rfl
    | .wrongPeer => exact .inl (.inl rfl)
    | .cutOff => exact .inl (.inr rfl)
  refine Triple.bind hchannel (fun conn => ?_) s ⟨hs, hdiscovers⟩
  refine Triple.bind (triple_evicting t.fiberId (triple_use conn chunks)) fun bodies => ?_
  exact fun s hs => hs

theorem triple_perform (repr : String → String) (hsent : start.sent = [])
    (hreaches : start.Reaches op) :
    Triple (fun s => s = start) (perform repr op) (fun _ s => After start op s)
      (Raised start op) := by
  unfold perform
  cases huse : op.use with
  | call reply => exact triple_call repr hsent hreaches huse
  | gather chunks => exact triple_gather repr hsent hreaches huse

/-! ### Runs -/

variable {system : System}

/-- What is owed is not in the cache. -/
structure Recoverable (system : System) : Prop where
  recovers : Recovers system
  missing : ∀ key, system.owed key = true → system.client.disc key = none

theorem Recoverable.operate (repr : String → String) (h : Recoverable system)
    (hreaches : system.client.Reaches op) : Recoverable (step repr system (.operate op)) := by
  let start : Client := { system.client with sent := [] }
  have hstart : start.Reaches op := hreaches
  have hmeets := triple_perform repr rfl hstart start rfl
  have hstep : step repr system (.operate op) =
      { client := (perform repr op start).2,
        owed := Function.update system.owed op.key (failedToReach (perform repr op start).1),
        history := { owed := system.owed op.key, sent := (perform repr op start).2.sent,
                     unreachable := unreachable system.client op } :: system.history } := rfl
  rw [hstep]
  generalize perform repr op start = outcome at hmeets ⊢
  obtain ⟨result, client⟩ := outcome
  have hafter : After start op client ∧
      (failedToReach result = true → client.disc op.key = none) := by
    cases result with
    | error e => exact hmeets
    | ok value => exact ⟨hmeets, Bool.noConfusion⟩
  obtain ⟨⟨hframe, hdiscovers⟩, hmissing⟩ := hafter
  refine ⟨fun entry hentry => ?_, fun key howed => ?_⟩
  · rcases List.mem_cons.mp hentry with rfl | hentry
    · exact ⟨hframe.sent, fun howed => hdiscovers (h.missing _ howed)⟩
    · exact h.recovers entry hentry
  · by_cases hkey : key = op.key
    · subst hkey
      apply hmissing
      simpa using howed
    · rw [hframe.disc key hkey]
      apply h.missing
      simpa [Function.update_of_ne hkey] using howed

theorem Recoverable.drop (repr : String → String) (h : Recoverable system) (conns : List ConnId) :
    Recoverable (step repr system (.drop conns)) := ⟨h.recovers, h.missing⟩

/-- In a run in which every discovery finds the directory connection alive, no channel is refused to
a `gather` and no endpoint is answered by another identity or drops the connection during the
handshake, nothing is sent on a closed connection and every operation after a failure makes a fresh
discovery. -/
theorem client_recovers (repr : String → String) (events : List Event)
    (hallowed : Run.EachStep (step repr) Allowed System.initial events) :
    ∀ system ∈ Run.states (step repr) System.initial events, Recovers system := by
  have hinitial : Recoverable System.initial :=
    ⟨by simp [Recovers, System.initial], by simp [System.initial]⟩
  have hstep (system : System) (event : Event) (h : Recoverable system)
      (hevent : Allowed system event) : Recoverable (step repr system event) := by
    cases event with
    | drop conns => exact h.drop repr conns
    | operate op => exact h.operate repr hevent
  intro system hsystem
  exact (Run.states_invariant hstep hinitial hallowed system hsystem).recovers

/-! ### Runs that recover and runs that do not -/

def passing {ε α : Type} (a : α) : Await ε α := { closes := [], result := .ok a }

/-- An operation for a capability that one fiber serves. -/
def sampleOp (capability : String) (channel : Except Exn Unit) (use : Use) : Operation :=
  { kind := "tool", capability, args := .none, directory := passing (),
    search := passing [.ok { fiberId := [1], host := "127.0.0.1", port := 4001 }],
    channel := { closes := [], result := channel }, use }

def sampleCall (capability : String) (channel : Except Exn Unit) : Event :=
  .operate (sampleOp capability channel (.call (passing (.body []))))

def sampleGather (capability : String) (channel : Except Exn Unit) : Event :=
  .operate (sampleOp capability channel (.gather (passing [])))

def sampleRepr (s : String) : String := "'" ++ s ++ "'"

theorem reaches_call {self : Client} {capability : String} {channel : Except Exn Unit}
    (hlive : ∀ dc, self.dc = some dc → self.closed dc = false)
    (hpeer : channel ≠ .error .wrongPeer) (hcut : channel ≠ .error .cutOff) :
    self.Reaches (sampleOp capability channel (.call (passing (.body [])))) := by
  refine ⟨fun _ => hlive, fun t _ _ e he hkeeps => ?_⟩
  rcases hkeeps with rfl | rfl
  · exact hpeer he
  · exact hcut he

/-- A channel drops and its endpoint refuses; the call after that discovers anew. -/
def droppedChannel : List Event :=
  [sampleCall "add" (.ok ()), .drop [1], sampleCall "add" (.error (.raised .os)),
    sampleCall "add" (.ok ())]

theorem client_recovers_dropped :
    Run.EachStep (step sampleRepr) Allowed System.initial droppedChannel ∧
    ∀ system ∈ Run.states (step sampleRepr) System.initial droppedChannel, Recovers system := by
  have hlive {client : Client} (hdc : client.dc = some 0) (hopen : client.closed 0 = false) :
      ∀ dc, client.dc = some dc → client.closed dc = false := by
    intro dc h
    rw [hdc] at h
    obtain rfl := Option.some.inj h
    exact hopen
  have hallowed : Run.EachStep (step sampleRepr) Allowed System.initial droppedChannel := by
    refine ⟨?_, trivial, ?_, ?_, trivial⟩
    · exact reaches_call (fun dc h => by cases h) (by decide) (by decide)
    · exact reaches_call (hlive (by decide +kernel) (by decide +kernel)) (by decide) (by decide)
    · exact reaches_call (hlive (by decide +kernel) (by decide +kernel)) (by decide) (by decide)
  exact ⟨hallowed, client_recovers sampleRepr droppedChannel hallowed⟩

/-- The directory connection drops, and every discovery after that fails on it. A `gather` whose
endpoint refuses, or a call that another identity answers or whose connection drops during the
handshake, is repeated without a discovery. -/
theorem client_does_not_recover :
    (¬∀ system ∈ Run.states (step sampleRepr) System.initial
      [sampleCall "add" (.ok ()), .drop [0], sampleCall "mul" (.ok ()), sampleCall "mul" (.ok ())],
      Recovers system) ∧
    (¬∀ system ∈ Run.states (step sampleRepr) System.initial
      [sampleGather "add" (.error (.raised .os)), sampleGather "add" (.ok ())],
      Recovers system) ∧
    (¬∀ system ∈ Run.states (step sampleRepr) System.initial
      [sampleCall "add" (.error .wrongPeer), sampleCall "add" (.ok ())],
      Recovers system) ∧
    ¬∀ system ∈ Run.states (step sampleRepr) System.initial
      [sampleCall "add" (.error .cutOff), sampleCall "add" (.ok ())],
      Recovers system := by
  refine ⟨?_, ?_, ?_, ?_⟩ <;> decide +kernel

end Thicket.Py.Client
