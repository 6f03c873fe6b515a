import Thicket.Lib.Run
import Thicket.Py.Bodies
import Thicket.Py.Demux

/-!
# Gathering a stream

`Client.gather` of `thicket/app.py` over `Conn.call_stream`: the stream's queue is read until a
terminal payload, an error or the marker of the teardown. The marker ends the iteration like a
terminal payload does, so a stream that was cut off is returned as if it was complete; nothing else
is.
-/

namespace Thicket.Py

open Cbor (Bytes)

/-- `_decode`; `foreign` is what it makes of an object that is not a byte string. -/
def decodeValue (foreign : Value → Value) (body : Value) : Value :=
  if body.truthy then
    match body with
    | .bytes bs => decodeBody bs
    | body => foreign body
  else .none

namespace Payload

def isError (self : Payload) : Bool := (self.getD "typ" .none).eq (.str "Error")

/-- A single response, or an end-of-stream chunk. -/
def isTerminal (self : Payload) : Bool :=
  (self.getD "typ" .none).eq (.str "Response") ||
    (self.getD "typ" .none).eq (.str "StreamChunk") && (self.getD "stream_end" .none).truthy

/-- What is appended to the chunks: the decoded body, unless it is empty. -/
def chunk (foreign : Value → Value) (self : Payload) : List Value :=
  let body := self.getD "body" (.bytes [])
  if body.truthy then [decodeValue foreign body] else []

end Payload

def Value.asStr : Value → Option String
  | .str s => some s
  | _ => Option.none

/-- Texts are joined into one. -/
def joined (chunks : List Value) : Value :=
  match chunks.mapM Value.asStr with
  | some (text :: texts) => .str (String.join (text :: texts))
  | _ => .list chunks

inductive GatherError where
  | send
  | timeout
  | remote (message : Value)
  | other (e : Exc)

/-- What an error payload raises: a `ConnectionError` with its message, where it has that shape. -/
def Payload.remoteError (self : Payload) : GatherError :=
  match ((self.getD "error" .none).orElse (.dict [])).get (.str "message")
      (.str "remote error") with
  | .ok message => .remote message
  | .error e => .other e

inductive GatherPhase where
  | sending
  | receiving
  | returned (value : Value)
  | raised (e : GatherError)

def GatherPhase.runs : GatherPhase → Bool
  | .sending | .receiving => true
  | .returned _ | .raised _ => false

def GatherPhase.text : GatherPhase → Option String
  | .returned (.str s) => some s
  | _ => none

/-- A running `gather`, with the connection and the number of its stream's queue. `log` holds the
payloads that came for the stream. -/
structure Gather where
  demux : Demux
  queue : Nat
  log : List Payload
  chunks : List Value
  phase : GatherPhase

/-- `frame` is an authenticated payload that the reader gets, `close` the end of the connection for
any reason, `next` the consumption of an item of the queue. -/
inductive GatherEvent where
  | frame (payload : Payload)
  | close
  | sent
  | sendFails
  | next
  | timeout

/-- What `call_stream` starts from: an open connection, a correlation that no call waits under and a
new queue. -/
structure Opening (correlation : Bytes) where
  demux : Demux
  queue : Nat
  isOpen : demux.closed = false
  noCall : demux.pending[correlation]? = none
  fresh : ∀ other : Bytes, demux.streams[other]? ≠ some queue

namespace Gather

variable (foreign : Value → Value) (correlation : Bytes)

def start {correlation : Bytes} (opening : Opening correlation) : Gather :=
  { demux := { opening.demux with
      streams := opening.demux.streams.insert correlation opening.queue,
      queues := opening.demux.queues.insert opening.queue .empty },
    queue := opening.queue, log := [], chunks := [], phase := .sending }

/-- The queue of the stream is this one. -/
def setQueue (self : Gather) (queue : Queue) : Gather :=
  { self with demux := { self.demux with queues := self.demux.queues.insert self.queue queue } }

/-- The iteration ends, and with it the registration of the stream. -/
def finish (self : Gather) (phase : GatherPhase) : Gather :=
  { self with phase, demux := { self.demux with streams := self.demux.streams.erase correlation } }

/-- What is done with an item of the queue. -/
def consume (self : Gather) : Option Payload → Gather
  -- The connection was closed.
  | none => self.finish correlation (.returned (joined self.chunks))
  | some payload =>
      if payload.isError then self.finish correlation (.raised payload.remoteError)
      else
        let self := { self with chunks := self.chunks ++ payload.chunk foreign }
        if payload.isTerminal then self.finish correlation (.returned (joined self.chunks))
        else self

def next (self : Gather) : Gather :=
  match self.phase, self.demux.queues[self.queue]? with
  | .receiving, some { taken, unread := item :: unread } =>
      consume foreign correlation (self.setQueue { taken := taken ++ [item], unread }) item
  | _, _ => self

def frame (self : Gather) (payload : Payload) : Gather :=
  let isLogged := self.phase.runs && !self.demux.closed && Demux.Addressed correlation payload
  { self with demux := self.demux.receive payload,
              log := if isLogged then self.log ++ [payload] else self.log }

def step (self : Gather) : GatherEvent → Gather
  | .frame payload => self.frame correlation payload
  | .close => { self with demux := self.demux.teardown }
  | .sent =>
      match self.phase with
      | .sending => { self with phase := .receiving }
      | _ => self
  | .sendFails =>
      match self.phase with
      | .sending => self.finish correlation (.raised .send)
      | _ => self
  | .next => self.next foreign correlation
  | .timeout =>
      match self.phase with
      | .receiving => self.finish correlation (.raised .timeout)
      | _ => self

/-- A terminal payload came, and the value is made of the bodies of the payloads up to that one. -/
def CompleteValue (log : List Payload) (value : Value) : Prop :=
  ∃ before last after, log = before ++ last :: after ∧ last.isTerminal = true ∧
    (∀ p ∈ before, p.isTerminal = false ∧ p.isError = false) ∧
    value = joined ((before ++ [last]).flatMap (Payload.chunk foreign))

/-- What is returned is complete. -/
def Complete (self : Gather) : Prop :=
  ∀ value, self.phase = .returned value → CompleteValue foreign self.log value

/-- The next item of the queue is the marker of the teardown. -/
def AtMarker (self : Gather) : Prop :=
  self.phase = .receiving ∧ ∃ taken unread, self.demux.queues[self.queue]? =
    some { taken, unread := none :: unread }

/-- The marker is not taken for the end of the stream. -/
def Uncut (self : Gather) : GatherEvent → Prop
  | .next => ¬self.AtMarker
  | _ => True

/-- While it runs, the payloads that came are those that were taken and those that are in the queue,
in front of the marker if the connection is closed. -/
structure Tracks (s : Gather) (taken unread : List Payload) : Prop where
  serves : s.demux.Serves correlation s.queue
  log : s.log = taken ++ unread
  chunks : s.chunks = taken.flatMap (Payload.chunk foreign)
  goesOn : ∀ p ∈ taken, p.isTerminal = false ∧ p.isError = false
  queue : s.demux.queues[s.queue]? = some
    { taken := taken.map some, unread := unread.map some ++ if s.demux.closed then [none] else [] }

structure Inv (s : Gather) : Prop where
  tracks : s.phase.runs = true → ∃ taken unread, s.Tracks foreign correlation taken unread
  complete : s.Complete foreign

variable {foreign} {correlation} {self : Gather} {taken unread : List Payload}

theorem inv_start (opening : Opening correlation) : (start opening).Inv foreign correlation := by
  refine ⟨fun _ => ⟨[], [], ?_, rfl, rfl, List.forall_mem_nil _, ?_⟩, nofun⟩
  · refine ⟨?_, ?_, opening.noCall⟩
    · change (opening.demux.streams.insert correlation opening.queue)[correlation]? = _
      rw [HashMap.getElem?_insert, if_pos rfl]
      rfl
    · intro other hother
      change (opening.demux.streams.insert correlation opening.queue)[other]? = some opening.queue
        at hother
      rw [HashMap.getElem?_insert] at hother
      split_ifs at hother with heq
      · exact heq
      · exact absurd hother (opening.fresh other)
  · change (opening.demux.queues.insert opening.queue .empty)[opening.queue]? =
      some { taken := [], unread := [] ++ if opening.demux.closed then [none] else [] }
    rw [HashMap.getElem?_insert, if_pos rfl, opening.isOpen]
    rfl

/-- What has finished keeps what it returned. -/
theorem Inv.of_finished {s : Gather} (hruns : s.phase.runs = false) (h : s.Complete foreign) :
    s.Inv foreign correlation := by
  refine ⟨?_, h⟩
  intro hruns'
  exact absurd (hruns.symm.trans hruns') Bool.false_ne_true

theorem complete_of_runs (hruns : self.phase.runs = true) : self.Complete foreign := by
  intro value hvalue
  rw [hvalue] at hruns
  cases hruns

/-! ### The connection -/

theorem Tracks.frame (h : self.Tracks foreign correlation taken unread)
    (hruns : self.phase.runs = true) (payload : Payload) :
    ∃ unread, (self.frame correlation payload).Tracks foreign correlation taken unread := by
  unfold Gather.frame
  cases hclosed : self.demux.closed with
  | true =>
      refine ⟨unread, ?_⟩
      have hsame : self.demux.receive payload = self.demux := by
        rw [Demux.receive, hclosed]
        rfl
      have hlog : (self.phase.runs && !true && Demux.Addressed correlation payload) = false := by
        simp
      simp only [hsame, hlog, Bool.false_eq_true, if_false]
      exact h
  | false =>
      have hqueue := h.queue
      rw [hclosed] at hqueue
      obtain ⟨hserves, ⟨hopen, hput⟩ | ⟨hclosed', hnot, hput⟩⟩ :=
        h.serves.receive hqueue hclosed payload
      · rw [hruns]
        cases haddressed : Demux.Addressed correlation payload with
        | true =>
            rw [haddressed] at hput
            refine ⟨unread ++ [payload], hserves, ?_, h.chunks, h.goesOn, ?_⟩
            · change self.log ++ [payload] = taken ++ (unread ++ [payload])
              rw [h.log, List.append_assoc]
            · change (self.demux.receive payload).queues[self.queue]? = some { taken := _, unread :=
                _ ++ if (self.demux.receive payload).closed then [none] else [] }
              rw [hput, hopen]
              simp [Queue.put]
        | false =>
            rw [haddressed] at hput
            refine ⟨unread, hserves, h.log, h.chunks, h.goesOn, ?_⟩
            change (self.demux.receive payload).queues[self.queue]? = some { taken := _, unread :=
              _ ++ if (self.demux.receive payload).closed then [none] else [] }
            rw [hput, hopen]
            rfl
      · rw [hnot, Bool.and_false]
        refine ⟨unread, hserves, h.log, h.chunks, h.goesOn, ?_⟩
        change (self.demux.receive payload).queues[self.queue]? = some { taken := _, unread :=
          _ ++ if (self.demux.receive payload).closed then [none] else [] }
        rw [hput, hclosed']
        simp [Queue.put]

theorem Tracks.close (h : self.Tracks foreign correlation taken unread) :
    Tracks foreign correlation { self with demux := self.demux.teardown } taken unread := by
  cases hclosed : self.demux.closed with
  | true =>
      have hsame : self.demux.teardown = self.demux := by
        rw [Demux.teardown, hclosed]
        rfl
      rw [hsame]
      exact h
  | false =>
      have hqueue := h.queue
      rw [hclosed] at hqueue
      obtain ⟨hserves, hclosed', hput⟩ := h.serves.teardown hqueue hclosed
      refine ⟨hserves, h.log, h.chunks, h.goesOn, ?_⟩
      change self.demux.teardown.queues[self.queue]? = some { taken := _, unread :=
        _ ++ if self.demux.teardown.closed then [none] else [] }
      rw [hput, hclosed']
      simp [Queue.put]

/-! ### The next item -/

theorem next_of_queue {item : Option Payload} {before rest : List (Option Payload)}
    (hphase : self.phase = .receiving)
    (hqueue : self.demux.queues[self.queue]? = some { taken := before, unread := item :: rest }) :
    self.next foreign correlation = consume foreign correlation
      (self.setQueue { taken := before ++ [item], unread := rest }) item := by
  rw [next, hphase, hqueue]

/-- A payload is taken: it goes on, raises, or ends the stream. -/
theorem Tracks.consume {payload : Payload} (hphase : self.phase = .receiving)
    (h : self.Tracks foreign correlation taken (payload :: unread)) :
    (self.next foreign correlation).Inv foreign correlation := by
  rw [next_of_queue hphase h.queue]
  unfold Gather.consume
  dsimp only
  by_cases herror : payload.isError = true
  · rw [if_pos herror]
    exact Inv.of_finished rfl nofun
  by_cases hterminal : payload.isTerminal = true
  · rw [if_neg herror, if_pos hterminal]
    apply Inv.of_finished rfl
    intro value hvalue
    obtain rfl := GatherPhase.returned.inj hvalue
    refine ⟨taken, payload, unread, h.log, hterminal, h.goesOn, ?_⟩
    rw [List.flatMap_append, List.flatMap_singleton, ← h.chunks]
    rfl
  · rw [if_neg herror, if_neg hterminal]
    refine ⟨fun _ => ⟨taken ++ [payload], unread, ?_, ?_, ?_, ?_, ?_⟩, ?_⟩
    · exact ⟨h.serves.stream, h.serves.own, h.serves.noCall⟩
    · rw [List.append_assoc]
      exact h.log
    · rw [List.flatMap_append, List.flatMap_singleton, ← h.chunks]
      rfl
    · intro p hp
      rcases List.mem_append.mp hp with hp | hp
      · exact h.goesOn p hp
      · rw [List.mem_singleton.mp hp]
        exact ⟨Bool.eq_false_of_not_eq_true hterminal, Bool.eq_false_of_not_eq_true herror⟩
    · change (self.demux.queues.insert self.queue _)[self.queue]? = _
      rw [HashMap.getElem?_insert, if_pos rfl, List.map_append]
      rfl
    · apply complete_of_runs
      change self.phase.runs = true
      rw [hphase]
      rfl

/-- At the marker the chunks are returned although no terminal payload came. -/
theorem Tracks.not_complete (hphase : self.phase = .receiving)
    (h : self.Tracks foreign correlation taken []) (hclosed : self.demux.closed = true) :
    ¬(self.next foreign correlation).Complete foreign := by
  have hqueue := h.queue
  rw [hclosed] at hqueue
  rw [next_of_queue hphase hqueue]
  intro hcomplete
  obtain ⟨before, last, after, hlog, hterminal, -⟩ := hcomplete _ rfl
  have hmem : last ∈ taken := by
    have hlog' : taken ++ [] = before ++ last :: after := h.log.symm.trans hlog
    rw [List.append_nil] at hlog'
    rw [hlog']
    simp
  rw [(h.goesOn last hmem).1] at hterminal
  cases hterminal

theorem Tracks.atMarker_iff (hphase : self.phase = .receiving)
    (h : self.Tracks foreign correlation taken unread) :
    self.AtMarker ↔ unread = [] ∧ self.demux.closed = true := by
  rw [AtMarker, h.queue]
  constructor
  · rintro ⟨-, taken', unread', heq⟩
    have hunread := congrArg Queue.unread (Option.some.inj heq)
    dsimp only at hunread
    cases unread with
    | cons p unread => cases hunread
    | nil =>
        refine ⟨rfl, ?_⟩
        by_contra hopen
        rw [if_neg hopen] at hunread
        cases hunread
  · rintro ⟨rfl, hclosed⟩
    refine ⟨hphase, taken.map some, [], ?_⟩
    rw [hclosed]
    rfl

theorem Inv.next_iff (h : self.Inv foreign correlation) :
    ((self.next foreign correlation).Complete foreign ↔ ¬self.AtMarker) ∧
      (¬self.AtMarker → (self.next foreign correlation).Inv foreign correlation) := by
  by_cases hphase : self.phase = .receiving
  · obtain ⟨taken, unread, htracks⟩ := h.tracks (by rw [hphase]; rfl)
    rw [htracks.atMarker_iff hphase]
    cases unread with
    | cons p unread =>
        have hinv := htracks.consume hphase
        exact ⟨iff_of_true hinv.complete nofun, fun _ => hinv⟩
    | nil =>
        cases hclosed : self.demux.closed with
        | true =>
            have hnot := htracks.not_complete hphase hclosed
            exact ⟨iff_of_false hnot (not_not.mpr ⟨rfl, rfl⟩), fun hneg => absurd ⟨rfl, rfl⟩ hneg⟩
        | false =>
            have hsame : self.next foreign correlation = self := by
              rw [next, hphase, htracks.queue, hclosed]
              rfl
            rw [hsame]
            exact ⟨iff_of_true h.complete nofun, fun _ => h⟩
  · have hsame : self.next foreign correlation = self := by
      unfold next
      split
      · next heq _ => exact absurd heq hphase
      · rfl
    rw [hsame]
    have hnot : ¬self.AtMarker := fun hmarker => hphase hmarker.1
    exact ⟨iff_of_true h.complete hnot, fun _ => h⟩

/-! ### Runs -/

theorem Inv.frame (h : self.Inv foreign correlation) (payload : Payload) :
    (self.frame correlation payload).Inv foreign correlation := by
  cases hruns : self.phase.runs with
  | true =>
      refine ⟨fun _ => ?_, complete_of_runs hruns⟩
      obtain ⟨taken, unread, htracks⟩ := h.tracks hruns
      obtain ⟨unread, htracks⟩ := htracks.frame hruns payload
      exact ⟨taken, unread, htracks⟩
  | false =>
      refine Inv.of_finished hruns ?_
      intro value hvalue
      have hlog : (self.frame correlation payload).log = self.log := by
        unfold Gather.frame
        rw [hruns]
        rfl
      rw [hlog]
      exact h.complete value hvalue

theorem Inv.close (h : self.Inv foreign correlation) :
    Inv foreign correlation { self with demux := self.demux.teardown } := by
  refine ⟨fun hruns => ?_, h.complete⟩
  obtain ⟨taken, unread, htracks⟩ := h.tracks hruns
  exact ⟨taken, unread, htracks.close⟩

theorem Inv.step_iff (h : self.Inv foreign correlation) (event : GatherEvent) :
    ((self.step foreign correlation event).Complete foreign ↔ self.Uncut event) ∧
      (self.Uncut event → (self.step foreign correlation event).Inv foreign correlation) := by
  have hkeeps (event : GatherEvent) (huncut : self.Uncut event)
      (hinv : (self.step foreign correlation event).Inv foreign correlation) :
      ((self.step foreign correlation event).Complete foreign ↔ self.Uncut event) ∧
        (self.Uncut event → (self.step foreign correlation event).Inv foreign correlation) :=
    ⟨iff_of_true hinv.complete huncut, fun _ => hinv⟩
  cases event with
  | frame payload => exact hkeeps _ trivial (h.frame payload)
  | close => exact hkeeps _ trivial h.close
  | next => exact h.next_iff
  | sent =>
      apply hkeeps .sent trivial
      change Inv foreign correlation (match self.phase with | .sending => _ | _ => self)
      split
      · next hphase =>
          refine ⟨fun _ => ?_, nofun⟩
          obtain ⟨taken, unread, ht⟩ := h.tracks (by rw [hphase]; rfl)
          exact ⟨taken, unread, ht.serves, ht.log, ht.chunks, ht.goesOn, ht.queue⟩
      · exact h
  | sendFails =>
      apply hkeeps .sendFails trivial
      change Inv foreign correlation (match self.phase with | .sending => _ | _ => self)
      split
      · exact Inv.of_finished rfl nofun
      · exact h
  | timeout =>
      apply hkeeps .timeout trivial
      change Inv foreign correlation (match self.phase with | .receiving => _ | _ => self)
      split
      · exact Inv.of_finished rfl nofun
      · exact h

/-- **Complete streams.** What `gather` returns is the whole stream up to its terminal payload
exactly as long as it does not come to the marker of a closed connection. -/
theorem gather_complete_iff (foreign : Value → Value) {correlation : Bytes}
    (opening : Opening correlation) (events : List GatherEvent) :
    (∀ s ∈ Run.states (step foreign correlation) (start opening) events, s.Complete foreign) ↔
      Run.EachStep (step foreign correlation) Uncut (start opening) events := by
  have hcomplete : ∀ s : Gather, s.Inv foreign correlation → s.Complete foreign :=
    fun _ h => h.complete
  exact Run.states_property_iff hcomplete (fun _ event h => (h.step_iff event).1)
    (fun _ event h => (h.step_iff event).2) (inv_start opening)

/-! ### A stream that is cut off -/

def sampleOpening : Opening [7] where
  demux := { pending := ∅, results := ∅, streams := ∅, queues := ∅, inbound := [], closed := false }
  queue := 0
  isOpen := rfl
  noCall := by simp
  fresh := by simp

/-- A chunk with the text "a". -/
def sampleChunk : Payload :=
  [(.str "typ", .str "StreamChunk"), (.str "correlation", .bytes [7]),
    (.str "stream_end", .bool false), (.str "body", .bytes [0x61, 0x61])]

/-- The connection is closed after the first chunk. -/
def truncated : Gather :=
  Run.exec (step id [7]) (start sampleOpening) [.sent, .frame sampleChunk, .close, .next, .next]

theorem truncated_stream_is_returned :
    truncated.phase = .returned (.str "a") ∧ ¬truncated.Complete id := by
  have htext : truncated.phase.text = some "a" := by decide +kernel
  have hlog : truncated.log.any Payload.isTerminal = false := by decide +kernel
  have hphase : truncated.phase = .returned (.str "a") := by
    cases hphase : truncated.phase with
    | returned value =>
        rw [hphase] at htext
        cases value with
        | str s => rw [Option.some.inj htext]
        | _ => cases htext
    | _ =>
        rw [hphase] at htext
        cases htext
  refine ⟨hphase, ?_⟩
  intro hcomplete
  obtain ⟨before, last, after, heq, hterminal, -⟩ := hcomplete _ hphase
  rw [List.any_eq_false] at hlog
  apply hlog last _ hterminal
  rw [heq]
  simp

end Gather

end Thicket.Py
