import Thicket.Lib.HashMap
import Thicket.Lib.Result
import Thicket.Py.Value

/-!
# The demultiplexer of a connection of the Python SDK

`Conn._route` of `thicket/conn.py` hands an authenticated payload to the future of a call, to the
queue of a stream or to the serving side; `_teardown` wakes all of them when the connection ends.
Futures and queues are numbered.
-/

namespace Thicket.Py

open Cbor (Bytes)

/-- The payload of a message: a dictionary, since the reader has looked up its sender. -/
abbrev Payload := List (Value × Value)

/-- `payload.get(key, default)` for a text key. -/
def Payload.getD (self : Payload) (key : String) (default : Value) : Value :=
  ((self.find? fun e => e.1.eq (.str key)).map Prod.snd).getD default

/-- An `asyncio.Queue` with what was taken out of it; `none` is the `None` of the teardown. -/
structure Queue where
  taken : List (Option Payload)
  unread : List (Option Payload)

namespace Queue

def empty : Queue := { taken := [], unread := [] }

/-- `q.put_nowait(item)` -/
def put (self : Queue) (item : Option Payload) : Queue :=
  { self with unread := self.unread ++ [item] }

/-- What was ever put in. -/
def items (self : Queue) : List (Option Payload) := self.taken ++ self.unread

end Queue

/-- `results` holds what the futures are done with, `none` for an exception. -/
structure Demux where
  pending : HashMap Bytes Nat
  results : HashMap Nat (Option Payload)
  streams : HashMap Bytes Nat
  queues : HashMap Nat Queue
  inbound : List (Option Payload)
  closed : Bool

namespace Demux

/-- `map.get(key)` in a dictionary that is keyed by correlations. -/
def lookup (map : HashMap Bytes Nat) (key : Value) : Except Exc (Option Nat) :=
  match key with
  | .bytes correlation => .ok map[correlation]?
  | key => if key.isHashable then .ok none else .error .typeError

/-- `map.pop(key, None)`, without what it returns. -/
def discard (map : HashMap Bytes Nat) (key : Value) : HashMap Bytes Nat :=
  match key with
  | .bytes correlation => map.erase correlation
  | _ => map

/-- `q.put_nowait(item)` on the queue of a number. -/
def putInto (self : Demux) (id : Nat) (item : Option Payload) : Demux :=
  match self.queues[id]? with
  | none => self
  | some queue => { self with queues := self.queues.insert id (queue.put item) }

/-- To the queue of the stream, if there is one. -/
def toStream (self : Demux) (payload : Payload) : Except Exc Demux := do
  match ← lookup self.streams (payload.getD "correlation" .none) with
  | none => return self
  | some id => return self.putInto id (some payload)

def route (self : Demux) (payload : Payload) : Except Exc Demux := do
  let typ := payload.getD "typ" .none
  let correlation := payload.getD "correlation" .none
  if typ.eq (.str "Request") then return { self with inbound := self.inbound ++ [some payload] }
  else if typ.eq (.str "StreamChunk") then self.toStream payload
  else
    match ← lookup self.pending correlation with
    | none => self.toStream payload
    | some future =>
        let popped := { self with pending := discard self.pending correlation }
        if self.results[future]? = none then
          return { popped with results := self.results.insert future (some payload) }
        else popped.toStream payload

/-- Some stream's queue has this number. -/
def isStream (self : Demux) (id : Nat) : Bool := self.streams.toList.any fun e => e.2 = id

/-- Every call fails, every stream and the serving side get their `None`; the streams stay
registered. -/
def teardown (self : Demux) : Demux :=
  if self.closed then self
  else
    { pending := ∅,
      results := (self.pending.toList.map Prod.snd).foldl
        (fun results id => if results[id]? = none then results.insert id none else results)
        self.results,
      streams := self.streams,
      queues := self.queues.map fun id queue => if self.isStream id then queue.put none else queue,
      inbound := self.inbound ++ [none],
      closed := true }

/-- A turn of the reader's loop with an authenticated payload. What the routing raises ends the
loop, and with it the connection. -/
def receive (self : Demux) (payload : Payload) : Demux :=
  if self.closed then self
  else
    match self.route payload with
    | .ok demux => demux
    | .error _ => self.teardown

/-! ### One stream -/

variable {self demux : Demux} {payload : Payload} {correlation : Bytes} {id : Nat} {queue : Queue}

/-- The payload is for the stream or the call of this correlation. -/
def Addressed (correlation : Bytes) (payload : Payload) : Bool :=
  (payload.getD "correlation" .none).eq (.bytes correlation) &&
    !(payload.getD "typ" .none).eq (.str "Request")

/-- The correlation is that of the stream with this queue, and of no call; the queue belongs to no
other stream. -/
structure Serves (d : Demux) (correlation : Bytes) (id : Nat) : Prop where
  stream : d.streams[correlation]? = some id
  own : ∀ other : Bytes, d.streams[other]? = some id → other = correlation
  noCall : d.pending[correlation]? = none

theorem getElem?_putInto (self : Demux) (id other : Nat) (item : Option Payload) :
    (self.putInto id item).queues[other]? =
      if other = id then self.queues[id]?.map fun queue => queue.put item
      else self.queues[other]? := by
  unfold putInto
  split
  · next hnone =>
      split_ifs with h
      · rw [h, hnone]
        rfl
      · rfl
  · next queue hqueue =>
      rw [hqueue]
      exact HashMap.getElem?_insert _ _ _ _

/-- Only the queues change when something is put into one. -/
structure SameBut (d d' : Demux) : Prop where
  pending : d'.pending = d.pending
  streams : d'.streams = d.streams
  closed : d'.closed = d.closed

theorem sameBut_putInto (self : Demux) (id : Nat) (item : Option Payload) :
    SameBut self (self.putInto id item) := by
  unfold putInto
  split <;> exact ⟨rfl, rfl, rfl⟩

/-- What goes to a stream goes to the one of its correlation. -/
theorem toStream_cases (h : self.toStream payload = .ok demux) : SameBut self demux ∧
    ((∃ correlation id, payload.getD "correlation" .none = .bytes correlation ∧
        self.streams[correlation]? = some id ∧ demux = self.putInto id (some payload)) ∨
      demux = self ∧ ∀ correlation, payload.getD "correlation" .none = .bytes correlation →
        self.streams[correlation]? = none) := by
  unfold toStream at h
  cases hcorrelation : payload.getD "correlation" .none with
  | bytes bs =>
      rw [hcorrelation, lookup] at h
      cases hstream : self.streams[bs]? with
      | none =>
          rw [hstream] at h
          obtain rfl := Except.ok.inj h
          refine ⟨⟨rfl, rfl, rfl⟩, .inr ⟨rfl, ?_⟩⟩
          intro correlation heq
          rw [← Value.bytes.inj heq]
          exact hstream
      | some id =>
          rw [hstream] at h
          obtain rfl := Except.ok.inj h
          exact ⟨sameBut_putInto _ _ _, .inl ⟨bs, id, rfl, hstream, rfl⟩⟩
  | list items | dict entries =>
      rw [hcorrelation] at h
      cases h
  | _ =>
      rw [hcorrelation] at h
      obtain rfl := Except.ok.inj h
      exact ⟨⟨rfl, rfl, rfl⟩, .inr ⟨rfl, nofun⟩⟩

/-- A stream's queue gets the payloads of its correlation and nothing else. -/
theorem Serves.toStream (h : self.Serves correlation id) (hqueue : self.queues[id]? = some queue)
    (htoStream : self.toStream payload = .ok demux) :
    demux.queues[id]? = some (if (payload.getD "correlation" .none).eq (.bytes correlation)
      then queue.put (some payload) else queue) := by
  obtain ⟨-, ⟨other, number, hcorrelation, hstream, rfl⟩ | ⟨rfl, hnone⟩⟩ := toStream_cases htoStream
  · rw [getElem?_putInto, hcorrelation]
    by_cases hother : other = correlation
    · subst hother
      obtain rfl := Option.some.inj (h.stream.symm.trans hstream)
      rw [if_pos rfl, if_pos (eq_bytes_iff.mpr rfl), hqueue]
      rfl
    · have hid : id ≠ number := by
        rintro rfl
        exact hother (h.own other hstream)
      rw [if_neg hid, if_neg fun heq => hother (Value.bytes.inj (eq_bytes_iff.mp heq))]
      exact hqueue
  · rw [if_neg]
    · exact hqueue
    · intro heq
      exact absurd (h.stream.symm.trans (hnone correlation (eq_bytes_iff.mp heq))) nofun

theorem Serves.of_sameBut (h : self.Serves correlation id) (hsame : SameBut self demux) :
    demux.Serves correlation id := by
  refine ⟨?_, ?_, ?_⟩
  · rw [hsame.streams]
    exact h.stream
  · rw [hsame.streams]
    exact h.own
  · rw [hsame.pending]
    exact h.noCall

/-- A reply that a call waits for is not the stream's. -/
theorem Serves.popped (h : self.Serves correlation id) (key : Value) :
    Serves { self with pending := discard self.pending key } correlation id := by
  refine ⟨h.stream, h.own, ?_⟩
  unfold discard
  split
  · change (self.pending.erase _)[correlation]? = none
    rw [HashMap.getElem?_erase, h.noCall, ite_self]
  · exact h.noCall

/-- What the routing of a payload does to a stream. -/
theorem Serves.route (h : self.Serves correlation id) (hqueue : self.queues[id]? = some queue)
    (hroute : self.route payload = .ok demux) : demux.Serves correlation id ∧
      demux.closed = self.closed ∧
      demux.queues[id]? = some (if Addressed correlation payload
        then queue.put (some payload) else queue) := by
  have hstream {d : Demux} (hd : d.Serves correlation id) (hq : d.queues[id]? = some queue)
      (hto : d.toStream payload = .ok demux)
      (hrequest : (payload.getD "typ" .none).eq (.str "Request") ≠ true) :
      demux.Serves correlation id ∧ demux.closed = d.closed ∧
        demux.queues[id]? = some (if Addressed correlation payload
          then queue.put (some payload) else queue) := by
    obtain ⟨hsame, -⟩ := toStream_cases hto
    refine ⟨hd.of_sameBut hsame, hsame.closed, ?_⟩
    rw [hd.toStream hq hto, Addressed]
    simp [hrequest]
  unfold Demux.route at hroute
  dsimp only at hroute
  split_ifs at hroute with hrequest hchunk
  · obtain rfl := Except.ok.inj hroute
    refine ⟨⟨h.stream, h.own, h.noCall⟩, rfl, ?_⟩
    rw [Addressed, hrequest]
    simpa using hqueue
  · exact hstream h hqueue hroute hrequest
  · obtain ⟨found, hfound, hroute⟩ := Result.bind_eq_ok.mp hroute
    cases found with
    | none => exact hstream h hqueue hroute hrequest
    | some future =>
        have hpopped := h.popped (payload.getD "correlation" .none)
        dsimp only at hroute
        split_ifs at hroute with hresult
        · obtain rfl := Except.ok.inj hroute
          refine ⟨⟨hpopped.stream, hpopped.own, hpopped.noCall⟩, rfl, ?_⟩
          -- the call's correlation is another one
          have hother : (payload.getD "correlation" .none).eq (.bytes correlation) = false := by
            rw [Bool.eq_false_iff, ne_eq, eq_bytes_iff]
            intro heq
            rw [heq, lookup, h.noCall] at hfound
            cases hfound
          rw [Addressed, hother]
          exact hqueue
        · have hrouted := hstream hpopped hqueue hroute hrequest
          exact hrouted

/-- A payload that the routing raises on is not the stream's. -/
theorem not_addressed_of_error {e : Exc} (hroute : self.route payload = .error e) :
    Addressed correlation payload = false := by
  rw [Addressed]
  by_contra haddressed
  rw [Bool.not_eq_false, Bool.and_eq_true, eq_bytes_iff, Bool.not_eq_true'] at haddressed
  obtain ⟨hcorrelation, hrequest⟩ := haddressed
  have htoStream (d : Demux) : ∃ demux, d.toStream payload = .ok demux := by
    unfold toStream
    rw [hcorrelation, lookup]
    cases d.streams[correlation]? with
    | none => exact ⟨_, rfl⟩
    | some id => exact ⟨_, rfl⟩
  have hok : ∃ demux, self.route payload = .ok demux := by
    unfold Demux.route
    dsimp only
    rw [hrequest, hcorrelation, lookup]
    simp only [Bool.false_eq_true, if_false]
    split_ifs
    · exact htoStream _
    · cases self.pending[correlation]? with
      | none => exact htoStream _
      | some future =>
          change ∃ demux, ite _ _ _ = _
          split_ifs
          · exact ⟨_, rfl⟩
          · exact htoStream _
  obtain ⟨demux, hok⟩ := hok
  rw [hok] at hroute
  cases hroute

theorem isStream_iff :
    self.isStream id = true ↔ ∃ other : Bytes, self.streams[other]? = some id := by
  rw [isStream, List.any_eq_true]
  constructor
  · rintro ⟨⟨other, number⟩, hmem, hid⟩
    rw [← of_decide_eq_true hid]
    exact ⟨other, Std.ExtTreeMap.mem_toList_iff_getElem?_eq_some.mp hmem⟩
  · rintro ⟨other, hother⟩
    exact ⟨(other, id), Std.ExtTreeMap.mem_toList_iff_getElem?_eq_some.mpr hother,
      decide_eq_true rfl⟩

/-- The teardown of an open connection puts the marker into the queue of every stream. -/
theorem Serves.teardown (h : self.Serves correlation id) (hqueue : self.queues[id]? = some queue)
    (hopen : self.closed = false) : self.teardown.Serves correlation id ∧
      self.teardown.closed = true ∧ self.teardown.queues[id]? = some (queue.put none) := by
  unfold Demux.teardown
  rw [hopen]
  refine ⟨⟨h.stream, h.own, ?_⟩, rfl, ?_⟩
  · change (∅ : HashMap Bytes Nat)[correlation]? = none
    simp
  · change (self.queues.map _)[id]? = _
    rw [Std.ExtTreeMap.getElem?_map, hqueue, Option.map_some,
      if_pos (isStream_iff.mpr ⟨correlation, h.stream⟩)]

/-- A turn of the reader's loop on an open connection gives a stream the payload that is for it, or
ends the connection on one that is not. -/
theorem Serves.receive (h : self.Serves correlation id) (hqueue : self.queues[id]? = some queue)
    (hopen : self.closed = false) (payload : Payload) :
    (self.receive payload).Serves correlation id ∧
      ((self.receive payload).closed = false ∧ (self.receive payload).queues[id]? =
          some (if Addressed correlation payload then queue.put (some payload) else queue) ∨
        (self.receive payload).closed = true ∧ Addressed correlation payload = false ∧
          (self.receive payload).queues[id]? = some (queue.put none)) := by
  unfold Demux.receive
  rw [hopen]
  cases hroute : self.route payload with
  | ok demux =>
      obtain ⟨hserves, hclosed, hput⟩ := h.route hqueue hroute
      exact ⟨hserves, .inl ⟨hclosed.trans hopen, hput⟩⟩
  | error e =>
      obtain ⟨hserves, hclosed, hput⟩ := h.teardown hqueue hopen
      exact ⟨hserves, .inr ⟨hclosed, not_addressed_of_error hroute, hput⟩⟩

end Demux

end Thicket.Py
