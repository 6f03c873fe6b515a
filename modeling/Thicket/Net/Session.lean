import Thicket.Net.Mux

/-!
# The calls of a connection

`Conn::call` registers its waiter, queues its request for the writer and waits for the reply or for
the timeout; `Conn::call_stream` registers a channel and hands its receiver out. Any number of these
run on a connection, and the reader and the writer stop when they do.
-/

namespace Thicket.Net

open Cbor (Bytes)
open Serde

/-- How far an invocation of `Conn::call` is. It is `dropped` when its future is. -/
inductive CallPhase where
  | sending
  | waiting
  | returned (result : Except NetError SignedEnvelope)
  | dropped

/-- An invocation of `Conn::call` whose request is signed and registered. -/
structure Invocation where
  request : SignedEnvelope
  phase : CallPhase

/-- A connection with the invocations of `call`, numbered as in its routing tables, and the requests
of those of `call_stream` that did not return yet. -/
structure Session where
  mux : Mux
  calls : HashMap Nat Invocation
  opening : HashMap Nat SignedEnvelope
  readerRuns : Bool
  writerRuns : Bool

/-- What happens on a connection: the steps of a call, those of a stream's caller and its consumer,
a turn of the reader's loop, and the ends of the reader's input and of the writer. -/
inductive SessionEvent where
  | call (payload : EnvelopePayload)
  | send (call : Nat)
  | resume (call : Nat)
  | timeout (call : Nat)
  | dropCall (call : Nat)
  | callStream (payload : EnvelopePayload)
  | sendStream (id : Nat)
  | subscribe (topic : String)
  | recv (id : Nat)
  | dropReceiver (id : Nat)
  | recvRequest
  | frame (now : UInt64) (plaintext : Except NetError Bytes)
  | eof
  | writerStops

namespace Session

def established (peer : VerifiedPeer) : Session :=
  { mux := .established peer, calls := ∅, opening := ∅, readerRuns := true, writerRuns := true }

def setCall (self : Session) (call : Nat) (invocation : Invocation) : Session :=
  { self with calls := self.calls.insert call invocation }

/-- `out_tx.send(to_cbor(&signed)?)`; the queue is closed once the writer has stopped. -/
def queue (self : Session) (request : SignedEnvelope) : Except NetError Unit :=
  match intoWriter request with
  | none => .error .codec
  | some _ => if self.writerRuns then .ok () else .error .closed

section

variable {crypto : Crypto} (key : WorkingKey crypto)

/-- The waiter is registered before the request is sent. -/
def call (self : Session) (payload : EnvelopePayload) : Session :=
  match payload.sign key with
  | .error _ => self
  | .ok request =>
      { self with mux := self.mux.act (.call payload.correlation),
                  calls := self.calls.insert self.mux.nextId { request, phase := .sending } }

def callStream (self : Session) (payload : EnvelopePayload) : Session :=
  match payload.sign key with
  | .error _ => self
  | .ok request =>
      { self with mux := self.mux.act (.callStream payload.correlation),
                  opening := self.opening.insert self.mux.nextId request }

end

def send (self : Session) (call : Nat) : Session :=
  match self.calls[call]? with
  | some { request, phase := .sending } =>
      match self.queue request with
      | .ok () => self.setCall call { request, phase := .waiting }
      | .error e => self.setCall call { request, phase := .returned (.error e) }
  | _ => self

/-- The receiver has the reply, or its sender is gone. -/
def resume (self : Session) (call : Nat) : Session :=
  match self.calls[call]? with
  | some { request, phase := .waiting } =>
      match self.mux.conn.replies[call]? with
      | some env => self.setCall call { request, phase := .returned (.ok env) }
      | none =>
          if self.mux.conn.pending[request.payload.correlation]? = some call then self
          else self.setCall call { request, phase := .returned (.error .closed) }
  | _ => self

/-- What is registered under the correlation is removed, whoever has registered it. -/
def timeout (self : Session) (call : Nat) : Session :=
  match self.calls[call]? with
  | some { request, phase := .waiting } =>
      { self.setCall call { request, phase := .returned (.error .timeout) } with
        mux := self.mux.act (.timeout request.payload.correlation) }
  | _ => self

def dropCall (self : Session) (call : Nat) : Session :=
  match self.calls[call]? with
  | some { request, phase := .sending } | some { request, phase := .waiting } =>
      self.setCall call { request, phase := .dropped }
  | _ => self

/-- Where the request cannot be queued, the receiver is dropped with the error. -/
def sendStream (self : Session) (id : Nat) : Session :=
  match self.opening[id]? with
  | none => self
  | some request =>
      let opening := self.opening.erase id
      match self.queue request with
      | .ok () => { self with opening }
      | .error _ => { self with mux := self.mux.act (.drop id), opening }

section

variable (crypto : Crypto)

def frame (self : Session) (now : UInt64) (plaintext : Except NetError Bytes) : Session :=
  if self.readerRuns then
    match self.mux.conn.onFrame crypto now plaintext with
    | none => { self with readerRuns := false }
    | some conn => { self with mux := { self.mux with conn } }
  else self

end

def step {crypto : Crypto} (key : WorkingKey crypto) (self : Session) : SessionEvent → Session
  | .call payload => self.call key payload
  | .send call => self.send call
  | .resume call => self.resume call
  | .timeout call => self.timeout call
  | .dropCall call => self.dropCall call
  | .callStream payload => self.callStream key payload
  | .sendStream id => self.sendStream id
  | .subscribe topic => { self with mux := self.mux.act (.subscribe topic) }
  | .recv id => { self with mux := self.mux.act (.recv id) }
  | .dropReceiver id => { self with mux := self.mux.act (.drop id) }
  | .recvRequest => { self with mux := self.mux.act .recvRequest }
  | .frame now plaintext => self.frame crypto now plaintext
  | .eof => { self with readerRuns := false }
  | .writerStops => { self with writerRuns := false }

/-! ### What an event does to the tables -/

/-- What a consumer of messages does: it subscribes, takes one out or goes away. -/
inductive Consumes : LocalOp → Prop where
  | subscribe (topic : String) : Consumes (.subscribe topic)
  | recv (id : Nat) : Consumes (.recv id)
  | drop (id : Nat) : Consumes (.drop id)
  | recvRequest : Consumes .recvRequest

/-- The table of calls and their replies are the same, and no number is given out again. -/
structure SameCalls (mux mux' : Mux) : Prop where
  pending : mux'.conn.pending = mux.conn.pending
  replies : mux'.conn.replies = mux.conn.replies
  nextId : mux.nextId ≤ mux'.nextId

theorem SameCalls.refl (mux : Mux) : SameCalls mux mux := ⟨rfl, rfl, Nat.le_refl _⟩

theorem sameCalls_act (mux : Mux) {op : LocalOp} (hop : Consumes op) :
    SameCalls mux (mux.act op) ∧ (mux.act op).conn.streams = mux.conn.streams := by
  cases hop with
  | subscribe topic => exact ⟨⟨rfl, rfl, Nat.le_succ _⟩, rfl⟩
  | recv id | drop id | recvRequest =>
      rw [Mux.act]
      split <;> exact ⟨⟨rfl, rfl, Nat.le_refl _⟩, rfl⟩

variable {crypto : Crypto} {key : WorkingKey crypto} {self : Session} {payload : EnvelopePayload}
  {request : SignedEnvelope}

theorem call_of_sign (h : payload.sign key = .ok request) : self.call key payload =
    { self with mux := self.mux.act (.call payload.correlation),
                calls := self.calls.insert self.mux.nextId { request, phase := .sending } } := by
  rw [call, h]

theorem callStream_of_sign (h : payload.sign key = .ok request) : self.callStream key payload =
    { self with mux := self.mux.act (.callStream payload.correlation),
                opening := self.opening.insert self.mux.nextId request } := by
  rw [callStream, h]

theorem call_of_not_sign (h : ∀ request, payload.sign key ≠ .ok request) :
    self.call key payload = self ∧ self.callStream key payload = self := by
  cases hsign : payload.sign key with
  | error e => simp [call, callStream, hsign]
  | ok request => exact absurd hsign (h request)

/-- A turn of the reader's loop routes at most one envelope, and may be the last one. -/
theorem frame_cases (crypto : Crypto) (self : Session) (now : UInt64)
    (plaintext : Except NetError Bytes) :
    self.frame crypto now plaintext = self ∨
      self.frame crypto now plaintext = { self with readerRuns := false } ∨
      ∃ env, self.frame crypto now plaintext = { self with mux := self.mux.route env } := by
  unfold frame
  split_ifs
  swap
  · exact .inl rfl
  cases plaintext with
  | error e =>
      right
      left
      have hstops : self.mux.conn.onFrame crypto now (.error e) = none := by
        unfold Conn.onFrame
        split_ifs <;> rfl
      rw [hstops]
  | ok plaintext =>
      rcases self.mux.conn.onFrame_cases crypto now plaintext with h | h | ⟨env, -, -, -, -, h⟩
      · rw [h]
        exact .inr (.inl rfl)
      · rw [h]
        exact .inl rfl
      · rw [h]
        exact .inr (.inr ⟨env, rfl⟩)

end Session

end Thicket.Net
