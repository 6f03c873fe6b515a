import Thicket.Net.Waiters

/-!
# A reader that has stopped

The tables of waiters belong to the reader and to the handle of the connection, so they outlive the
reader: what is registered when it stops, or later, keeps its sender, and nobody is left to use or
to drop it. A run leaves nobody waiting exactly when nothing is registered at that point and nothing
from then on.
-/

namespace Thicket.Net.Session

open Cbor (Bytes)

/-- No sender is registered. -/
structure Idle (s : Session) : Prop where
  pending : ∀ correlation : Bytes, s.mux.conn.pending[correlation]? = none
  streams : ∀ correlation : Bytes, s.mux.conn.streams[correlation]? = none

/-- No sender is registered, and a call that has no reply returns `Closed` as soon as it is polled.
-/
structure Deserted (s : Session) : Prop extends Idle s where
  closed : ∀ (call : Nat) (request : SignedEnvelope),
    s.calls[call]? = some { request, phase := .waiting } → s.mux.conn.replies[call]? = none →
    (s.resume call).calls[call]? = some { request, phase := .returned (.error .closed) }

section

variable {crypto : Crypto} (key : WorkingKey crypto)

/-- Where the reader stops nothing is registered, and nothing that can be signed is called later. -/
def Quiet (self : Session) : SessionEvent → Prop
  | .call payload | .callStream payload =>
      self.readerRuns = false → ∀ request, payload.sign key ≠ .ok request
  | .frame now plaintext =>
      self.readerRuns = true → self.mux.conn.onFrame crypto now plaintext = none → self.Idle
  | .eof => self.Idle
  | _ => True

end

/-- Nothing is registered once the reader has stopped. -/
def Settled (self : Session) : Prop := self.readerRuns = false → self.Idle

variable {crypto : Crypto} {key : WorkingKey crypto} {self : Session}

theorem deserted_iff : self.Deserted ↔ self.Idle := by
  constructor
  · intro h
    exact h.toIdle
  · intro h
    refine ⟨h, ?_⟩
    intro call request hcall hreply
    have hgone : self.mux.conn.pending[request.payload.correlation]? ≠ some call := by
      rw [h.pending]
      exact nofun
    simp only [resume, hcall, hreply, if_neg hgone]
    exact (HashMap.getElem?_insert _ _ _ _).trans (if_pos rfl)

/-! ### One event -/

/-- The reader goes on as before, and no sender is registered that was not. -/
structure AddsNone (s s' : Session) : Prop where
  readerRuns : s'.readerRuns = s.readerRuns
  pending : ∀ correlation : Bytes, s.mux.conn.pending[correlation]? = none →
    s'.mux.conn.pending[correlation]? = none
  streams : s'.mux.conn.streams = s.mux.conn.streams

theorem AddsNone.settled {s s' : Session} (hadds : AddsNone s s') (h : s.Settled) : s'.Settled := by
  intro hstopped
  have hidle := h (hadds.readerRuns ▸ hstopped)
  refine ⟨fun correlation => hadds.pending correlation (hidle.pending correlation), ?_⟩
  rw [hadds.streams]
  exact hidle.streams

theorem addsNone_of_mux {s' : Session} (hruns : s'.readerRuns = self.readerRuns)
    (hmux : s'.mux = self.mux) : AddsNone self s' := by
  refine ⟨hruns, ?_, ?_⟩
  · intro correlation hnone
    rw [hmux]
    exact hnone
  · rw [hmux]

theorem addsNone_act {op : LocalOp} (hop : Consumes op) (opening : HashMap Nat SignedEnvelope) :
    AddsNone self { self with mux := self.mux.act op, opening } := by
  obtain ⟨hsame, hstreams⟩ := sameCalls_act self.mux hop
  refine ⟨rfl, ?_, hstreams⟩
  intro correlation hnone
  change (self.mux.act op).conn.pending[correlation]? = none
  rw [hsame.pending]
  exact hnone

theorem readerRuns_send (self : Session) (call : Nat) :
    (self.send call).readerRuns = self.readerRuns := by
  unfold send
  repeat' split
  all_goals rfl

theorem readerRuns_resume (self : Session) (call : Nat) :
    (self.resume call).readerRuns = self.readerRuns := by
  unfold resume
  repeat' split
  all_goals rfl

theorem readerRuns_dropCall (self : Session) (call : Nat) :
    (self.dropCall call).readerRuns = self.readerRuns := by
  unfold dropCall
  split <;> rfl

theorem addsNone_timeout (self : Session) (call : Nat) : AddsNone self (self.timeout call) := by
  unfold timeout
  split
  · next request hcall =>
      refine ⟨rfl, ?_, rfl⟩
      intro correlation hnone
      change (self.mux.conn.pending.erase request.payload.correlation)[correlation]? = none
      rw [HashMap.getElem?_erase, hnone, ite_self]
  · exact addsNone_of_mux rfl rfl

theorem addsNone_sendStream (self : Session) (id : Nat) : AddsNone self (self.sendStream id) := by
  unfold sendStream
  split
  · exact addsNone_of_mux rfl rfl
  · split
    · exact addsNone_of_mux rfl rfl
    · exact addsNone_act (.drop id) _

/-- What is registered after the reader has stopped stays registered. -/
theorem settled_register_iff {mux : Mux} {calls : HashMap Nat Invocation}
    {opening : HashMap Nat SignedEnvelope}
    (hregistered : ∃ correlation : Bytes, mux.conn.pending[correlation]? ≠ none ∨
      mux.conn.streams[correlation]? ≠ none) :
    Settled { self with mux, calls, opening } ↔ self.readerRuns ≠ false := by
  constructor
  · intro h hstopped
    have hidle := h hstopped
    obtain ⟨correlation, hpending | hstreams⟩ := hregistered
    · exact hpending (hidle.pending correlation)
    · exact hstreams (hidle.streams correlation)
  · intro hruns hstopped
    exact absurd hstopped hruns

theorem quiet_of_sign {payload : EnvelopePayload} {request : SignedEnvelope}
    (hsign : payload.sign key = .ok request) :
    (self.readerRuns = false → ∀ request, payload.sign key ≠ .ok request) ↔
      self.readerRuns ≠ false := by
  constructor
  · intro h hstopped
    exact h hstopped request hsign
  · intro hruns hstopped
    exact absurd hstopped hruns

theorem settled_call_iff (h : self.Settled) (payload : EnvelopePayload) :
    ((self.call key payload).Settled ↔ self.Quiet key (.call payload)) ∧
      ((self.callStream key payload).Settled ↔ self.Quiet key (.callStream payload)) := by
  cases hsign : payload.sign key with
  | error e =>
      have hnone : ∀ request, payload.sign key ≠ .ok request := by simp [hsign]
      rw [(call_of_not_sign hnone).1, (call_of_not_sign hnone).2]
      exact ⟨iff_of_true h fun _ => hnone, iff_of_true h fun _ => hnone⟩
  | ok request =>
      rw [call_of_sign hsign, callStream_of_sign hsign, Quiet, Quiet, quiet_of_sign hsign]
      constructor
      · apply settled_register_iff
        refine ⟨payload.correlation, .inl ?_⟩
        change (self.mux.conn.pending.insert payload.correlation _)[payload.correlation]? ≠ none
        rw [HashMap.getElem?_insert, if_pos rfl]
        exact nofun
      · apply settled_register_iff
        refine ⟨payload.correlation, .inr ?_⟩
        change (self.mux.conn.streams.insert payload.correlation _)[payload.correlation]? ≠ none
        rw [HashMap.getElem?_insert, if_pos rfl]
        exact nofun

theorem settled_frame_iff (h : self.Settled) (now : UInt64) (plaintext : Except NetError Bytes) :
    (self.frame crypto now plaintext).Settled ↔ self.Quiet key (.frame now plaintext) := by
  cases hruns : self.readerRuns with
  | false =>
      have hsame : self.frame crypto now plaintext = self := by simp [frame, hruns]
      rw [hsame]
      refine iff_of_true h ?_
      intro htrue
      exact absurd (hruns.symm.trans htrue) nofun
  | true =>
      have hquiet : self.Quiet key (.frame now plaintext) ↔
          (self.mux.conn.onFrame crypto now plaintext = none → self.Idle) := by
        rw [Quiet, hruns]
        exact forall_prop_of_true rfl
      rw [hquiet]
      cases hframe : self.mux.conn.onFrame crypto now plaintext with
      | none =>
          have hstop : self.frame crypto now plaintext = { self with readerRuns := false } := by
            simp [frame, hruns, hframe]
          rw [hstop]
          constructor
          · intro hsettled _
            exact ⟨(hsettled rfl).pending, (hsettled rfl).streams⟩
          · intro hidle _
            exact ⟨(hidle rfl).pending, (hidle rfl).streams⟩
      | some conn =>
          have hgoes : (self.frame crypto now plaintext).readerRuns = true := by
            simp [frame, hruns, hframe]
          refine iff_of_true ?_ nofun
          intro hstopped
          exact absurd (hgoes.symm.trans hstopped) nofun

theorem settled_step_iff (h : self.Settled) (event : SessionEvent) :
    (self.step key event).Settled ↔ self.Quiet key event := by
  cases event with
  | call payload => exact (settled_call_iff h payload).1
  | callStream payload => exact (settled_call_iff h payload).2
  | frame now plaintext => exact settled_frame_iff h now plaintext
  | eof =>
      constructor
      · intro hsettled
        exact ⟨(hsettled rfl).pending, (hsettled rfl).streams⟩
      · intro hidle _
        exact ⟨hidle.pending, hidle.streams⟩
  | send call =>
      have hadds := addsNone_of_mux (readerRuns_send self call) (mux_send self call)
      exact iff_of_true (hadds.settled h) trivial
  | resume call =>
      have hadds := addsNone_of_mux (readerRuns_resume self call) (mux_resume self call)
      exact iff_of_true (hadds.settled h) trivial
  | dropCall call =>
      have hadds := addsNone_of_mux (readerRuns_dropCall self call) (mux_dropCall self call)
      exact iff_of_true (hadds.settled h) trivial
  | timeout call => exact iff_of_true ((addsNone_timeout self call).settled h) trivial
  | sendStream id => exact iff_of_true ((addsNone_sendStream self id).settled h) trivial
  | subscribe topic =>
      exact iff_of_true ((addsNone_act (.subscribe topic) self.opening).settled h) trivial
  | recv id => exact iff_of_true ((addsNone_act (.recv id) self.opening).settled h) trivial
  | dropReceiver id => exact iff_of_true ((addsNone_act (.drop id) self.opening).settled h) trivial
  | recvRequest => exact iff_of_true ((addsNone_act .recvRequest self.opening).settled h) trivial
  | writerStops =>
      have hadds : AddsNone self { self with writerRuns := false } := addsNone_of_mux rfl rfl
      exact iff_of_true (hadds.settled h) trivial

/-! ### Runs -/

/-- **A closed connection.** In every state of a run in which the reader has stopped no sender is
left registered, and who waits gets `Closed`, exactly when the run is quiet. -/
theorem closed_deserted_iff (key : WorkingKey crypto) (peer : VerifiedPeer)
    (events : List SessionEvent) :
    (∀ s ∈ Run.states (step key) (established peer) events, s.readerRuns = false → s.Deserted) ↔
      Run.EachStep (step key) (Quiet key) (established peer) events := by
  have hestablished : (established peer).Settled := by
    intro hstopped
    cases hstopped
  simp only [deserted_iff]
  have hstep : ∀ (s : Session) (event : SessionEvent), s.Settled →
      ((s.step key event).Settled ↔ s.Quiet key event) := fun s event h => settled_step_iff h event
  exact Run.states_invariant_iff hstep hestablished

/-! ### A call and a stream that outlive the reader -/

/-- A call waits for its reply and a stream for its chunks when the connection ends; the call is
polled once more. -/
def hanging : Session :=
  Run.exec (step sampleKey) (established sampleServer)
    [.call sampleCall, .send 0, .callStream sampleCall, .sendStream 1, .eof, .resume 0]

theorem waiters_outlive_the_reader : hanging.readerRuns = false ∧
    hanging.mux.conn.pending[sampleCall.correlation]? = some 0 ∧
    hanging.mux.conn.streams[sampleCall.correlation]? = some 1 ∧
    hanging.waiting 0 = some sampleCall.correlation ∧ ¬hanging.Deserted := by
  have hpending : hanging.mux.conn.pending[sampleCall.correlation]? = some 0 := by decide +kernel
  refine ⟨by decide +kernel, hpending, by decide +kernel, by decide +kernel, ?_⟩
  intro hdeserted
  rw [hdeserted.pending] at hpending
  cases hpending

end Thicket.Net.Session
