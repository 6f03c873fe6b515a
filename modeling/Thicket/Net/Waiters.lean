import Thicket.Lib.WaiterTable
import Thicket.Net.Session

/-!
# The table of pending calls

A call's waiter is registered under its correlation and removed when the reply is routed, or when
the call times out. What else ends a call leaves the entry behind, and a correlation that is used
twice replaces one. The table is exact in exactly the runs where none of that happens.
-/

namespace Thicket.Net

open Cbor (Bytes)
open Serde

/-- The correlation that a call which has not returned waits under. -/
def Invocation.waitsFor (self : Invocation) : Option Bytes :=
  match self.phase with
  | .sending | .waiting => some self.request.payload.correlation
  | .returned _ | .dropped => none

/-- The call whose code an event runs. -/
def SessionEvent.actor (self : SessionEvent) (session : Session) : Option Nat :=
  match self with
  | .call _ => some session.mux.nextId
  | .send n | .resume n | .timeout n | .dropCall n => some n
  | _ => none

namespace Session

/-- The correlation that a call still waits under: it has not returned, and no reply was sent to it.
-/
def waiting (self : Session) (call : Nat) : Option Bytes :=
  if self.mux.conn.replies[call]? = none then self.calls[call]?.bind Invocation.waitsFor else none

/-- There is an entry for each call that still waits, and for no other. -/
def Exact (self : Session) : Prop := WaiterTable.Exact self.mux.conn.pending self.waiting

section

variable {crypto : Crypto} (key : WorkingKey crypto)

/-- What a call does leaves the other calls' entries alone. -/
def Undisturbed (self : Session) (event : SessionEvent) : Prop :=
  ∀ call, event.actor self = some call → ∀ (correlation : Bytes) (other : Nat), other ≠ call →
    self.mux.conn.pending[correlation]? = some other →
    (self.step key event).mux.conn.pending[correlation]? = some other

/-- A call starts under a correlation that nobody waits under, it ends in an error or is dropped
only once its reply was routed, and where it times out nobody else waits under its correlation. -/
def Tidy (self : Session) : SessionEvent → Prop
  | .call payload =>
      ∀ request, payload.sign key = .ok request →
        self.mux.conn.pending[payload.correlation]? = none
  | .send call =>
      ∀ request, self.calls[call]? = some { request, phase := .sending } →
        self.queue request ≠ .ok () →
        self.mux.conn.pending[request.payload.correlation]? ≠ some call
  | .timeout call =>
      ∀ request, self.calls[call]? = some { request, phase := .waiting } → ∀ other,
        self.mux.conn.pending[request.payload.correlation]? = some other → other = call
  | .dropCall call =>
      ∀ invocation correlation, self.calls[call]? = some invocation →
        invocation.waitsFor = some correlation →
        self.mux.conn.pending[correlation]? ≠ some call
  | _ => True

end

/-- Calls that are registered or answered have numbers that were given out. -/
structure Numbered (s : Session) : Prop where
  calls : ∀ (n : Nat) (i : Invocation), s.calls[n]? = some i → n < s.mux.nextId
  pending : ∀ (correlation : Bytes) (n : Nat),
    s.mux.conn.pending[correlation]? = some n → n < s.mux.nextId
  replies : ∀ (n : Nat) (env : SignedEnvelope),
    s.mux.conn.replies[n]? = some env → n < s.mux.nextId

variable {crypto : Crypto} {key : WorkingKey crypto} {self : Session} {call : Nat}
  {request : SignedEnvelope} {payload : EnvelopePayload} {invocation : Invocation}

/-! ### Who waits -/

theorem waiting_eq_some {correlation : Bytes} : self.waiting call = some correlation ↔
    self.mux.conn.replies[call]? = none ∧ ∃ invocation, self.calls[call]? = some invocation ∧
      invocation.waitsFor = some correlation := by
  rw [waiting]
  split_ifs with h
  · simp [h, Option.bind_eq_some_iff]
  · simp [h]

theorem waiting_setCall (self : Session) (call : Nat) (invocation : Invocation) :
    (self.setCall call invocation).waiting = Function.update self.waiting call
      (if self.mux.conn.replies[call]? = none then invocation.waitsFor else none) := by
  funext n
  have hcalls : (self.setCall call invocation).calls[n]? =
      if n = call then some invocation else self.calls[n]? := HashMap.getElem?_insert _ _ _ _
  rw [waiting, hcalls]
  by_cases hn : n = call
  · subst hn
    rw [Function.update_self]
    simp only [if_true, Option.bind_some]
    rfl
  · rw [Function.update_of_ne hn, if_neg hn]
    rfl

/-- Who has returned or was dropped does not wait. -/
theorem waiting_setCall_none (self : Session) (call : Nat) (h : invocation.waitsFor = none) :
    (self.setCall call invocation).waiting = Function.update self.waiting call none := by
  rw [waiting_setCall, h, ite_self]

theorem Exact.registered_iff (h : self.Exact) (hcall : self.calls[call]? = some invocation)
    {correlation : Bytes} (hwaits : invocation.waitsFor = some correlation) :
    self.mux.conn.pending[correlation]? = some call ↔ self.waiting call ≠ none := by
  rw [h correlation call, waiting_eq_some, waiting, hcall, Option.bind_some, hwaits]
  constructor
  · rintro ⟨hreply, -⟩
    rw [if_pos hreply]
    exact nofun
  · intro hne
    by_cases hreply : self.mux.conn.replies[call]? = none
    · exact ⟨hreply, invocation, rfl, hwaits⟩
    · rw [if_neg hreply] at hne
      exact absurd rfl hne

/-! ### One event -/

theorem exact_call_iff (h : self.Exact) (hnum : self.Numbered) :
    (self.call key payload).Exact ↔ self.Tidy key (.call payload) := by
  cases hsign : payload.sign key with
  | error e =>
      have hnone : ∀ request, payload.sign key ≠ .ok request := by simp [hsign]
      rw [(call_of_not_sign hnone).1]
      refine iff_of_true h ?_
      intro request hrequest
      exact absurd hrequest (hnone request)
  | ok request =>
      let next := self.mux.nextId
      have hreply : self.mux.conn.replies[next]? = none := by
        by_contra hsome
        obtain ⟨env, henv⟩ := Option.ne_none_iff_exists'.mp hsome
        exact absurd (hnum.replies next env henv) (Nat.lt_irrefl _)
      have hfresh : self.waiting next = none := by
        by_contra hsome
        obtain ⟨k, hk⟩ := Option.ne_none_iff_exists'.mp hsome
        obtain ⟨-, i, hi, -⟩ := waiting_eq_some.mp hk
        exact absurd (hnum.calls next i hi) (Nat.lt_irrefl _)
      have hwaiting : (self.call key payload).waiting =
          Function.update self.waiting next (some payload.correlation) := by
        rw [call_of_sign hsign]
        have hset := waiting_setCall self next { request, phase := .sending }
        rw [if_pos hreply] at hset
        rw [← EnvelopePayload.payload_of_sign hsign]
        exact hset
      have htidy : self.Tidy key (.call payload) ↔
          self.mux.conn.pending[payload.correlation]? = none :=
        ⟨fun htidy => htidy request hsign, fun hnone _ _ => hnone⟩
      rw [htidy, ← h.register_iff hfresh, Exact, hwaiting, call_of_sign hsign]
      rfl

/-- Who leaves without removing its entry must have none. -/
theorem exact_leave_iff (h : self.Exact) (hcall : self.calls[call]? = some invocation)
    {correlation : Bytes} (hwaits : invocation.waitsFor = some correlation) {left : Invocation}
    (hleft : left.waitsFor = none) : (self.setCall call left).Exact ↔
      self.mux.conn.pending[correlation]? ≠ some call := by
  rw [ne_eq, h.registered_iff hcall hwaits, not_not, ← h.leave_iff, Exact,
    waiting_setCall_none self call hleft]
  rfl

theorem forall_request_iff {request : SignedEnvelope} {phase : CallPhase}
    (hcall : self.calls[call]? = some { request, phase }) {p : SignedEnvelope → Prop} :
    (∀ request, self.calls[call]? = some { request, phase } → p request) ↔ p request := by
  constructor
  · intro hall
    exact hall request hcall
  · intro hrequest request' hcall'
    obtain ⟨rfl, -⟩ := Invocation.mk.inj (Option.some.inj (hcall.symm.trans hcall'))
    exact hrequest

theorem exact_send_iff (h : self.Exact) : (self.send call).Exact ↔ self.Tidy key (.send call) := by
  unfold send
  split
  swap
  · next hother =>
      refine iff_of_true h ?_
      intro request hcall
      exact absurd hcall (hother request)
  next request hcall =>
  have hwaits : Invocation.waitsFor { request, phase := .sending } =
      some request.payload.correlation := rfl
  have htidy : self.Tidy key (.send call) ↔ self.queue request ≠ .ok () →
      self.mux.conn.pending[request.payload.correlation]? ≠ some call := forall_request_iff hcall
  rw [htidy]
  split
  · next hqueue =>
      refine iff_of_true ?_ fun hne => absurd hqueue hne
      -- the call waits on as before
      have hsame : (self.setCall call { request, phase := .waiting }).waiting = self.waiting := by
        rw [waiting_setCall]
        apply Function.update_eq_self_iff.mpr
        rw [waiting, hcall]
        rfl
      rw [Exact, hsame]
      exact h
  · next e hqueue =>
      rw [exact_leave_iff h hcall hwaits rfl]
      have hne : self.queue request ≠ .ok () := by simp [hqueue]
      exact ⟨fun hpending _ => hpending, fun hpending => hpending hne⟩

theorem exact_resume (h : self.Exact) : (self.resume call).Exact := by
  unfold resume
  split
  swap
  · exact h
  next request hcall =>
  have hwaits : Invocation.waitsFor { request, phase := .waiting } =
      some request.payload.correlation := rfl
  split
  · next env hreply =>
      apply (exact_leave_iff h hcall hwaits rfl).mpr
      rw [ne_eq, h.registered_iff hcall hwaits, waiting, hreply]
      simp
  · next hreply =>
      split_ifs with hpending
      · exact h
      · exact (exact_leave_iff h hcall hwaits rfl).mpr hpending

theorem exact_timeout_iff (h : self.Exact) :
    (self.timeout call).Exact ↔ self.Tidy key (.timeout call) := by
  unfold timeout
  split
  swap
  · next hother =>
      refine iff_of_true h ?_
      intro request hcall
      exact absurd hcall (hother request)
  next request hcall =>
  have htidy : self.Tidy key (.timeout call) ↔ ∀ other,
      self.mux.conn.pending[request.payload.correlation]? = some other → other = call :=
    forall_request_iff hcall
  have hkey : ∀ k, self.waiting call = some k → k = request.payload.correlation := by
    intro k hk
    obtain ⟨-, i, hi, hwaits⟩ := waiting_eq_some.mp hk
    obtain rfl := Option.some.inj (hcall.symm.trans hi)
    exact (Option.some.inj hwaits).symm
  have hwaiting : (self.setCall call { request, phase := .returned (.error .timeout) }).waiting =
      Function.update self.waiting call none := waiting_setCall_none self call rfl
  rw [htidy, ← h.withdraw_iff hkey, ← hwaiting]
  rfl

theorem exact_dropCall_iff (h : self.Exact) :
    (self.dropCall call).Exact ↔ self.Tidy key (.dropCall call) := by
  have htidy {request : SignedEnvelope} {phase : CallPhase}
      (hcall : self.calls[call]? = some { request, phase })
      (hwaits : Invocation.waitsFor { request, phase } = some request.payload.correlation) :
      (self.setCall call { request, phase := .dropped }).Exact ↔
        self.Tidy key (.dropCall call) := by
    rw [exact_leave_iff h hcall hwaits rfl]
    constructor
    · intro hpending i correlation hi hcorrelation
      obtain rfl := Option.some.inj (hcall.symm.trans hi)
      obtain rfl := Option.some.inj (hwaits.symm.trans hcorrelation)
      exact hpending
    · intro hdrop
      exact hdrop _ _ hcall hwaits
  unfold dropCall
  split
  · next request hcall => exact htidy hcall rfl
  · next request hcall => exact htidy hcall rfl
  · next hsending hwaiting =>
      refine iff_of_true h ?_
      intro i correlation hi hcorrelation
      obtain ⟨request, phase⟩ := i
      cases phase with
      | sending => exact absurd hi (hsending request)
      | waiting => exact absurd hi (hwaiting request)
      | returned result => cases hcorrelation
      | dropped => cases hcorrelation

theorem exact_route (h : self.Exact) (env : SignedEnvelope) :
    ({ self with mux := self.mux.route env } : Session).Exact := by
  rcases self.mux.conn.route_replies env with
    ⟨hpending, hreplies⟩ | ⟨call, hcall, hpending, hreplies⟩
  · have hsame : ({ self with mux := self.mux.route env } : Session).waiting = self.waiting := by
      funext n
      rw [waiting, waiting]
      change (if (self.mux.conn.route env).replies[n]? = none then _ else _) = _
      rw [hreplies]
    rw [Exact, hsame]
    change WaiterTable.Exact (self.mux.conn.route env).pending _
    rw [hpending]
    exact h
  · have hanswered : ({ self with mux := self.mux.route env } : Session).waiting =
        Function.update self.waiting call none := by
      funext n
      rw [waiting]
      change (if (self.mux.conn.route env).replies[n]? = none then _ else _) = _
      rw [hreplies, HashMap.getElem?_insert]
      by_cases hn : n = call
      · subst hn
        simp
      · rw [Function.update_of_ne hn, if_neg hn, waiting]
    rw [Exact, hanswered]
    change WaiterTable.Exact (self.mux.conn.route env).pending _
    rw [hpending]
    exact h.answer hcall

theorem exact_sameCalls {mux : Mux} {opening : HashMap Nat SignedEnvelope} {runs runs' : Bool}
    (h : self.Exact) (hsame : SameCalls self.mux mux) :
    Exact { mux, calls := self.calls, opening, readerRuns := runs, writerRuns := runs' } := by
  have hwaiting : (Session.mk mux self.calls opening runs runs').waiting = self.waiting := by
    funext n
    rw [waiting, waiting, hsame.replies]
  rw [Exact, hwaiting, hsame.pending]
  exact h

/-! ### Numbers -/

theorem numbered_established (peer : VerifiedPeer) : (established peer).Numbered := by
  refine ⟨?_, ?_, ?_⟩
  · intro n i h
    change (∅ : HashMap Nat Invocation)[n]? = some i at h
    simp at h
  · intro correlation n h
    change (∅ : HashMap Bytes Nat)[correlation]? = some n at h
    simp at h
  · intro n env h
    change (∅ : HashMap Nat SignedEnvelope)[n]? = some env at h
    simp at h

theorem Numbered.sameCalls {mux : Mux} {opening : HashMap Nat SignedEnvelope} {runs runs' : Bool}
    (h : self.Numbered) (hsame : SameCalls self.mux mux) :
    Numbered { mux, calls := self.calls, opening, readerRuns := runs, writerRuns := runs' } := by
  refine ⟨?_, ?_, ?_⟩
  · intro n i hi
    exact Nat.lt_of_lt_of_le (h.calls n i hi) hsame.nextId
  · intro correlation n hn
    exact Nat.lt_of_lt_of_le (h.pending correlation n (hsame.pending ▸ hn)) hsame.nextId
  · intro n env henv
    exact Nat.lt_of_lt_of_le (h.replies n env (hsame.replies ▸ henv)) hsame.nextId

theorem Numbered.setCall (h : self.Numbered) {old : Invocation}
    (hcall : self.calls[call]? = some old) (invocation : Invocation) :
    (self.setCall call invocation).Numbered := by
  refine ⟨?_, h.pending, h.replies⟩
  intro n i hi
  change (self.calls.insert call invocation)[n]? = some i at hi
  rw [HashMap.getElem?_insert] at hi
  split_ifs at hi with hn
  · exact hn ▸ h.calls call old hcall
  · exact h.calls n i hi

theorem numbered_call (h : self.Numbered) (payload : EnvelopePayload) :
    (self.call key payload).Numbered := by
  unfold Session.call
  split
  · exact h
  next request hsign =>
  refine ⟨?_, ?_, ?_⟩
  · intro n i hi
    change (self.calls.insert self.mux.nextId _)[n]? = some i at hi
    rw [HashMap.getElem?_insert] at hi
    split_ifs at hi with hn
    · rw [hn]
      exact Nat.lt_succ_self _
    · exact Nat.lt_succ_of_lt (h.calls n i hi)
  · intro correlation n hn
    change (self.mux.conn.pending.insert payload.correlation self.mux.nextId)[correlation]? =
      some n at hn
    rw [HashMap.getElem?_insert] at hn
    split_ifs at hn with hc
    · rw [← Option.some.inj hn]
      exact Nat.lt_succ_self _
    · exact Nat.lt_succ_of_lt (h.pending correlation n hn)
  · intro n env henv
    exact Nat.lt_succ_of_lt (h.replies n env henv)

theorem numbered_timeout (h : self.Numbered) (call : Nat) : (self.timeout call).Numbered := by
  unfold Session.timeout
  split
  · next request hcall =>
      have hset := h.setCall hcall { request, phase := .returned (.error .timeout) }
      refine ⟨hset.calls, ?_, hset.replies⟩
      intro correlation n hn
      change (self.mux.conn.pending.erase request.payload.correlation)[correlation]? = some n at hn
      rw [HashMap.getElem?_erase] at hn
      split_ifs at hn
      exact h.pending correlation n hn
  · exact h

theorem Numbered.route (h : self.Numbered) (env : SignedEnvelope) :
    ({ self with mux := self.mux.route env } : Session).Numbered := by
  rcases self.mux.conn.route_replies env with
    ⟨hpending, hreplies⟩ | ⟨call, hcall, hpending, hreplies⟩
  · refine ⟨h.calls, ?_, ?_⟩
    · intro correlation n hn
      change (self.mux.conn.route env).pending[correlation]? = some n at hn
      exact h.pending correlation n (hpending ▸ hn)
    · intro n reply hreply
      change (self.mux.conn.route env).replies[n]? = some reply at hreply
      exact h.replies n reply (hreplies ▸ hreply)
  · refine ⟨h.calls, ?_, ?_⟩
    · intro correlation n hn
      change (self.mux.conn.route env).pending[correlation]? = some n at hn
      rw [hpending, HashMap.getElem?_erase] at hn
      split_ifs at hn
      exact h.pending correlation n hn
    · intro n reply hreply
      change (self.mux.conn.route env).replies[n]? = some reply at hreply
      rw [hreplies, HashMap.getElem?_insert] at hreply
      split_ifs at hreply with hn
      · exact hn ▸ h.pending _ call hcall
      · exact h.replies n reply hreply

/-- What a call does between its start and its end, but for timing out. -/
theorem mux_send (self : Session) (call : Nat) : (self.send call).mux = self.mux := by
  unfold send
  repeat' split
  all_goals rfl

theorem mux_resume (self : Session) (call : Nat) : (self.resume call).mux = self.mux := by
  unfold resume
  repeat' split
  all_goals rfl

theorem mux_dropCall (self : Session) (call : Nat) : (self.dropCall call).mux = self.mux := by
  unfold dropCall
  split <;> rfl

theorem numbered_step (h : self.Numbered) (event : SessionEvent) :
    (self.step key event).Numbered := by
  cases event with
  | call payload => exact numbered_call h payload
  | send call =>
      change (self.send call).Numbered
      unfold send
      split
      · next request hcall => split <;> exact h.setCall hcall _
      · exact h
  | resume call =>
      change (self.resume call).Numbered
      unfold resume
      split
      · next request hcall =>
          split
          · exact h.setCall hcall _
          · split_ifs
            · exact h
            · exact h.setCall hcall _
      · exact h
  | timeout call => exact numbered_timeout h call
  | dropCall call =>
      change (self.dropCall call).Numbered
      unfold dropCall
      split
      · next request hcall => exact h.setCall hcall _
      · next request hcall => exact h.setCall hcall _
      · exact h
  | callStream payload =>
      change (self.callStream key payload).Numbered
      unfold callStream
      split
      · exact h
      · exact h.sameCalls ⟨rfl, rfl, Nat.le_succ _⟩
  | sendStream id =>
      change (self.sendStream id).Numbered
      unfold sendStream
      repeat' split
      · exact h
      · exact h.sameCalls (.refl _)
      · exact h.sameCalls (sameCalls_act _ (.drop id)).1
  | subscribe topic => exact h.sameCalls (sameCalls_act _ (.subscribe topic)).1
  | recv id => exact h.sameCalls (sameCalls_act _ (.recv id)).1
  | dropReceiver id => exact h.sameCalls (sameCalls_act _ (.drop id)).1
  | recvRequest => exact h.sameCalls (sameCalls_act _ .recvRequest).1
  | frame now plaintext =>
      change (self.frame crypto now plaintext).Numbered
      rcases frame_cases crypto self now plaintext with hsame | hstop | ⟨env, hroute⟩
      · rw [hsame]
        exact h
      · rw [hstop]
        exact h.sameCalls (.refl _)
      · rw [hroute]
        exact h.route env
  | eof => exact h.sameCalls (.refl _)
  | writerStops => exact h.sameCalls (.refl _)

/-! ### Runs -/

theorem exact_step_iff (h : self.Exact) (hnum : self.Numbered) (event : SessionEvent) :
    (self.step key event).Exact ↔ self.Tidy key event := by
  cases event with
  | call payload => exact exact_call_iff h hnum
  | send call => exact exact_send_iff h
  | resume call => exact iff_of_true (exact_resume h) trivial
  | timeout call => exact exact_timeout_iff h
  | dropCall call => exact exact_dropCall_iff h
  | callStream payload =>
      apply iff_of_true _ trivial
      change (self.callStream key payload).Exact
      unfold callStream
      split
      · exact h
      · exact exact_sameCalls h ⟨rfl, rfl, Nat.le_succ _⟩
  | sendStream id =>
      apply iff_of_true _ trivial
      change (self.sendStream id).Exact
      unfold sendStream
      repeat' split
      · exact h
      · exact exact_sameCalls h (.refl _)
      · exact exact_sameCalls h (sameCalls_act _ (.drop id)).1
  | subscribe topic =>
      exact iff_of_true (exact_sameCalls h (sameCalls_act _ (.subscribe topic)).1) trivial
  | recv id => exact iff_of_true (exact_sameCalls h (sameCalls_act _ (.recv id)).1) trivial
  | dropReceiver id => exact iff_of_true (exact_sameCalls h (sameCalls_act _ (.drop id)).1) trivial
  | recvRequest => exact iff_of_true (exact_sameCalls h (sameCalls_act _ .recvRequest).1) trivial
  | frame now plaintext =>
      apply iff_of_true _ trivial
      change (self.frame crypto now plaintext).Exact
      rcases frame_cases crypto self now plaintext with hsame | hstop | ⟨env, hroute⟩
      · rw [hsame]
        exact h
      · rw [hstop]
        exact exact_sameCalls h (.refl _)
      · rw [hroute]
        exact exact_route h env
  | eof => exact iff_of_true (exact_sameCalls h (.refl _)) trivial
  | writerStops => exact iff_of_true (exact_sameCalls h (.refl _)) trivial

/-- A tidy event of one call takes no entry from another. -/
theorem Tidy.undisturbed {event : SessionEvent} (htidy : self.Tidy key event) :
    self.Undisturbed key event := by
  intro n hactor correlation other hother hpending
  cases event with
  | call payload =>
      obtain rfl : self.mux.nextId = n := Option.some.inj hactor
      change (self.call key payload).mux.conn.pending[correlation]? = some other
      cases hsign : payload.sign key with
      | error e =>
          rw [(call_of_not_sign (by simp [hsign])).1]
          exact hpending
      | ok request =>
          rw [call_of_sign hsign]
          change (self.mux.conn.pending.insert payload.correlation _)[correlation]? = some other
          rw [HashMap.getElem?_insert]
          split_ifs with hc
          · have hnone := htidy request hsign
            rw [← hc, hpending] at hnone
            cases hnone
          · exact hpending
  | send call =>
      change (self.send call).mux.conn.pending[correlation]? = some other
      rw [mux_send]
      exact hpending
  | resume call =>
      change (self.resume call).mux.conn.pending[correlation]? = some other
      rw [mux_resume]
      exact hpending
  | dropCall call =>
      change (self.dropCall call).mux.conn.pending[correlation]? = some other
      rw [mux_dropCall]
      exact hpending
  | timeout call =>
      obtain rfl : call = n := Option.some.inj hactor
      change (self.timeout call).mux.conn.pending[correlation]? = some other
      unfold timeout
      split
      · next request hcall =>
          change (self.mux.conn.pending.erase request.payload.correlation)[correlation]? =
            some other
          rw [HashMap.getElem?_erase]
          split_ifs with hc
          · exact absurd (htidy request hcall other (hc ▸ hpending)) hother
          · exact hpending
      · exact hpending
  | _ => cases hactor

theorem exact_established (peer : VerifiedPeer) : (established peer).Exact := by
  have hwaiting : (established peer).waiting = fun _ => none := by
    funext n
    rw [waiting]
    split_ifs
    · change Option.bind (∅ : HashMap Nat Invocation)[n]? _ = none
      simp
    · rfl
  rw [Exact, hwaiting]
  exact WaiterTable.exact_empty

/-- **The table of pending calls.** Over a run there is always an entry for each call that still
waits and for no other, and no call takes another one's entry, exactly when every event of the run
is tidy. -/
theorem pending_exact_iff (key : WorkingKey crypto) (peer : VerifiedPeer)
    (events : List SessionEvent) :
    ((∀ s ∈ Run.states (step key) (established peer) events, s.Exact) ∧
      Run.EachStep (step key) (Undisturbed key) (established peer) events) ↔
    Run.EachStep (step key) (Tidy key) (established peer) events := by
  have hexact : ∀ s : Session, s.Exact ∧ s.Numbered → s.Exact := fun s h => h.1
  have hstep : ∀ (s : Session) (event : SessionEvent), s.Exact ∧ s.Numbered →
      ((s.step key event).Exact ↔ s.Tidy key event) := fun s event h => exact_step_iff h.1 h.2 event
  rw [Run.states_property_iff hexact hstep
    (fun s event h htidy => ⟨(hstep s event h).mpr htidy, numbered_step h.2 event⟩)
    ⟨exact_established peer, numbered_established peer⟩, and_iff_left_iff_imp]
  exact Run.EachStep.imp fun s event htidy => Tidy.undisturbed htidy

/-! ### A retry and a failed send -/

def sampleKey : WorkingKey Crypto.checked := ⟨(1 : UInt8)⟩

def sampleServer : VerifiedPeer := { id := ⟨[2]⟩, workingPub := seedPublic 2, keyNotAfter := 100 }

def sampleCall : EnvelopePayload := EnvelopePayload.base ⟨[1]⟩ ⟨[2]⟩ .request [7]

/-- The same request is sent again while the first call still waits. -/
def retried : Session :=
  Run.exec (step sampleKey) (established sampleServer) [.call sampleCall, .send 0, .call sampleCall]

/-- The writer has stopped when the request is queued. -/
def failedSend : Session :=
  Run.exec (step sampleKey) (established sampleServer) [.writerStops, .call sampleCall, .send 0]

theorem waiters_are_replaced_and_left : ¬retried.Exact ∧ ¬failedSend.Exact := by
  constructor
  · intro hexact
    have hwaits : retried.waiting 0 = some [7] := by decide +kernel
    have hfiled : retried.mux.conn.pending[([7] : Bytes)]? = some 1 := by decide +kernel
    rw [(hexact [7] 0).mpr hwaits] at hfiled
    cases hfiled
  · intro hexact
    have hfiled : failedSend.mux.conn.pending[([7] : Bytes)]? = some 0 := by decide +kernel
    have hreturned : failedSend.waiting 0 = none := by decide +kernel
    rw [(hexact [7] 0).mp hfiled] at hreturned
    cases hreturned

end Session

end Thicket.Net
