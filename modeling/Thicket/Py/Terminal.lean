import Thicket.Net.Outgoing
import Thicket.Py.Demux
import Thicket.Py.Fiber
import Mathlib.Data.List.TakeWhile

/-!
# The frames that are sent for a request

`Fiber._handler` with its sends: the checks come before the `try` statement, so what one of them
raises is not answered but ends the connection; what the function raises is answered, and what a
generator raises is swallowed. Only what can be encoded and fits into a frame is sent.
-/

namespace Thicket.Py

open Cbor (Bytes)
open Result

/-- A response, an error, or a chunk with `stream_end`. -/
def Frame.isTerminal : Frame → Bool
  | .response _ | .error _ _ => true
  | .streamChunk _ isEnd _ => isEnd

/-- One terminal frame is sent, after all others. -/
def ExactlyOneTerminal (frames : List Frame) : Prop :=
  ∃ chunks terminal, frames = chunks ++ [terminal] ∧ terminal.isTerminal = true ∧
    ∀ chunk ∈ chunks, chunk.isTerminal = false

/-- What a capability's function does: it returns what is then encoded, raises a `ThicketError` or
another `Exception`, here or in encoding, or yields chunks until it is exhausted or raises. `aborts`
is an exception that is no `Exception` or that no error frame can be made of. -/
inductive Behaviour where
  | returns (body : Bytes)
  | raises (code message : String)
  | fails (text : String)
  | aborts
  | yields (chunks : List Bytes) (exhausted : Bool)

/-- The behaviour of a function at a payload and a context. -/
def Fn.behaviour (fn : Fn) (payload ctx : Value) : Behaviour :=
  match fn with
  | .generator run => .yields (run payload ctx).1 (run payload ctx).2
  | .coroutine run =>
      match run payload ctx with
      | .ok body => .returns body
      | .error (.thicketError code message) => .raises code message
      | .error (.exception text) => .fails text

/-- What a request is answered with, and whether its handler returns. -/
structure Handled where
  frames : List Frame
  returned : Bool

/-- A request, when its deadline and its grant are checked, what the functions of the capabilities
do with it, and whether the report of a span in a context comes to an end. -/
structure Call where
  request : Payload
  now : Int
  unixNow : Int
  behave : String → Value → Value → Behaviour
  reportEnds : Value → Bool

/-- The checks turn a request away or let it in to a capability with a context. -/
inductive Decision where
  | reject (frame : Frame)
  | letIn (name : String) (entry : Cap) (ctx : Value)

namespace Fiber

variable {crypto : Crypto} (self : Fiber crypto)

section Checks

variable (repr str : Value → String)

/-- The context of the function, once its checkpoint has opened. -/
def openCheckpoint (name : String) (entry : Cap) (env : Value) : Except Exc Decision := do
  let ctx ← selfContext self.sink env
  match self.checkpoints with
  | none => return .letIn name entry ctx
  | some loads =>
      let traceId ← env.get (.str "trace_id") .none
      if entry.durable && traceId.truthy then loads traceId
      return .letIn name entry ctx

def openGate (name : String) (entry : Cap) (peerPub : Bytes) (payload env : Value)
    (unixNow : Int) : Except Exc Decision := do
  if entry.requireGrant || self.requireGrant then
    if !(← self.grantOk payload name peerPub unixNow) then
      return .reject (.error "Unauthorized" "valid grant required")
  self.openCheckpoint name entry env

def quotaMessage (budget : Value) (entry : Cap) (cap : Value) : String :=
  "budget " ++ str budget ++ " < cost " ++ str (.int entry.cost) ++ " for " ++ repr cap

def screen (name : String) (entry : Cap) (cap : Value) (peerPub : Bytes) (payload env : Value)
    (now unixNow : Int) : Except Exc Decision := do
  if ← Tracing.deadlineExceeded env now then
    return .reject (.error "DeadlineExceeded" "deadline passed")
  if ← Tracing.budgetExhausted env then
    return .reject (.error "BudgetExhausted" "no budget remaining")
  if ← overQuota entry env then
    return .reject
      (.error "QuotaExceeded" (quotaMessage repr str (← env.getItem "budget") entry cap))
  self.openGate name entry peerPub payload env unixNow

/-- What comes before the `try` statement. -/
def decision (peerPub : Bytes) (payload : Value) (now unixNow : Int) : Except Exc Decision := do
  let cap ← payload.get (.str "capability") .none
  match ← getCap self.caps cap with
  | none => return .reject (.error "NotFound" ("unknown capability " ++ repr cap))
  | some (name, entry) =>
      let env := (← payload.get (.str "context") .none).orElse (.dict [])
      self.screen repr str name entry cap peerPub payload env now unixNow

end Checks

section Sends

/-- `_send_signed`: the message is encoded, and has to fit into a frame. -/
def send (payload : Value) (frame : Frame) : Except Exc Unit := do
  let blob ← Conn.sendSigned self.localId payload frame
  if Net.Fits blob then return () else .error .valueError

def sends (payload : Value) (frame : Frame) : Bool := (self.send payload frame).isOk

/-- A frame that cannot be sent makes the handler raise. -/
def attempt (payload : Value) (frame : Frame) : Handled :=
  if self.sends payload frame then ⟨[frame], true⟩ else ⟨[], false⟩

/-- What is raised in the span is answered after it, if its report comes to an end. -/
def attemptAfter (spanEnds : Bool) (payload : Value) (frame : Frame) : Handled :=
  if spanEnds then self.attempt payload frame else ⟨[], false⟩

variable (excText : Exc → String)

/-- The `try` statement. -/
def sendOutcome (payload : Value) (spanEnds : Bool) : Behaviour → Handled
  | .returns body =>
      match self.send payload (.response body) with
      | .ok () => ⟨[.response body], spanEnds⟩
      | .error e => self.attemptAfter spanEnds payload (.error "Error" (excText e))
  | .raises code message => self.attemptAfter spanEnds payload (.error code message)
  | .fails text => self.attemptAfter spanEnds payload (.error "Error" text)
  | .aborts => ⟨[], false⟩
  -- `_stream` swallows what a chunk raises, in the generator or in sending it.
  | .yields chunks exhausted =>
      ⟨(stream chunks exhausted).takeWhile (self.sends payload), spanEnds⟩

end Sends

/-- Whether the `async with` of the span is left: it reports to the sink of the context, if there is
one and a trace to report. -/
def spanEnds (reportEnds : Value → Bool) (ctx : Value) : Bool :=
  match ctx.get (.str "sink") .none, ctx.get (.str "trace_id") .none with
  | .ok sink, .ok traceId => !(sink.truthy && traceId.truthy) || reportEnds ctx
  | _, _ => true

section Handle

variable (repr str : Value → String) (excText : Exc → String) (peerPub : Bytes)

/-- What follows the checks: a check that raises ends the connection. -/
def follow (call : Call) : Except Exc Decision → Handled
  | .error _ => ⟨[], false⟩
  | .ok (.reject frame) => self.attempt (.dict call.request) frame
  | .ok (.letIn name _ ctx) =>
      self.sendOutcome excText (.dict call.request) (spanEnds call.reportEnds ctx)
        (call.behave name (.dict call.request) ctx)

def handle (call : Call) : Handled :=
  self.follow excText call
    (self.decision repr str peerPub (.dict call.request) call.now call.unixNow)

/-- The loop of `serve`: what is sent for each request that a connection receives. It handles them
one after the other and ends when a handler raises. -/
def onClient : List Call → List (List Frame)
  | [] => []
  | call :: calls =>
      let handled := self.handle repr str excText peerPub call
      handled.frames :: if handled.returned then onClient calls else calls.map fun _ => []

end Handle

/-! ### When it is one -/

/-- What is made of a behaviour reaches the connection. -/
def Delivers (excText : Exc → String) (payload : Value) (spanEnds : Bool) : Behaviour → Prop
  | .returns body =>
      self.sends payload (.response body) = true ∨ spanEnds = true ∧
        ∃ e, self.send payload (.response body) = .error e ∧
          self.sends payload (.error "Error" (excText e)) = true
  | .raises code message => spanEnds = true ∧ self.sends payload (.error code message) = true
  | .fails text => spanEnds = true ∧ self.sends payload (.error "Error" text) = true
  | .aborts => False
  | .yields chunks exhausted =>
      exhausted = true ∧ ∀ frame ∈ stream chunks true, self.sends payload frame = true

/-- The value is `None`, as it is where it is left out, or a number. -/
def NumberOrNone (value : Value) : Prop := value = .none ∨ value.asInt.isSome = true

/-- The value is a number with a property. -/
def isNumber (value : Value) (p : Int → Bool) : Bool := value.asInt.any p

section Answers

variable (repr str : Value → String) (excText : Exc → String) (peerPub : Bytes) (call : Call)
  (more : Bool)

/-- The checkpoint opens, and what the function comes to reaches the connection; if there are more
requests, the report of the span comes to an end. -/
def AnswersRun (name : String) (entry : Cap) (context : Payload) : Prop :=
  (∀ loads, self.checkpoints = some loads → entry.durable = true →
    (context.getD "trace_id" .none).truthy = true →
    loads (context.getD "trace_id" .none) = .ok ()) ∧
  ∀ ctx, selfContext self.sink (.dict context) = .ok ctx →
    self.Delivers excText (.dict call.request) (spanEnds call.reportEnds ctx)
      (call.behave name (.dict call.request) ctx) ∧
    (more = true → spanEnds call.reportEnds ctx = true)

/-- If a grant is required, its verification does not raise. -/
def AnswersGate (name : String) (entry : Cap) (context : Payload) : Prop :=
  if entry.requireGrant || self.requireGrant then
    ∃ granted, self.grantOk (.dict call.request) name peerPub call.unixNow = .ok granted ∧
      if granted then self.AnswersRun excText call more name entry context
      else
        self.sends (.dict call.request) (.error "Unauthorized" "valid grant required") = true
  else self.AnswersRun excText call more name entry context

/-- The deadline is a number, and so is the budget where the deadline has not passed. -/
def AnswersContext (name : String) (entry : Cap) (context : Payload) : Prop :=
  NumberOrNone (context.getD "deadline" .none) ∧
  if isNumber (context.getD "deadline" .none) (· < call.now) then
    self.sends (.dict call.request) (.error "DeadlineExceeded" "deadline passed") = true
  else NumberOrNone (context.getD "budget" .none) ∧
    if isNumber (context.getD "budget" .none) (· ≤ 0) then
      self.sends (.dict call.request) (.error "BudgetExhausted" "no budget remaining") = true
    else if entry.cost ≠ 0 ∧ isNumber (context.getD "budget" .none) (· < entry.cost) then
      self.sends (.dict call.request) (.error "QuotaExceeded" (quotaMessage repr str
        (context.getD "budget" .none) entry (call.request.getD "capability" .none))) = true
    else self.AnswersGate excText peerPub call more name entry context

/-- The capability can be looked up, the context is a dictionary if the capability is known, and the
checks go through in turn: the frame that they end in can be sent. -/
def Answers : Prop :=
  (call.request.getD "capability" .none).isHashable = true ∧
  match self.caps.find? fun e => (Value.str e.1).eq (call.request.getD "capability" .none) with
  | none =>
      self.sends (.dict call.request) (.error "NotFound"
        ("unknown capability " ++ repr (call.request.getD "capability" .none))) = true
  | some (name, entry) =>
      ∃ context : Payload, (call.request.getD "context" .none).orElse (.dict []) = .dict context ∧
        self.AnswersContext repr str excText peerPub call more name entry context

/-- So it is for all requests of a connection. -/
def AnswersAll : List Call → Prop
  | [] => True
  | call :: calls =>
      self.Answers repr str excText peerPub call (!calls.isEmpty) ∧ AnswersAll calls

end Answers

/-- One terminal frame is sent, and if there are more requests, the handler returns. -/
def Settles (more : Bool) (handled : Handled) : Prop :=
  ExactlyOneTerminal handled.frames ∧ (more = true → handled.returned = true)

variable {self} {payload : Value} {frame : Frame} {more : Bool}

theorem exactlyOne_singleton (h : frame.isTerminal = true) : ExactlyOneTerminal [frame] :=
  ⟨[], frame, rfl, h, List.forall_mem_nil _⟩

theorem not_exactlyOne_nil : ¬ExactlyOneTerminal [] := by
  intro ⟨chunks, terminal, heq, _⟩
  exact absurd heq.symm (by simp)

theorem settles_attempt (h : frame.isTerminal = true) :
    Settles more (self.attempt payload frame) ↔ self.sends payload frame = true := by
  rw [attempt]
  split_ifs with hsends
  · exact iff_of_true ⟨exactlyOne_singleton h, fun _ => rfl⟩ hsends
  · exact iff_of_false (fun h => not_exactlyOne_nil h.1) hsends

theorem settles_attemptAfter {ends : Bool} (h : frame.isTerminal = true) :
    Settles more (self.attemptAfter ends payload frame) ↔
      ends = true ∧ self.sends payload frame = true := by
  cases ends with
  | true =>
      rw [attemptAfter, if_pos rfl, settles_attempt h]
      simp
  | false => exact iff_of_false (fun h => not_exactlyOne_nil h.1) (by simp)

/-! ### A stream -/

/-- The chunks of a stream, without the end marker. -/
def chunkFrames (chunks : List Bytes) : List Frame :=
  chunks.mapIdx fun seq chunk => Frame.streamChunk seq false chunk

theorem stream_eq (chunks : List Bytes) (exhausted : Bool) : stream chunks exhausted =
    chunkFrames chunks ++ if exhausted then [.streamChunk chunks.length true []] else [] := by
  cases exhausted with
  | true => rfl
  | false => exact (List.append_nil _).symm

theorem not_isTerminal_of_chunk {chunks : List Bytes} (h : frame ∈ chunkFrames chunks) :
    frame.isTerminal = false := by
  obtain ⟨_, _, rfl⟩ := List.mem_mapIdx.mp h
  rfl

/-- A generator's frames end with a terminal one when it is exhausted and all of them are sent. -/
theorem exactlyOne_stream (sends : Frame → Bool) (chunks : List Bytes) (exhausted : Bool) :
    ExactlyOneTerminal ((stream chunks exhausted).takeWhile sends) ↔
      exhausted = true ∧ ∀ frame ∈ stream chunks true, sends frame = true := by
  constructor
  · intro ⟨before, terminal, heq, hterminal, _⟩
    have hmem : terminal ∈ (stream chunks exhausted).takeWhile sends := by
      rw [heq]
      simp
    have hnot : terminal ∉ chunkFrames chunks := by
      intro hchunk
      rw [not_isTerminal_of_chunk hchunk] at hterminal
      cases hterminal
    have hsent := List.mem_takeWhile_imp hmem
    -- the terminal frame is the end marker, so everything before it is sent
    cases exhausted with
    | false =>
        rw [stream_eq, if_neg Bool.false_ne_true, List.append_nil] at hmem
        exact absurd ((List.takeWhile_sublist sends).subset hmem) hnot
    | true =>
        refine ⟨rfl, ?_⟩
        rw [stream_eq, if_pos rfl] at hmem ⊢
        have hall : (chunkFrames chunks).takeWhile sends = chunkFrames chunks := by
          by_contra hstopped
          rw [List.takeWhile_append, if_neg] at hmem
          · exact hnot ((List.takeWhile_sublist sends).subset hmem)
          · intro hlength
            exact hstopped ((List.takeWhile_sublist sends).eq_of_length hlength)
        have hend : terminal = .streamChunk chunks.length true [] := by
          have h := (List.takeWhile_sublist sends).subset hmem
          rcases List.mem_append.mp h with h | h
          · exact absurd h hnot
          · exact List.mem_singleton.mp h
        intro frame hframe
        rcases List.mem_append.mp hframe with hframe | hframe
        · exact List.takeWhile_eq_self_iff.mp hall frame hframe
        · rw [List.mem_singleton.mp hframe, ← hend]
          exact hsent
  · intro ⟨hexhausted, hsends⟩
    rw [hexhausted, List.takeWhile_eq_self_iff.mpr hsends, stream_eq]
    exact ⟨_, _, rfl, rfl, fun _ h => not_isTerminal_of_chunk h⟩

theorem settles_sendOutcome (excText : Exc → String) (payload : Value) (ends : Bool)
    (behaviour : Behaviour) : Settles more (self.sendOutcome excText payload ends behaviour) ↔
      self.Delivers excText payload ends behaviour ∧ (more = true → ends = true) := by
  have hreport : ∀ frame : Frame, frame.isTerminal = true →
      (Settles more (self.attemptAfter ends payload frame) ↔
        (ends = true ∧ self.sends payload frame = true) ∧ (more = true → ends = true)) := by
    intro frame hterminal
    rw [settles_attemptAfter hterminal]
    exact ⟨fun h => ⟨h, fun _ => h.1⟩, fun h => h.1⟩
  cases behaviour with
  | returns body =>
      rw [sendOutcome, Delivers, sends]
      cases hsend : self.send payload (.response body) with
      | ok => exact and_congr_left fun _ => iff_of_true (exactlyOne_singleton rfl) (.inl rfl)
      | error e => simpa [Except.isOk, Except.toBool] using hreport (.error "Error" (excText e)) rfl
  | raises code message => exact hreport _ rfl
  | fails text => exact hreport _ rfl
  | aborts => exact iff_of_false (fun h => not_exactlyOne_nil h.1) fun h => h.1
  | yields chunks exhausted => exact and_congr_left fun _ => exactlyOne_stream _ chunks exhausted

/-! ### The checks -/

section Checks

variable {context : Payload} {key : String} {now : Int} {entry : Cap}

/-- A check of a number that may be left out. -/
def checkNumber (value : Value) (p : Int → Bool) : Except Exc Bool :=
  match value with
  | .none => .ok false
  | value =>
      match value.asInt with
      | some n => .ok (p n)
      | none => .error .typeError

theorem checkNumber_ok {value : Value} (h : NumberOrNone value) (p : Int → Bool) :
    checkNumber value p = .ok (isNumber value p) := by
  cases value with
  | none | bool | int => rfl
  | bytes | str | list | dict => simp [NumberOrNone, Value.asInt] at h

theorem checkNumber_error {value : Value} (h : ¬NumberOrNone value) (p : Int → Bool) :
    checkNumber value p = .error .typeError := by
  cases value with
  | none | bool | int => simp [NumberOrNone, Value.asInt] at h
  | bytes | str | list | dict => rfl

theorem get_dict (payload : Payload) (key : String) (default : Value) :
    (Value.dict payload).get (.str key) default = .ok (payload.getD key default) := rfl

theorem dict_orElse (context : Payload) :
    (Value.dict context).orElse (.dict []) = .dict context := by
  cases context <;> rfl

theorem deadlineExceeded_dict : Tracing.deadlineExceeded (.dict context) now =
    checkNumber (context.getD "deadline" .none) (· < now) := by
  rw [Tracing.deadlineExceeded, dict_orElse, get_dict]
  cases context.getD "deadline" .none <;> rfl

theorem budgetExhausted_dict : Tracing.budgetExhausted (.dict context) =
    checkNumber (context.getD "budget" .none) (· ≤ 0) := by
  rw [Tracing.budgetExhausted, dict_orElse, get_dict]
  cases context.getD "budget" .none <;> rfl

theorem overQuota_dict (h : NumberOrNone (context.getD "budget" .none)) :
    overQuota entry (.dict context) = .ok (decide (entry.cost ≠ 0 ∧
      isNumber (context.getD "budget" .none) (· < entry.cost) = true)) := by
  rw [overQuota, get_dict]
  by_cases hcost : entry.cost = 0
  · rw [if_pos hcost, decide_eq_false fun h => h.1 hcost]
    rfl
  · have hcheck := checkNumber_ok h (· < entry.cost)
    rw [if_neg hcost]
    simp only [ne_eq, hcost, not_false_eq_true, true_and, Bool.decide_eq_true]
    rw [← hcheck]
    cases context.getD "budget" .none <;> rfl

/-- A budget that is a number is looked up. -/
theorem getItem_of_isNumber {p : Int → Bool} (h : isNumber (context.getD key .none) p = true) :
    (Value.dict context).getItem key = .ok (context.getD key .none) := by
  rw [isNumber, Payload.getD] at h
  rw [Value.getItem, Payload.getD]
  cases hfind : context.find? fun e => e.1.eq (.str key) with
  | some e => rfl
  | none =>
      rw [hfind] at h
      cases h

theorem items_dict (entries : Payload) : (Value.dict entries).items = .ok entries := rfl

theorem selfContext_dict (sink : Value) (context : Payload) :
    ∃ ctx, selfContext sink (.dict context) = .ok ctx := by
  have hset : ∀ v, ∃ entries, setItem context (.str "sink") v = .ok entries := by
    intro v
    rw [setItem, if_pos (by rfl)]
    split_ifs
    all_goals exact ⟨_, rfl⟩
  obtain ⟨entries, hentries⟩ := hset sink
  rw [selfContext, items_dict]
  cases sink with
  | none => exact ⟨_, rfl⟩
  | _ => exact ⟨.dict entries, by simp only [bind, Except.bind, hentries, pure, Except.pure]⟩

end Checks

/-! ### One terminal frame -/

section Answers

variable {repr str : Value → String} {excText : Exc → String} {peerPub : Bytes} {call : Call}
  {context : Payload} {name : String} {entry : Cap}

theorem settles_reject (h : frame.isTerminal = true) :
    Settles more (self.follow excText call (.ok (.reject frame))) ↔
      self.sends (.dict call.request) frame = true := settles_attempt h

theorem not_settles_error (e : Exc) : ¬Settles more (self.follow excText call (.error e)) :=
  fun h => not_exactlyOne_nil h.1

/-- The checkpoint is opened where there are checkpoints, for a durable capability in a trace. -/
theorem settles_run : Settles more (self.follow excText call
      (self.openCheckpoint name entry (.dict context))) ↔
    self.AnswersRun excText call more name entry context := by
  obtain ⟨ctx, hctx⟩ := selfContext_dict self.sink context
  have hdelivers : Settles more (self.follow excText call (.ok (.letIn name entry ctx))) ↔
      ∀ ctx', Except.ok (ε := Exc) ctx = .ok ctx' →
        self.Delivers excText (.dict call.request) (spanEnds call.reportEnds ctx')
          (call.behave name (.dict call.request) ctx') ∧
        (more = true → spanEnds call.reportEnds ctx' = true) := by
    rw [follow, settles_sendOutcome]
    simp
  rw [openCheckpoint, AnswersRun, hctx, get_dict]
  cases hloads : self.checkpoints with
  | none =>
      simp only [reduceCtorEq, false_implies, implies_true, true_and]
      exact hdelivers
  | some loads =>
      by_cases hopens : entry.durable = true ∧ (context.getD "trace_id" .none).truthy = true
      · cases hload : loads (context.getD "trace_id" .none) with
        | error e =>
            have hraises : ¬Settles more (self.follow excText call (.error e)) :=
              not_settles_error e
            simp [bind, Except.bind, hopens, hload, hraises]
        | ok =>
            simp only [bind, Except.bind, hopens, hload, Bool.and_self, if_pos, Option.some.injEq,
              forall_eq', true_and, forall_const]
            exact hdelivers
      · have hcond : (entry.durable && (context.getD "trace_id" .none).truthy) = false := by
          simpa using hopens
        simp only [bind, Except.bind, hcond, Bool.false_eq_true, if_false, pure, Except.pure]
        rw [hdelivers]
        exact (and_iff_right fun _ _ hdurable htrace => absurd ⟨hdurable, htrace⟩ hopens).symm

theorem settles_gate : Settles more (self.follow excText call
      (self.openGate name entry peerPub (.dict call.request) (.dict context) call.unixNow)) ↔
    self.AnswersGate excText peerPub call more name entry context := by
  rw [openGate, AnswersGate]
  by_cases hrequired : (entry.requireGrant || self.requireGrant) = true
  · rw [if_pos hrequired, if_pos hrequired]
    cases hgrant : self.grantOk (.dict call.request) name peerPub call.unixNow with
    | error e => exact iff_of_false (not_settles_error e) (by simp)
    | ok granted =>
        cases granted with
        | true => simpa [bind, Except.bind] using settles_run
        | false => simpa [bind, Except.bind, pure, Except.pure] using settles_reject rfl
  · rw [if_neg hrequired, if_neg hrequired]
    exact settles_run

theorem settles_screen : Settles more (self.follow excText call
      (self.screen repr str name entry (call.request.getD "capability" .none) peerPub
        (.dict call.request) (.dict context) call.now call.unixNow)) ↔
    self.AnswersContext repr str excText peerPub call more name entry context := by
  rw [screen, AnswersContext, deadlineExceeded_dict, budgetExhausted_dict]
  by_cases hdeadline : NumberOrNone (context.getD "deadline" .none)
  case neg =>
    rw [checkNumber_error hdeadline]
    exact iff_of_false (not_settles_error _) fun h => hdeadline h.1
  rw [checkNumber_ok hdeadline, and_iff_right hdeadline]
  cases isNumber (context.getD "deadline" .none) (· < call.now) with
  | true => exact settles_reject rfl
  | false =>
      by_cases hbudget : NumberOrNone (context.getD "budget" .none)
      case neg =>
        rw [checkNumber_error hbudget]
        exact iff_of_false (not_settles_error _) fun h => hbudget h.1
      rw [checkNumber_ok hbudget, overQuota_dict hbudget, if_neg Bool.false_ne_true,
        and_iff_right hbudget]
      cases isNumber (context.getD "budget" .none) (· ≤ 0) with
      | true => exact settles_reject rfl
      | false =>
          rw [if_neg Bool.false_ne_true]
          split_ifs with hquota
          · rw [decide_eq_true hquota, getItem_of_isNumber hquota.2]
            exact settles_reject rfl
          · rw [decide_eq_false hquota]
            exact settles_gate

/-- What is no dictionary has no `get`. -/
theorem screen_raises {env : Value} (htruthy : env.truthy = true)
    (hdict : ∀ context, env ≠ .dict context) (cap : Value) :
    self.screen repr str name entry cap peerPub (.dict call.request) env call.now call.unixNow =
      .error .attributeError := by
  rw [screen, Tracing.deadlineExceeded, Value.orElse, if_pos htruthy]
  cases env with
  | dict context => exact absurd rfl (hdict context)
  | _ => rfl

theorem settles_handle : Settles more (self.handle repr str excText peerPub call) ↔
    self.Answers repr str excText peerPub call more := by
  rw [handle, decision, get_dict, get_dict, Answers]
  by_cases hhash : (call.request.getD "capability" .none).isHashable = true
  case neg =>
    have hcap : getCap self.caps (call.request.getD "capability" .none) = .error .typeError :=
      if_neg hhash
    simp only [bind, Except.bind, hcap]
    exact iff_of_false (not_settles_error _) fun h => hhash h.1
  have hcap : getCap self.caps (call.request.getD "capability" .none) =
      .ok (self.caps.find? fun e => (Value.str e.1).eq (call.request.getD "capability" .none)) :=
    if_pos hhash
  simp only [bind, Except.bind, hcap]
  rw [and_iff_right hhash]
  cases self.caps.find? fun e => (Value.str e.1).eq (call.request.getD "capability" .none) with
  | none => exact settles_reject rfl
  | some found =>
      obtain ⟨name, entry⟩ := found
      dsimp only
      by_cases hdict : ∃ context,
          (call.request.getD "context" .none).orElse (.dict []) = .dict context
      · obtain ⟨context, hcontext⟩ := hdict
        simp only [hcontext, Value.dict.injEq, exists_eq_left']
        exact settles_screen
      · have htruthy : ((call.request.getD "context" .none).orElse (.dict [])).truthy = true := by
          rw [Value.orElse] at hdict ⊢
          split_ifs at hdict ⊢ with h
          · exact h
          · exact absurd ⟨[], rfl⟩ hdict
        rw [screen_raises htruthy fun context h => hdict ⟨context, h⟩]
        exact iff_of_false (not_settles_error _) fun ⟨context, h, _⟩ => hdict ⟨context, h⟩

/-- **Every request gets exactly one terminal frame**, after all its other frames, if and only if
for each request the capability can be looked up, what the checks read has its type, and the frame
that the request comes to can be sent. -/
theorem exactlyOneTerminal_iff (fiber : Fiber crypto) (repr str : Value → String)
    (excText : Exc → String) (peerPub : Bytes) (calls : List Call) :
    (∀ frames ∈ fiber.onClient repr str excText peerPub calls, ExactlyOneTerminal frames) ↔
      fiber.AnswersAll repr str excText peerPub calls := by
  induction calls with
  | nil => exact iff_of_true (List.forall_mem_nil _) trivial
  | cons call calls ih =>
      rw [onClient, AnswersAll, List.forall_mem_cons, ← settles_handle, Settles, ← ih, and_assoc]
      apply and_congr_right
      intro hframes
      cases hreturned : (fiber.handle repr str excText peerPub call).returned with
      | true => simp
      | false =>
          cases calls with
          | nil => simp [onClient]
          | cons next calls => simp [not_exactlyOne_nil]

end Answers

/-! ### The frames of the handler -/

section Handler

variable {repr str : Value → String} {excText : Exc → String} {peerPub : Bytes} {call : Call}
  {frames : List Frame} {name : String} {entry : Cap} {env : Value} {now unixNow : Int}

/-- What the handler comes to if every frame can be sent. -/
def decided (payload : Value) : Decision → List Frame
  | .reject frame => [frame]
  | .letIn _ entry ctx => invoke entry.fn payload ctx

theorem serve_eq : self.serve entry payload env =
    decided payload <$> self.openCheckpoint name entry env := by
  rw [serve, openCheckpoint, map_bind]
  apply bind_congr
  intro ctx
  cases self.checkpoints with
  | none => rfl
  | some loads =>
      rw [map_bind]
      apply bind_congr
      intro traceId
      split_ifs
      · rw [map_bind]
        rfl
      · rfl

theorem gate_eq : self.gate name entry peerPub payload env unixNow =
    decided payload <$> self.openGate name entry peerPub payload env unixNow := by
  rw [gate, openGate]
  split_ifs
  · rw [map_bind]
    apply bind_congr
    intro granted
    cases granted with
    | true => exact serve_eq
    | false => rfl
  · exact serve_eq

theorem handler_eq : self.handler repr str peerPub payload now unixNow =
    decided payload <$> self.decision repr str peerPub payload now unixNow := by
  rw [handler, decision, map_bind]
  apply bind_congr
  intro cap
  rw [map_bind]
  apply bind_congr
  intro found
  cases found with
  | none => rfl
  | some found =>
      rw [map_bind]
      apply bind_congr
      intro context
      simp only [screen, map_bind]
      apply bind_congr
      intro late
      split_ifs
      · rfl
      · rw [map_bind]
        apply bind_congr
        intro spent
        split_ifs
        · rfl
        · rw [map_bind]
          apply bind_congr
          intro short
          split_ifs
          · rw [map_bind]
            rfl
          · exact gate_eq

/-- A request is let in to the capability that it names. -/
theorem openGate_letIn {name' : String} {entry' : Cap} {ctx : Value}
    (h : self.openGate name entry peerPub payload env unixNow = .ok (.letIn name' entry' ctx)) :
    name = name' ∧ entry = entry' := by
  have hopen : self.openCheckpoint name entry env = .ok (.letIn name' entry' ctx) := by
    rw [openGate] at h
    split_ifs at h
    · obtain ⟨granted, -, h⟩ := bind_eq_ok.mp h
      cases granted with
      | true => exact h
      | false => cases h
    · exact h
  obtain ⟨own, -, hopen⟩ := bind_eq_ok.mp hopen
  suffices hletIn : Decision.letIn name entry own = .letIn name' entry' ctx from
    ⟨(Decision.letIn.inj hletIn).1, (Decision.letIn.inj hletIn).2.1⟩
  cases hloads : self.checkpoints with
  | none =>
      rw [hloads] at hopen
      exact pure_eq_ok.mp hopen
  | some loads =>
      rw [hloads] at hopen
      obtain ⟨traceId, -, hopen⟩ := bind_eq_ok.mp hopen
      split_ifs at hopen
      · obtain ⟨_, -, hopen⟩ := bind_eq_ok.mp hopen
        exact pure_eq_ok.mp hopen
      · exact pure_eq_ok.mp hopen

theorem decision_letIn {request : Payload} {ctx : Value}
    (h : self.decision repr str peerPub (.dict request) now unixNow = .ok (.letIn name entry ctx)) :
    getCap self.caps (request.getD "capability" .none) = .ok (some (name, entry)) := by
  rw [decision, get_dict, get_dict] at h
  obtain ⟨cap, hcap, h⟩ := bind_eq_ok.mp h
  obtain rfl := Except.ok.inj hcap
  obtain ⟨found, hfound, h⟩ := bind_eq_ok.mp h
  cases found with
  | none => cases h
  | some found =>
      obtain ⟨context, -, h⟩ := bind_eq_ok.mp h
      obtain ⟨late, -, h⟩ := bind_eq_ok.mp h
      split_ifs at h
      · cases h
      obtain ⟨spent, -, h⟩ := bind_eq_ok.mp h
      split_ifs at h
      · cases h
      obtain ⟨short, -, h⟩ := bind_eq_ok.mp h
      split_ifs at h
      · obtain ⟨_, -, h⟩ := bind_eq_ok.mp h
        cases h
      obtain ⟨hname, hentry⟩ := openGate_letIn h
      rw [← hname, ← hentry]
      exact hfound

theorem attempt_of_sends (h : self.sends payload frame = true) :
    (self.attempt payload frame).frames = [frame] := by
  rw [attempt, if_pos h]

/-- What a function comes to is sent if it can be. -/
theorem sendOutcome_behaviour {fn : Fn} {ctx : Value}
    (hsends : ∀ frame ∈ invoke fn payload ctx, self.sends payload frame = true) :
    (self.sendOutcome excText payload true (fn.behaviour payload ctx)).frames =
      invoke fn payload ctx := by
  cases fn with
  | generator run => exact List.takeWhile_eq_self_iff.mpr hsends
  | coroutine run =>
      rw [invoke] at hsends ⊢
      rw [Fn.behaviour]
      cases hrun : run payload ctx with
      | ok body =>
          rw [hrun] at hsends
          have hsend := eq_ok_valueOr (d := ()) (hsends _ List.mem_cons_self)
          rw [sendOutcome, hsend]
      | error e =>
          rw [hrun] at hsends
          cases e with
          | thicketError code message => exact attempt_of_sends (hsends _ List.mem_cons_self)
          | exception text => exact attempt_of_sends (hsends _ List.mem_cons_self)

/-- A connection that takes every frame of the handler is sent these. -/
theorem handle_eq_handler
    (hbehave : ∀ name entry, getCap self.caps (call.request.getD "capability" .none) =
      .ok (some (name, entry)) → call.behave name = entry.fn.behaviour)
    (hframes :
      self.handler repr str peerPub (.dict call.request) call.now call.unixNow = .ok frames)
    (hsends : ∀ frame ∈ frames, self.sends (.dict call.request) frame = true)
    (hends : ∀ ctx, spanEnds call.reportEnds ctx = true) :
    (self.handle repr str excText peerPub call).frames = frames := by
  rw [handler_eq] at hframes
  rw [handle]
  cases hdecision : self.decision repr str peerPub (.dict call.request) call.now call.unixNow with
  | error e =>
      rw [hdecision] at hframes
      cases hframes
  | ok decision =>
      rw [hdecision] at hframes
      have hdecided : decided (.dict call.request) decision = frames := Except.ok.inj hframes
      rw [← hdecided] at hsends ⊢
      cases decision with
      | reject frame => exact attempt_of_sends (hsends _ List.mem_cons_self)
      | letIn name entry ctx =>
          rw [follow, hbehave name entry (decision_letIn hdecision), hends]
          exact sendOutcome_behaviour hsends

end Handler

/-! ### A stream that is cut off, and a deadline that is a string -/

/-- A fiber with a capability that anyone may call. -/
def wordsFiber : Fiber Crypto.checked :=
  { caps := [("words", { fn := .generator fun _ _ => ([[104]], false), requireGrant := false,
                         cost := 0, durable := false })],
    localId := { id := [1], rootPublicKey := [], endorsements := [], working := ⟨(2 : UInt8)⟩ },
    sink := .none, requireGrant := false, revocations := ∅, checkpoints := none }

/-- A call of it: the function yields one chunk and then raises. -/
def wordsCall (context : Value) : Call :=
  { request := [(.str "from", .bytes [4]), (.str "typ", .str "Request"),
      (.str "capability", .str "words"), (.str "correlation", .bytes [5]),
      (.str "context", context)],
    now := 10, unixNow := 10, behave := fun _ _ _ => .yields [[104]] false,
    reportEnds := fun _ => true }

theorem terminal_frames_are_missing :
    wordsFiber.onClient (fun _ => "") (fun _ => "") (fun _ => "") []
      [wordsCall .none, wordsCall (.dict [(.str "deadline", .str "x")])] =
        [[.streamChunk 0 false [104]], []] ∧
    ¬∀ frames ∈ wordsFiber.onClient (fun _ => "") (fun _ => "") (fun _ => "") []
      [wordsCall .none, wordsCall (.dict [(.str "deadline", .str "x")])],
        ExactlyOneTerminal frames := by
  have hframes : wordsFiber.onClient (fun _ => "") (fun _ => "") (fun _ => "") []
      [wordsCall .none, wordsCall (.dict [(.str "deadline", .str "x")])] =
        [[.streamChunk 0 false [104]], []] := by
    decide +kernel
  refine ⟨hframes, ?_⟩
  rw [hframes]
  intro h
  exact not_exactlyOne_nil (h [] (by simp))

end Fiber

end Thicket.Py
