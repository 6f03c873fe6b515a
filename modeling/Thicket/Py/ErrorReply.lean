import Thicket.Net.Conn
import Thicket.Py.Builders
import Thicket.Py.Terminal

/-!
# Error replies that a caller of the core sees

The core reads an error's code into a closed enumeration and passes over an envelope that does not
decode. So an error reply that is sent reaches its caller exactly when its code is one of the
core's, and the handler has codes of its own. Of some exceptions no reply is made, and what does not
fit into a frame is not sent.
-/

namespace Thicket.Py

open Cbor (Bytes)
open Result Serde

/-- The core has an error code of this name. -/
def IsCoreCode (code : String) : Prop := ∃ c : ErrorCode, c.name = code

variable {crypto : Crypto} {localId : LocalIdentity crypto} {request : EnvelopePayload}
  {code message : String} {blob : Bytes}

/-! ### What is sent -/

theorem request_from : (Value.of request).getItem "from" = .ok (.bytes request.fromId.bytes) := by
  simp [Value.of, Value.getItem_struct, Value.ofItem]

theorem request_correlation :
    (Value.of request).getItem "correlation" = .ok (.bytes request.correlation) := by
  simp [Value.of, Value.getItem_struct, Value.ofItem]

/-- The entries of an error reply with any code. -/
def errorEntries (localId : LocalIdentity crypto) (request : EnvelopePayload)
    (code message : String) : List (String × Cbor.Value) :=
  [("v", .uint 1), ("from", .bytes localId.id), ("to", .bytes request.fromId.bytes),
    ("typ", .text "Error"), ("correlation", .bytes request.correlation),
    ("stream_end", .bool false),
    ("error", struct [("code", .text code), ("message", .text message)]), ("body", .bytes []),
    ("ext", .map [])]

theorem respondError_eq : Conn.respondError localId (.of request) code message =
    .ok (.ofItem (struct (errorEntries localId request code message))) := by
  have hext : sortedMap (StrMap.orEmpty none) = .dict [] := by
    simp [sortedMap, StrMap.orEmpty]
  simp only [Conn.respondError, request_from, request_correlation, bind, Except.bind, pure,
    Except.pure, Envelope.buildPayload, hext]
  rfl

/-- The reply that the core would make of an error. -/
def errorArgs (localId : LocalIdentity crypto) (request : EnvelopePayload) (error : ErrorInfo) :
    EnvelopeArgs :=
  { fromId := ⟨localId.id⟩, toId := request.fromId, typ := .error,
    correlation := request.correlation, capability := none, contentType := none, auth := none,
    streamSeq := none, streamEnd := false, error := some error, body := [], ext := none }

theorem respondError_core (error : ErrorInfo) :
    Conn.respondError localId (.of request) error.code.name error.message =
      .ok (.of ((errorArgs localId request error).payload .empty)) := by
  have hbuild : Envelope.buildPayload ((errorArgs localId request error).args .none) =
      .of ((errorArgs localId request error).payload .empty) := EnvelopeArgs.buildPayload_eq _ rfl
  rw [← hbuild]
  simp only [Conn.respondError, request_from, request_correlation, bind, Except.bind, pure,
    Except.pure]
  rfl

/-! ### What the core reads -/

/-- A payload's error is read from its field. -/
theorem defaulted_error {v : Cbor.Value} {payload : EnvelopePayload} (h : ofCbor v = some payload) :
    ∃ fs, fields v = some fs ∧ fs.defaulted "error" none = some payload.error := by
  obtain ⟨fs, hfs, h⟩ := Option.bind_eq_some_iff.mp h
  -- the eleven fields before the error, and the two after it
  iterate 11 obtain ⟨_, -, h⟩ := Option.bind_eq_some_iff.mp h
  obtain ⟨error, herror, h⟩ := Option.bind_eq_some_iff.mp h
  iterate 2 obtain ⟨_, -, h⟩ := Option.bind_eq_some_iff.mp h
  obtain rfl := Option.some.inj h
  exact ⟨fs, hfs, herror⟩

/-- A code that is read is one of the core's. -/
theorem isCoreCode_of_info {info : ErrorInfo}
    (h : ofCbor (struct [("code", .text code), ("message", .text message)]) = some info) :
    IsCoreCode code := by
  have hcode : named "code" [("code", Cbor.Value.text code), ("message", .text message)] =
      [.text code] := by
    simp [named]
  have hread := (fields_bind .cbor _ _).symm.trans h
  obtain ⟨c, hc, -⟩ := Option.bind_eq_some_iff.mp hread
  rw [Fields.required, get_written, hcode] at hc
  exact ⟨c, by simpa using List.find?_some hc⟩

/-- The core reads an error's code from a name of its own. -/
theorem isCoreCode_of_read {payload : EnvelopePayload}
    (h : ofCbor (struct (errorEntries localId request code message)) = some payload) :
    IsCoreCode code := by
  obtain ⟨fs, hfs, herror⟩ := defaulted_error h
  obtain rfl : written .cbor (errorEntries localId request code message) = fs :=
    Option.some.inj ((fields_view_struct .cbor _).symm.trans hfs)
  have hnamed : named "error" (errorEntries localId request code message) =
      [struct [("code", .text code), ("message", .text message)]] := by
    simp [named, errorEntries]
  rw [Fields.defaulted, get_written, hnamed] at herror
  obtain ⟨info, hinfo, -⟩ := Option.map_eq_some_iff.mp herror
  exact isCoreCode_of_info hinfo

/-- An error reply that the core decodes has a code of the core's. -/
theorem isCoreCode_of_fromReader {env : SignedEnvelope}
    (hblob : Conn.sendSigned localId (.of request) (.error code message) = .ok blob)
    (hread : fromReader blob = some env) : IsCoreCode code := by
  simp only [Conn.sendSigned, Conn.framePayload, respondError_eq, Envelope.signedBlob,
    Envelope.sign, bind_eq_ok, pure_eq_ok, Except.ok.injEq, exists_eq_left'] at hblob
  obtain ⟨_, ⟨msg, -, rfl⟩, hblob⟩ := hblob
  let entries := [("payload", struct (errorEntries localId request code message)),
    ("signer_pub", .bytes localId.working.public), ("signature", .bytes (localId.working.sign msg))]
  have hencode : Cbor.encode (struct entries) = some blob := encode_ofItem.mp hblob
  have hdecode := Cbor.decode_encode hencode []
  rw [List.append_nil] at hdecode
  have hitem : ofCbor (struct entries) = some env := by
    rw [fromReader, hdecode] at hread
    exact hread
  have hpayload : named "payload" entries =
      [struct (errorEntries localId request code message)] := by
    simp [named, entries]
  have hfields := (fields_bind .cbor entries _).symm.trans hitem
  obtain ⟨payload, hcore, -⟩ := Option.bind_eq_some_iff.mp hfields
  rw [Fields.required, get_written, hpayload] at hcore
  exact isCoreCode_of_read hcore

/-! ### What the call returns -/

variable {conn : Net.Conn} {waiter : Nat} {now : UInt64}

/-- The connection is with the fiber, and the call waits for a reply with this correlation. -/
structure Awaits (conn : Net.Conn) (localId : LocalIdentity crypto) (correlation : Bytes)
    (waiter : Nat) : Prop where
  id : conn.peer.id = ⟨localId.id⟩
  workingPub : conn.peer.workingPub = localId.working.public
  pending : conn.pending[correlation]? = some waiter
  waiting : conn.replies[waiter]? = none

variable (crypto) in
/-- The message makes the call return this error. -/
def ReturnsError (conn : Net.Conn) (now : UInt64) (blob : Bytes) (waiter : Nat)
    (code message : String) : Prop :=
  ∃ conn' env, conn.onFrame crypto now (.ok blob) = some conn' ∧ conn'.replies[waiter]? = some env ∧
    env.payload.typ = .error ∧
    env.payload.error.map (fun e => (e.code.name, e.message)) = some (code, message)

theorem onFrame_fresh (hfresh : now ≤ conn.peer.keyNotAfter) :
    conn.onFrame crypto now (.ok blob) = some (conn.read crypto blob) := by
  have hkey : Net.Conn.peerKeyFresh conn.peer.keyNotAfter now = true := decide_eq_true hfresh
  rw [Net.Conn.onFrame, hkey]
  rfl

theorem route_error {env : SignedEnvelope} (htyp : env.payload.typ = .error)
    (hpending : conn.pending[env.payload.correlation]? = some waiter) :
    (conn.route env).replies[waiter]? = some env := by
  simp only [Net.Conn.route, htyp, hpending]
  rw [HashMap.getElem?_insert, if_pos rfl]

theorem returnsError_iff (hsign : crypto.SignVerifies)
    (hawaits : Awaits conn localId request.correlation waiter)
    (hfresh : now ≤ conn.peer.keyNotAfter)
    (hblob : Conn.sendSigned localId (.of request) (.error code message) = .ok blob) :
    ReturnsError crypto conn now blob waiter code message ↔ IsCoreCode code := by
  constructor
  · rintro ⟨conn', env, hframe, hreply, -⟩
    rw [onFrame_fresh hfresh] at hframe
    obtain rfl := Option.some.inj hframe
    cases hread : (fromReader blob : Option SignedEnvelope) with
    | none =>
        rw [Net.Conn.read, hread, hawaits.waiting] at hreply
        cases hreply
    | some _ => exact isCoreCode_of_fromReader hblob hread
  · rintro ⟨c, rfl⟩
    have hpayload : Conn.respondError localId (.of request) c.name message =
        .ok (.of ((errorArgs localId request ⟨c, message⟩).payload .empty)) :=
      respondError_core ⟨c, message⟩
    simp only [Conn.sendSigned, Conn.framePayload, hpayload, bind_eq_ok, Except.ok.injEq,
      exists_eq_left'] at hblob
    obtain ⟨env, hread, henv, hverify⟩ := signedBlob_of hsign hblob
    have hfrom : env.payload.fromId = conn.peer.id := by
      rw [henv, hawaits.id]
      rfl
    have hrouted : conn.read crypto blob = conn.route env := by
      rw [Net.Conn.read, hread]
      rw [← hawaits.workingPub] at hverify
      simp [hfrom, hverify]
    refine ⟨_, env, onFrame_fresh hfresh, ?_, ?_, ?_⟩
    · rw [hrouted]
      apply route_error
      · rw [henv]
        rfl
      · rw [henv]
        exact hawaits.pending
    · rw [henv]
      rfl
    · rw [henv]
      rfl

/-! ### What the handler sees of a request -/

section Request

variable {context : Context} {serverNow : Int}

/-- An optional field is an optional entry. -/
theorem get_optional {α : Type} [Serialize α] {name : String} {fs : List (String × Cbor.Value)}
    {a : Option α} (h : named name fs = a.toList.map toCbor) :
    (Value.ofItem (struct fs)).get (.str name) .none = .ok (.ofOption a) := by
  rw [Value.get_struct, h]
  cases a <;> rfl

theorem request_capability :
    (Value.of request).get (.str "capability") .none = .ok (.ofOption request.capability) :=
  get_optional (by simp)

theorem of_context_orElse : (Value.of context).orElse (.dict []) = .of context := by
  rw [of_struct (a := context) rfl, orElse_dict]

theorem context_traceId : (Value.of context).get (.str "trace_id") .none =
    .ok (if context.traceId.isEmpty then .none else .bytes context.traceId) := by
  have hnamed {fs : List (String × Cbor.Value)} (hfs : toCbor context = struct fs)
      (h : named "trace_id" fs = if context.traceId.isEmpty then [] else [toCbor context.traceId]) :
      (Value.of context).get (.str "trace_id") .none =
        .ok (if context.traceId.isEmpty then .none else .bytes context.traceId) := by
    rw [Value.of, hfs, Value.get_struct, h]
    cases context.traceId.isEmpty <;> rfl
  exact hnamed rfl (by simp)

theorem context_deadline :
    (Value.of context).get (.str "deadline") .none = .ok (.ofOption context.deadline) :=
  get_optional (by simp)

theorem context_budget :
    (Value.of context).get (.str "budget") .none = .ok (.ofOption context.budget) :=
  get_optional (by simp)

/-- A context that the core leaves out is one without entries. -/
theorem request_context (request : EnvelopePayload) :
    ∃ v, (Value.of request).get (.str "context") .none = .ok v ∧
      v.orElse (.dict []) = .of request.context := by
  have hnamed {fs : List (String × Cbor.Value)} (hfs : toCbor request = struct fs)
      (h : named "context" fs = if request.context.isEmpty then [] else [toCbor request.context]) :
      (Value.of request).get (.str "context") .none =
        .ok (if request.context.isEmpty then .none else .of request.context) := by
    rw [Value.of, hfs, Value.get_struct, h]
    cases request.context.isEmpty <;> rfl
  refine ⟨_, hnamed rfl (by simp), ?_⟩
  cases hempty : request.context.isEmpty with
  | false => exact of_context_orElse
  | true =>
      rw [Context.eq_empty_of_isEmpty hempty]
      rfl

theorem deadlineExceeded_of : Tracing.deadlineExceeded (.of context) serverNow =
    .ok (context.deadline.any fun d => decide ((d.toNat : Int) < serverNow)) := by
  rw [Tracing.deadlineExceeded, of_context_orElse, context_deadline]
  cases context.deadline with
  | none => rfl
  | some d => rfl

theorem budgetExhausted_of : Tracing.budgetExhausted (.of context) =
    .ok (context.budget.any fun b => decide ((b.toNat : Int) ≤ 0)) := by
  rw [Tracing.budgetExhausted, of_context_orElse, context_budget]
  cases context.budget with
  | none => rfl
  | some b => rfl

theorem overQuota_of (entry : Cap) : Fiber.overQuota entry (.of context) =
    .ok (decide (entry.cost ≠ 0) &&
      context.budget.any fun b => decide ((b.toNat : Int) < entry.cost)) := by
  rw [Fiber.overQuota, context_budget]
  by_cases hcost : entry.cost = 0
  · simp [hcost, pure, Except.pure]
  · cases context.budget with
    | none => simp [hcost, Value.ofOption, bind, Except.bind, pure, Except.pure]
    | some b =>
        simp [hcost, Value.ofOption, Value.of, Value.ofItem, Value.lt, Value.asInt, bind,
          Except.bind]

theorem getCap_of (caps : List (String × Cap)) (capability : Option String) :
    Fiber.getCap caps (.ofOption capability) =
      .ok (capability.bind fun c => caps.find? fun e => e.1 = c) := by
  cases capability with
  | none => simp [Fiber.getCap, Value.ofOption, Value.isHashable, Value.eq]
  | some c => simp [Fiber.getCap, Value.ofOption, Value.of, Value.ofItem, Value.isHashable]

end Request

/-! ### What a request comes to -/

namespace Fiber

/-- What handling a request comes to: no error, an error with a code and a message, or an exception
that the handler makes no error of. -/
inductive Outcome where
  | fine
  | error (code message : String)
  | raised

def frameOutcome : Frame → Outcome
  | .error code message => .error code message
  | .response _ | .streamChunk _ _ _ => .fine

section Outcomes

variable (self : Fiber crypto) (excText : Exc → String)

/-- A stream comes to an exception if its generator raises, or the sending of a chunk does. -/
def behaviourOutcome (payload : Value) : Behaviour → Outcome
  | .returns body =>
      match self.send payload (.response body) with
      | .ok () => .fine
      | .error e => .error "Error" (excText e)
  | .raises code message => .error code message
  | .fails text => .error "Error" text
  | .aborts => .raised
  | .yields chunks exhausted =>
      if exhausted && (stream chunks true).all (self.sends payload) then .fine else .raised

def outcome (call : Call) : Except Exc Decision → Outcome
  | .error _ => .raised
  | .ok (.reject frame) => frameOutcome frame
  | .ok (.letIn name _ ctx) =>
      self.behaviourOutcome excText (.dict call.request)
        (call.behave name (.dict call.request) ctx)

variable (request : EnvelopePayload) (conn : Net.Conn) (now : UInt64) (waiter : Nat)

/-- The error is sent, and what is sent makes the call return it. -/
def Returns (frames : List Frame) (code message : String) : Prop :=
  .error code message ∈ frames ∧ ∃ blob,
    Conn.sendSigned self.localId (.of request) (.error code message) = .ok blob ∧
      ReturnsError crypto conn now blob waiter code message

/-- An error reaches the call, and so does some error if the handler raised. -/
def Reaches (frames : List Frame) : Outcome → Prop
  | .fine => True
  | .error code message => self.Returns request conn now waiter frames code message
  | .raised => ∃ code message, self.Returns request conn now waiter frames code message

/-- What a request is answered with once the checks have come to a decision reaches the call. -/
def FollowReaches (call : Call) (decision : Except Exc Decision) : Prop :=
  self.Reaches request conn now waiter (self.follow excText call decision).frames
    (self.outcome excText call decision)

/-- What the fiber's handling of the request comes to reaches the call that waits for it. -/
def ErrorReaches (repr str : Value → String) (peerPub : Bytes) (call : Call) : Prop :=
  self.Reaches request conn now waiter (self.handle repr str excText peerPub call).frames
    (self.outcome excText call
      (self.decision repr str peerPub (.dict call.request) call.now call.unixNow))

end Outcomes

/-! ### When it reaches the call -/

/-- The deadline of the context has passed, its budget is used up, or it does not cover the cost. -/
def turnsAway (entry : Cap) (context : Context) (now : Int) : Bool :=
  (context.deadline.any fun d => decide ((d.toNat : Int) < now)) ||
    (context.budget.any fun b => decide ((b.toNat : Int) ≤ 0)) ||
    (decide (entry.cost ≠ 0) && context.budget.any fun b => decide ((b.toNat : Int) < entry.cost))

section Known

variable (self : Fiber crypto) (repr : Value → String) (peerPub : Bytes)
  (request : EnvelopePayload) (call : Call)

/-- The function returns or is exhausted, or raises a `ThicketError` with a code of the core's, and
what is sent of it fits into a frame. -/
def KnownBehaviour (spanEnds : Bool) : Behaviour → Prop
  | .returns body => self.sends (.of request) (.response body) = true
  | .raises code message =>
      IsCoreCode code ∧ spanEnds = true ∧ self.sends (.of request) (.error code message) = true
  | .fails _ | .aborts => False
  | .yields chunks exhausted =>
      exhausted = true ∧ ∀ frame ∈ stream chunks true, self.sends (.of request) frame = true

/-- The checkpoint opens, where there is one to open. -/
def KnownRun (name : String) (entry : Cap) : Prop :=
  (∀ loads, self.checkpoints = some loads → entry.durable = true → request.context.traceId ≠ [] →
    loads (.bytes request.context.traceId) = .ok ()) ∧
  ∀ ctx, selfContext self.sink (.of request.context) = .ok ctx →
    self.KnownBehaviour request (spanEnds call.reportEnds ctx) (call.behave name (.of request) ctx)

/-- Where a grant is required, its verification does not raise. -/
def KnownGate (name : String) (entry : Cap) : Prop :=
  if entry.requireGrant || self.requireGrant then
    ∃ granted, self.grantOk (.of request) name peerPub call.unixNow = .ok granted ∧
      if granted then self.KnownRun request call name entry
      else self.sends (.of request) (.error "Unauthorized" "valid grant required") = true
  else self.KnownRun request call name entry

/-- The capability is not there, or the request is not turned away for its context and it, or the
lack of a grant, comes to nothing that is not the core's. -/
def KnownToCore : Prop :=
  match request.capability.bind fun c => self.caps.find? fun e => e.1 = c with
  | none =>
      self.sends (.of request)
        (.error "NotFound" ("unknown capability " ++ repr (.ofOption request.capability))) = true
  | some (name, entry) =>
      turnsAway entry request.context call.now = false ∧
        self.KnownGate peerPub request call name entry

end Known

theorem not_isCoreCode (h : ∀ c : ErrorCode, c.name ≠ code) : ¬IsCoreCode code := by
  rintro ⟨c, hc⟩
  exact h c hc

variable {self : Fiber crypto} {repr str : Value → String} {excText : Exc → String}
  {peerPub : Bytes} {call : Call} {name : String} {entry : Cap} {frames : List Frame}
  {outcome : Outcome} {ends : Bool} {behaviour : Behaviour}

theorem not_reaches_nil (h : outcome ≠ .fine) :
    ¬self.Reaches request conn now waiter [] outcome := by
  cases outcome with
  | fine => exact absurd rfl h
  | error code message => exact fun h => absurd h.1 List.not_mem_nil
  | raised => exact fun ⟨_, _, h⟩ => absurd h.1 List.not_mem_nil

/-- Nothing that a stream sends is an error. -/
theorem not_reaches_stream {chunks : List Bytes} {exhausted : Bool} {p : Frame → Bool} :
    ¬self.Reaches request conn now waiter ((stream chunks exhausted).takeWhile p) .raised := by
  rintro ⟨code, message, hmem, -⟩
  have hmem := (List.takeWhile_sublist p).subset hmem
  rw [stream_eq] at hmem
  rcases List.mem_append.mp hmem with hchunk | hend
  · cases not_isTerminal_of_chunk hchunk
  · split_ifs at hend
    · cases List.mem_singleton.mp hend
    · cases hend

section Reaches

variable (hsign : crypto.SignVerifies)
  (hawaits : Awaits conn self.localId request.correlation waiter)
  (hfresh : now ≤ conn.peer.keyNotAfter) (hrequest : Value.of request = .dict call.request)
include hsign hawaits hfresh

theorem reaches_attempt :
    self.Reaches request conn now waiter
      (self.attempt (.of request) (.error code message)).frames (.error code message) ↔
      IsCoreCode code ∧ self.sends (.of request) (.error code message) = true := by
  rw [attempt]
  split_ifs with hsends
  · obtain ⟨blob, hblob⟩ : ∃ blob,
        Conn.sendSigned self.localId (.of request) (.error code message) = .ok blob := by
      cases hblob : Conn.sendSigned self.localId (.of request) (.error code message) with
      | ok blob => exact ⟨blob, rfl⟩
      | error e =>
          rw [sends, send, hblob] at hsends
          cases hsends
    rw [and_iff_left hsends, ← returnsError_iff hsign hawaits hfresh hblob, Reaches, Returns,
      and_iff_right List.mem_cons_self, hblob]
    simp
  · exact iff_of_false (not_reaches_nil (by simp)) fun h => hsends h.2

theorem reaches_attemptAfter :
    self.Reaches request conn now waiter
      (self.attemptAfter ends (.of request) (.error code message)).frames (.error code message) ↔
      IsCoreCode code ∧ ends = true ∧ self.sends (.of request) (.error code message) = true := by
  cases ends with
  | true =>
      rw [attemptAfter, if_pos rfl, reaches_attempt hsign hawaits hfresh]
      simp
  | false => exact iff_of_false (not_reaches_nil (by simp)) (by simp)

/-- The code that the handler gives to other exceptions is not one of the core's. -/
theorem not_reaches_otherException :
    ¬self.Reaches request conn now waiter
      (self.attemptAfter ends (.of request) (.error "Error" message)).frames
      (.error "Error" message) := by
  rw [reaches_attemptAfter hsign hawaits hfresh]
  intro h
  refine not_isCoreCode (fun c => ?_) h.1
  cases c <;> decide

theorem reaches_sendOutcome :
    self.Reaches request conn now waiter
      (self.sendOutcome excText (.of request) ends behaviour).frames
      (self.behaviourOutcome excText (.of request) behaviour) ↔
      self.KnownBehaviour request ends behaviour := by
  cases behaviour with
  | returns body =>
      rw [sendOutcome, behaviourOutcome, KnownBehaviour, sends]
      cases self.send (.of request) (.response body) with
      | ok => exact iff_of_true trivial rfl
      | error e =>
          refine iff_of_false (not_reaches_otherException hsign hawaits hfresh) fun h => ?_
          cases h
  | raises code message => exact reaches_attemptAfter hsign hawaits hfresh
  | fails text => exact iff_of_false (not_reaches_otherException hsign hawaits hfresh) not_false
  | aborts => exact iff_of_false (not_reaches_nil (by simp [behaviourOutcome])) not_false
  | yields chunks exhausted =>
      rw [sendOutcome, behaviourOutcome, KnownBehaviour, ← List.all_eq_true]
      cases hall : exhausted && (stream chunks true).all (self.sends (.of request)) with
      | true => exact iff_of_true trivial (by simpa using hall)
      | false => exact iff_of_false not_reaches_stream (by simpa using hall)

include hrequest

theorem reaches_reject : self.FollowReaches excText request conn now waiter call
      (.ok (.reject (.error code message))) ↔
    IsCoreCode code ∧ self.sends (.of request) (.error code message) = true := by
  rw [FollowReaches, follow, ← hrequest]
  exact reaches_attempt hsign hawaits hfresh

/-- The codes of the context's checks are not the core's. -/
theorem not_reaches_reject (hcode : ∀ c : ErrorCode, c.name ≠ code) :
    ¬self.FollowReaches excText request conn now waiter call
      (.ok (.reject (.error code message))) := by
  rw [reaches_reject hsign hawaits hfresh hrequest]
  exact fun h => not_isCoreCode hcode h.1

omit hsign hawaits hfresh hrequest in
/-- An exception of a check ends the connection. -/
theorem not_reaches_error (e : Exc) :
    ¬self.FollowReaches excText request conn now waiter call (.error e) :=
  not_reaches_nil (by simp [Fiber.outcome])

theorem reaches_letIn {ctx : Value} : self.FollowReaches excText request conn now waiter call
      (.ok (.letIn name entry ctx)) ↔
    self.KnownBehaviour request (spanEnds call.reportEnds ctx)
      (call.behave name (.of request) ctx) := by
  rw [FollowReaches, follow, Fiber.outcome, ← hrequest]
  exact reaches_sendOutcome hsign hawaits hfresh

theorem reaches_run : self.FollowReaches excText request conn now waiter call
      (self.openCheckpoint name entry (.of request.context)) ↔
    self.KnownRun request call name entry := by
  obtain ⟨ctx, hctx⟩ : ∃ ctx, selfContext self.sink (.of request.context) = .ok ctx := by
    rw [of_struct (a := request.context) rfl]
    exact selfContext_dict _ _
  have hletIn : self.FollowReaches excText request conn now waiter call
        (.ok (.letIn name entry ctx)) ↔
      ∀ ctx', Except.ok (ε := Exc) ctx = .ok ctx' →
        self.KnownBehaviour request (spanEnds call.reportEnds ctx')
          (call.behave name (.of request) ctx') := by
    rw [reaches_letIn hsign hawaits hfresh hrequest]
    simp
  rw [openCheckpoint, KnownRun, hctx, context_traceId]
  cases hloads : self.checkpoints with
  | none =>
      simp only [reduceCtorEq, false_implies, implies_true, true_and]
      exact hletIn
  | some loads =>
      have htruthy : (if request.context.traceId.isEmpty then Value.none
          else .bytes request.context.traceId).truthy = !request.context.traceId.isEmpty := by
        cases request.context.traceId <;> rfl
      simp only [bind, Except.bind, htruthy, Option.some.injEq, forall_eq']
      by_cases hopens : entry.durable = true ∧ request.context.traceId ≠ []
      · obtain ⟨hdurable, htrace⟩ := hopens
        have hnonempty : request.context.traceId.isEmpty = false := by simpa using htrace
        simp only [hdurable, hnonempty, Bool.not_false, Bool.and_self, if_true, Bool.false_eq_true,
          if_false, ne_eq, htrace, not_false_eq_true, forall_const]
        cases loads (.bytes request.context.traceId) with
        | error e => exact iff_of_false (not_reaches_error e) fun h => by cases h.1
        | ok => exact hletIn.trans (and_iff_right rfl).symm
      · have hcond : (entry.durable && !request.context.traceId.isEmpty) = false := by
          simpa using hopens
        rw [hcond, if_neg Bool.false_ne_true]
        exact hletIn.trans (and_iff_right fun hdurable htrace =>
          absurd ⟨hdurable, htrace⟩ hopens).symm

theorem reaches_gate : self.FollowReaches excText request conn now waiter call
      (self.openGate name entry peerPub (.of request) (.of request.context) call.unixNow) ↔
    self.KnownGate peerPub request call name entry := by
  rw [openGate, KnownGate]
  split_ifs with hrequired
  · cases hgrant : self.grantOk (.of request) name peerPub call.unixNow with
    | error e =>
        refine iff_of_false (not_reaches_error e) ?_
        rintro ⟨_, hgranted, -⟩
        cases hgranted
    | ok granted =>
        simp only [bind, Except.bind, Except.ok.injEq, exists_eq_left']
        cases granted with
        | true => exact reaches_run hsign hawaits hfresh hrequest
        | false =>
            refine (reaches_reject hsign hawaits hfresh hrequest).trans (and_iff_right ?_)
            exact ⟨.unauthorized, rfl⟩
  · exact reaches_run hsign hawaits hfresh hrequest

/-- What the checks of the context come to, which are of numbers or nothing in a core's request. -/
theorem reaches_screen (cap : Value) : self.FollowReaches excText request conn now waiter call
      (self.screen repr str name entry cap peerPub (.of request) (.of request.context) call.now
        call.unixNow) ↔
    turnsAway entry request.context call.now = false ∧
      self.KnownGate peerPub request call name entry := by
  rw [screen, turnsAway, deadlineExceeded_of, budgetExhausted_of, overQuota_of]
  cases request.context.deadline.any fun d => decide ((d.toNat : Int) < call.now) with
  | true =>
      refine iff_of_false (not_reaches_reject hsign hawaits hfresh hrequest fun c => ?_) (by simp)
      cases c <;> decide
  | false =>
      cases request.context.budget.any fun b => decide ((b.toNat : Int) ≤ 0) with
      | true =>
          refine iff_of_false ?_ (by simp)
          apply not_reaches_reject hsign hawaits hfresh hrequest
          intro c
          cases c <;> decide
      | false =>
          cases decide (entry.cost ≠ 0) &&
              request.context.budget.any fun b => decide ((b.toNat : Int) < entry.cost) with
          | true =>
              refine iff_of_false ?_ (by simp)
              cases hitem : (Value.of request.context).getItem "budget" with
              | error e =>
                  simp only [bind, Except.bind, Bool.false_eq_true, if_false, if_true]
                  exact not_reaches_error e
              | ok budget =>
                  simp only [bind, Except.bind, Bool.false_eq_true, if_false, if_true]
                  refine not_reaches_reject hsign hawaits hfresh hrequest fun c => ?_
                  cases c <;> decide
          | false => exact (reaches_gate hsign hawaits hfresh hrequest).trans (by simp)

end Reaches

end Fiber

/-- **Which errors reach the caller.** What the handling of a request of the core comes to reaches
the call that waits for it exactly when it comes to no error, or to one with a code of the core's
that fits into a frame. -/
theorem error_reaches_caller_iff (hsign : crypto.SignVerifies) (fiber : Fiber crypto)
    (repr str : Value → String) (excText : Exc → String) (peerPub : Bytes)
    (request : EnvelopePayload) (call : Call) (hrequest : Value.of request = .dict call.request)
    (conn : Net.Conn) (waiter : Nat) (now : UInt64)
    (hawaits : Awaits conn fiber.localId request.correlation waiter)
    (hfresh : now ≤ conn.peer.keyNotAfter) :
    fiber.ErrorReaches excText request conn now waiter repr str peerPub call ↔
      fiber.KnownToCore repr peerPub request call := by
  obtain ⟨context, hcontext, henv⟩ := request_context request
  rw [Fiber.ErrorReaches, Fiber.handle]
  change fiber.FollowReaches excText request conn now waiter call _ ↔ _
  rw [← hrequest, Fiber.decision, request_capability, hcontext]
  simp only [bind, Except.bind, getCap_of, henv]
  rw [Fiber.KnownToCore]
  cases request.capability.bind fun c => fiber.caps.find? fun e => e.1 = c with
  | none =>
      refine (Fiber.reaches_reject hsign hawaits hfresh hrequest).trans (and_iff_right ?_)
      exact ⟨.notFound, rfl⟩
  | some found => exact Fiber.reaches_screen hsign hawaits hfresh hrequest _

/-! ### A request past its deadline -/

def sampleFiberId : LocalIdentity Crypto.checked :=
  { id := [1], rootPublicKey := [], endorsements := [], working := ⟨(2 : UInt8)⟩ }

/-- A fiber with one capability. -/
def sampleFiber : Fiber Crypto.checked :=
  { caps := [("count words", { fn := .coroutine fun _ _ => .error (.thicketError "Conflict" "busy"),
                               requireGrant := false, cost := 3, durable := false })],
    localId := sampleFiberId, sink := .none, requireGrant := false, revocations := ∅,
    checkpoints := none }

def requestWith (deadline budget : Option UInt64) : EnvelopePayload :=
  { v := 1, fromId := ⟨[4]⟩, toId := ⟨[1]⟩, typ := .request, capability := some "count words",
    correlation := [5], contentType := none, context := { Context.empty with deadline, budget },
    auth := none, streamSeq := none, streamEnd := false, error := none, body := [], ext := ∅ }

/-- The request as the fiber decodes it, at time 10. The function raises an error of the core's. -/
def callWith (deadline budget : Option UInt64) : Call :=
  { request := valueOr (Value.of (requestWith deadline budget)).items [],
    now := 10, unixNow := 10, behave := fun _ _ _ => .raises "Conflict" "busy",
    reportEnds := fun _ => true }

theorem of_requestWith (deadline budget : Option UInt64) :
    Value.of (requestWith deadline budget) = .dict (callWith deadline budget).request := by
  rw [callWith, of_struct (a := requestWith deadline budget) rfl]
  rfl

/-- The caller's end of the connection, with the call waiting. -/
def sampleConn : Net.Conn :=
  { peer := { id := ⟨[1]⟩, workingPub := sampleFiberId.working.public, keyNotAfter := 1000 },
    pending := (∅ : HashMap Bytes Nat).insert [5] 0, replies := ∅, streams := ∅, eventSubs := ∅,
    channels := ∅, inbound := { capacity := 256, unread := [], isOpen := true } }

/-- What is shown of values and exceptions plays no part here. -/
def shownAs {α : Type} (_ : α) : String := ""

theorem error_reaches_caller_conflict : sampleFiber.ErrorReaches shownAs (requestWith none none)
    sampleConn 20 0 shownAs shownAs [] (callWith none none) := by
  have hawaits : Awaits sampleConn sampleFiberId [5] 0 := ⟨rfl, rfl, rfl, rfl⟩
  apply (error_reaches_caller_iff Crypto.checked_signVerifies sampleFiber shownAs shownAs shownAs []
    (requestWith none none) (callWith none none) (of_requestWith none none) sampleConn 0 20 hawaits
    (by decide)).mpr
  refine ⟨rfl, ?_⟩
  change sampleFiber.KnownRun (requestWith none none) (callWith none none) _ _
  refine ⟨fun loads hloads => ?_, fun ctx hctx => ⟨⟨.conflict, rfl⟩, ?_, ?_⟩⟩
  · cases hloads
  · rw [Fiber.spanEnds]
    split <;> simp [callWith]
  · decide +kernel

theorem deadline_error_is_dropped :
    (sampleFiber.handle shownAs shownAs shownAs [] (callWith (some 5) none)).frames =
      [.error "DeadlineExceeded" "deadline passed"] ∧
    (Conn.sendSigned sampleFiberId (.of (requestWith (some 5) none))
      (.error "DeadlineExceeded" "deadline passed")).toOption.map (fun blob =>
        (sampleConn.onFrame .checked 20 (.ok blob)).map fun conn => conn.replies[0]?) =
      some (some none) ∧
    ¬sampleFiber.ErrorReaches shownAs (requestWith (some 5) none) sampleConn 20 0 shownAs shownAs []
      (callWith (some 5) none) := by
  have hread : (Conn.sendSigned sampleFiberId (.of (requestWith (some 5) none))
      (.error "DeadlineExceeded" "deadline passed")).toOption.map (fun blob =>
        (sampleConn.onFrame .checked 20 (.ok blob)).map fun conn => conn.replies[0]?) =
      some (some none) := by
    decide +kernel
  refine ⟨by decide +kernel, hread, ?_⟩
  rintro ⟨-, blob, hblob, conn, env, hframe, hreply, -⟩
  change Conn.sendSigned sampleFiberId _ _ = .ok blob at hblob
  rw [hblob, Except.toOption, Option.map_some, hframe, Option.map_some, hreply] at hread
  cases hread

end Thicket.Py
