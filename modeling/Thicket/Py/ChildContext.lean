import Thicket.Py.Builders
import Thicket.Py.Tracing

/-!
# Contexts that the core has to re-encode

The core verifies an envelope over its own encoding of what it decoded. So a context signed by the
SDK survives exactly when its dictionary is the one of a context of the core. The core omits an
empty `parent_span_id`, `child_context` writes it: a context derived from a parent without a span
does not survive.
-/

namespace Thicket.Py.Tracing

open Cbor (Bytes)
open Envelope (signedBlob)
open Result Serde

variable {crypto : Crypto}

/-! ### What survives -/

variable (crypto) in
/-- The core decodes the envelope, re-encodes its payload into the bytes that were signed, and
accepts it from the sender's key. -/
def Survives (workingPub : Bytes) (payload : Value) (blob : Bytes) : Prop :=
  ∃ env : SignedEnvelope, fromReader blob = some env ∧
    (∃ msg, signingInput "thicket-envelope-v1" payload = .ok msg ∧
      signingBytes envelopeDomain env.payload = .ok msg) ∧
    env.verifyWithKey crypto workingPub = .ok ()

variable {args : EnvelopeArgs} {ctx payload : Value} {working : WorkingKey crypto} {blob : Bytes}

theorem survives_of (hsign : crypto.SignVerifies) {core : EnvelopePayload}
    (hblob : signedBlob (.of core) working = .ok blob) :
    Survives crypto working.public (.of core) blob := by
  obtain ⟨env, hread, rfl, hverify⟩ := signedBlob_of hsign hblob
  obtain ⟨-, msg, hmsg, -⟩ := SignedEnvelope.verifyWithKey_eq_ok.mp hverify
  exact ⟨env, hread, ⟨msg, signingInput_of.mpr hmsg, hmsg⟩, hverify⟩

/-- Only the dictionary of a payload of the core is re-encoded as it was. -/
theorem exists_core_of_survives {workingPub : Bytes}
    (h : Survives crypto workingPub payload blob) : ∃ core : EnvelopePayload, payload = .of core := by
  obtain ⟨env, -, ⟨msg, hinput, hbytes⟩, -⟩ := h
  simp only [signingInput, bind_eq_ok, pure_eq_ok] at hinput
  obtain ⟨body, hbody, rfl⟩ := hinput
  obtain ⟨item, rfl, hitem⟩ := encode_eq_ok.mp hbody
  simp only [signingBytes, bind_eq_ok, okOr_eq_ok, pure_eq_ok] at hbytes
  obtain ⟨body', hbody', hmsg⟩ := hbytes
  obtain rfl : body' = body := (List.cons.inj (List.append_cancel_left hmsg)).2
  exact ⟨env.payload, congrArg Value.ofItem (Cbor.encode_injective hitem hbody')⟩

/-! ### Looking entries up -/

theorem find?_optionalEntry (key name : String) (value : Value) :
    (optionalEntry key value).find? (fun e => e.1.eq (.str name)) =
      if key = name then (optionalEntry key value).head? else none := by
  by_cases hkey : key = name <;> cases value <;> simp [optionalEntry, hkey]

@[simp] theorem getD_optionalEntry (key : String) (value : Value) :
    ((optionalEntry key value).head?.map Prod.snd).getD .none = value := by
  cases value <;> rfl

theorem get_context (htruthy : ctx.truthy = true) :
    (Envelope.buildPayload (args.args ctx)).get (.str "context") .none = .ok ctx := by
  have hentry : Envelope.contextEntry ctx = [(.str "context", ctx)] := if_pos htruthy
  simp [Envelope.buildPayload, EnvelopeArgs.args, hentry, Value.get, Value.isHashable,
    find?_optionalEntry]

/-- The payload survives exactly when the context is one of the core's. -/
theorem survives_iff (hsign : crypto.SignVerifies) (htruthy : ctx.truthy = true)
    (hblob : signedBlob (Envelope.buildPayload (args.args ctx)) working = .ok blob) :
    Survives crypto working.public (Envelope.buildPayload (args.args ctx)) blob ↔
      ∃ context : Context, context.isEmpty = false ∧ ctx = .of context := by
  constructor
  · intro h
    obtain ⟨core, hcore⟩ := exists_core_of_survives h
    have hget : (Envelope.buildPayload (args.args ctx)).get (.str "context") .none = .ok ctx :=
      get_context htruthy
    rw [hcore, of_struct (a := core) rfl, ← ofItem_struct, Value.get_struct] at hget
    simp only [named_append, named_field, named_optionalField, named_fieldUnless, Except.ok.injEq,
      String.reduceEq, if_false, if_true, List.nil_append, List.append_nil] at hget
    cases hempty : core.context.isEmpty with
    | true =>
        simp only [hempty, if_true, List.head?_nil, Option.map_none, Option.getD_none] at hget
        rw [← hget] at htruthy
        cases htruthy
    | false =>
        simp only [hempty, Bool.false_eq_true, if_false, List.head?_cons, Option.map_some,
          Option.getD_some] at hget
        exact ⟨core.context, hempty, hget.symm⟩
  · rintro ⟨context, hempty, rfl⟩
    have hbuild : Envelope.buildPayload (args.args (.of context)) = .of (args.payload context) := by
      apply args.buildPayload_eq
      rw [Envelope.contextEntry, if_pos htruthy, fieldUnless, hempty]
      rfl
    rw [hbuild] at hblob ⊢
    exact survives_of hsign hblob

/-! ### Numbers that fit -/

theorem enc_of_mem {entries : List (Value × Value)} {bytes : Bytes} {key value : Value}
    (h : encEntries entries = .ok bytes) (hmem : (key, value) ∈ entries) :
    ∃ bytes', enc value = .ok bytes' := by
  induction entries generalizing bytes with
  | nil => cases hmem
  | cons entry entries ih =>
      obtain ⟨k, v⟩ := entry
      simp only [encEntries, bind_eq_ok] at h
      obtain ⟨_, -, bytesV, hv, _, hrest, -⟩ := h
      rcases List.mem_cons.mp hmem with heq | hmem
      · obtain ⟨rfl, rfl⟩ := Prod.mk.inj heq
        exact ⟨bytesV, hv⟩
      · exact ih hrest hmem

theorem enc_of_mem_dict {entries : List (Value × Value)} {bytes : Bytes} {key value : Value}
    (h : enc (.dict entries) = .ok bytes) (hmem : (key, value) ∈ entries) :
    ∃ bytes', enc value = .ok bytes' := by
  simp only [enc, bind_eq_ok] at h
  obtain ⟨_, -, _, hentries, -⟩ := h
  exact enc_of_mem hentries hmem

theorem exists_u64_of_enc {n : Int} {bytes : Bytes} (h : enc (.int n) = .ok bytes) :
    ∃ u : UInt64, n = u.toNat := by
  rw [enc] at h
  split_ifs at h with hneg
  have hlt : n.toNat < 2 ^ 64 := by
    unfold encHead at h
    dsimp only at h
    split_ifs at h <;> omega
  refine ⟨UInt64.ofNat n.toNat, ?_⟩
  rw [UInt64.toNat_ofNat_of_lt' hlt, Int.toNat_of_nonneg (by omega)]

/-! ### Child contexts -/

/-- The entries of a context dictionary that a child is derived from. -/
structure ContextEntries where
  traceId : Option Bytes
  spanId : Option Bytes
  deadline : Option Int
  budget : Option Int
  sink : Option Value

/-- A dictionary with these entries, among others, in any order. -/
structure IsContext (parent : Value) (e : ContextEntries) : Prop where
  traceId : parent.get (.str "trace_id") .none = .ok (e.traceId.elim .none .bytes)
  spanId : parent.get (.str "span_id") (.bytes []) = .ok (.bytes (e.spanId.getD []))
  deadline : parent.get (.str "deadline") .none = .ok (e.deadline.elim .none .int)
  budget : parent.get (.str "budget") .none = .ok (e.budget.elim .none .int)
  sink : parent.get (.str "sink") .none = .ok (e.sink.getD .none)

variable {parent : Value} {e : ContextEntries} {spanId : Option Bytes} {localDeadline : Option Int}
  {spent : Int} {sink : Option Value} {random16 : Urandom 16} {random8 : Urandom 8}

theorem minDeadline_eq (deadline localDeadline : Option Int) :
    ∃ d : Option Int,
      minDeadline (deadline.elim .none .int) localDeadline = .ok (d.elim .none .int) := by
  cases deadline with
  | none =>
      cases localDeadline with
      | none => exact ⟨none, rfl⟩
      | some l => exact ⟨some l, rfl⟩
  | some d =>
      cases localDeadline with
      | none => exact ⟨some d, rfl⟩
      | some l =>
          refine ⟨some (if l < d then l else d), ?_⟩
          change (if decide (l < d) = true then Except.ok (Value.int l) else .ok (.int d)) = _
          by_cases hlt : l < d <;> simp [hlt]

theorem debit_eq (budget : Option Int) (spent : Int) :
    ∃ b : Option Int, debit (budget.elim .none .int) spent = .ok (b.elim .none .int) := by
  cases budget with
  | none => exact ⟨none, rfl⟩
  | some b => exact ⟨some (max 0 (b - spent)), rfl⟩

/-- A byte string that is left out or empty is made up. -/
theorem orElse_random (given : Option Bytes) {random : Bytes} (hrandom : random ≠ []) :
    ∃ bs : Bytes, bs ≠ [] ∧ (given.elim .none Value.bytes).orElse (.bytes random) = .bytes bs := by
  cases given with
  | none => exact ⟨random, hrandom, rfl⟩
  | some bs =>
      cases bs with
      | nil => exact ⟨random, hrandom, rfl⟩
      | cons b bs => exact ⟨b :: bs, List.cons_ne_nil b bs, rfl⟩

theorem Urandom.ne_nil {n : Nat} (random : Urandom (n + 1)) : random.1 ≠ [] :=
  List.ne_nil_of_length_eq_add_one random.2

/-- What a child context looks like. -/
theorem childContext_eq (hparent : IsContext (parent.orElse (.dict [])) e) :
    ∃ (traceId ownSpan : Bytes) (deadline budget : Option Int), traceId ≠ [] ∧ ownSpan ≠ [] ∧
      childContext parent (spanId.elim .none .bytes) localDeadline spent sink random16 random8 =
        .ok (.dict ([(.str "trace_id", .bytes traceId), (.str "span_id", .bytes ownSpan),
          (.str "parent_span_id", .bytes (e.spanId.getD []))] ++
          optionalEntry "deadline" (deadline.elim .none .int) ++
          optionalEntry "budget" (budget.elim .none .int) ++
          optionalEntry "sink" (effectiveSink (e.sink.getD .none) sink))) := by
  obtain ⟨traceId, htrace, htraceEq⟩ := orElse_random e.traceId random16.ne_nil
  obtain ⟨ownSpan, hspan, hspanEq⟩ := orElse_random spanId random8.ne_nil
  obtain ⟨deadline, hdeadline⟩ := minDeadline_eq e.deadline localDeadline
  obtain ⟨budget, hbudget⟩ := debit_eq e.budget spent
  refine ⟨traceId, ownSpan, deadline, budget, htrace, hspan, ?_⟩
  simp only [childContext, hparent.traceId, hparent.spanId, hparent.deadline, hparent.budget,
    hparent.sink, bind, Except.bind, hdeadline, hbudget, htraceEq, hspanEq]
  rfl

/-- The dictionary of a child context. -/
def contextDict (traceId ownSpan parentSpan : Bytes) (deadline budget : Option Int) (sink : Value) :
    Value :=
  .dict ([(.str "trace_id", .bytes traceId), (.str "span_id", .bytes ownSpan),
      (.str "parent_span_id", .bytes parentSpan)] ++
    optionalEntry "deadline" (deadline.elim .none .int) ++
    optionalEntry "budget" (budget.elim .none .int) ++ optionalEntry "sink" sink)

theorem exists_u64 {n : Option Int} (h : ∀ m ∈ n, ∃ u : UInt64, m = u.toNat) :
    ∃ u : Option UInt64, n.elim .none Value.int = .ofOption u := by
  cases n with
  | none => exact ⟨none, rfl⟩
  | some m =>
      obtain ⟨u, rfl⟩ := h m rfl
      exact ⟨some u, rfl⟩

theorem contextDict_iff {traceId ownSpan parentSpan : Bytes} {deadline budget : Option Int}
    {sink : Value} (htrace : traceId ≠ []) (hspan : ownSpan ≠ [])
    (hdeadline : ∀ n ∈ deadline, ∃ u : UInt64, n = u.toNat)
    (hbudget : ∀ n ∈ budget, ∃ u : UInt64, n = u.toNat) :
    (∃ context : Context, context.isEmpty = false ∧
        contextDict traceId ownSpan parentSpan deadline budget sink = .of context) ↔
      parentSpan ≠ [] ∧ ∃ s : Option SinkRef, sink = .ofOption s := by
  constructor
  · rintro ⟨context, -, heq⟩
    have hstruct := heq.trans (of_struct (a := context) rfl)
    rw [← ofItem_struct] at hstruct
    constructor
    · have hget : (contextDict traceId ownSpan parentSpan deadline budget sink).get
          (.str "parent_span_id") .none = .ok (.bytes parentSpan) := by
        simp [contextDict, Value.get, Value.isHashable]
      rw [hstruct, Value.get_struct] at hget
      rintro rfl
      cases hempty : context.parentSpanId with
      | nil => simp [hempty] at hget
      | cons byte rest => simp [hempty, Value.ofItem] at hget
    · have hget : (contextDict traceId ownSpan parentSpan deadline budget sink).get
          (.str "sink") .none = .ok sink := by
        simp [contextDict, Value.get, Value.isHashable, find?_optionalEntry]
      rw [hstruct, Value.get_struct] at hget
      simp only [named_append, named_fieldUnless, named_optionalField, Except.ok.injEq,
        String.reduceEq, if_false, if_true, List.nil_append] at hget
      refine ⟨context.sink, ?_⟩
      rw [← hget]
      cases context.sink <;> rfl
  · rintro ⟨hparent, s, rfl⟩
    obtain ⟨d, hd⟩ := exists_u64 hdeadline
    obtain ⟨b, hb⟩ := exists_u64 hbudget
    let context : Context :=
      { traceId, spanId := ownSpan, parentSpanId := parentSpan, deadline := d, budget := b, sink := s }
    have hunless {name : String} {bs : Bytes} (hne : bs ≠ []) :
        fieldUnless List.isEmpty name bs = field name bs :=
      if_neg (by simpa using hne)
    refine ⟨context, ?_, ?_⟩
    · simp [context, Context.isEmpty, htrace]
    · rw [of_struct (a := context) rfl]
      simp only [context, hunless htrace, hunless hspan, hunless hparent, entriesOf_append,
        entriesOf_field, entriesOf_optionalField, contextDict, hd, hb, List.append_assoc]
      rfl

/-- The context of a payload that was encoded was encoded. -/
theorem enc_context_of_signedBlob (htruthy : ctx.truthy = true)
    (hblob : signedBlob (Envelope.buildPayload (args.args ctx)) working = .ok blob) :
    ∃ bytes, enc ctx = .ok bytes := by
  simp only [signedBlob, Envelope.sign, signingInput, bind_eq_ok, pure_eq_ok] at hblob
  obtain ⟨_, ⟨_, ⟨_, hpayload, -⟩, -⟩, -⟩ := hblob
  have hentry : Envelope.contextEntry ctx = [(.str "context", ctx)] := if_pos htruthy
  refine enc_of_mem_dict hpayload (?_ : (Value.str "context", ctx) ∈ _)
  simp [EnvelopeArgs.args, hentry]

/-- The numbers of a child context that was encoded fit. -/
theorem exists_u64_of_contextDict {traceId ownSpan parentSpan bytes : Bytes}
    {deadline budget : Option Int} {sink : Value}
    (henc : enc (contextDict traceId ownSpan parentSpan deadline budget sink) = .ok bytes) :
    (∀ n ∈ deadline, ∃ u : UInt64, n = u.toNat) ∧ ∀ n ∈ budget, ∃ u : UInt64, n = u.toNat := by
  have hfits {key : String} {n : Int} (hmem : (Value.str key, Value.int n) ∈
      [(.str "trace_id", .bytes traceId), (.str "span_id", .bytes ownSpan),
        (.str "parent_span_id", .bytes parentSpan)] ++
      optionalEntry "deadline" (deadline.elim .none .int) ++
      optionalEntry "budget" (budget.elim .none .int) ++ optionalEntry "sink" sink) :
      ∃ u : UInt64, n = u.toNat := by
    obtain ⟨_, hn⟩ := enc_of_mem_dict henc hmem
    exact exists_u64_of_enc hn
  constructor
  · intro n hn
    cases hn
    exact hfits (by simp [optionalEntry] : (Value.str "deadline", Value.int n) ∈ _)
  · intro n hn
    cases hn
    exact hfits (by simp [optionalEntry] : (Value.str "budget", Value.int n) ∈ _)

/-- **Which contexts survive.** The envelope that carries a child context survives the core exactly
when the parent has a span and the sink, if there is one, lists its fields in declaration order. -/
theorem child_context_survives_iff (hsign : crypto.SignVerifies) (args : EnvelopeArgs)
    (working : WorkingKey crypto) (parent : Value) (e : ContextEntries)
    (hparent : IsContext (parent.orElse (.dict [])) e) (spanId : Option Bytes)
    (localDeadline : Option Int) (spent : Int) (sink : Option Value) (random16 : Urandom 16)
    (random8 : Urandom 8) {ctx : Value} (hctx : childContext parent (spanId.elim .none .bytes)
      localDeadline spent sink random16 random8 = .ok ctx) {blob : Bytes}
    (hblob : signedBlob (Envelope.buildPayload (args.args ctx)) working = .ok blob) :
    Survives crypto working.public (Envelope.buildPayload (args.args ctx)) blob ↔
      e.spanId.getD [] ≠ [] ∧
        ∃ s : Option SinkRef, effectiveSink (e.sink.getD .none) sink = .ofOption s := by
  obtain ⟨traceId, ownSpan, deadline, budget, htrace, hspan, hchild⟩ :=
    @childContext_eq parent e spanId localDeadline spent sink random16 random8 hparent
  obtain rfl : ctx = contextDict traceId ownSpan (e.spanId.getD []) deadline budget
      (effectiveSink (e.sink.getD .none) sink) := Except.ok.inj (hctx.symm.trans hchild)
  have htruthy : (contextDict traceId ownSpan (e.spanId.getD []) deadline budget
      (effectiveSink (e.sink.getD .none) sink)).truthy = true := rfl
  obtain ⟨_, henc⟩ := enc_context_of_signedBlob htruthy hblob
  obtain ⟨hdeadline, hbudget⟩ := exists_u64_of_contextDict henc
  rw [survives_iff hsign htruthy hblob]
  exact contextDict_iff htrace hspan hdeadline hbudget

/-! ### A request that starts a trace -/

def sampleWorking : WorkingKey Crypto.checked := ⟨(2 : UInt8)⟩

def sampleRequest : EnvelopeArgs :=
  { fromId := ⟨[1]⟩, toId := ⟨[2]⟩, typ := .request, correlation := [3],
    capability := some "count words", contentType := none, auth := none, streamSeq := none,
    streamEnd := false, error := none, body := [], ext := none }

/-- A call without arguments but the parent. -/
def sampleChild (parent : Value) : Except Exc Value :=
  childContext parent .none none 0 none ⟨List.replicate 16 7, rfl⟩ ⟨List.replicate 8 8, rfl⟩

def sampleBlob (parent : Value) : Except Exc Bytes := do
  signedBlob (Envelope.buildPayload (sampleRequest.args (← sampleChild parent))) sampleWorking

/-- The context of a request that was handled, with a span of its own. -/
def tracedParent : Value := .dict [(.str "trace_id", .bytes [4]), (.str "span_id", .bytes [5])]

def tracedEntries : ContextEntries :=
  { traceId := some [4], spanId := some [5], deadline := none, budget := none, sink := none }

theorem child_context_survives_traced : ∃ ctx blob, sampleChild tracedParent = .ok ctx ∧
    signedBlob (Envelope.buildPayload (sampleRequest.args ctx)) sampleWorking = .ok blob ∧
    Survives .checked sampleWorking.public (Envelope.buildPayload (sampleRequest.args ctx)) blob := by
  have hok : (sampleBlob tracedParent).isOk = true := by decide +kernel
  have hblob := eq_ok_valueOr (d := []) hok
  rw [sampleBlob, bind_eq_ok] at hblob
  obtain ⟨ctx, hctx, hblob⟩ := hblob
  have hparent : IsContext (tracedParent.orElse (.dict [])) tracedEntries :=
    ⟨rfl, rfl, rfl, rfl, rfl⟩
  refine ⟨ctx, _, hctx, hblob, ?_⟩
  refine (child_context_survives_iff Crypto.checked_signVerifies sampleRequest sampleWorking
    tracedParent tracedEntries hparent none none 0 none _ _ hctx hblob).mpr ⟨?_, none, rfl⟩
  exact List.cons_ne_nil 5 []

theorem root_context_is_rejected :
    ((sampleBlob .none).toOption.bind fromReader).map
      (fun env : SignedEnvelope => env.verifyWithKey .checked sampleWorking.public) =
        some (.error .badEnvelope) := by
  decide +kernel

end Thicket.Py.Tracing
