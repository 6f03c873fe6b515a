import Thicket.Lib.Tally
import Thicket.Py.CallTrace

/-!
# The profiler

`summarize` of `profiler.py`: what a trace's spans cost by fiber and in all. Every span is charged
to the fiber that it names, so the totals add up, whatever the order of the spans; and the profile
of a request that names a sink charges every handler that was executed for it once.
-/

namespace Thicket.Py.Profiler

open Cbor (Bytes)
open Collector Result

/-! ### Totals -/

/-- A fiber's entry in `per_fiber`. -/
@[ext]
structure Totals where
  latencyMs : Int
  tokens : Int
  costMicros : Int
  calls : Nat
  deriving DecidableEq

namespace Totals

/-- `{"latency_ms": 0, "tokens": 0, "cost_micros": 0, "calls": 0}` -/
instance : Zero Totals := ⟨⟨0, 0, 0, 0⟩⟩

instance : Add Totals := ⟨fun a b =>
  { latencyMs := a.latencyMs + b.latencyMs
    tokens := a.tokens + b.tokens
    costMicros := a.costMicros + b.costMicros
    calls := a.calls + b.calls }⟩

@[simp] theorem latencyMs_zero : (0 : Totals).latencyMs = 0 := rfl
@[simp] theorem tokens_zero : (0 : Totals).tokens = 0 := rfl
@[simp] theorem costMicros_zero : (0 : Totals).costMicros = 0 := rfl
@[simp] theorem calls_zero : (0 : Totals).calls = 0 := rfl

variable (a b : Totals)

@[simp] theorem latencyMs_add : (a + b).latencyMs = a.latencyMs + b.latencyMs := rfl
@[simp] theorem tokens_add : (a + b).tokens = a.tokens + b.tokens := rfl
@[simp] theorem costMicros_add : (a + b).costMicros = a.costMicros + b.costMicros := rfl
@[simp] theorem calls_add : (a + b).calls = a.calls + b.calls := rfl

instance : AddCommMonoid Totals where
  add_assoc a b c := by ext <;> simp [add_assoc]
  zero_add a := by ext <;> simp
  add_zero a := by ext <;> simp
  add_comm a b := by ext <;> simp [add_comm]
  nsmul := nsmulRec

end Totals

/-! ### The summary -/

/-- A number, as arithmetic takes it. -/
def number (v : Value) : Except Exc Int := okOr v.asInt .typeError

/-- What the loop of `summarize` keeps. -/
structure Summary where
  perFiber : OrderedDict Key Totals
  totalCost : Int
  totalTokens : Int

def Summary.empty : Summary := { perFiber := .empty, totalCost := 0, totalTokens := 0 }

/-- `max(0, s.get("end_ms", 0) - s.get("start_ms", 0))` -/
def latency (s : Value) : Except Exc Int := do
  return max 0 (← sub (← s.get (.str "end_ms") (.int 0)) (← s.get (.str "start_ms") (.int 0)))

/-- The body of the loop. -/
def count (summary : Summary) (s : Value) : Except Exc Summary := do
  let name ← s.get (.str "name") (.str "?")
  let attrs := (← s.get (.str "attrs") .none).orElse (.dict [])
  let latency ← latency s
  let cost ← attrs.get (.str "cost_micros") (.int 0)
  let tokens ← attrs.get (.str "tokens") (.int 0)
  let fiber ← name.key
  let agg := (summary.perFiber.get? fiber).getD 0
  let agg :=
    { latencyMs := agg.latencyMs + latency
      tokens := agg.tokens + (← number tokens)
      costMicros := agg.costMicros + (← number cost)
      calls := agg.calls + 1 }
  return {
    perFiber := summary.perFiber.put fiber agg
    totalCost := summary.totalCost + (← number cost)
    totalTokens := summary.totalTokens + (← number tokens) }

/-- `span_extent`, no less than zero. The loop has found the times to be numbers. -/
def wall (spans : List Value) : Except Exc Int := do
  if spans.isEmpty then return 0
  let ends ← spans.mapM fun s => do number (← s.get (.str "end_ms") (.int 0))
  let starts ← spans.mapM fun s => do number (← s.get (.str "start_ms") (.int 0))
  return max 0 (ends.max?.getD 0 - starts.min?.getD 0)

structure Profile extends Summary where
  wallMs : Int

def summarize (spans : List Value) : Except Exc Profile := do
  let summary ← spans.foldlM count .empty
  return { toSummary := summary, wallMs := ← wall spans }

/-! ### What a span is charged -/

/-- What a span adds, and to which fiber's totals. -/
def charge (s : Value) : Except Exc (Key × Totals) := do
  let name ← s.get (.str "name") (.str "?")
  let attrs := (← s.get (.str "attrs") .none).orElse (.dict [])
  let latency ← latency s
  let cost ← attrs.get (.str "cost_micros") (.int 0)
  let tokens ← attrs.get (.str "tokens") (.int 0)
  let fiber ← name.key
  let tokens ← number tokens
  return (fiber, { latencyMs := latency, tokens, costMicros := ← number cost, calls := 1 })

def Summary.add (self : Summary) (e : Key × Totals) : Summary :=
  { perFiber := Tally.add self.perFiber e
    totalCost := self.totalCost + e.2.costMicros
    totalTokens := self.totalTokens + e.2.tokens }

variable {summary summary' : Summary} {s : Value} {e : Key × Totals}

theorem count_of_charge (summary : Summary) (h : charge s = .ok e) :
    count summary s = .ok (summary.add e) := by
  simp only [charge, bind_eq_ok, pure_eq_ok] at h
  obtain ⟨name, hname, attrs, hattrs, ms, hlatency, cost, hcost, tokens, htokens, fiber, hfiber,
    n, hn, m, hm, rfl⟩ := h
  simp only [count, hname, hattrs, hlatency, hcost, htokens, hfiber, hn, hm, ok_bind]
  rfl

theorem charge_of_count (h : count summary s = .ok summary') : ∃ e, charge s = .ok e := by
  simp only [count, bind_eq_ok, pure_eq_ok] at h
  obtain ⟨name, hname, attrs, hattrs, ms, hlatency, cost, hcost, tokens, htokens, fiber, hfiber,
    n, hn, m, hm, -⟩ := h
  refine ⟨(fiber, ⟨ms, n, m, 1⟩), ?_⟩
  simp only [charge, hname, hattrs, hlatency, hcost, htokens, hfiber, hn, hm, ok_bind]
  rfl

/-! ### Times -/

def startMs (s : Value) : Int := valueOr (do number (← s.get (.str "start_ms") (.int 0))) 0

def endMs (s : Value) : Int := valueOr (do number (← s.get (.str "end_ms") (.int 0))) 0

/-- The times of a span are numbers. -/
structure Timed (s : Value) : Prop where
  start : (do number (← s.get (.str "start_ms") (.int 0))) = .ok (startMs s)
  finish : (do number (← s.get (.str "end_ms") (.int 0))) = .ok (endMs s)

theorem timed_of_charge (h : charge s = .ok e) :
    Timed s ∧ e.2.latencyMs = max 0 (endMs s - startMs s) := by
  simp only [charge, latency, bind_eq_ok, pure_eq_ok] at h
  obtain ⟨name, -, attrs, -, ms, ⟨finish, hfinish, start, hstart, length, hlength, rfl⟩, cost, -,
    tokens, -, fiber, -, n, -, m, -, rfl⟩ := h
  rw [sub] at hlength
  split at hlength
  next a b ha hb =>
    have hstart' : (do number (← s.get (.str "start_ms") (.int 0))) = .ok b := by
      rw [hstart, ok_bind, number, hb]
      rfl
    have hfinish' : (do number (← s.get (.str "end_ms") (.int 0))) = .ok a := by
      rw [hfinish, ok_bind, number, ha]
      rfl
    have hstartMs : startMs s = b := by rw [startMs, hstart']; rfl
    have hendMs : endMs s = a := by rw [endMs, hfinish']; rfl
    refine ⟨⟨hstartMs ▸ hstart', hendMs ▸ hfinish'⟩, ?_⟩
    rw [hstartMs, hendMs, ← Except.ok.inj hlength]
  next => cases hlength

/-- From the first start to the last end. -/
def extent (spans : List Value) : Int :=
  if spans.isEmpty then 0
  else max 0 ((spans.map endMs).max?.getD 0 - (spans.map startMs).min?.getD 0)

variable {spans spans' : List Value}

theorem wall_eq (h : ∀ s ∈ spans, Timed s) : wall spans = .ok (extent spans) := by
  rw [wall, extent]
  split_ifs
  · rfl
  · rw [mapM_eq_ok fun s hs => (h s hs).finish, mapM_eq_ok fun s hs => (h s hs).start]
    rfl

theorem max?_perm {ns ms : List Int} (h : ns.Perm ms) : ns.max? = ms.max? := by
  ext n
  rw [List.max?_eq_some_iff, List.max?_eq_some_iff, h.mem_iff]
  simp only [h.mem_iff]

theorem min?_perm {ns ms : List Int} (h : ns.Perm ms) : ns.min? = ms.min? := by
  ext n
  rw [List.min?_eq_some_iff, List.min?_eq_some_iff, h.mem_iff]
  simp only [h.mem_iff]

theorem le_max? {ns : List Int} {n : Int} (h : n ∈ ns) : n ≤ ns.max?.getD 0 := by
  cases hmax : ns.max? with
  | none =>
      rw [List.max?_eq_none_iff.mp hmax] at h
      cases h
  | some m => exact (List.max?_eq_some_iff.mp hmax).2 n h

theorem min?_le {ns : List Int} {n : Int} (h : n ∈ ns) : ns.min?.getD 0 ≤ n := by
  cases hmin : ns.min? with
  | none =>
      rw [List.min?_eq_none_iff.mp hmin] at h
      cases h
  | some m => exact (List.min?_eq_some_iff.mp hmin).2 n h

theorem extent_perm (h : spans.Perm spans') : extent spans = extent spans' := by
  have hempty : spans.isEmpty = spans'.isEmpty := by
    rw [Bool.eq_iff_iff, List.isEmpty_iff, List.isEmpty_iff]
    exact ⟨fun hnil => (hnil ▸ h).nil_eq.symm, fun hnil => (hnil ▸ h).eq_nil⟩
  rw [extent, extent, hempty, max?_perm (h.map endMs), min?_perm (h.map startMs)]

/-- No span is longer than the whole. -/
theorem le_extent (hs : s ∈ spans) : max 0 (endMs s - startMs s) ≤ extent spans := by
  have hne : spans.isEmpty = false := by
    cases spans with
    | nil => cases hs
    | cons => rfl
  have hend : endMs s ≤ (spans.map endMs).max?.getD 0 := le_max? (List.mem_map_of_mem hs)
  have hstart : (spans.map startMs).min?.getD 0 ≤ startMs s := min?_le (List.mem_map_of_mem hs)
  rw [extent, hne, if_neg Bool.false_ne_true]
  omega

/-! ### The profile of a trace -/

/-- What a span is charged, if it can be. -/
def charged (s : Value) : Key × Totals := valueOr (charge s) (.none, 0)

theorem charge_eq (h : charge s = .ok e) : charge s = .ok (charged s) := by
  rw [charged, h]
  rfl

def profileOf (spans : List Value) : Profile :=
  { perFiber := (spans.map charged).foldl Tally.add .empty
    totalCost := (spans.map fun s => (charged s).2.costMicros).sum
    totalTokens := (spans.map fun s => (charged s).2.tokens).sum
    wallMs := extent spans }

theorem foldlM_count (h : ∀ s ∈ spans, charge s = .ok (charged s)) (summary : Summary) :
    spans.foldlM count summary = .ok
      { perFiber := (spans.map charged).foldl Tally.add summary.perFiber
        totalCost := summary.totalCost + (spans.map fun s => (charged s).2.costMicros).sum
        totalTokens := summary.totalTokens + (spans.map fun s => (charged s).2.tokens).sum } := by
  induction spans generalizing summary with
  | nil => simp [pure, Except.pure]
  | cons s spans ih =>
      obtain ⟨hs, h⟩ := List.forall_mem_cons.mp h
      rw [List.foldlM_cons, count_of_charge summary hs, ok_bind, ih h]
      simp only [Summary.add, List.map_cons, List.foldl_cons, List.sum_cons, add_assoc]

theorem charge_of_foldlM (h : spans.foldlM count summary = .ok summary') :
    ∀ s ∈ spans, charge s = .ok (charged s) := by
  induction spans generalizing summary with
  | nil => exact List.forall_mem_nil _
  | cons s spans ih =>
      rw [List.foldlM_cons] at h
      obtain ⟨next, hnext, hrest⟩ := bind_eq_ok.mp h
      obtain ⟨e, he⟩ := charge_of_count hnext
      exact List.forall_mem_cons.mpr ⟨charge_eq he, ih hrest⟩

theorem summarize_eq (h : ∀ s ∈ spans, charge s = .ok (charged s)) :
    summarize spans = .ok (profileOf spans) := by
  rw [summarize, foldlM_count h, ok_bind, wall_eq fun s hs => (timed_of_charge (h s hs)).1]
  simp only [Summary.empty, zero_add]
  rfl

theorem summarize_eq_ok {profile : Profile} : summarize spans = .ok profile ↔
    (∀ s ∈ spans, charge s = .ok (charged s)) ∧ profileOf spans = profile := by
  constructor
  · intro h
    obtain ⟨summary, hsummary, -⟩ := bind_eq_ok.mp h
    have hcharge := charge_of_foldlM hsummary
    rw [summarize_eq hcharge] at h
    exact ⟨hcharge, Except.ok.inj h⟩
  · rintro ⟨hcharge, rfl⟩
    exact summarize_eq hcharge

/-! ### Adding up -/

/-- What a profile says of a trace: every span is charged to one fiber, the trace's totals are those
of all fibers together, and no span is longer than the trace. -/
structure AddsUp (spans : List Value) (profile : Profile) : Prop where
  charged : ∀ s ∈ spans, charge s = .ok (charged s)
  perFiber : ∀ fiber, profile.perFiber.get? fiber =
    if fiber ∈ (spans.map Profiler.charged).map Prod.fst
    then some (Tally.total (spans.map Profiler.charged) fiber) else none
  cost : (Tally.sum profile.perFiber).costMicros = profile.totalCost
  tokens : (Tally.sum profile.perFiber).tokens = profile.totalTokens
  calls : (Tally.sum profile.perFiber).calls = spans.length
  wall : ∀ s ∈ spans, (Profiler.charged s).2.latencyMs ≤ profile.wallMs

theorem costMicros_sum (totals : List Totals) :
    totals.sum.costMicros = (totals.map Totals.costMicros).sum := by
  induction totals with
  | nil => rfl
  | cons t totals ih => simp [ih]

theorem tokens_sum (totals : List Totals) :
    totals.sum.tokens = (totals.map Totals.tokens).sum := by
  induction totals with
  | nil => rfl
  | cons t totals ih => simp [ih]

theorem calls_sum (totals : List Totals) : totals.sum.calls = (totals.map Totals.calls).sum := by
  induction totals with
  | nil => rfl
  | cons t totals ih => simp [ih]

theorem calls_of_charge (h : charge s = .ok e) : e.2.calls = 1 := by
  simp only [charge, bind_eq_ok, pure_eq_ok] at h
  obtain ⟨name, -, attrs, -, ms, -, cost, -, tokens, -, fiber, -, n, -, m, -, rfl⟩ := h
  rfl

theorem perFiber_profileOf (spans : List Value) (fiber : Key) :
    (profileOf spans).perFiber.get? fiber =
      if fiber ∈ (spans.map charged).map Prod.fst
      then some (Tally.total (spans.map charged) fiber) else none :=
  Tally.get?_tally _ _

theorem addsUp_profileOf (h : ∀ s ∈ spans, charge s = .ok (charged s)) :
    AddsUp spans (profileOf spans) := by
  have hsum : Tally.sum (profileOf spans).perFiber = ((spans.map charged).map Prod.snd).sum :=
    Tally.sum_tally _
  constructor
  · exact h
  · exact perFiber_profileOf spans
  · rw [hsum, costMicros_sum, List.map_map, List.map_map]
    rfl
  · rw [hsum, tokens_sum, List.map_map, List.map_map]
    rfl
  · have hone : spans.map ((Totals.calls ∘ Prod.snd) ∘ charged) = spans.map fun _ => 1 :=
      List.map_congr_left fun s hs => calls_of_charge (h s hs)
    rw [hsum, calls_sum, List.map_map, List.map_map, hone]
    simp
  · intro s hs
    rw [(timed_of_charge (h s hs)).2]
    exact le_extent hs

/-- **A profile adds up.** Whatever is reported for a trace, the profiler either finds a span that
it cannot charge or charges every span once; the order of the spans makes no difference. -/
theorem profile_adds_up {profile : Profile} (h : summarize spans = .ok profile) :
    AddsUp spans profile ∧ ∀ others : List Value, others.Perm spans →
      ∃ profile', summarize others = .ok profile' ∧
        (∀ fiber, profile'.perFiber.get? fiber = profile.perFiber.get? fiber) ∧
        profile'.totalCost = profile.totalCost ∧ profile'.totalTokens = profile.totalTokens ∧
        profile'.wallMs = profile.wallMs := by
  obtain ⟨hcharge, rfl⟩ := summarize_eq_ok.mp h
  refine ⟨addsUp_profileOf hcharge, fun others hperm => ⟨profileOf others, ?_, ?_, ?_, ?_, ?_⟩⟩
  · exact summarize_eq fun s hs => hcharge s (hperm.mem_iff.mp hs)
  · intro fiber
    have hcharged := hperm.map charged
    rw [perFiber_profileOf, perFiber_profileOf, Tally.total_perm hcharged]
    simp only [(hcharged.map Prod.fst).mem_iff]
  · exact (hperm.map _).sum_eq
  · exact (hperm.map _).sum_eq
  · exact extent_perm hperm

def twoSpans : List Value :=
  [.dict [(.str "name", .str "llm"), (.str "start_ms", .int 3), (.str "end_ms", .int 8),
      (.str "attrs", .dict [(.str "tokens", .int 40), (.str "cost_micros", .int 2)])],
    .dict [(.str "name", .str "llm"), (.str "start_ms", .int 8), (.str "end_ms", .int 9)]]

theorem profile_adds_up_two : ∃ profile, summarize twoSpans = .ok profile ∧
    profile.wallMs = 6 ∧ AddsUp twoSpans profile := by
  have hcharge : ∀ s ∈ twoSpans, charge s = .ok (charged s) :=
    List.forall_mem_cons.mpr ⟨rfl, List.forall_mem_singleton.mpr rfl⟩
  have hsummary := summarize_eq hcharge
  exact ⟨_, hsummary, by decide +kernel, (profile_adds_up hsummary).1⟩

/-! ### The profile of a request -/

open Tracing

mutual

/-- The handlers of a tree that are executed. -/
def ran (parent : Value) : SpanTree → List Emission
  | .node call emission subs =>
      match executed parent call with
      | none => []
      | some self => emission :: ranAll self subs

def ranAll (parent : Value) : List SpanTree → List Emission
  | [] => []
  | tree :: trees => ran parent tree ++ ranAll parent trees

end

/-- The handler of a request, if it is executed, and those of its sub-calls. -/
def requestRan (callee : Callee) (emission : Emission) (context : Value)
    (subs : List SpanTree) : List Emission :=
  match (handlerContext callee context).toOption.join with
  | none => []
  | some self => emission :: ranAll self subs

mutual

/-- The fibers that the calls of a tree reach. -/
def callees : SpanTree → List Callee
  | .node call _ subs => call.callee :: calleesAll subs

def calleesAll : List SpanTree → List Callee
  | [] => []
  | tree :: trees => callees tree ++ calleesAll trees

end

/-! ### Handlers with a sink -/

/-- The context names a sink. -/
def HasSink (ctx : Value) : Prop :=
  ∃ entries sink, ctx = .dict entries ∧ lookup entries "sink" = some sink ∧ sink.truthy = true

/-- The fiber is configured without a sink, or with one that it can report to. -/
def KeepsSink (callee : Callee) : Prop := callee.sink = .none ∨ callee.sink.truthy = true

section Sinks

variable {parent env ctx self : Value} {trace id pid : Bytes} {callee : Callee} {call : SubCall}

theorem HasSink.get (h : HasSink ctx) :
    ∃ sink, ctx.get (.str "sink") .none = .ok sink ∧ sink.truthy = true := by
  obtain ⟨entries, sink, rfl, hlookup, htruthy⟩ := h
  refine ⟨sink, ?_, htruthy⟩
  show Except.ok ((lookup entries "sink").getD .none) = _
  rw [hlookup]
  rfl

/-- A child reports where its parent does. -/
theorem HasSink.child {spent : Int} {random16 : Urandom 16} {random8 : Urandom 8}
    (h : HasSink parent) (hparent : InTrace parent trace id pid)
    (hchild : childContext parent .none none spent none random16 random8 = .ok ctx) :
    HasSink ctx := by
  obtain ⟨sink, hsink, htruthy⟩ := h.get
  simp only [childContext, hparent.orElse, hsink, ok_bind, bind_eq_ok, pure_eq_ok, effectiveSink,
    Option.getD_none] at hchild
  obtain ⟨_, -, _, -, _, -, _, -, _, -, _, -, rfl⟩ := hchild
  have hentry : optionalEntry "sink" sink = [(.str "sink", sink)] := by
    cases sink with
    | none => cases htruthy
    | _ => rfl
  refine ⟨_, sink, rfl, ?_, htruthy⟩
  simp [lookup, find?_optionalEntry, hentry]

theorem HasSink.selfContext (h : HasSink env) (hkeeps : KeepsSink callee)
    (hself : Fiber.selfContext callee.sink env = .ok self) : HasSink self := by
  obtain ⟨entries, sink, rfl, hlookup, htruthy⟩ := h
  simp only [Fiber.selfContext, Value.items, bind_eq_ok, Except.ok.injEq, exists_eq_left'] at hself
  split at hself
  next => exact ⟨entries, sink, (pure_eq_ok.mp hself).symm, hlookup, htruthy⟩
  next hnone =>
    simp only [bind_eq_ok, pure_eq_ok] at hself
    obtain ⟨entries', hset, rfl⟩ := hself
    refine ⟨entries', callee.sink, rfl, ?_, hkeeps.resolve_left hnone⟩
    rw [lookup_setItem hset, if_pos (by rw [eq_str]; decide)]

theorem HasSink.handlerContext (h : HasSink ctx) (hctx : InTrace ctx trace id pid)
    (hkeeps : KeepsSink callee) (hself : Tracing.handlerContext callee ctx = .ok (some self)) :
    HasSink self := by
  simp only [Tracing.handlerContext, hctx.orElse, bind_eq_ok] at hself
  obtain ⟨lets, -, hself⟩ := hself
  cases lets with
  | false => simp [pure, Except.pure] at hself
  | true =>
      simp only [if_true, bind_eq_ok, pure_eq_ok, Option.some.injEq] at hself
      obtain ⟨self', hself', rfl⟩ := hself
      exact h.selfContext hkeeps hself'

theorem HasSink.executed (h : HasSink parent) (hparent : InTrace parent trace id pid)
    (htrace : trace ≠ []) (hkeeps : KeepsSink call.callee)
    (hself : Tracing.executed parent call = some self) : HasSink self := by
  simp only [Tracing.executed, Option.bind_eq_bind, Option.bind_eq_some_iff] at hself
  obtain ⟨context, hcontext, self', hhandler, rfl⟩ := hself
  have hcontext := toOption_eq_some.mp hcontext
  exact (h.child hparent hcontext).handlerContext (hparent.child htrace hcontext) hkeeps
    (toOption_eq_some.mp hhandler)

/-- A handler whose context names a sink reports its span. -/
theorem exists_span (hself : InTrace self trace id pid) (htrace : trace ≠ []) (hsink : HasSink self)
    (emission : Emission) : ∃ s, emission.span self = some s := by
  obtain ⟨sink, hsink, htruthy⟩ := hsink.get
  have hreport : ∃ s, emission.report self = .ok (some s) := by
    simp only [Emission.report, hself.orElse, hself.traceId, hself.spanId, hself.parentId,
      hself.getItem, hsink, ok_bind, htruthy, truthy_bytes htrace, Bool.not_true,
      Bool.false_eq_true, if_false]
    exact ⟨_, rfl⟩
  obtain ⟨s, hreport⟩ := hreport
  refine ⟨s, ?_⟩
  rw [Emission.span, hreport]
  rfl

/-- What the span of a handler is charged. -/
def totalsOf (emission : Emission) : Totals :=
  { latencyMs := max 0 (emission.endMs - emission.startMs)
    tokens := 0
    costMicros := 0
    calls := 1 }

def chargeOf (emission : Emission) : Key × Totals := (.str emission.name, totalsOf emission)

theorem charge_span {emission : Emission} {ctx : Value} (h : emission.span ctx = some s) :
    charge s = .ok (chargeOf emission) := by
  have hreport := toOption_eq_some.mp (Option.join_eq_some_iff.mp h)
  simp only [Emission.report, bind_eq_ok] at hreport
  obtain ⟨sink, -, hreport⟩ := hreport
  split_ifs at hreport
  · cases hreport
  obtain ⟨traceId, -, hreport⟩ := bind_eq_ok.mp hreport
  split_ifs at hreport
  · cases hreport
  simp only [bind_eq_ok, pure_eq_ok, Option.some.injEq] at hreport
  obtain ⟨spanId, -, traceId, -, parentId, -, rfl⟩ := hreport
  rfl

theorem charges_span (hself : InTrace self trace id pid) (htrace : trace ≠ [])
    (hsink : HasSink self) (emission : Emission) (caller : Option Value) :
    ((emission.span self).toList.map fun s => (caller, s)).map (fun r => charge r.2) =
      [.ok (chargeOf emission)] := by
  obtain ⟨s, hspan⟩ := exists_span hself htrace hsink emission
  rw [hspan]
  exact congrArg ([·]) (charge_span hspan)

mutual

theorem charges_reported (htrace : trace ≠ []) : ∀ {tree : SpanTree} {parent : Value}
    {id up : Bytes} (caller : Option Value), InTrace parent trace id up → HasSink parent →
      (∀ callee ∈ callees tree, KeepsSink callee) →
        (reported caller parent tree).map (fun r => charge r.2) =
          (ran parent tree).map fun e => .ok (chargeOf e)
  | .node call emission subs, parent, id, up, caller, hparent, hsink, hkeeps => by
    rw [callees] at hkeeps
    obtain ⟨hcallee, hkeeps⟩ := List.forall_mem_cons.mp hkeeps
    rw [reported, ran]
    cases hexec : executed parent call with
    | none => rfl
    | some self =>
        have hself := hparent.executed htrace hexec
        have hown := hsink.executed hparent htrace hcallee hexec
        rw [List.map_append, charges_span hself htrace hown,
          charges_reportedAll htrace (emission.span self) hself hown hkeeps]
        rfl

theorem charges_reportedAll (htrace : trace ≠ []) : ∀ {trees : List SpanTree} {parent : Value}
    {id up : Bytes} (caller : Option Value), InTrace parent trace id up → HasSink parent →
      (∀ callee ∈ calleesAll trees, KeepsSink callee) →
        (reportedAll caller parent trees).map (fun r => charge r.2) =
          (ranAll parent trees).map fun e => .ok (chargeOf e)
  | [], _, _, _, _, _, _, _ => rfl
  | tree :: trees, parent, id, up, caller, hparent, hsink, hkeeps => by
    rw [calleesAll] at hkeeps
    obtain ⟨hfirst, hrest⟩ := List.forall_mem_append.mp hkeeps
    rw [reportedAll, ranAll, List.map_append, List.map_append,
      charges_reported htrace caller hparent hsink hfirst,
      charges_reportedAll htrace caller hparent hsink hrest]

end

theorem charges_requestSpans (callee : Callee) (emission : Emission) {context : Value}
    {subs : List SpanTree} {up : Bytes} (hcontext : InTrace context trace id up)
    (htrace : trace ≠ []) (hsink : HasSink context)
    (hkeeps : ∀ c ∈ callee :: calleesAll subs, KeepsSink c) :
    (requestSpans callee emission context subs).map (fun r => charge r.2) =
      (requestRan callee emission context subs).map fun e => .ok (chargeOf e) := by
  obtain ⟨hcallee, hkeeps⟩ := List.forall_mem_cons.mp hkeeps
  rw [requestSpans, requestRan]
  cases hhandler : (handlerContext callee context).toOption.join with
  | none => rfl
  | some self =>
      have hhandler := toOption_eq_some.mp (Option.join_eq_some_iff.mp hhandler)
      have hself := hcontext.handlerContext hhandler
      have hown := hsink.handlerContext hcontext hcallee hhandler
      rw [List.map_append, charges_span hself htrace hown,
        charges_reportedAll htrace (emission.span self) hself hown hkeeps]
      rfl

end Sinks

theorem perm_sorted_of_trace {reports sorted : List Value} {built : Built} {req : Value} {id : Key}
    (hreq : traceKey req = .ok id)
    (hreply : trace (reports.foldl collect .empty) req = .ok (sorted, built)) :
    sorted.Perm (reportedFor id reports) := by
  rw [trace, hreq, ok_bind, spansOf_foldl_collect] at hreply
  obtain ⟨spans, hsorted, hreply⟩ := bind_eq_ok.mp hreply
  obtain ⟨built', -, hreply⟩ := bind_eq_ok.mp hreply
  obtain ⟨rfl, -⟩ := Prod.mk.inj (Except.ok.inj hreply)
  exact perm_of_sortedBy hsorted

theorem charged_of_map {emissions : List Emission} {rs : List Reported}
    (h : rs.map (fun r => charge r.2) = emissions.map fun e => .ok (chargeOf e)) :
    (∀ s ∈ rs.map Prod.snd, charge s = .ok (charged s)) ∧
      (rs.map Prod.snd).map charged = emissions.map chargeOf := by
  constructor
  · intro s hs
    obtain ⟨r, hr, rfl⟩ := List.mem_map.mp hs
    have hmem := List.mem_map_of_mem (f := fun r : Reported => charge r.2) hr
    rw [h] at hmem
    obtain ⟨emission, -, hcharge⟩ := List.mem_map.mp hmem
    exact charge_eq hcharge.symm
  · have hvalues := congrArg (List.map fun x => valueOr x (Key.none, (0 : Totals))) h
    rw [List.map_map, List.map_map] at hvalues
    rw [List.map_map]
    exact hvalues

theorem mem_names {emissions : List Emission} {name : String} :
    Key.str name ∈ (emissions.map chargeOf).map Prod.fst ↔
      (emissions.filter fun e => e.name = name) ≠ [] := by
  rw [ne_eq, List.filter_eq_nil_iff, List.map_map, List.mem_map]
  simp [chargeOf]

theorem total_chargeOf (emissions : List Emission) (name : String) :
    Tally.total (emissions.map chargeOf) (.str name) =
      ((emissions.filter fun e => e.name = name).map totalsOf).sum := by
  rw [Tally.total, List.filter_map, List.map_map]
  congr 2
  apply List.filter_congr
  intro e _
  simp [chargeOf]

/-- **The profile of a request counts every call.** A request is made in a trace with a sink, the
ids that are drawn for its tree of sub-calls differ, and all spans that are reported for it arrive
at the collector, in whatever order and among whatever spans of other traces. Then the profile of
its trace has for every fiber's name the calls of it that were executed, with their latencies, each
once. -/
theorem request_profile (callee : Callee) (emission : Emission) (subs : List SpanTree)
    (reports : List Value) {context req : Value} {trace id up : Bytes}
    (hcontext : InTrace context trace id up) (htrace : trace ≠ []) (hid : id ≠ [])
    (hsink : HasSink context) (hkeeps : ∀ c ∈ callee :: calleesAll subs, KeepsSink c)
    (hfresh : (up :: id :: drawnAll subs).Nodup) (hreq : traceKey req = .ok (.bytes trace))
    (hreceived : (reportedFor (.bytes trace) reports).Perm
      ((requestSpans callee emission context subs).map Prod.snd)) :
    ∃ sorted built profile,
      Collector.trace (reports.foldl collect .empty) req = .ok (sorted, built) ∧
      summarize sorted = .ok profile ∧
      (Tally.sum profile.perFiber).calls = (requestRan callee emission context subs).length ∧
      ∀ name, profile.perFiber.get? (.str name) =
        let calls := (requestRan callee emission context subs).filter fun e => e.name = name
        if calls = [] then none else some (calls.map totalsOf).sum := by
  have hcovers : Tracing.Covers trace up none (id :: drawnAll subs)
      (requestSpans callee emission context subs) :=
    covers_requestSpans htrace hid hcontext hfresh
  have hcoherent := (hcovers.coherent hfresh (ne_nil_of_request subs hid)).perm hreceived.symm
  obtain ⟨sorted, built, -, hreply, -, -⟩ := (trace_shows_iff reports hreq).mpr hcoherent
  have hperm := (perm_sorted_of_trace hreq hreply).trans hreceived
  obtain ⟨hcharge, hcharged⟩ := charged_of_map
    (charges_requestSpans callee emission hcontext htrace hsink hkeeps)
  have hsorted : ∀ s ∈ sorted, charge s = .ok (charged s) :=
    fun s hs => hcharge s (hperm.mem_iff.mp hs)
  have hcharges : (sorted.map charged).Perm
      ((requestRan callee emission context subs).map chargeOf) := hcharged ▸ hperm.map charged
  refine ⟨sorted, built, profileOf sorted, hreply, summarize_eq hsorted, ?_, fun name => ?_⟩
  · rw [(addsUp_profileOf hsorted).calls]
    have hlength := hcharges.length_eq
    rwa [List.length_map, List.length_map] at hlength
  · rw [perFiber_profileOf, Tally.total_perm hcharges, total_chargeOf]
    simp only [(hcharges.map Prod.fst).mem_iff, mem_names]
    split_ifs <;> first | rfl | contradiction

theorem request_profile_nested : ∃ sorted built profile,
    Collector.trace (sampleReports.foldl collect .empty)
      (.dict [(.str "trace_id", .bytes (List.replicate 16 1))]) = .ok (sorted, built) ∧
    summarize sorted = .ok profile ∧ (Tally.sum profile.perFiber).calls = 3 := by
  have hcontext : InTrace sampleContext (List.replicate 16 1) (List.replicate 8 1) [] :=
    ⟨⟨_, rfl⟩, rfl, rfl, rfl⟩
  have hreq : traceKey (.dict [(.str "trace_id", .bytes (List.replicate 16 1))]) =
      .ok (.bytes (List.replicate 16 1)) := rfl
  have hall : (reportedFor (.bytes (List.replicate 16 1)) sampleReports).Perm
      ((requestSpans sampleCallee (sampleEmission 1) sampleContext
        [sampleTree 2 [sampleTree 3 []]]).map Prod.snd) := by
    have hkept : reportedFor (.bytes (List.replicate 16 1)) sampleReports = sampleReports :=
      List.filter_eq_self.mpr (by decide +kernel)
    rw [hkept]
    exact List.reverse_perm _
  have hsink : HasSink sampleContext := ⟨_, _, rfl, rfl, rfl⟩
  have hkeeps : ∀ c ∈ sampleCallee :: calleesAll [sampleTree 2 [sampleTree 3 []]], KeepsSink c := by
    intro c hc
    rw [show sampleCallee :: calleesAll [sampleTree 2 [sampleTree 3 []]] =
      List.replicate 3 sampleCallee from rfl] at hc
    rw [List.eq_of_mem_replicate hc]
    exact .inl rfl
  obtain ⟨sorted, built, profile, hreply, hprofile, hcalls, -⟩ :=
    request_profile sampleCallee (sampleEmission 1) [sampleTree 2 [sampleTree 3 []]] sampleReports
      hcontext (by decide) (by decide) hsink hkeeps (by decide) hreq hall
  refine ⟨sorted, built, profile, hreply, hprofile, hcalls.trans ?_⟩
  decide +kernel

end Thicket.Py.Profiler
