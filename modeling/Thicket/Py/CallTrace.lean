import Thicket.Py.Budget
import Thicket.Py.Traces

/-!
# Spans of a tree of calls

Every fiber reports its own span to the sink of its context, and nobody sees the whole call. The id
of a span is the one that the caller drew for it, and the caller's own id is its parent's. So
whatever part of the spans of a request arrives at a collector, in whatever order and with whatever
spans of other traces between them, the collector shows each of them once, under the span of the
call that it was made by.
-/

namespace Thicket.Py.Tracing

open Cbor (Bytes)
open Collector Forest Result

/-! ### Reporting -/

/-- What `SpanEmitter.span` is called with, the times that it reads, and the bytes that
`os.urandom(8)` returns to it. -/
structure Emission where
  name : String
  kind : String
  fiberId : Bytes
  startMs : Int
  endMs : Int
  random8 : Urandom 8

/-- The span that `SpanEmitter.span` reports, if it does; where it is reported is `ctx["sink"]`. -/
def Emission.report (self : Emission) (ctx : Value) : Except Exc (Option Value) := do
  let ctx := ctx.orElse (.dict [])
  let sink ← ctx.get (.str "sink") .none
  if !sink.truthy then return none
  if !(← ctx.get (.str "trace_id") .none).truthy then return none
  let spanId ← ctx.get (.str "span_id") .none
  return some (.dict [
    (.str "trace_id", ← ctx.getItem "trace_id"),
    (.str "span_id", spanId.orElse (.bytes self.random8.1)),
    (.str "parent_span_id", ← ctx.get (.str "parent_span_id") (.bytes [])),
    (.str "name", .str self.name),
    (.str "fiber_id", .bytes self.fiberId),
    (.str "kind", .str self.kind),
    (.str "start_ms", .int self.startMs),
    (.str "end_ms", .int self.endMs),
    (.str "attrs", .dict [])])

def Emission.span (self : Emission) (ctx : Value) : Option Value :=
  (self.report ctx).toOption.join

/-- A sub-call, what is reported for it if it is executed, and the sub-calls that its handler then
makes. -/
inductive SpanTree where
  | node (call : SubCall) (emission : Emission) (subs : List SpanTree)

mutual

/-- The ids that the callers of a tree draw. -/
def drawn : SpanTree → List Bytes
  | .node call _ subs => call.random8.1 :: drawnAll subs

def drawnAll : List SpanTree → List Bytes
  | [] => []
  | tree :: trees => drawn tree ++ drawnAll trees

end

/-- A span that is reported, and the one that the caller reports. -/
abbrev Reported := Option Value × Value

mutual

/-- The spans of a tree, under a handler with the context `parent` that reports `caller`. -/
def reported (caller : Option Value) (parent : Value) : SpanTree → List Reported
  | .node call emission subs =>
      match executed parent call with
      | none => []
      | some self =>
          (emission.span self).toList.map (fun s => (caller, s)) ++
            reportedAll (emission.span self) self subs

def reportedAll (caller : Option Value) (parent : Value) : List SpanTree → List Reported
  | [] => []
  | tree :: trees => reported caller parent tree ++ reportedAll caller parent trees

end

/-- The spans of a request: that of the handler that executes it, and those of its sub-calls. -/
def requestSpans (callee : Callee) (emission : Emission) (context : Value) (subs : List SpanTree) :
    List Reported :=
  match (handlerContext callee context).toOption.join with
  | none => []
  | some self =>
      (emission.span self).toList.map (fun s => (none, s)) ++
        reportedAll (emission.span self) self subs

/-! ### Contexts of a trace -/

/-- The context is that of a span of the trace. -/
structure InTrace (ctx : Value) (trace id parent : Bytes) : Prop where
  isDict : ∃ entries, ctx = .dict entries
  traceId : ctx.get (.str "trace_id") .none = .ok (.bytes trace)
  spanId : ctx.get (.str "span_id") .none = .ok (.bytes id)
  parentId : ctx.get (.str "parent_span_id") (.bytes []) = .ok (.bytes parent)

variable {ctx parent env self : Value} {trace id pid : Bytes} {callee : Callee} {call : SubCall}

theorem InTrace.orElse (h : InTrace ctx trace id pid) : ctx.orElse (.dict []) = ctx := by
  obtain ⟨entries, rfl⟩ := h.isDict
  exact orElse_dict entries

theorem truthy_bytes {bs : Bytes} (h : bs ≠ []) : (Value.bytes bs).truthy = true := by
  cases bs with
  | nil => exact absurd rfl h
  | cons b bs => rfl

theorem orElse_bytes {bs : Bytes} (h : bs ≠ []) (other : Value) :
    (Value.bytes bs).orElse other = .bytes bs := if_pos (truthy_bytes h)

theorem orElse_none (other : Value) : Value.none.orElse other = other := rfl

/-- A child's span is the one drawn for it, and its parent is the caller's. -/
theorem InTrace.child {localDeadline : Option Int} {spent : Int} {sink : Option Value}
    {random16 : Urandom 16} {random8 : Urandom 8} (h : InTrace parent trace id pid)
    (htrace : trace ≠ [])
    (hchild : childContext parent .none localDeadline spent sink random16 random8 = .ok ctx) :
    InTrace ctx trace random8.1 id := by
  have hspan : parent.get (.str "span_id") (.bytes []) = .ok (.bytes id) := by
    have hget := h.spanId
    obtain ⟨entries, rfl⟩ := h.isDict
    simp only [Value.get, Value.isHashable, if_true, Except.ok.injEq] at hget ⊢
    cases hfind : entries.find? fun e => e.1.eq (.str "span_id") with
    | none =>
        rw [hfind] at hget
        cases hget
    | some e =>
        rw [hfind] at hget
        exact hget
  simp only [childContext, h.orElse, h.traceId, hspan, ok_bind, bind_eq_ok, pure_eq_ok,
    orElse_bytes htrace, orElse_none] at hchild
  obtain ⟨deadline, -, deadline', -, budget, -, budget', -, inherited, -, rfl⟩ := hchild
  exact ⟨⟨_, rfl⟩, rfl, rfl, rfl⟩

theorem get_setItem_sink {entries entries' : List (Value × Value)} {sink default : Value}
    {name : String} (hset : setItem entries (.str "sink") sink = .ok entries')
    (hname : name ≠ "sink") :
    (Value.dict entries').get (.str name) default =
      (Value.dict entries).get (.str name) default := by
  have hlookup : lookup entries' name = lookup entries name := by
    rw [lookup_setItem hset, if_neg (by rw [eq_str]; simpa using Ne.symm hname)]
  show Except.ok ((lookup entries' name).getD default) = .ok ((lookup entries name).getD default)
  rw [hlookup]

theorem InTrace.selfContext {sink : Value} (h : InTrace env trace id pid)
    (hself : Fiber.selfContext sink env = .ok self) : InTrace self trace id pid := by
  obtain ⟨entries, rfl⟩ := h.isDict
  simp only [Fiber.selfContext, Value.items, bind_eq_ok, Except.ok.injEq, exists_eq_left'] at hself
  split at hself
  · rw [pure_eq_ok] at hself
    exact hself ▸ h
  · simp only [bind_eq_ok, pure_eq_ok] at hself
    obtain ⟨entries', hset, rfl⟩ := hself
    refine ⟨⟨_, rfl⟩, ?_, ?_, ?_⟩
    · rw [get_setItem_sink hset (by decide), h.traceId]
    · rw [get_setItem_sink hset (by decide), h.spanId]
    · rw [get_setItem_sink hset (by decide), h.parentId]

theorem InTrace.handlerContext (h : InTrace ctx trace id pid)
    (hself : Tracing.handlerContext callee ctx = .ok (some self)) : InTrace self trace id pid := by
  simp only [Tracing.handlerContext, h.orElse, bind_eq_ok] at hself
  obtain ⟨lets, -, hself⟩ := hself
  cases lets with
  | false => simp [pure, Except.pure] at hself
  | true =>
      simp only [if_true, bind_eq_ok, pure_eq_ok, Option.some.injEq] at hself
      obtain ⟨self', hself', rfl⟩ := hself
      exact h.selfContext hself'

theorem InTrace.executed (h : InTrace parent trace id pid) (htrace : trace ≠ [])
    (hself : Tracing.executed parent call = some self) :
    InTrace self trace call.random8.1 id := by
  simp only [Tracing.executed, Option.bind_eq_bind, Option.bind_eq_some_iff] at hself
  obtain ⟨context, hcontext, self', hhandler, rfl⟩ := hself
  have hchild := h.child htrace (toOption_eq_some.mp hcontext)
  exact hchild.handlerContext (toOption_eq_some.mp hhandler)

/-! ### Spans that are reported -/

/-- The span with this id and this parent, as the collector reads it. -/
structure SpanOf (s : Value) (trace id parent : Bytes) : Prop where
  traceKey : traceKey s = .ok (.bytes trace)
  spanKey : spanKey s = .ok (.bytes id)
  parentKey : parentKey s = .ok (if parent = [] then none else some (.bytes parent))
  startOf : ∃ n, startOf s = .int n

variable {emission : Emission} {s p : Value} {pid' up : Bytes}

theorem InTrace.getItem (h : InTrace self trace id pid) :
    self.getItem "trace_id" = .ok (.bytes trace) := by
  have hget := h.traceId
  obtain ⟨entries, rfl⟩ := h.isDict
  apply getItem_dict.mpr
  have hgetD : (lookup entries "trace_id").getD .none = .bytes trace := Except.ok.inj hget
  cases hlookup : lookup entries "trace_id" with
  | none => simp [hlookup] at hgetD
  | some v => simpa [hlookup] using hgetD

theorem InTrace.span (h : InTrace self trace id pid) (hid : id ≠ [])
    (hspan : emission.span self = some s) : SpanOf s trace id pid := by
  have hreport := toOption_eq_some.mp (Option.join_eq_some_iff.mp hspan)
  simp only [Emission.report, h.orElse, h.traceId, h.spanId, h.parentId, h.getItem, ok_bind,
    bind_eq_ok] at hreport
  obtain ⟨sink, -, hreport⟩ := hreport
  split_ifs at hreport
  all_goals simp only [pure_eq_ok, Option.some.injEq, reduceCtorEq] at hreport
  subst hreport
  refine ⟨rfl, ?_, ?_, emission.startMs, rfl⟩
  · show Value.key ((Value.bytes id).orElse _) = _
    rw [orElse_bytes hid]
    rfl
  · show Except.ok (if (Value.bytes pid).eq (.bytes []) then none else some (Key.bytes pid)) = _
    simp only [eq_bytes_iff, Value.bytes.injEq]

theorem SpanOf.idOf (h : SpanOf s trace id pid) : idOf s = .bytes id := by
  rw [Collector.idOf, h.spanKey]
  rfl

theorem SpanOf.names_iff (h : SpanOf s trace id pid) (hp : SpanOf p trace up pid') (hup : up ≠ []) :
    Names s p ↔ pid = up := by
  unfold Names
  rw [h.parentKey, hp.spanKey]
  constructor
  · intro hnames
    obtain ⟨k, hk, hkey⟩ := hnames
    obtain rfl := Except.ok.inj hkey
    split_ifs at hk
    · cases hk
    · exact Key.bytes.inj (Option.some.inj (Except.ok.inj hk))
  · intro hpid
    subst hpid
    exact ⟨.bytes pid, by rw [if_neg hup], rfl⟩

/-! ### What is reported below a handler -/

/-- The span is that of a direct sub-call of the handler whose span is `callerId`, or the handler
that made the call is one of `ids`; that one's span is the caller's, if it is reported. -/
def CalledBy (trace callerId : Bytes) (caller : Option Value) (ids : List Bytes)
    (rs : List Reported) (r : Reported) (up : Bytes) : Prop :=
  (up = callerId ∧ r.1 = caller) ∨
    (up ∈ ids ∧ (∀ p, r.1 = some p → p ∈ rs.map Prod.snd ∧ ∃ pid, SpanOf p trace up pid) ∧
      ∀ r' ∈ rs, idOf r'.2 = .bytes up → r.1 = some r'.2)

/-- The ids are drawn for the spans in their order, and every span has its caller's for its
parent's. -/
structure Covers (trace callerId : Bytes) (caller : Option Value) (ids : List Bytes)
    (rs : List Reported) : Prop where
  order : (rs.map fun r => idOf r.2).Sublist (ids.map .bytes)
  span : ∀ r ∈ rs, ∃ id ∈ ids, ∃ up, up ≠ id ∧ SpanOf r.2 trace id up ∧
    CalledBy trace callerId caller ids rs r up
  later : rs.Pairwise fun a b => ¬Names a.2 b.2

variable {callerId : Bytes} {caller : Option Value} {ids ids' : List Bytes}
  {rs rs' : List Reported}

theorem Covers.nil : Covers trace callerId caller ids [] :=
  ⟨List.nil_sublist _, nofun, .nil⟩

theorem CalledBy.up_mem {r : Reported} (h : CalledBy trace callerId caller ids rs r up) :
    up ∈ callerId :: ids := by
  rcases h with ⟨rfl, -⟩ | ⟨hup, -, -⟩
  · exact List.mem_cons_self
  · exact List.mem_cons_of_mem _ hup

/-- Spans of other handlers do not change who called whom. -/
theorem CalledBy.mono {more moreIds : List Bytes} {all : List Reported} {r : Reported}
    (h : CalledBy trace callerId caller ids rs r up) (hrs : rs ⊆ all) (hids : ids ⊆ more)
    (hothers : ∀ r' ∈ all, r' ∈ rs ∨ ∃ id ∈ moreIds, idOf r'.2 = .bytes id)
    (hdisjoint : List.Disjoint ids moreIds) :
    CalledBy trace callerId caller more all r up := by
  refine h.imp_right fun ⟨hup, hcaller, honly⟩ => ⟨hids hup, ?_, ?_⟩
  · intro p hp
    obtain ⟨hmem, hspan⟩ := hcaller p hp
    exact ⟨List.map_subset _ hrs hmem, hspan⟩
  · intro r' hr' hid
    rcases hothers r' hr' with hr' | ⟨id, hmem, hid'⟩
    · exact honly r' hr' hid
    · obtain rfl := Key.bytes.inj (hid.symm.trans hid')
      exact absurd hmem (hdisjoint hup)

theorem Covers.idOf_mem (h : Covers trace callerId caller ids rs) :
    ∀ r ∈ rs, ∃ id ∈ ids, idOf r.2 = .bytes id := by
  intro r hr
  obtain ⟨id, hid, up, -, hspan, -⟩ := h.span r hr
  exact ⟨id, hid, hspan.idOf⟩

/-- The sub-calls of one handler, one after the other. -/
theorem Covers.append (h : Covers trace callerId caller ids rs)
    (h' : Covers trace callerId caller ids' rs') (hcaller : callerId ∉ ids')
    (hdisjoint : List.Disjoint ids ids') (hids : ∀ id ∈ ids', id ≠ []) :
    Covers trace callerId caller (ids ++ ids') (rs ++ rs') := by
  constructor
  · rw [List.map_append, List.map_append]
    exact h.order.append h'.order
  · intro r hr
    rcases List.mem_append.mp hr with hr | hr
    · obtain ⟨id, hid, up, hne, hspan, hcalled⟩ := h.span r hr
      refine ⟨id, List.mem_append_left _ hid, up, hne, hspan, ?_⟩
      apply hcalled.mono (List.subset_append_left _ _) (List.subset_append_left _ _) _ hdisjoint
      intro r' hr'
      exact (List.mem_append.mp hr').imp_right (h'.idOf_mem r')
    · obtain ⟨id, hid, up, hne, hspan, hcalled⟩ := h'.span r hr
      refine ⟨id, List.mem_append_right _ hid, up, hne, hspan, ?_⟩
      apply hcalled.mono (List.subset_append_right _ _) (List.subset_append_right _ _) _
        hdisjoint.symm
      intro r' hr'
      exact (List.mem_append.mp hr').symm.imp_right (h.idOf_mem r')
  · refine List.pairwise_append.mpr ⟨h.later, h'.later, ?_⟩
    intro a ha b hb hnames
    obtain ⟨ida, -, up, -, hspan, hcalled⟩ := h.span a ha
    obtain ⟨id, hid, pid, -, hspan', -⟩ := h'.span b hb
    rw [hspan.names_iff hspan' (hids id hid)] at hnames
    subst hnames
    rcases List.mem_cons.mp hcalled.up_mem with hup | hup
    · exact hcaller (hup ▸ hid)
    · exact hdisjoint hup hid

/-- Who called a handler's sub-calls, seen from its caller: the handler's own span, if it has one,
stands before theirs. -/
theorem CalledBy.under {own : Option Value} {r : Reported}
    (h : CalledBy trace id own ids rs r up) (hown : ∀ s ∈ own, ∃ pid, SpanOf s trace id pid)
    (hrs : ∀ r' ∈ rs, ∃ id' ∈ ids, idOf r'.2 = .bytes id') (hid : id ∉ ids) :
    CalledBy trace callerId caller (id :: ids) (own.toList.map (fun s => (caller, s)) ++ rs) r
      up := by
  have hcases : ∀ r' ∈ own.toList.map (fun s => (caller, s)) ++ rs,
      (r'.2 ∈ own ∧ idOf r'.2 = .bytes id) ∨ r' ∈ rs := by
    intro r' hr'
    refine (List.mem_append.mp hr').imp_left fun hr' => ?_
    obtain ⟨s, hs, rfl⟩ := List.mem_map.mp hr'
    have hs := Option.mem_toList.mp hs
    obtain ⟨pid, hspan⟩ := hown s hs
    exact ⟨hs, hspan.idOf⟩
  right
  rcases h with ⟨rfl, hcaller⟩ | ⟨hup, hcaller, honly⟩
  · refine ⟨List.mem_cons_self, fun p hp => ?_, fun r' hr' hid' => ?_⟩
    · rw [hcaller] at hp
      refine ⟨?_, hown p hp⟩
      rw [List.map_append, hp]
      exact List.mem_append_left _ List.mem_cons_self
    · rcases hcases r' hr' with ⟨hs, -⟩ | hr'
      · rw [hcaller, hs]
      · obtain ⟨id', hmem, hid''⟩ := hrs r' hr'
        obtain rfl := Key.bytes.inj (hid'.symm.trans hid'')
        exact absurd hmem hid
  · refine ⟨List.mem_cons_of_mem _ hup, fun p hp => ?_, fun r' hr' hid' => ?_⟩
    · obtain ⟨hmem, hspan⟩ := hcaller p hp
      rw [List.map_append]
      exact ⟨List.mem_append_right _ hmem, hspan⟩
    · rcases hcases r' hr' with ⟨-, hid''⟩ | hr'
      · obtain rfl := Key.bytes.inj (hid'.symm.trans hid'')
        exact absurd hup hid
      · exact honly r' hr' hid'

/-- A handler's own span, and those of its sub-calls. -/
theorem Covers.node (hself : InTrace self trace id callerId)
    (h : Covers trace id (emission.span self) ids rs) (hfresh : (callerId :: id :: ids).Nodup)
    (hids : ∀ id' ∈ id :: ids, id' ≠ []) :
    Covers trace callerId caller (id :: ids)
      ((emission.span self).toList.map (fun s => (caller, s)) ++ rs) := by
  obtain ⟨hcaller, hfresh⟩ := List.nodup_cons.mp hfresh
  obtain ⟨hid, -⟩ := List.nodup_cons.mp hfresh
  have hne : callerId ≠ id := fun heq => hcaller (heq ▸ List.mem_cons_self)
  have hown : ∀ s ∈ emission.span self, SpanOf s trace id callerId := fun s hs =>
    hself.span (hids id List.mem_cons_self) hs
  constructor
  · rw [List.map_append]
    cases hspan : emission.span self with
    | none => exact h.order.trans (List.sublist_cons_self _ _)
    | some s =>
        show (idOf s :: rs.map fun r => idOf r.2).Sublist (.bytes id :: ids.map .bytes)
        rw [(hown s hspan).idOf]
        exact h.order.cons_cons _
  · intro r hr
    rcases List.mem_append.mp hr with hmem | hmem
    · obtain ⟨s, hs, rfl⟩ := List.mem_map.mp hmem
      have hspan := hown s (Option.mem_toList.mp hs)
      exact ⟨id, List.mem_cons_self, callerId, hne, hspan, .inl ⟨rfl, rfl⟩⟩
    · obtain ⟨id', hid', up, hup, hspan, hcalled⟩ := h.span r hmem
      refine ⟨id', List.mem_cons_of_mem _ hid', up, hup, hspan, ?_⟩
      exact hcalled.under (fun s hs => ⟨callerId, hown s hs⟩) h.idOf_mem hid
  · cases hspan : emission.span self with
    | none => exact h.later
    | some s =>
        refine List.pairwise_cons.mpr ⟨fun r hr hnames => ?_, h.later⟩
        obtain ⟨id', hid', pid, -, hs, -⟩ := h.span r hr
        rw [(hown s hspan).names_iff hs (hids id' (List.mem_cons_of_mem _ hid'))] at hnames
        exact hcaller (hnames ▸ List.mem_cons_of_mem _ hid')

/-! ### Over a tree -/

mutual

theorem ne_nil_of_drawn : ∀ {tree : SpanTree}, ∀ id ∈ drawn tree, id ≠ []
  | .node call _ subs, id, hid => by
    rw [drawn] at hid
    rcases List.mem_cons.mp hid with rfl | hid
    · exact Urandom.ne_nil call.random8
    · exact ne_nil_of_drawnAll id hid

theorem ne_nil_of_drawnAll : ∀ {trees : List SpanTree}, ∀ id ∈ drawnAll trees, id ≠ []
  | [], id, hid => by cases hid
  | tree :: trees, id, hid => by
    rw [drawnAll] at hid
    rcases List.mem_append.mp hid with hid | hid
    · exact ne_nil_of_drawn id hid
    · exact ne_nil_of_drawnAll id hid

end

mutual

theorem covers_reported (htrace : trace ≠ []) :
    ∀ {tree : SpanTree} {parent : Value} {callerId up : Bytes} (caller : Option Value),
      InTrace parent trace callerId up → (callerId :: drawn tree).Nodup →
        Covers trace callerId caller (drawn tree) (reported caller parent tree)
  | .node call emission subs, parent, callerId, up, caller, hparent, hfresh => by
    rw [drawn] at hfresh ⊢
    rw [reported]
    cases hexec : executed parent call with
    | none => exact Covers.nil
    | some self =>
        have hself := hparent.executed htrace hexec
        have hbelow := covers_reportedAll htrace (emission.span self) hself
          (List.nodup_cons.mp hfresh).2
        apply Covers.node hself hbelow hfresh
        intro id hid
        rcases List.mem_cons.mp hid with rfl | hid
        · exact Urandom.ne_nil call.random8
        · exact ne_nil_of_drawnAll id hid

theorem covers_reportedAll (htrace : trace ≠ []) :
    ∀ {trees : List SpanTree} {parent : Value} {callerId up : Bytes} (caller : Option Value),
      InTrace parent trace callerId up → (callerId :: drawnAll trees).Nodup →
        Covers trace callerId caller (drawnAll trees) (reportedAll caller parent trees)
  | [], _, _, _, _, _, _ => Covers.nil
  | tree :: trees, parent, callerId, up, caller, hparent, hfresh => by
    rw [drawnAll] at hfresh ⊢
    obtain ⟨hcaller, hnodup⟩ := List.nodup_cons.mp hfresh
    rw [List.mem_append, not_or] at hcaller
    obtain ⟨hnodup, hnodup', hdisjoint⟩ := List.nodup_append'.mp hnodup
    rw [reportedAll]
    have hfirst := covers_reported htrace caller hparent (List.nodup_cons.mpr ⟨hcaller.1, hnodup⟩)
    have hrest := covers_reportedAll htrace caller hparent
      (List.nodup_cons.mpr ⟨hcaller.2, hnodup'⟩)
    exact hfirst.append hrest hcaller.2 hdisjoint ne_nil_of_drawnAll

end

theorem ne_nil_of_request (subs : List SpanTree) (hid : id ≠ []) :
    ∀ id' ∈ id :: drawnAll subs, id' ≠ [] := by
  intro id' hid'
  rcases List.mem_cons.mp hid' with rfl | hid'
  · exact hid
  · exact ne_nil_of_drawnAll id' hid'

theorem covers_requestSpans {context : Value} (htrace : trace ≠ []) (hid : id ≠ [])
    (hcontext : InTrace context trace id up) {subs : List SpanTree}
    (hfresh : (up :: id :: drawnAll subs).Nodup) :
    Covers trace up none (id :: drawnAll subs) (requestSpans callee emission context subs) := by
  rw [requestSpans]
  cases hself : (handlerContext callee context).toOption.join with
  | none => exact Covers.nil
  | some self =>
      have hself := hcontext.handlerContext (toOption_eq_some.mp (Option.join_eq_some_iff.mp hself))
      have hbelow := covers_reportedAll htrace (emission.span self) hself
        (List.nodup_cons.mp hfresh).2
      exact Covers.node hself hbelow hfresh (ne_nil_of_request subs hid)

/-! ### What the collector shows -/

section Covered

variable (h : Covers trace callerId none ids rs) (hfresh : (callerId :: ids).Nodup)
  (hids : ∀ id ∈ ids, id ≠ [])

include h hfresh hids

/-- A span names the one of its caller, and no other. -/
theorem Covers.names_iff (hs : s ∈ rs.map Prod.snd) (hp : p ∈ rs.map Prod.snd) :
    Names s p ↔ (some p, s) ∈ rs := by
  obtain ⟨hcaller, hnodup⟩ := List.nodup_cons.mp hfresh
  have hunique : ∀ r ∈ rs, ∀ r' ∈ rs, idOf r.2 = idOf r'.2 → r = r' := by
    have hinjective : (ids.map Key.bytes).Nodup :=
      hnodup.map fun a b hab => Key.bytes.inj hab
    intro r hr r' hr'
    exact List.inj_on_of_nodup_map (hinjective.sublist h.order) hr hr'
  constructor
  · intro hnames
    obtain ⟨r, hr, rfl⟩ := List.mem_map.mp hs
    obtain ⟨r', hr', rfl⟩ := List.mem_map.mp hp
    obtain ⟨id, -, up, -, hspan, hcalled⟩ := h.span r hr
    obtain ⟨id', hid', up', -, hspan', -⟩ := h.span r' hr'
    rw [hspan.names_iff hspan' (hids id' hid')] at hnames
    subst hnames
    rcases hcalled with ⟨rfl, -⟩ | ⟨-, -, honly⟩
    · exact absurd hid' hcaller
    · rw [← honly r' hr' hspan'.idOf]
      exact hr
  · intro hcall
    obtain ⟨id, -, up, -, hspan, hcalled⟩ := h.span _ hcall
    rcases hcalled with ⟨-, hnone⟩ | ⟨hup, hcaller, -⟩
    · cases hnone
    · obtain ⟨-, pid, hp⟩ := hcaller p rfl
      exact (hspan.names_iff hp (hids up hup)).mpr rfl

theorem Covers.coherent : Coherent (rs.map Prod.snd) := by
  have hnodup : (rs.map fun r => idOf r.2).Nodup := by
    apply List.Nodup.sublist h.order
    exact (List.nodup_cons.mp hfresh).2.map fun a b hab => Key.bytes.inj hab
  constructor
  · intro s hs
    obtain ⟨r, hr, rfl⟩ := List.mem_map.mp hs
    obtain ⟨id, -, up, -, hspan, -⟩ := h.span r hr
    rw [hspan.spanKey, hspan.parentKey]
    exact ⟨rfl, rfl⟩
  · rw [List.pairwise_map]
    apply List.pairwise_of_forall_mem_list
    intro a ha b hb
    obtain ⟨ida, -, upa, -, hspana, -⟩ := h.span a ha
    obtain ⟨idb, -, upb, -, hspanb, -⟩ := h.span b hb
    obtain ⟨m, hm⟩ := hspana.startOf
    obtain ⟨n, hn⟩ := hspanb.startOf
    rw [hm, hn]
    rfl
  · rw [List.pairwise_map]
    apply List.Pairwise.imp_of_mem _ (List.pairwise_map.mp hnodup)
    intro a b ha hb hne hkey
    obtain ⟨ida, -, upa, -, hspana, -⟩ := h.span a ha
    obtain ⟨idb, -, upb, -, hspanb, -⟩ := h.span b hb
    rw [hspana.spanKey, hspanb.spanKey] at hkey
    exact absurd (by rw [hspana.idOf, hspanb.idOf, Except.ok.inj hkey]) hne
  · apply not_transGen_of_pairwise
    · intro s hs hnames
      obtain ⟨r, hr, rfl⟩ := List.mem_map.mp hs
      obtain ⟨id, hid, up, hne, hspan, -⟩ := h.span r hr
      exact hne ((hspan.names_iff hspan (hids id hid)).mp hnames)
    · rw [List.pairwise_map]
      exact h.later

end Covered

/-- Each span that was received is shown once: under the span of its caller, or at the top if that
one was not received. -/
structure ShowsCalls (calls : List Reported) (received : List Value) (forest : Forest Value) :
    Prop where
  once : forest.preorder.Perm received
  roots : ∀ s, s ∈ forest.roots ↔ s ∈ received ∧ ∀ p ∈ received, (some p, s) ∉ calls
  below : ∀ family ∈ forest.families, ∀ s,
    s ∈ family.2 ↔ s ∈ received ∧ (some family.1, s) ∈ calls

/-- **The collector shows who called whom.** A request is made in a trace, and the ids that are
drawn for its tree of sub-calls differ. Whatever part of its spans arrives at the collector, in
whatever order and among whatever spans of other traces, the reply shows each of them once, under
the span of its caller. -/
theorem trace_shows_calls (callee : Callee) (emission : Emission) (subs : List SpanTree)
    (reports : List Value) {context req : Value} {trace id up : Bytes}
    (hcontext : InTrace context trace id up) (htrace : trace ≠ []) (hid : id ≠ [])
    (hfresh : (up :: id :: drawnAll subs).Nodup) (hreq : traceKey req = .ok (.bytes trace))
    (hreceived : (reportedFor (.bytes trace) reports).Subperm
      ((requestSpans callee emission context subs).map Prod.snd)) :
    ∃ sorted built forest,
      Collector.trace (reports.foldl collect .empty) req = .ok (sorted, built) ∧
      built.Shows forest ∧
      ShowsCalls (requestSpans callee emission context subs)
        (reportedFor (.bytes trace) reports) forest := by
  have hcovers : Covers trace up none (id :: drawnAll subs)
      (requestSpans callee emission context subs) :=
    covers_requestSpans htrace hid hcontext hfresh
  have hids := ne_nil_of_request subs hid
  obtain ⟨part, hpart, hsub⟩ := hreceived
  have hcoherent := ((hcovers.coherent hfresh hids).sublist hsub).perm hpart
  obtain ⟨sorted, built, forest, hreply, hshows, honce⟩ :=
    (trace_shows_iff reports hreq).mpr hcoherent
  have hmem : ∀ s ∈ reportedFor (.bytes trace) reports,
      s ∈ (requestSpans callee emission context subs).map Prod.snd :=
    fun s hs => hsub.subset (hpart.mem_iff.mpr hs)
  have hnames {s p : Value} (hs : s ∈ reportedFor (.bytes trace) reports)
      (hp : p ∈ reportedFor (.bytes trace) reports) :=
    hcovers.names_iff hfresh hids (hmem s hs) (hmem p hp)
  obtain ⟨sorted', hsorted, hbuild⟩ : ∃ sorted',
      sorted'.Perm (reportedFor (.bytes trace) reports) ∧ buildTree sorted' = .ok built :=
    perm_of_trace hreq hreply
  obtain ⟨hroots, hfamilies⟩ := (hcoherent.perm hsorted.symm).families hbuild hshows
  refine ⟨sorted, built, forest, hreply, hshows, honce, fun s => ?_, fun family hfamily s => ?_⟩
  · rw [hroots s, hsorted.mem_iff]
    apply and_congr_right
    intro hs
    constructor
    · intro hnot p hp hcall
      exact hnot p (hsorted.mem_iff.mpr hp) ((hnames hs hp).mpr hcall)
    · intro hnot p hp hcall
      have hp := hsorted.mem_iff.mp hp
      exact hnot p hp ((hnames hs hp).mp hcall)
  · obtain ⟨hp, hbelow⟩ := hfamilies family hfamily
    rw [hbelow s, hsorted.mem_iff]
    apply and_congr_right
    intro hs
    exact hnames hs (hsorted.mem_iff.mp hp)

/-! ### A sub-call whose handler makes another -/

/-- What `child_context(None, sink=...)` returns. -/
def sampleContext : Value := .dict [(.str "trace_id", .bytes (List.replicate 16 1)),
  (.str "span_id", .bytes (List.replicate 8 1)), (.str "parent_span_id", .bytes []),
  (.str "sink", .dict [(.str "id", .bytes [7])])]

def sampleEmission (startMs : Int) : Emission :=
  { name := "tool:run", kind := "tool", fiberId := [9], startMs, endMs := startMs + 1,
    random8 := ⟨List.replicate 8 0, rfl⟩ }

def sampleTree (id : UInt8) (subs : List SpanTree) : SpanTree :=
  .node { spent := 1, random16 := ⟨4 :: List.replicate 15 1, rfl⟩,
          random8 := ⟨id :: List.replicate 7 0, rfl⟩, callee := sampleCallee }
    (sampleEmission id.toNat) subs

/-- The spans of two nested sub-calls, as the innermost is the first to be reported. -/
def sampleReports : List Value :=
  ((requestSpans sampleCallee (sampleEmission 1) sampleContext
    [sampleTree 2 [sampleTree 3 []]]).map Prod.snd).reverse

theorem trace_shows_calls_nested :
    sampleReports.length = 3 ∧
    ∃ sorted built forest,
      Collector.trace (sampleReports.foldl collect .empty)
        (.dict [(.str "trace_id", .bytes (List.replicate 16 1))]) = .ok (sorted, built) ∧
      built.Shows forest ∧
      ShowsCalls (requestSpans sampleCallee (sampleEmission 1) sampleContext
          [sampleTree 2 [sampleTree 3 []]])
        (reportedFor (.bytes (List.replicate 16 1)) sampleReports) forest := by
  have hcontext : InTrace sampleContext (List.replicate 16 1) (List.replicate 8 1) [] :=
    ⟨⟨_, rfl⟩, rfl, rfl, rfl⟩
  refine ⟨by decide +kernel, ?_⟩
  apply trace_shows_calls _ _ _ _ hcontext (by decide) (by decide) (by decide) rfl
  exact List.filter_sublist.subperm.trans (List.reverse_perm _).subperm

end Thicket.Py.Tracing
