import Thicket.Interconnect.CallPath
import Thicket.Py.ChildContext

/-!
# Call paths in the SDK

`child_context` is the SDK's `Context::child`. It leaves a deadline, a budget or a sink that is
absent out of the dictionary, always writes the parent's span, and takes an empty trace id for none.
From a root with a trace, a path of calls has the same fields in both.
-/

namespace Thicket.Py.Tracing

open Cbor (Bytes)
open Result Serde

def optionalInt (n : Option UInt64) : Option Int := n.map fun n => n.toNat

/-- The dictionary has the fields of the context, whatever else is in it. An empty byte string can
be left out; a deadline, a budget or a sink can be left out or be `None` where there is none. -/
structure SameFields (context : Context) (ctx : Value) : Prop where
  traceId : ctx.get (.str "trace_id") (.bytes []) = .ok (.bytes context.traceId)
  spanId : ctx.get (.str "span_id") (.bytes []) = .ok (.bytes context.spanId)
  parentSpanId : ctx.get (.str "parent_span_id") (.bytes []) = .ok (.bytes context.parentSpanId)
  deadline : ctx.get (.str "deadline") .none = .ok ((optionalInt context.deadline).elim .none .int)
  budget : ctx.get (.str "budget") .none = .ok ((optionalInt context.budget).elim .none .int)
  sink : ctx.get (.str "sink") .none = .ok (.ofOption context.sink)

/-- `child_context` along a path, with the bytes that `os.urandom` would give to each call. -/
def childContexts (parent : Value) : List (Hop × Urandom 16 × Urandom 8) → Except Exc Value
  | [] => .ok parent
  | (hop, random16, random8) :: calls => do
      let ctx ← childContext parent (.bytes hop.spanId) (optionalInt hop.localDeadline)
        hop.spent.toNat none random16 random8
      childContexts ctx calls

/-- What `child_context` returns for a context. -/
def dictOfContext (c : Context) : Value :=
  contextDict c.traceId c.spanId c.parentSpanId (optionalInt c.deadline) (optionalInt c.budget)
    (.ofOption c.sink)

variable {context root : Context} {parent : Value} {random16 : Urandom 16} {random8 : Urandom 8}

theorem sameFields_dictOfContext (c : Context) : SameFields c (dictOfContext c) := by
  have hdeadline : ((optionalEntry "deadline"
      ((optionalInt c.deadline).elim .none .int)).head?.map Prod.snd).getD .none =
        (optionalInt c.deadline).elim .none .int := getD_optionalEntry _ _
  have hbudget : ((optionalEntry "budget"
      ((optionalInt c.budget).elim .none .int)).head?.map Prod.snd).getD .none =
        (optionalInt c.budget).elim .none .int := getD_optionalEntry _ _
  constructor <;>
    simp [dictOfContext, contextDict, Value.get, Value.isHashable, find?_optionalEntry, hdeadline,
      hbudget]

/-- The core's own dictionary of a context, as it comes over the wire. -/
theorem sameFields_of (c : Context) : SameFields c (.of c) := by
  have hget : ∀ (name : String) (default : Value), (Value.of c).get (.str name) default = _ :=
    fun name default => by rw [of_struct (a := c) rfl, ← ofItem_struct, Value.get_struct]
  have hbytes : ∀ bs : Bytes, ((if bs = [] then [] else [Cbor.Value.bytes bs]).head?.map
      Value.ofItem).getD (.bytes []) = .bytes bs := by
    intro bs
    by_cases hnil : bs = []
    · rw [hnil]
      rfl
    · rw [if_neg hnil]
      rfl
  constructor
  · simp [hget, hbytes]
  · simp [hget, hbytes]
  · simp [hget, hbytes]
  · cases hdeadline : c.deadline <;> simp [hget, hdeadline, optionalInt, Value.ofItem]
  · cases hbudget : c.budget <;> simp [hget, hbudget, optionalInt, Value.ofItem]
  · rw [hget]
    cases c.sink <;> simp [Value.ofOption, Value.of]

/-- A field with another value than the default is there. -/
theorem get_of_ne_default {ctx key default value : Value} (h : ctx.get key default = .ok value)
    (hne : value ≠ default) (default' : Value) : ctx.get key default' = .ok value := by
  cases ctx with
  | dict entries =>
      rw [Value.get] at h ⊢
      split_ifs at h ⊢
      obtain rfl := Except.ok.inj h
      cases hfind : entries.find? fun e => e.1.eq key with
      | none => exact absurd (by rw [hfind]; rfl) hne
      | some e => rfl
  | _ => cases h

theorem minDeadline_same (deadline localDeadline : Option UInt64) :
    minDeadline ((optionalInt deadline).elim .none .int) (optionalInt localDeadline) =
      .ok ((optionalInt (earlier deadline localDeadline)).elim .none .int) := by
  cases deadline with
  | none => cases localDeadline <;> rfl
  | some d =>
      cases localDeadline with
      | none => rfl
      | some l =>
          have hmin : (if (l.toNat : Int) < d.toNat then (l.toNat : Int) else d.toNat) =
              ((min d l).toNat : Int) := by
            have hif : min d l = if d ≤ l then d else l := rfl
            rw [hif]
            simp only [UInt64.le_iff_toNat_le]
            split_ifs <;> omega
          change (if decide ((l.toNat : Int) < d.toNat) = true then Except.ok (Value.int l.toNat)
            else .ok (.int d.toNat)) = .ok (.int ((min d l).toNat : Int))
          rw [← hmin]
          simp only [decide_eq_true_eq]
          split_ifs <;> rfl

theorem debit_same (budget : Option UInt64) (spent : UInt64) :
    debit ((optionalInt budget).elim .none .int) spent.toNat =
      .ok ((optionalInt (budget.map fun b => saturatingSub b spent)).elim .none .int) := by
  cases budget with
  | none => rfl
  | some b =>
      have hmax : max 0 ((b.toNat : Int) - spent.toNat) = (saturatingSub b spent).toNat := by
        rw [toNat_saturatingSub]
        omega
      show Except.ok (Value.int (max 0 ((b.toNat : Int) - spent.toNat))) = _
      rw [hmax]
      rfl

/-- One call: `child_context` gives the context that the core derives. -/
theorem childContext_same (h : SameFields context parent) (htrace : context.traceId ≠ [])
    (hop : Hop) : childContext parent (.bytes hop.spanId) (optionalInt hop.localDeadline)
      hop.spent.toNat none random16 random8 = .ok (dictOfContext (context.hop hop)) := by
  have hparent : parent.orElse (.dict []) = parent := by
    cases parent with
    | dict entries => exact orElse_dict entries
    | _ => cases h.traceId
  have hget : parent.get (.str "trace_id") .none = .ok (.bytes context.traceId) := by
    apply get_of_ne_default h.traceId
    intro heq
    exact htrace (Value.bytes.inj heq)
  have htraceId : (Value.bytes context.traceId).orElse (.bytes random16.1) =
      .bytes context.traceId := by
    apply if_pos
    simpa [Value.truthy] using htrace
  have hspanId : (Value.bytes hop.spanId).orElse (.bytes random8.1) = .bytes hop.spanId := by
    apply if_pos
    simpa [Value.truthy] using hop.named
  simp only [childContext, hparent, hget, h.spanId, h.deadline, h.budget, h.sink, bind, Except.bind,
    minDeadline_same, debit_same, htraceId, hspanId]
  rfl

theorem childContexts_same (h : SameFields root parent) (htrace : root.traceId ≠ [])
    (calls : List (Hop × Urandom 16 × Urandom 8)) : ∃ ctx, childContexts parent calls = .ok ctx ∧
      SameFields (root.path (calls.map Prod.fst)) ctx := by
  induction calls generalizing root parent with
  | nil => exact ⟨parent, rfl, h⟩
  | cons call calls ih =>
      obtain ⟨hop, random16, random8⟩ := call
      have hsame := sameFields_dictOfContext (root.hop hop)
      obtain ⟨ctx, hctx, hfields⟩ := ih hsame htrace
      refine ⟨ctx, ?_, hfields⟩
      rw [childContexts, childContext_same h htrace]
      exact hctx

/-- **Contexts only tighten along a call path**, and they tighten alike on both sides: from a root
with a trace, whatever path is taken, the SDK derives a context with the fields that the core
derives. -/
theorem call_path_tightens (root : Context) (front : List Hop) (last : Hop) :
    Context.Tightened root front last (root.path (front ++ [last])) ∧
    ∀ (parent : Value) (calls : List (Hop × Urandom 16 × Urandom 8)), root.traceId ≠ [] →
      SameFields root parent → calls.map Prod.fst = front ++ [last] →
        ∃ ctx, childContexts parent calls = .ok ctx ∧
          SameFields (root.path (front ++ [last])) ctx := by
  refine ⟨Context.tightened_path root front last, ?_⟩
  intro parent calls htrace hroot hcalls
  rw [← hcalls]
  exact childContexts_same hroot htrace calls

def sampleRoot : Context :=
  { traceId := [1], spanId := [2], parentSpanId := [], deadline := some 100, budget := some 50,
    sink := none }

def firstHop : Hop := { spanId := [3], localDeadline := some 70, spent := 20, named := by decide }

def secondHop : Hop := { spanId := [4], localDeadline := some 90, spent := 40, named := by decide }

def sampleRandom : Urandom 16 × Urandom 8 :=
  (⟨List.replicate 16 21, List.length_replicate⟩, ⟨List.replicate 8 22, List.length_replicate⟩)

/-- The second call has the first one's earlier deadline, and has nothing left. -/
theorem call_path_tightens_twice :
    ∃ ctx, childContexts (.of sampleRoot)
        [(firstHop, sampleRandom), (secondHop, sampleRandom)] = .ok ctx ∧
      SameFields (sampleRoot.path ([firstHop] ++ [secondHop])) ctx := by
  have hpath := (call_path_tightens sampleRoot [firstHop] secondHop).2
  exact hpath _ _ (by decide) (sameFields_of sampleRoot) rfl

end Thicket.Py.Tracing
