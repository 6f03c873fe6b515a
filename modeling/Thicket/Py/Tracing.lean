import Thicket.Py.Value

/-!
# Call contexts in the Python SDK

`thicket/tracing.py` as far as it derives and checks contexts. The bytes that `os.urandom` returns
and the time are arguments.
-/

namespace Thicket.Py.Tracing

open Cbor (Bytes)

/-- `os.urandom(n)` -/
abbrev Urandom (n : Nat) := { bytes : Bytes // bytes.length = n }

/-- `min(deadlines)` over those of the two that are not `None`, if there are any. -/
def minDeadline (deadline : Value) (localDeadline : Option Int) : Except Exc Value :=
  match deadline, localDeadline with
  | .none, none => .ok .none
  | .none, some l => .ok (.int l)
  | deadline, none => .ok deadline
  | deadline, some l => do
      if ← Value.intLt l deadline then return .int l
      return deadline

/-- `max(0, budget - spent)`, if there is a budget. -/
def debit (budget : Value) (spent : Int) : Except Exc Value :=
  match budget with
  | .none => .ok .none
  | budget =>
      match budget.asInt with
      | some b => .ok (.int (max 0 (b - spent)))
      | none => .error .typeError

/-- A `sink` that is not given is the parent's. -/
def effectiveSink (inherited : Value) (sink : Option Value) : Value := sink.getD inherited

def childContext (parent spanId : Value) (localDeadline : Option Int) (spent : Int)
    (sink : Option Value) (random16 : Urandom 16) (random8 : Urandom 8) : Except Exc Value := do
  let parent := parent.orElse (.dict [])
  let traceId ← parent.get (.str "trace_id") .none
  let parentSpanId ← parent.get (.str "span_id") (.bytes [])
  let deadline ← minDeadline (← parent.get (.str "deadline") .none) localDeadline
  let budget ← debit (← parent.get (.str "budget") .none) spent
  let inherited ← parent.get (.str "sink") .none
  return .dict ([
    (.str "trace_id", traceId.orElse (.bytes random16.1)),
    (.str "span_id", spanId.orElse (.bytes random8.1)),
    (.str "parent_span_id", parentSpanId)] ++
    optionalEntry "deadline" deadline ++
    optionalEntry "budget" budget ++
    optionalEntry "sink" (effectiveSink inherited sink))

def deadlineExceeded (ctx : Value) (now : Int) : Except Exc Bool := do
  match ← (ctx.orElse (.dict [])).get (.str "deadline") .none with
  | .none => return false
  | d => Value.intGt now d

def budgetExhausted (ctx : Value) : Except Exc Bool := do
  match ← (ctx.orElse (.dict [])).get (.str "budget") .none with
  | .none => return false
  | b =>
      match b.asInt with
      | some n => return decide (n ≤ 0)
      | none => .error .typeError

end Thicket.Py.Tracing
