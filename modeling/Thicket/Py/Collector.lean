import Thicket.Lib.OrderedDict
import Thicket.Lib.Walk
import Thicket.Py.Sorting

/-!
# The collector fiber and the profiler's rendering

`collector.py` stores the spans that fibers report and links the spans of a trace into nodes on
request. A node is an object that its parent's node refers to; it is known by the key under which
the dictionary `nodes` holds it. `render` of `profiler.py` and the encoding of the reply follow the
references, no deeper than they are given leave to, as nothing in the code bounds them. The
context's configuration is the collector's state, and `str` is how values are shown.
-/

namespace Thicket.Py

open Cbor (Bytes)
open Result

/-! ### Keys -/

/-- What a value is as a key of a dictionary. -/
inductive Key where
  | none
  | int (n : Int)
  | bytes (bs : Bytes)
  | str (s : String)
  deriving DecidableEq

/-- `True` is the key `1`; a list or a dictionary is no key. -/
def Value.key : Value → Except Exc Key
  | .none => .ok .none
  | .bool b => .ok (.int (if b then 1 else 0))
  | .int n => .ok (.int n)
  | .bytes bs => .ok (.bytes bs)
  | .str s => .ok (.str s)
  | .list _ => .error .typeError
  | .dict _ => .error .typeError

theorem isOk_key (v : Value) : v.key.isOk = v.isHashable := by
  cases v <;> rfl

/-- Values are one key exactly if Python holds them equal. -/
theorem key_eq_iff {a b : Value} {k l : Key} (ha : a.key = .ok k) (hb : b.key = .ok l) :
    k = l ↔ a.eq b = true := by
  cases a <;> cases ha <;> cases b <;> cases hb <;> simp [Value.eq, Value.asInt]
  all_goals exact eq_comm

namespace Collector

/-! ### Assembling -/

/-- `{"span": span, "children": children}` -/
structure Node where
  span : Value
  children : List Key

/-- The nodes, and the roots among them. -/
structure Built where
  nodes : OrderedDict Key Node
  roots : List Key

namespace Built

/-- The node that a reference is to. -/
def node (self : Built) (k : Key) : Node := (self.nodes.get? k).getD ⟨.none, []⟩

def span (self : Built) (k : Key) : Value := (self.node k).span

def children (self : Built) (k : Key) : List Key := (self.node k).children

end Built

/-- `s["span_id"]`, as a key. -/
def spanKey (s : Value) : Except Exc Key := do (← s.getItem "span_id").key

/-- `s.get("start_ms", 0)` -/
def start (s : Value) : Except Exc Value := s.get (.str "start_ms") (.int 0)

/-- `{s["span_id"]: {"span": s, "children": []} for s in spans}` -/
def newNodes (spans : List Value) : Except Exc (OrderedDict Key Node) := do
  return .ofList (← spans.mapM fun s => do return (← spanKey s, { span := s, children := [] }))

/-- One turn of the loop. -/
def link (built : Built) (s : Value) : Except Exc Built := do
  let id ← spanKey s
  let _node ← okOr (built.nodes.get? id) .keyError
  let parentId ← s.get (.str "parent_span_id") (.bytes [])
  let k ← parentId.key
  match built.nodes.get? k with
  | none => return { built with roots := built.roots ++ [id] }
  | some parent =>
      if parentId.eq (.bytes []) then return { built with roots := built.roots ++ [id] }
      else
        let parent := { parent with children := parent.children ++ [id] }
        return { built with nodes := built.nodes.put k parent }

/-- `build_tree` -/
def buildTree (spans : List Value) : Except Exc Built := do
  let nodes ← newNodes spans
  (← sortedBy start spans).foldlM link { nodes, roots := [] }

/-! ### The handlers -/

/-- `ctx.config["by_trace"]` -/
abbrev ByTrace := OrderedDict Key (List Value)

/-- `s["trace_id"]`, as a key. -/
def traceKey (s : Value) : Except Exc Key := do (← s.getItem "trace_id").key

/-- The spans that are stored for a trace. -/
def spansOf (byTrace : ByTrace) (id : Key) : List Value := (byTrace.get? id).getD []

/-- `report`, with the state after it. -/
def report (byTrace : ByTrace) (span : Value) : Except Exc ByTrace := do
  let id ← traceKey span
  return byTrace.put id (spansOf byTrace id ++ [span])

/-- `trace`: the spans in order, and the roots. -/
def trace (byTrace : ByTrace) (req : Value) : Except Exc (List Value × Built) := do
  let spans ← sortedBy start (spansOf byTrace (← traceKey req))
  return (spans, ← buildTree spans)

/-! ### Following the references -/

section Render

variable (str : Value → String) (built : Built)

/-- `a - b` -/
def sub (a b : Value) : Except Exc Int :=
  match a.asInt, b.asInt with
  | some m, some n => .ok (m - n)
  | _, _ => .error .typeError

/-- The line of a span. -/
def line (s : Value) (depth : Nat) : Except Exc String := do
  let attrs := (← s.get (.str "attrs") .none).orElse (.dict [])
  let latency := max 0
    (← sub (← s.get (.str "end_ms") (.int 0)) (← s.get (.str "start_ms") (.int 0)))
  let name ← s.get (.str "name") (.str "?")
  let tokens ← attrs.get (.str "tokens") (.int 0)
  let cost ← attrs.get (.str "cost_micros") (.int 0)
  return String.join (List.replicate depth "  ") ++ str name ++ "  " ++ str (.int latency) ++
    "ms  " ++ str tokens ++ "tok  " ++ str cost ++ "µ$"

def joinLines (lines : List String) : String :=
  "\n".intercalate (lines.filter fun x => !x.isEmpty)

/-- `render`, at most `fuel` levels deep. -/
def render : Nat → List Key → Nat → Walk Exc String
  | 0, _, _ => .cutOff
  | fuel + 1, roots, depth => do
      let lines ← roots.mapM fun k => do
        let first ← Walk.ofExcept (line str (built.span k) depth)
        let below ← render fuel (built.children k) (depth + 1)
        return [first, below]
      return joinLines lines.flatten

/-- `cbor.encode` of a list of nodes, at most `fuel` levels deep. -/
def encode : Nat → List Key → Walk Exc Bytes
  | 0, _ => .cutOff
  | fuel + 1, keys => do
      let head ← Walk.ofExcept (encHead 4 keys.length)
      let items ← keys.mapM fun k => do
        let entries ← Walk.ofExcept (encHead 5 2)
        let span ← Walk.ofExcept (encEntries [(.str "span", built.span k)])
        let name ← Walk.ofExcept (enc (.str "children"))
        let children ← encode fuel (built.children k)
        return entries ++ span ++ name ++ children
      return head ++ items.flatten

end Render

end Collector

end Thicket.Py
