import Thicket.Interconnect.Envelope

/-!
# Contexts along a call path

A call derives the context of the next one from its own: the trace and its sink stay, the deadline
is the earlier of two, and the budget goes down and stops at zero. Over a whole path the deadline is
the earliest of all that were given, and what is left of the budget does not depend on how the
spending was divided.
-/

namespace Thicket

open Cbor (Bytes)

/-- `a.saturating_sub(b)` -/
def saturatingSub (a b : UInt64) : UInt64 := if b ≤ a then a - b else 0

theorem toNat_saturatingSub (a b : UInt64) : (saturatingSub a b).toNat = a.toNat - b.toNat := by
  rw [saturatingSub]
  split_ifs with hle
  · exact UInt64.toNat_sub_of_le a b hle
  · rw [UInt64.le_iff_toNat_le] at hle
    show 0 = _
    omega

/-- The earlier of two deadlines, of which either may be absent. -/
def earlier : Option UInt64 → Option UInt64 → Option UInt64
  | some a, some b => some (min a b)
  | a, b => a.or b

/-- What a caller adds for a downstream call. The id of the new span is not empty. -/
structure Hop where
  spanId : Bytes
  localDeadline : Option UInt64
  spent : UInt64
  named : spanId ≠ []

namespace Context

/-- Derive the context for a downstream call: same trace, a fresh span, this span becomes the
parent, and deadline and budget only tighten. -/
def child (self : Context) (newSpanId : Bytes) (localDeadline : Option UInt64) (spent : UInt64) :
    Context :=
  { traceId := self.traceId
    spanId := newSpanId
    parentSpanId := self.spanId
    deadline := earlier self.deadline localDeadline
    budget := self.budget.map fun b => saturatingSub b spent
    sink := self.sink }

def hop (self : Context) (h : Hop) : Context := self.child h.spanId h.localDeadline h.spent

/-- The last context of a path. -/
def path (root : Context) (hops : List Hop) : Context := hops.foldl hop root

/-- The last context of a path has the root's trace and sink, the span of the context before it as
its parent, the earliest deadline given on the path, and the root's budget less all that was spent.
-/
structure Tightened (root : Context) (front : List Hop) (last : Hop) (context : Context) :
    Prop where
  traceId : context.traceId = root.traceId
  sink : context.sink = root.sink
  spanId : context.spanId = last.spanId
  parentSpanId : context.parentSpanId = (path root front).spanId
  deadline : context.deadline =
    (root.deadline.toList ++ (front ++ [last]).filterMap Hop.localDeadline).min?
  budget : context.budget.map UInt64.toNat =
    root.budget.map fun b => b.toNat - ((front ++ [last]).map fun h => h.spent.toNat).sum

variable {root : Context} {hops front : List Hop} {last : Hop}

theorem path_append_singleton : path root (front ++ [last]) = (path root front).hop last := by
  rw [path, List.foldl_append]
  rfl

theorem path_traceId : (path root hops).traceId = root.traceId := by
  induction hops generalizing root with
  | nil => rfl
  | cons h hops ih => exact ih

theorem path_sink : (path root hops).sink = root.sink := by
  induction hops generalizing root with
  | nil => rfl
  | cons h hops ih => exact ih

/-- Two deadlines and the earlier of them have the same minimum with others. -/
theorem min?_hop_deadline (root : Context) (h : Hop) (rest : List UInt64) :
    ((root.hop h).deadline.toList ++ rest).min? =
      (root.deadline.toList ++ (h.localDeadline.toList ++ rest)).min? := by
  have hdeadline : (root.hop h).deadline = earlier root.deadline h.localDeadline := rfl
  rw [hdeadline]
  cases root.deadline with
  | none => cases h.localDeadline <;> rfl
  | some a => cases h.localDeadline <;> rfl

theorem path_deadline : (path root hops).deadline =
    (root.deadline.toList ++ hops.filterMap Hop.localDeadline).min? := by
  induction hops generalizing root with
  | nil =>
      rw [path, List.foldl_nil, List.filterMap_nil, List.append_nil]
      cases root.deadline <;> rfl
  | cons h hops ih =>
      have hlocal : (h :: hops).filterMap Hop.localDeadline =
          h.localDeadline.toList ++ hops.filterMap Hop.localDeadline := by
        rw [List.filterMap_cons]
        cases h.localDeadline <;> rfl
      rw [hlocal, ← min?_hop_deadline]
      exact ih

theorem path_budget : (path root hops).budget.map UInt64.toNat =
    root.budget.map fun b => b.toNat - (hops.map fun h => h.spent.toNat).sum := by
  induction hops generalizing root with
  | nil => rfl
  | cons h hops ih =>
      have hfirst : (root.hop h).budget = root.budget.map fun b => saturatingSub b h.spent := rfl
      have hrest : (path root (h :: hops)).budget = (path (root.hop h) hops).budget := rfl
      rw [hrest, ih, hfirst, Option.map_map]
      congr 1
      funext b
      rw [Function.comp_apply, toNat_saturatingSub, List.map_cons, List.sum_cons]
      omega

theorem tightened_path (root : Context) (front : List Hop) (last : Hop) :
    Tightened root front last (path root (front ++ [last])) where
  traceId := path_traceId
  sink := path_sink
  spanId := by rw [path_append_singleton]; rfl
  parentSpanId := by rw [path_append_singleton]; rfl
  deadline := path_deadline
  budget := path_budget

end Context

end Thicket
