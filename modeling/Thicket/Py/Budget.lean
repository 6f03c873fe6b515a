import Thicket.Py.Built
import Thicket.Py.ChildContext
import Thicket.Py.Fiber

/-!
# Budgets over a tree of calls

A handler's sub-calls each get a context of their own, derived from the one the handler was called
with, so what one of them spends is not taken from the others. What is debited adds up along a path
of nested calls: the amounts spent on an executed sub-call and on the calls it is nested in total
less than the budget of the request.
-/

namespace Thicket.Py.Tracing

open Cbor (Bytes)
open Result

/-- The fiber that a request reaches: the capability's entry, its configured sink, its clock, and
whether it passes the request's other checks. -/
structure Callee where
  entry : Cap
  sink : Value
  now : Int
  passes : Bool

/-- A sub-call that a handler makes with `ctx.call` or `ctx.gather`, or as one of a
`ctx.gather_all`. -/
structure SubCall where
  spent : Int
  random16 : Urandom 16
  random8 : Urandom 8
  callee : Callee

/-- A sub-call and those that its handler makes if it is executed. -/
inductive CallTree where
  | node (call : SubCall) (subs : List CallTree)

/-- The checks of `Fiber._handler` that read the context. -/
def letsIn (callee : Callee) (env : Value) : Except Exc Bool := do
  if ← deadlineExceeded env callee.now then return false
  if ← budgetExhausted env then return false
  if ← Fiber.overQuota callee.entry env then return false
  return callee.passes

/-- The context of the handler that a request with the context `payload.get("context")` is executed
by. -/
def handlerContext (callee : Callee) (context : Value) : Except Exc (Option Value) := do
  let env := context.orElse (.dict [])
  if ← letsIn callee env then return some (← Fiber.selfContext callee.sink env)
  else return none

/-- A sub-call from a handler with the context `parent`: the context it is executed with, if it is.
-/
def executed (parent : Value) (call : SubCall) : Option Value := do
  let context ← (childContext parent .none none call.spent none call.random16 call.random8).toOption
  let self ← (handlerContext call.callee context).toOption
  self

/-- An executed sub-call: the amount spent on it, and the amounts of the calls it is nested in. -/
structure Execution where
  spent : Int
  outer : List Int
  deriving DecidableEq

mutual

/-- The sub-calls that are executed in a tree, under a handler with the context `parent`. -/
def executions (outer : List Int) (parent : Value) : CallTree → List Execution
  | .node call subs =>
      match executed parent call with
      | none => []
      | some self => { spent := call.spent, outer } :: executionsAll (call.spent :: outer) self subs

def executionsAll (outer : List Int) (parent : Value) : List CallTree → List Execution
  | [] => []
  | tree :: trees => executions outer parent tree ++ executionsAll outer parent trees

end

/-- The sub-calls that a request starts: those of the handler that executes it. -/
def started (callee : Callee) (context : Value) (subs : List CallTree) : List Execution :=
  match (handlerContext callee context).toOption.join with
  | none => []
  | some self => executionsAll [] self subs

def totalSpent (executions : List Execution) : Int := (executions.map Execution.spent).sum

/-! ### What a context still allows -/

/-- The context is a dictionary with this budget. -/
def HasBudget (ctx : Value) (b : Int) : Prop :=
  ∃ entries, ctx = .dict entries ∧ lookup entries "budget" = some (.int b)

variable {ctx parent env self : Value} {b : Int} {callee : Callee} {call : SubCall}

theorem HasBudget.orElse (h : HasBudget ctx b) : ctx.orElse (.dict []) = ctx := by
  obtain ⟨entries, rfl, hlookup⟩ := h
  cases entries with
  | nil => cases hlookup
  | cons entry entries => rfl

theorem HasBudget.get (h : HasBudget ctx b) : ctx.get (.str "budget") .none = .ok (.int b) := by
  obtain ⟨entries, rfl, hlookup⟩ := h
  show Except.ok ((lookup entries "budget").getD .none) = _
  rw [hlookup]
  rfl

/-- A child's budget is what the parent has, less what is spent. -/
theorem HasBudget.child {spent : Int} {random16 : Urandom 16} {random8 : Urandom 8}
    (h : HasBudget parent b)
    (hchild : childContext parent .none none spent none random16 random8 = .ok ctx) :
    HasBudget ctx (max 0 (b - spent)) := by
  simp only [childContext, h.orElse, bind_eq_ok, h.get, Except.ok.injEq, exists_eq_left', debit,
    Value.asInt, pure_eq_ok] at hchild
  obtain ⟨traceId, -, parentSpan, -, deadline, -, deadline', -, sink, -, rfl⟩ := hchild
  have hentry : optionalEntry "budget" (.int (max 0 (b - spent))) =
      [(.str "budget", .int (max 0 (b - spent)))] := rfl
  refine ⟨_, rfl, ?_⟩
  simp [lookup, find?_optionalEntry, hentry]

/-- A request that is let in has some of its budget left. -/
theorem HasBudget.pos (h : HasBudget env b) (hlets : letsIn callee env = .ok true) : 0 < b := by
  simp only [letsIn, bind_eq_ok] at hlets
  obtain ⟨late, -, hlets⟩ := hlets
  cases late with
  | true => simp [pure, Except.pure] at hlets
  | false =>
      simp only [Bool.false_eq_true, if_false, budgetExhausted, h.orElse, h.get, bind_eq_ok,
        Except.ok.injEq, exists_eq_left', Value.asInt, pure_eq_ok] at hlets
      by_cases hb : b ≤ 0
      · simp [hb, pure, Except.pure] at hlets
      · omega

theorem HasBudget.selfContext {sink : Value} (h : HasBudget env b)
    (hself : Fiber.selfContext sink env = .ok self) : HasBudget self b := by
  obtain ⟨entries, rfl, hlookup⟩ := h
  simp only [Fiber.selfContext, Value.items, bind_eq_ok, Except.ok.injEq, exists_eq_left'] at hself
  split at hself
  · exact ⟨entries, (pure_eq_ok.mp hself).symm, hlookup⟩
  · simp only [bind_eq_ok, pure_eq_ok] at hself
    obtain ⟨entries', hset, rfl⟩ := hself
    refine ⟨entries', rfl, ?_⟩
    rw [lookup_setItem hset, if_neg (by rw [eq_str]; decide), hlookup]

theorem HasBudget.handlerContext (h : HasBudget ctx b)
    (hself : handlerContext callee ctx = .ok (some self)) : 0 < b ∧ HasBudget self b := by
  simp only [Tracing.handlerContext, h.orElse, bind_eq_ok] at hself
  obtain ⟨lets, hlets, hself⟩ := hself
  cases lets with
  | false => simp [pure, Except.pure] at hself
  | true =>
      simp only [if_true, bind_eq_ok, pure_eq_ok, Option.some.injEq] at hself
      obtain ⟨self', hself', rfl⟩ := hself
      exact ⟨h.pos hlets, h.selfContext hself'⟩

/-- A sub-call is executed only within the budget that its handler has, and with what is left of it.
-/
theorem HasBudget.executed (h : HasBudget parent b) (hself : executed parent call = some self) :
    call.spent < b ∧ HasBudget self (b - call.spent) := by
  simp only [Tracing.executed, Option.bind_eq_bind, Option.bind_eq_some_iff] at hself
  obtain ⟨context, hcontext, self', hhandler, rfl⟩ := hself
  have hchild := h.child (toOption_eq_some.mp hcontext)
  obtain ⟨hpos, hself⟩ := hchild.handlerContext (toOption_eq_some.mp hhandler)
  have hlt : call.spent < b := by omega
  have hleft : max 0 (b - call.spent) = b - call.spent := by omega
  exact ⟨hlt, hleft ▸ hself⟩

/-! ### Paths -/

mutual

theorem spent_lt_of_executions {outer : List Int} {total : Int} :
    ∀ {tree : CallTree} {parent : Value}, HasBudget parent (total - outer.sum) →
      ∀ e ∈ executions outer parent tree, e.spent + e.outer.sum < total
  | .node call subs, parent, hparent, e, he => by
    rw [executions] at he
    cases hself : executed parent call with
    | none =>
        rw [hself] at he
        cases he
    | some self =>
        obtain ⟨hlt, hleft⟩ := hparent.executed hself
        rw [hself] at he
        rcases List.mem_cons.mp he with rfl | he
        · show call.spent + outer.sum < total
          omega
        · apply spent_lt_of_executionsAll _ e he
          rw [List.sum_cons]
          have hsum : total - (call.spent + outer.sum) = total - outer.sum - call.spent := by omega
          rw [hsum]
          exact hleft

theorem spent_lt_of_executionsAll {outer : List Int} {total : Int} :
    ∀ {trees : List CallTree} {parent : Value}, HasBudget parent (total - outer.sum) →
      ∀ e ∈ executionsAll outer parent trees, e.spent + e.outer.sum < total
  | [], _, _, e, he => by cases he
  | tree :: trees, parent, hparent, e, he => by
    rw [executionsAll] at he
    rcases List.mem_append.mp he with he | he
    · exact spent_lt_of_executions hparent e he
    · exact spent_lt_of_executionsAll hparent e he

end

theorem spent_lt_of_started (hbudget : HasBudget ctx b) {subs : List CallTree} :
    ∀ e ∈ started callee ctx subs, e.spent + e.outer.sum < b := by
  intro e he
  rw [started] at he
  cases hself : (Tracing.handlerContext callee ctx).toOption.join with
  | none =>
      rw [hself] at he
      cases he
  | some self =>
      rw [hself] at he
      have hhandler : Tracing.handlerContext callee ctx = .ok (some self) := by
        apply toOption_eq_some.mp
        exact Option.join_eq_some_iff.mp hself
      apply spent_lt_of_executionsAll _ e he
      rw [List.sum_nil, Int.sub_zero]
      exact (hbudget.handlerContext hhandler).2

/-- In every tree of calls that a request with a budget starts, the amounts spent on an executed
sub-call and on the calls it is nested in total less than the budget. Whatever else a handler calls,
each of its sub-calls that is executed gets the handler's budget less what is spent on it. -/
theorem path_within_budget (callee : Callee) (context : Value) (subs : List CallTree) {b : Int}
    (hbudget : HasBudget context b) :
    (∀ e ∈ started callee context subs, e.spent + e.outer.sum < b) ∧
    ∀ (parent self : Value) (left : Int) (call : SubCall), HasBudget parent left →
      executed parent call = some self → call.spent < left ∧ HasBudget self (left - call.spent) :=
  ⟨spent_lt_of_started hbudget, fun _ _ _ _ hleft hself => hleft.executed hself⟩

/-! ### Three sub-calls of one handler -/

def sampleCallee : Callee :=
  { entry :=
      { fn := .coroutine fun _ _ => .ok [], requireGrant := false, cost := 0, durable := false },
    sink := .none, now := 0, passes := true }

/-- A sub-call with the default amount. -/
def oneCall : SubCall :=
  { spent := 1, random16 := ⟨List.replicate 16 1, rfl⟩, random8 := ⟨List.replicate 8 2, rfl⟩,
    callee := sampleCallee }

def spendOne (subs : List CallTree) : CallTree := .node oneCall subs

def budgetTwo : Value := .dict [(.str "budget", .int 2)]

/-- Of two nested sub-calls the inner one has no budget left. -/
theorem path_within_budget_nested :
    started sampleCallee budgetTwo [spendOne [spendOne []]] = [{ spent := 1, outer := [] }] ∧
    (∀ e ∈ started sampleCallee budgetTwo [spendOne [spendOne []]], e.spent + e.outer.sum < 2) ∧
    ∃ self, executed budgetTwo oneCall = some self ∧ HasBudget self 1 := by
  obtain ⟨hpaths, hsubs⟩ :=
    path_within_budget sampleCallee budgetTwo [spendOne [spendOne []]] ⟨_, rfl, rfl⟩
  refine ⟨by decide +kernel, hpaths, _, rfl, ?_⟩
  exact (hsubs budgetTwo _ 2 oneCall ⟨_, rfl, rfl⟩ rfl).2

/-- A request with a budget of two starts three sub-calls that spend one each. -/
theorem siblings_overspend :
    2 < totalSpent (started sampleCallee budgetTwo [spendOne [], spendOne [], spendOne []]) := by
  decide +kernel

end Thicket.Py.Tracing
