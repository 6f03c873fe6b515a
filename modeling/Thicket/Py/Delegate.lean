import Thicket.Py.Bodies
import Thicket.Py.Builders

/-!
# Delegating from a held grant

`Context.delegate` and `Context._auth_for` of `thicket/app.py`. Both append a link to the grant the
fiber holds, for another fiber or for itself. The caveats of the new link are computed from those of
the last one, which may come off the wire, so here they are dictionaries like these.
-/

namespace Thicket.Py

open Cbor (Bytes)
open Result

variable {crypto : Crypto}

namespace Grant

/-- Two keys that `sorted` can compare. -/
def comparable (a b : Value × Value) : Bool := (Value.lt a.1 b.1).isOk

/-- `sorted(d.items())`; the keys of a dictionary differ, so they decide. -/
def sortedItems (entries : List (Value × Value)) : Except Exc (List (Value × Value)) :=
  if entries.Pairwise fun a b => comparable a b && comparable b a then
    .ok (entries.mergeSort fun a b => !valueOr (Value.lt b.1 a.1) false)
  else .error .typeError

/-- `caveats`, with constraints that are any dictionary. -/
def caveatsOf (capabilities : List String) (notAfter constraints : Value) : Except Exc Value := do
  let entries ← (constraints.orElse (.dict [])).items
  return .dict [
    (.str "capabilities", .list ((sortedSet capabilities).map .str)),
    (.str "not_after", notAfter),
    (.str "constraints", .dict (← sortedItems entries))]

/-- `grant["links"][-1]["caveats"]` -/
def lastCaveats (grant : Value) : Except Exc Value := do
  let links ← grant.getItem "links"
  let last ← links.lastItem
  last.getItem "caveats"

end Grant

/-- `d.update(m)` -/
def updateItems (d : List (Value × Value)) : List (String × String) →
    Except Exc (List (Value × Value))
  | [] => .ok d
  | (k, v) :: items => do updateItems (← setItem d (.str k) (.str v)) items

/-- `min(n, value)` -/
def minOf (n : Int) (value : Value) : Except Exc Value := do
  if ← Value.lt value (.int n) then return value
  else return .int n

namespace Context

/-- What `delegate` raises: a `ThicketError`, or an exception from below. -/
inductive Raised where
  | thicketError (code message : String)
  | exc (e : Exc)
  deriving DecidableEq

section

variable (str : Exc → String) (toolGrant : Option Value) (working : WorkingKey crypto)

/-- The new link's constraints: the held ones, and those that are asked for on top of them. -/
def mergedConstraints (last : Value) (constraints : Option StrMap) : Except Exc Value := do
  let held ← last.get (.str "constraints") .none
  let merged ← (held.orElse (.dict [])).items
  return .dict (← updateItems merged ((constraints.map StrMap.entries).getD []))

def expiry (last : Value) (notAfter : Option Int) : Except Exc Value := do
  let held ← last.getItem "not_after"
  match notAfter with
  | none => return held
  | some n => minOf n held

/-- The `try` statement: a `ValueError` comes out as a `ThicketError`. -/
def unauthorized {α : Type} (x : Except Exc α) : Except Raised α :=
  x.mapError fun e =>
    if e = .valueError then
      .thicketError "Unauthorized" ("cannot delegate authority you don't hold (" ++ str e ++ ")")
    else .exc e

def delegate (audiencePub : Bytes) (capabilities : List String) (notAfter : Option Int)
    (constraints : Option StrMap) : Except Raised Value := do
  match toolGrant with
  | none => .error (.thicketError "Unauthorized" "this fiber holds no grant to delegate")
  | some held =>
      let last ← (Grant.lastCaveats held).mapError .exc
      let expiry ← (expiry last notAfter).mapError .exc
      let merged ← (mergedConstraints last constraints).mapError .exc
      unauthorized str do
        let cav ← Grant.caveatsOf capabilities expiry merged
        Grant.attenuate held working (.bytes audiencePub) cav

/-- The grant that is sent with a call, if there is one. -/
def authFor (capability : String) : Except Exc (Option Value) := do
  match toolGrant with
  | none => return none
  | some held =>
      let last ← Grant.lastCaveats held
      let caps ← last.getItem "capabilities"
      let covers ← if ← caps.containsStr "*" then pure true else caps.containsStr capability
      if !covers then return none -- the held grant doesn't cover this call
      let cav ← Grant.caveatsOf [capability] (← last.getItem "not_after")
        (← last.get (.str "constraints") .none)
      return some (← Grant.attenuate held working (.bytes working.public) cav)

end

end Context

end Thicket.Py
