import Thicket.Py.Federation
import Mathlib.Data.Finset.Insert

/-!
# Grants in the Python SDK

`thicket/grant.py`: issuing, attenuating and verifying over dictionaries. A check that fails returns
`False`, and a value of the wrong shape raises where it is first used.
-/

namespace Thicket.Py

open Cbor (Bytes)
open Result

/-! ### Sets -/

/-- `set(value)` -/
def Value.toSet (value : Value) : Except Exc (List Value) := do
  let items ← value.iter
  if items.all Value.isHashable then return items else .error .typeError

/-- `value in items` for a set. -/
def Value.isIn (value : Value) (items : List Value) : Except Exc Bool :=
  if value.isHashable then .ok (items.any fun item => item.eq value) else .error .typeError

/-- `value in (keys or ())` for a set of keys: nothing is hashed to look into an empty tuple. -/
def Value.isInKeys (value : Value) (keys : Finset Bytes) : Except Exc Bool :=
  if keys = ∅ then .ok false
  else
    match value with
    | .bytes key => .ok (decide (key ∈ keys))
    | _ => if value.isHashable then .ok false else .error .typeError

namespace Grant

/-! ### Issuing -/

def caveats (capabilities : List String) (notAfter : Int) (constraints : Option StrMap) : Value :=
  .dict [
    (.str "capabilities", .list ((sortedSet capabilities).map .str)),
    (.str "not_after", .int notAfter),
    (.str "constraints", sortedMap (StrMap.orEmpty constraints))]

variable {crypto : Crypto}

def linkSig (target : Value) (issuer : WorkingKey crypto) (audiencePub cav prev : Value) :
    Except Exc Bytes := do
  let view : Value := .dict [
    (.str "target", target),
    (.str "issuer_pub", .bytes issuer.public),
    (.str "audience_pub", audiencePub),
    (.str "caveats", cav),
    (.str "prev", prev)]
  return issuer.sign (← signingInput "thicket-grant-v1" view)

def issue (target : Value) (targetKey : WorkingKey crypto) (audiencePub cav : Value) :
    Except Exc Value := do
  let sig ← linkSig target targetKey audiencePub cav (.bytes [])
  let link : Value := .dict [
    (.str "issuer_pub", .bytes targetKey.public),
    (.str "audience_pub", audiencePub),
    (.str "caveats", cav),
    (.str "sig", .bytes sig)]
  return .dict [(.str "target", target), (.str "links", .list [link])]

/-- `any(c == "*" or c not in pc for c in items)`, as the loop of `_narrows` decides it. -/
def anyOutside (pc : List Value) : List Value → Except Exc Bool
  | [] => .ok false
  | c :: items => do
      if c.eq (.str "*") then return true
      if !(← c.isIn pc) then return true
      anyOutside pc items

/-- The first check of `_narrows`, on the capabilities. -/
def widens (child parent : Value) : Except Exc Bool := do
  let pc ← (← parent.getItem "capabilities").toSet
  if ← (Value.str "*").isIn pc then return false
  anyOutside pc (← (← child.getItem "capabilities").iter)

/-- Whether `(child.get("constraints") or {})` differs from one of the parent's constraints. -/
def loosens (child : Value) : List (Value × Value) → Except Exc Bool
  | [] => .ok false
  | (k, v) :: items => do
      let own ← child.get (.str "constraints") .none
      if !(← (own.orElse (.dict [])).get k .none).eq v then return true
      loosens child items

def narrows (child parent : Value) : Except Exc Bool := do
  if ← widens child parent then return false
  let notAfter ← child.getItem "not_after"
  if ← Value.lt (← parent.getItem "not_after") notAfter then return false
  let constraints ← parent.get (.str "constraints") .none
  if ← loosens child (← (constraints.orElse (.dict [])).items) then return false
  return true

def attenuate (grant : Value) (holderKey : WorkingKey crypto) (newAudiencePub cav : Value) :
    Except Exc Value := do
  let links ← grant.getItem "links"
  let last ← links.lastItem
  failIf (!(← last.getItem "audience_pub").eq (.bytes holderKey.public)) .valueError
  failIf (!(← narrows cav (← last.getItem "caveats"))) .valueError
  let target ← grant.getItem "target"
  let sig ← linkSig target holderKey newAudiencePub cav (← last.getItem "sig")
  let link : Value := .dict [
    (.str "issuer_pub", .bytes holderKey.public),
    (.str "audience_pub", newAudiencePub),
    (.str "caveats", cav),
    (.str "sig", .bytes sig)]
  return .dict [(.str "target", target), (.str "links", ← links.append link)]

/-! ### Verifying -/

variable (crypto)

def endorsed (rootPub : Bytes) (targetId : Value) (endorsements : List Value) (workingPub : Value)
    (now : Int) : Except Exc Bool := do
  if !targetId.eq (.bytes (crypto.sha256 rootPub)) then return false
  match ← nextEndorsement workingPub endorsements with
  | none => return false
  | some endo =>
      let view : Value := .dict [
        (.str "working_pub", ← endo.getItem "working_pub"),
        (.str "not_before", ← endo.getItem "not_before"),
        (.str "not_after", ← endo.getItem "not_after")]
      let msg ← signingInput "thicket-endorsement-v1" view
      if !verifySig crypto (.bytes rootPub) msg (← endo.getItem "root_sig") then return false
      -- `not_before <= now <= not_after`
      if ← Value.intLt now (← endo.getItem "not_before") then return false
      if ← Value.intGt now (← endo.getItem "not_after") then return false
      return true

/-- The loop's check of `idx == 0` and of the link before: who may issue this link. -/
def issuedBy (target : Value) (targetRootPub : Bytes) (targetEndorsements : List Value) (now : Int)
    (previous : Option Value) (link : Value) : Except Exc Bool := do
  match previous with
  | none =>
      endorsed crypto targetRootPub target targetEndorsements (← link.getItem "issuer_pub") now
  | some before => return (← link.getItem "issuer_pub").eq (← before.getItem "audience_pub")

/-- The loop's check of `parent`. -/
def narrowsPrevious (previous : Option Value) (link : Value) : Except Exc Bool := do
  match previous with
  | none => return true
  | some before => narrows (← link.getItem "caveats") (← before.getItem "caveats")

/-- `prev` -/
def previousSig (previous : Option Value) : Except Exc Value :=
  match previous with
  | none => .ok (.bytes [])
  | some before => before.getItem "sig"

/-- Not `"*" not in caps and capability not in caps`. -/
def allows (capability : String) (link : Value) : Except Exc Bool := do
  let caps ← (← link.getItem "caveats").getItem "capabilities"
  if ← caps.containsStr "*" then return true
  caps.containsStr capability

def verifyLink (target : Value) (targetRootPub : Bytes) (targetEndorsements : List Value)
    (capability : String) (now : Int) (revoked : Finset Bytes) (previous : Option Value)
    (link : Value) : Except Exc Bool := do
  if ← (← link.getItem "issuer_pub").isInKeys revoked then return false
  if ← (← link.getItem "audience_pub").isInKeys revoked then return false
  if !(← issuedBy crypto target targetRootPub targetEndorsements now previous link) then
    return false
  if !(← narrowsPrevious previous link) then return false
  let view : Value := .dict [
    (.str "target", target),
    (.str "issuer_pub", ← link.getItem "issuer_pub"),
    (.str "audience_pub", ← link.getItem "audience_pub"),
    (.str "caveats", ← link.getItem "caveats"),
    (.str "prev", ← previousSig previous)]
  let msg ← signingInput "thicket-grant-v1" view
  if !verifySig crypto (← link.getItem "issuer_pub") msg (← link.getItem "sig") then return false
  if !(← allows capability link) then return false
  if ← Value.intGt now (← (← link.getItem "caveats").getItem "not_after") then return false
  return true

def verifyLinks (target : Value) (targetRootPub : Bytes) (targetEndorsements : List Value)
    (capability : String) (now : Int) (revoked : Finset Bytes) :
    Option Value → List Value → Except Exc Bool
  | _, [] => .ok true
  | previous, link :: links => do
      if !(← verifyLink crypto target targetRootPub targetEndorsements capability now revoked
        previous link) then return false
      verifyLinks target targetRootPub targetEndorsements capability now revoked (some link) links

def verify (grant : Value) (targetRootPub : Bytes) (targetEndorsements : List Value)
    (callerPub : Bytes) (capability : String) (now : Int) (revocations : Finset Bytes) :
    Except Exc Bool := do
  let links := (← grant.get (.str "links") .none).orElse (.list [])
  if !links.truthy then return false
  let target ← grant.getItem "target"
  if !target.eq (.bytes (crypto.sha256 targetRootPub)) then return false
  match links with
  | .list links =>
      if !(← verifyLinks crypto target targetRootPub targetEndorsements capability now revocations
        none links) then return false
      let last ← (Value.list links).lastItem
      return (← last.getItem "audience_pub").eq (.bytes callerPub)
  -- Whatever else can be iterated has no item with string keys.
  | _ => .error .typeError

end Grant

end Thicket.Py
