import Thicket.Core.Crypto
import Thicket.Py.Value

/-!
# The federated directory of the Python SDK

`FederatedDirectory.resolve` asks its directories in priority order and takes the first record that
`record.verify_record` accepts. What a directory answers is whatever its reply decodes to.
-/

namespace Thicket.Py

open Cbor (Bytes)

section Crypto

variable (crypto : Crypto)

def sha256 (data : Value) : Except Exc Bytes :=
  match data with
  | .bytes data => .ok (crypto.sha256 data)
  | _ => .error .typeError

/-- `domain ‖ 0x00 ‖ CBOR(payload)` -/
def signingInput (domain : String) (payload : Value) : Except Exc Bytes := do
  return Cbor.utf8 domain ++ 0 :: (← encode payload)

/-- Whatever the library raises counts as a bad signature. -/
def verifySig (publicKey : Value) (msg : Bytes) (sig : Value) : Bool :=
  match publicKey, sig with
  | .bytes publicKey, .bytes sig => (verifyRaw crypto publicKey msg sig).isOk
  | _, _ => false

/-- `next((e for e in keys if e["working_pub"] == signer), None)` -/
def nextEndorsement (signer : Value) : List Value → Except Exc (Option Value)
  | [] => .ok none
  | e :: keys => do
      if Value.eq (← e.getItem "working_pub") signer then return some e
      else nextEndorsement signer keys

def verifyRecord (signed : Value) (now : Int) : Except Exc Bool := do
  let payload ← signed.getItem "payload"
  -- 1. id binds to the root public key
  let id ← payload.getItem "id"
  let expected ← sha256 crypto (← payload.getItem "root_public_key")
  if !id.eq (.bytes expected) then return false
  -- 2. signer is a root-endorsed working key, valid at `now`
  let signer ← signed.getItem "signer_pub"
  let keys ← (← payload.getItem "keys").iter
  match ← nextEndorsement signer keys with
  | none => return false
  | some endo =>
      let view : Value := .dict [
        (.str "working_pub", ← endo.getItem "working_pub"),
        (.str "not_before", ← endo.getItem "not_before"),
        (.str "not_after", ← endo.getItem "not_after")]
      let rootPub ← payload.getItem "root_public_key"
      let msg ← signingInput "thicket-endorsement-v1" view
      if !verifySig crypto rootPub msg (← endo.getItem "root_sig") then return false
      if ← Value.intLt now (← endo.getItem "not_before") then return false
      if ← Value.intGt now (← endo.getItem "not_after") then return false
      -- 3. signature over the canonical payload
      let msg ← signingInput "thicket-record-v1" payload
      return verifySig crypto signer msg (← signed.getItem "signature")

end Crypto

/-- A connected directory, as far as `DirectoryClient.resolve` goes. -/
structure DirectoryClient where
  resolve : Bytes → Except Exc Value

variable (crypto : Crypto)

/-- `FederatedDirectory.resolve` at the time `unix_now()` gives. -/
def resolve (fiberId : Bytes) (now : Int) : List DirectoryClient → Except Exc Value
  | [] => .ok .none
  | c :: clients => do
      match ← c.resolve fiberId with
      | .none => resolve fiberId now clients
      | rec =>
          if ← verifyRecord crypto rec now then return rec
          else resolve fiberId now clients

def recordId (rec : Value) : Except Exc Value := do
  (← rec.getItem "payload").getItem "id"

end Thicket.Py
