import Thicket.Core.Crypto
import Thicket.Lib.Deserialize
import Std.Data.String.ToNat

/-!
# Checkpoints

A run's recorded steps. What a step returned is opaque bytes under a stable key, and where a
checkpoint is kept is not the kernel's business.

The first value recorded under a key stays. The steps of a deterministic run are keyed by position.
-/

namespace Thicket

open Cbor (Bytes)
open Result Serde

structure Step where
  key : String
  value : Bytes
  deriving DecidableEq

structure Checkpoint where
  runId : Bytes
  steps : List Step
  deriving DecidableEq

instance : Serialize Step where
  toCbor s := struct (field "key" s.key ++ field "value" s.value)

instance : Serialize Checkpoint where
  toCbor c := struct (field "run_id" c.runId ++ field "steps" c.steps)

instance : Deserialize Step where
  ofCbor v := do
    let fs ← fields v
    return { key := ← fs.required "key", value := ← fs.required "value" }

instance : LawfulDeserialize Step where
  ofCbor_view format a := by
    refine (fields_bind format _ _).trans ?_
    rw [required_of_named (a := a.key) (by simp), required_of_named (a := a.value) (by simp)]
    rfl

instance : Deserialize Checkpoint where
  ofCbor v := do
    let fs ← fields v
    return { runId := ← fs.required "run_id", steps := ← fs.required "steps" }

instance : LawfulDeserialize Checkpoint where
  ofCbor_view format a := by
    refine (fields_bind format _ _).trans ?_
    rw [required_of_named (a := a.runId) (by simp), required_of_named (a := a.steps) (by simp)]
    rfl

/-- `#0`, `#1`, … -/
def positional (n : Nat) : String := "#" ++ toString n

namespace Checkpoint

def new (runId : Bytes) : Checkpoint := { runId, steps := [] }

def replay (self : Checkpoint) (key : String) : Option Bytes :=
  (self.steps.find? fun s => s.key == key).map Step.value

def record (self : Checkpoint) (key : String) (value : Bytes) : Checkpoint :=
  if (self.replay key).isNone then { self with steps := self.steps ++ [{ key, value }] } else self

def nextKey (self : Checkpoint) : String := positional self.steps.length

def toCbor (self : Checkpoint) : Except Error Bytes := okOr (intoWriter self) .serialization

def fromCbor (bytes : Bytes) : Except Error Checkpoint := okOr (fromReader bytes) .serialization

end Checkpoint

theorem positional_injective {m n : Nat} (h : positional m = positional n) : m = n := by
  apply Nat.repr_injective
  exact String.append_right_inj "#" |>.mp h

end Thicket
