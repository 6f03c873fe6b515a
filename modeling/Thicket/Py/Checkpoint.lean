import Thicket.Lib.OrderedDict
import Thicket.Py.Builders
import Thicket.Py.Built

/-!
# The checkpoint of the Python SDK

`thicket/checkpoint.py`. A step looks its key up in the copy that was loaded when the run was
opened, and saves the whole copy when it has recorded its result. `None` is recorded as the empty
string.

What a step returned can be recorded if the encoder takes it and its dictionaries are keyed by
texts; then the decoder gives it back.
-/

namespace Thicket.Py

open Cbor (Bytes)
open Result Serde

/-- `{s["key"]: s["value"] for s in steps}` -/
def stepsDict (d : List (Value × Value)) : List Value → Except Exc (List (Value × Value))
  | [] => .ok d
  | s :: steps => do
      let key ← s.getItem "key"
      let value ← s.getItem "value"
      stepsDict (← setItem d key value) steps

def decodeCheckpoint (blob : Bytes) : Except Exc (Value × List (Value × Value)) := do
  let d ← decode blob
  let runId ← d.getItem "run_id"
  let steps ← stepsDict [] (← (← d.getItem "steps").iter)
  return (runId, steps)

/-- The entries of a `{key: value_bytes}`; there are no others in what an encoder of checkpoints
writes. -/
def typedSteps : List (Value × Value) → Except Exc (List (String × Bytes))
  | [] => .ok []
  | (.str key, .bytes value) :: entries => do return (key, value) :: (← typedSteps entries)
  | _ :: _ => .error .typeError

/-- What is recorded for a returned value. -/
def valueBytes : Value → Except Exc Bytes
  | .none => .ok []
  | value => encode value

/-- What is returned for a recorded value. -/
def valueOf (bytes : Bytes) : Except Exc Value := if bytes.isEmpty then .ok .none else decode bytes

/-- A run's copy of its checkpoint, with the number of keys that were given out by position. -/
structure Checkpoint where
  runId : Bytes
  steps : OrderedDict String Bytes
  seq : Nat

namespace Checkpoint

/-- `Checkpoint.open` on what the store has loaded. -/
def opened (blob : Option Bytes) (runId : Bytes) : Except Exc Checkpoint :=
  match blob with
  | none | some [] => .ok { runId, steps := .empty, seq := 0 }
  | some blob => do
      let (_, entries) ← decodeCheckpoint blob
      return { runId, steps := .ofList (← typedSteps entries), seq := 0 }

/-- The key of a step that was called with `key`. -/
def stepKey (self : Checkpoint) (key : Option String) : String × Checkpoint :=
  match key with
  | none => (positional self.seq, { self with seq := self.seq + 1 })
  | some key => (key, self)

theorem stepKey_eq (self : Checkpoint) (key : Option String) : ∃ seq,
    (self.stepKey key).2 = { self with seq } := by
  cases key with
  | none => exact ⟨self.seq + 1, rfl⟩
  | some key => exact ⟨self.seq, rfl⟩

/-- What a step returns without running, if it does. -/
def replay (self : Checkpoint) (key : String) : Option (Except Exc Value) :=
  (self.steps.get? key).map valueOf

def record (self : Checkpoint) (key : String) (value : Value) : Except Exc Checkpoint := do
  return { self with steps := self.steps.put key (← valueBytes value) }

/-- The blob that is saved. -/
def blob (self : Checkpoint) : Except Exc Bytes := encodeCheckpoint self.runId self.steps.entries

end Checkpoint

/-! ### The encoding is read back -/

instance : WellKeyed Step := ⟨fun s => .struct (.field (by simp) (.last s.value))⟩

instance : WellKeyed Thicket.Checkpoint := ⟨fun c => .struct (.field (by simp) (.last c.steps))⟩

variable {runId blob : Bytes} {steps : List (String × Bytes)}

/-- A recorded step as an entry of the dictionary that is read back. -/
def stepEntry (step : String × Bytes) : Value × Value := (.str step.1, .bytes step.2)

theorem stepsDict_of (d : List (Value × Value)) (hnodup : (steps.map Prod.fst).Nodup)
    (hfresh : ∀ e ∈ d, ∀ step ∈ steps, e.1 ≠ .str step.1) :
    stepsDict d (steps.map fun step => .of ({ key := step.1, value := step.2 } : Step)) =
      .ok (d ++ steps.map stepEntry) := by
  induction steps generalizing d with
  | nil => simp [stepsDict]
  | cons step steps ih =>
      rw [List.map_cons, List.nodup_cons] at hnodup
      have hset : setItem d (.str step.1) (.bytes step.2) = .ok (d ++ [stepEntry step]) :=
        setItem_fresh fun e he => hfresh e he step List.mem_cons_self
      have hrest := ih (d ++ [stepEntry step]) hnodup.2 ?_
      · have hkey : (Value.of ({ key := step.1, value := step.2 } : Step)).getItem "key" =
            .ok (.str step.1) := rfl
        have hvalue : (Value.of ({ key := step.1, value := step.2 } : Step)).getItem "value" =
            .ok (.bytes step.2) := rfl
        rw [List.map_cons, stepsDict, hkey, hvalue]
        simp only [bind, Except.bind, hset, hrest]
        rw [List.append_assoc]
        rfl
      · intro e he s hs
        rcases List.mem_append.mp he with he | he
        · exact hfresh e he s (List.mem_cons_of_mem _ hs)
        · rw [List.mem_singleton.mp he]
          intro heq
          apply hnodup.1
          have hkey : step.1 = s.1 := Value.str.inj heq
          rw [hkey]
          exact List.mem_map_of_mem hs

/-- **What either implementation has encoded is read back.** -/
theorem decodeCheckpoint_of (h : intoWriter (coreCheckpoint runId steps) = some blob)
    (hnodup : (steps.map Prod.fst).Nodup) :
    decodeCheckpoint blob = .ok (.bytes runId, steps.map stepEntry) := by
  have hread : Cbor.decode blob = some (toCbor (coreCheckpoint runId steps), []) := by
    have hdecode := Cbor.decode_encode h []
    rwa [List.append_nil] at hdecode
  have hdecode : decode blob = .ok (.of (coreCheckpoint runId steps)) :=
    decode_eq_ok.mpr ⟨_, hread, built_of _⟩
  have hrun : (Value.of (coreCheckpoint runId steps)).getItem "run_id" = .ok (.bytes runId) := rfl
  have hsteps : (Value.of (coreCheckpoint runId steps)).getItem "steps" =
      .ok (.list (steps.map fun step => .of ({ key := step.1, value := step.2 } : Step))) := by
    change Except.ok (Value.of (coreCheckpoint runId steps).steps) = _
    rw [of_list, coreCheckpoint, List.map_map]
    rfl
  have hdict := stepsDict_of [] hnodup (by simp)
  rw [decodeCheckpoint, hdecode]
  simp only [bind, Except.bind, hrun, hsteps, Value.iter, hdict]
  rfl

theorem typedSteps_map (steps : List (String × Bytes)) :
    typedSteps (steps.map stepEntry) = .ok steps := by
  induction steps with
  | nil => rfl
  | cons step steps ih =>
      rw [List.map_cons, stepEntry, typedSteps, ih]
      rfl

theorem ne_nil_of_decode {data : Bytes} {v : Value} (h : decode data = .ok v) : data ≠ [] := by
  rintro rfl
  cases h

theorem decode_of_decodeCheckpoint {r : Value × List (Value × Value)}
    (h : decodeCheckpoint blob = .ok r) : ∃ v, decode blob = .ok v := by
  rw [decodeCheckpoint, bind_eq_ok] at h
  obtain ⟨v, hv, -⟩ := h
  exact ⟨v, hv⟩

namespace Checkpoint

theorem opened_eq (h : blob ≠ []) : opened (some blob) runId = (do
    let (_, entries) ← decodeCheckpoint blob
    return { runId, steps := .ofList (← typedSteps entries), seq := 0 }) := by
  cases blob with
  | nil => exact absurd rfl h
  | cons b blob => rfl

/-- Opening a run on what was encoded gives the steps that were recorded. -/
theorem opened_of {steps : OrderedDict String Bytes}
    (h : intoWriter (coreCheckpoint runId steps.entries) = some blob) (runId' : Bytes) :
    opened (some blob) runId' = .ok { runId := runId', steps, seq := 0 } := by
  have hdecode := decodeCheckpoint_of h steps.nodup
  obtain ⟨_, hv⟩ := decode_of_decodeCheckpoint hdecode
  rw [opened_eq (ne_nil_of_decode hv), hdecode]
  simp only [bind, Except.bind, typedSteps_map, OrderedDict.ofList_entries]
  rfl

theorem opened_blob {self : Checkpoint} (h : self.blob = .ok blob) (runId' : Bytes) :
    opened (some blob) runId' = .ok { runId := runId', steps := self.steps, seq := 0 } :=
  opened_of (encodeCheckpoint_iff.mp h) runId'

end Checkpoint

/-! ### Results that can be recorded -/

/-- `None`, booleans, integers, bytes, texts, and lists and text-keyed dictionaries of them. -/
inductive Storable : Value → Prop
  | none : Storable .none
  | bool (b : Bool) : Storable (.bool b)
  | int (n : Int) : Storable (.int n)
  | bytes (bs : Bytes) : Storable (.bytes bs)
  | str (s : String) : Storable (.str s)
  | list {items : List Value} (hitems : ∀ item ∈ items, Storable item) : Storable (.list items)
  | dict {entries : List (String × Value)} (hkeys : (entries.map Prod.fst).Nodup)
      (hvalues : ∀ e ∈ entries, Storable e.2) :
      Storable (.dict (entries.map fun e => (.str e.1, e.2)))

/-- What a step can return and record. -/
structure StepResult where
  value : Value
  storable : Storable value
  bytes : Bytes
  recorded : valueBytes value = .ok bytes

theorem ofItem_eq_str {item : Cbor.Value} {s : String} (h : Value.ofItem item = .str s) :
    item = .text s := by
  cases item <;> cases h
  rfl

theorem exists_fields {es : List (Cbor.Value × Cbor.Value)} {entries : List (String × Value)}
    (h : Value.ofEntries es = entries.map fun e => (.str e.1, e.2)) :
    ∃ fs : List (String × Cbor.Value), es = (fs.map fun f => (.text f.1, f.2)) ∧
      fs.map (fun f => (f.1, Value.ofItem f.2)) = entries := by
  induction es generalizing entries with
  | nil =>
      cases entries with
      | nil => exact ⟨[], rfl, rfl⟩
      | cons e entries => cases h
  | cons e es ih =>
      cases entries with
      | nil => cases h
      | cons e' entries =>
          obtain ⟨key, item⟩ := e
          rw [Value.ofEntries, List.map_cons, List.cons.injEq, Prod.mk.injEq] at h
          obtain ⟨⟨hkey, hitem⟩, hrest⟩ := h
          obtain ⟨fs, rfl, rfl⟩ := ih hrest
          refine ⟨(e'.1, item) :: fs, ?_, ?_⟩
          · rw [ofItem_eq_str hkey]
            rfl
          · rw [List.map_cons, hitem]

/-- A storable value is written as an item in which no key is repeated. -/
theorem Storable.keyed {v : Value} (h : Storable v) {item : Cbor.Value}
    (hitem : Value.ofItem item = v) : Keyed item := by
  induction h generalizing item with
  | none => cases item <;> cases hitem; exact .null
  | bool b => cases item <;> cases hitem; exact .bool b
  | int n => cases item <;> cases hitem; exact .uint _
  | bytes bs => cases item <;> cases hitem; exact .bytes bs
  | str s => cases item <;> cases hitem; exact .text s
  | list _ ih =>
      cases item <;> cases hitem
      apply Keyed.array
      intro x hx
      refine ih (.ofItem x) ?_ rfl
      rw [Value.ofItems_eq_map]
      exact List.mem_map_of_mem hx
  | dict hkeys _ ih =>
      cases item with
      | map es =>
          obtain ⟨fs, rfl, rfl⟩ := exists_fields (Value.dict.inj hitem)
          apply Keyed.map
          · rwa [List.map_map] at hkeys
          · intro f hf
            exact ih (f.1, .ofItem f.2) (List.mem_map_of_mem hf) rfl
      | _ => cases hitem

theorem Storable.decode_encode {v : Value} (h : Storable v) {bytes : Bytes}
    (hbytes : encode v = .ok bytes) : decode bytes = .ok v := by
  obtain ⟨item, rfl, hitem⟩ := encode_eq_ok.mp hbytes
  have hread := Cbor.decode_encode hitem []
  rw [List.append_nil] at hread
  exact decode_eq_ok.mpr ⟨item, hread, built_of_keyed (h.keyed rfl)⟩

/-- **A recorded result is returned as it was.** -/
theorem StepResult.valueOf_bytes (r : StepResult) : valueOf r.bytes = .ok r.value := by
  obtain ⟨value, hstorable, bytes, hrecorded⟩ := r
  by_cases hnone : value = .none
  · subst hnone
    cases hrecorded
    rfl
  · have hencode : encode value = .ok bytes := by
      rw [← hrecorded]
      cases value <;> first | rfl | exact absurd rfl hnone
    have hdecode := hstorable.decode_encode hencode
    have hne : bytes.isEmpty = false := by
      rw [List.isEmpty_eq_false_iff]
      exact ne_nil_of_decode hdecode
    change valueOf bytes = .ok value
    rw [valueOf, hne]
    exact hdecode

/-- A number that fits its initial byte. -/
def StepResult.small (n : Nat) (h : n < 24) : StepResult where
  value := .int n
  storable := .int n
  bytes := [UInt8.ofNat n]
  recorded := by
    rw [valueBytes, encode, enc, if_neg (by omega), Int.toNat_natCast, encHead, if_pos h]
    · simp
    · nofun

def StepResult.five : StepResult := .small 5 (by omega)

def StepResult.six : StepResult := .small 6 (by omega)

namespace Checkpoint

theorem record_result (self : Checkpoint) (key : String) (r : StepResult) :
    self.record key r.value = .ok { self with steps := self.steps.put key r.bytes } := by
  rw [record, r.recorded]
  rfl

theorem replay_eq_none {self : Checkpoint} {key : String} :
    self.replay key = none ↔ self.steps.get? key = none := Option.map_eq_none_iff

theorem replay_of {self : Checkpoint} {key : String} {r : StepResult}
    (h : self.steps.get? key = some r.bytes) : self.replay key = some (.ok r.value) := by
  rw [replay, h, Option.map_some, r.valueOf_bytes]

end Checkpoint

end Thicket.Py
