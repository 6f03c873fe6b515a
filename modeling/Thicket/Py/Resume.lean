import Thicket.Lib.AtomicStore
import Thicket.Lib.Run
import Thicket.Py.Checkpoint

/-!
# Crashing and resuming

A sequential run of keyless steps on a store with atomic operations, in any number of attempts. An
attempt can end anywhere: between two steps, before a step's function runs, in it, or before or
after its save. What is left of it is what was saved, and the next attempt opens the run again.

The saved results are a list. The stored blob is its encoding, the copy of an attempt is the list
under the keys `#0`, `#1`, …, and the attempt is at a position in it or at its end.
-/

namespace Thicket.Py.Resume

open Cbor (Bytes)
open Result

/-- How far a step gets whose function has to run. -/
inductive Fate where
  | beforeRun
  | raised
  | unsaved (result : StepResult)
  | saved (result : StepResult)
  | completed (result : StepResult)

inductive Event where
  | openRun
  | crash
  | call (fate : Fate)

inductive Obs where
  | unopened (e : Exc)
  | asked (i : Nat) (key : String)
  | started (key : String)
  | saved (key : String) (value : Value)
  | yielded (key : String) (result : Except Exc Value)

/-- An attempt is its copy of the checkpoint and the number of steps it has called. -/
structure State (store : AtomicStore Bytes Bytes) where
  stored : store.State
  attempt : Option (Checkpoint × Nat)
  trace : List Obs

variable (store : AtomicStore Bytes Bytes) (runId : Bytes)

namespace State

variable {store}

def init : State store := { stored := store.empty, attempt := none, trace := [] }

def crash (s : State store) : State store := { s with attempt := none }

def observe (s : State store) (obs : Obs) : State store := { s with trace := s.trace ++ [obs] }

/-- The last part of `step`: the result is recorded and the checkpoint saved. -/
def save (s : State store) (checkpoint : Checkpoint) (calls : Nat) (key : String)
    (result : StepResult) : State store :=
  match checkpoint.record key result.value with
  | .error _ => s.crash
  | .ok checkpoint =>
      match checkpoint.blob with
      | .error _ => s.crash
      | .ok blob =>
          { s with stored := store.save s.stored checkpoint.runId blob,
                   attempt := some (checkpoint, calls),
                   trace := s.trace ++ [.saved key result.value] }

def run (s : State store) (checkpoint : Checkpoint) (calls : Nat) (key : String) :
    Fate → State store
  | .beforeRun => s.crash
  | .raised | .unsaved _ => (s.observe (.started key)).crash
  | .saved result => ((s.observe (.started key)).save checkpoint calls key result).crash
  | .completed result =>
      let s := (s.observe (.started key)).save checkpoint calls key result
      if s.attempt.isSome then s.observe (.yielded key (.ok result.value)) else s

/-- The `calls`-th call of an attempt. -/
def call (s : State store) (checkpoint : Checkpoint) (calls : Nat) (fate : Fate) : State store :=
  let (key, checkpoint) := checkpoint.stepKey none
  let s := s.observe (.asked calls key)
  match checkpoint.replay key with
  | some (.ok value) =>
      { s with attempt := some (checkpoint, calls + 1) }.observe (.yielded key (.ok value))
  | some (.error e) => s.crash.observe (.yielded key (.error e))
  | none => s.run checkpoint (calls + 1) key fate

def openRun (s : State store) (runId : Bytes) : State store :=
  match Checkpoint.opened (store.load s.stored runId) runId with
  | .ok checkpoint => { s with attempt := some (checkpoint, 0) }
  | .error e => s.crash.observe (.unopened e)

def step (s : State store) : Event → State store
  | .openRun => s.openRun runId
  | .crash => s.crash
  | .call fate =>
      match s.attempt with
      | some (checkpoint, calls) => s.call checkpoint calls fate
      | none => s

end State

def exec (events : List Event) : State store := Run.exec (State.step runId) State.init events

/-! ### The saved results -/

/-- The steps that were saved, in order. -/
def saves (trace : List Obs) : List (String × Value) :=
  trace.filterMap fun
    | .saved key value => some (key, value)
    | _ => none

theorem keys_of_results (results : List StepResult) :
    (results.mapIdx fun i r => (positional i, r.bytes)).map Prod.fst =
      (List.range results.length).map positional := by
  apply List.ext_getElem
  · simp
  · intro i _ _
    simp

/-- Results under their positions. -/
def recorded (results : List StepResult) : OrderedDict String Bytes :=
  ⟨results.mapIdx fun i r => (positional i, r.bytes), by
    rw [keys_of_results]
    exact List.nodup_range.map fun _ _ => positional_injective⟩

theorem recorded_get? (results : List StepResult) (i : Nat) :
    (recorded results).get? (positional i) = results[i]?.map StepResult.bytes := by
  apply Option.ext
  intro bytes
  rw [OrderedDict.get?_eq_some, recorded, List.mem_mapIdx, Option.map_eq_some_iff]
  constructor
  · rintro ⟨j, hj, heq⟩
    obtain ⟨hkey, hbytes⟩ := Prod.mk.inj heq
    obtain rfl := positional_injective hkey
    exact ⟨results[j], List.getElem?_eq_getElem hj, hbytes⟩
  · rintro ⟨r, hr, rfl⟩
    obtain ⟨hi, rfl⟩ := List.getElem?_eq_some_iff.mp hr
    exact ⟨i, hi, rfl⟩

theorem recorded_put (results : List StepResult) (r : StepResult) :
    (recorded results).put (positional results.length) r.bytes = recorded (results ++ [r]) := by
  apply OrderedDict.ext
  rw [OrderedDict.entries_put_fresh]
  · exact List.mapIdx_concat.symm
  · rw [recorded_get?, List.getElem?_eq_none le_rfl]
    rfl

/-! ### What is observed -/

/-- A step that was saved does not run again, and it yields what was saved. -/
def AtMostOnce (earlier later : Obs) : Prop :=
  ∀ key value, earlier = .saved key value →
    later ≠ .started key ∧ ∀ result, later = .yielded key result → result = .ok value

/-- What can be observed, but for a save, when these results are saved. -/
def Allowed (results : List StepResult) : Obs → Prop
  | .unopened _ => False
  | .asked i key => key = positional i
  | .started key => (recorded results).get? key = none
  | .saved _ _ => False
  | .yielded key result =>
      ∃ bytes, (recorded results).get? key = some bytes ∧ result = valueOf bytes

theorem mem_saves {trace : List Obs} {key : String} {value : Value} :
    (key, value) ∈ saves trace ↔ .saved key value ∈ trace := by
  rw [saves, List.mem_filterMap]
  constructor
  · rintro ⟨obs, hmem, hobs⟩
    cases obs <;> cases hobs
    exact hmem
  · intro hmem
    exact ⟨_, hmem, rfl⟩

/-! ### What the parts of the state have to do with the saved results -/

variable {store} {runId}

structure Inv (runId : Bytes) (results : List StepResult) (s : State store) : Prop where
  stored : (results = [] ∧ store.load s.stored runId = none) ∨
    results ≠ [] ∧ ∃ blob, store.load s.stored runId = some blob ∧
      encodeCheckpoint runId (recorded results).entries = .ok blob
  attempt : ∀ checkpoint calls, s.attempt = some (checkpoint, calls) →
    checkpoint = { runId, steps := recorded results, seq := calls } ∧ calls ≤ results.length
  saves : saves s.trace = results.mapIdx fun i r => (positional i, r.value)
  once : s.trace.Pairwise AtMostOnce
  asked : ∀ i key, .asked i key ∈ s.trace → key = positional i
  opens : ∀ e, .unopened e ∉ s.trace

variable {results : List StepResult} {s : State store}

/-- Every save in the trace is of a recorded result. -/
theorem Inv.recorded_of_saved (h : Inv runId results s) {key : String} {value : Value}
    (hmem : .saved key value ∈ s.trace) :
    ∃ bytes, (recorded results).get? key = some bytes ∧ valueOf bytes = .ok value := by
  rw [← mem_saves, h.saves, List.mem_mapIdx] at hmem
  obtain ⟨i, hi, heq⟩ := hmem
  obtain ⟨rfl, rfl⟩ := Prod.mk.inj heq
  refine ⟨results[i].bytes, ?_, results[i].valueOf_bytes⟩
  rw [recorded_get?, List.getElem?_eq_getElem hi]
  rfl

theorem Inv.init : Inv runId [] (State.init : State store) where
  stored := .inl ⟨rfl, store.load_empty runId⟩
  attempt _ _ h := nomatch h
  saves := rfl
  once := .nil
  asked _ _ h := nomatch h
  opens _ h := nomatch h

theorem Inv.crash (h : Inv runId results s) : Inv runId results s.crash :=
  { h with attempt := fun _ _ hnone => nomatch hnone }

theorem Inv.atMostOnce (h : Inv runId results s) {obs : Obs} (hobs : Allowed results obs) :
    ∀ earlier ∈ s.trace, AtMostOnce earlier obs := by
  rintro _ hmem key value rfl
  obtain ⟨bytes, hget, hvalue⟩ := h.recorded_of_saved hmem
  constructor
  · rintro rfl
    change (recorded results).get? key = none at hobs
    rw [hget] at hobs
    cases hobs
  · rintro result rfl
    obtain ⟨bytes', hget', rfl⟩ := hobs
    rw [hget] at hget'
    obtain rfl := Option.some.inj hget'
    exact hvalue

theorem Inv.observe (h : Inv runId results s) {obs : Obs} (hobs : Allowed results obs) :
    Inv runId results (s.observe obs) where
  stored := h.stored
  attempt := h.attempt
  saves := by
    have hnone : Resume.saves [obs] = [] := by
      cases obs <;> first | rfl | exact hobs.elim
    change Resume.saves (s.trace ++ [obs]) = _
    rw [Resume.saves, List.filterMap_append, ← Resume.saves, ← Resume.saves, hnone, List.append_nil]
    exact h.saves
  once := by
    apply List.pairwise_append.mpr
    refine ⟨h.once, List.pairwise_singleton _ _, ?_⟩
    intro earlier hearlier later hlater
    rw [List.mem_singleton.mp hlater]
    exact h.atMostOnce hobs earlier hearlier
  asked i key hmem := by
    rcases List.mem_append.mp hmem with hmem | hmem
    · exact h.asked i key hmem
    · rw [← List.mem_singleton.mp hmem] at hobs
      exact hobs
  opens e hmem := by
    rcases List.mem_append.mp hmem with hmem | hmem
    · exact h.opens e hmem
    · rw [← List.mem_singleton.mp hmem] at hobs
      exact hobs

/-- The copy of an attempt that is at this position. -/
def copy (runId : Bytes) (results : List StepResult) (seq : Nat) : Checkpoint :=
  { runId, steps := recorded results, seq }

theorem copy_record (r : StepResult) (seq : Nat) :
    (copy runId results seq).record (positional results.length) r.value =
      .ok (copy runId (results ++ [r]) seq) := by
  rw [Checkpoint.record_result]
  change Except.ok { runId, steps := (recorded results).put _ r.bytes, seq : Checkpoint } = _
  rw [recorded_put]
  rfl

theorem saves_append_saved (trace : List Obs) (key : String) (value : Value) :
    saves (trace ++ [.saved key value]) = saves trace ++ [(key, value)] := by
  rw [saves, List.filterMap_append]
  rfl

/-- A save that is completed appends the result. -/
theorem Inv.saved (h : Inv runId results s) (r : StepResult) {blob : Bytes}
    (hblob : encodeCheckpoint runId (recorded (results ++ [r])).entries = .ok blob) :
    Inv runId (results ++ [r])
      { s with stored := store.save s.stored runId blob,
               attempt := some
                 (copy runId (results ++ [r]) (results.length + 1), results.length + 1),
               trace := s.trace ++ [.saved (positional results.length) r.value] } where
  stored := by
    right
    refine ⟨?_, blob, store.load_save_self _ _ _, hblob⟩
    exact List.append_ne_nil_of_right_ne_nil _ (List.cons_ne_nil r [])
  attempt checkpoint calls heq := by
    obtain ⟨rfl, rfl⟩ := Prod.mk.inj (Option.some.inj heq)
    refine ⟨rfl, ?_⟩
    rw [List.length_append]
    exact le_rfl
  saves := by
    rw [saves_append_saved, h.saves]
    exact List.mapIdx_concat.symm
  once := by
    apply List.pairwise_append.mpr
    refine ⟨h.once, List.pairwise_singleton _ _, ?_⟩
    intro earlier _ later hlater key value _
    rw [List.mem_singleton.mp hlater]
    exact ⟨nofun, nofun⟩
  asked i key hmem := by
    rcases List.mem_append.mp hmem with hmem | hmem
    · exact h.asked i key hmem
    · cases List.mem_singleton.mp hmem
  opens e hmem := by
    rcases List.mem_append.mp hmem with hmem | hmem
    · exact h.opens e hmem
    · cases List.mem_singleton.mp hmem

theorem Inv.save (h : Inv runId results s) (r : StepResult) :
    ∃ results', Inv runId results'
        (s.save (copy runId results (results.length + 1)) (results.length + 1)
          (positional results.length) r) ∧
      ((s.save (copy runId results (results.length + 1)) (results.length + 1)
          (positional results.length) r).attempt.isSome →
        (recorded results').get? (positional results.length) = some r.bytes) := by
  cases hblob : (copy runId (results ++ [r]) (results.length + 1)).blob with
  | error e =>
      simp only [State.save, copy_record, hblob]
      exact ⟨results, h.crash, nofun⟩
  | ok blob =>
      simp only [State.save, copy_record, hblob]
      refine ⟨results ++ [r], h.saved r hblob, fun _ => ?_⟩
      rw [recorded_get?, List.getElem?_concat_length]
      rfl

theorem Inv.run (h : Inv runId results s) (fate : Fate) :
    ∃ results', Inv runId results'
      (s.run (copy runId results (results.length + 1)) (results.length + 1)
        (positional results.length) fate) := by
  have hstarted : Inv runId results (s.observe (.started (positional results.length))) := by
    apply h.observe
    change (recorded results).get? _ = none
    rw [recorded_get?, List.getElem?_eq_none le_rfl]
    rfl
  cases fate with
  | beforeRun => exact ⟨results, h.crash⟩
  | raised => exact ⟨results, hstarted.crash⟩
  | unsaved result => exact ⟨results, hstarted.crash⟩
  | saved result =>
      obtain ⟨results', hsave, -⟩ := hstarted.save result
      exact ⟨results', hsave.crash⟩
  | completed result =>
      obtain ⟨results', hsave, hget⟩ := hstarted.save result
      refine ⟨results', ?_⟩
      simp only [State.run]
      split_ifs with hsome
      · exact hsave.observe ⟨result.bytes, hget hsome, result.valueOf_bytes.symm⟩
      · exact hsave

theorem Inv.call (h : Inv runId results s) {calls : Nat} (hcalls : calls ≤ results.length)
    (fate : Fate) :
    ∃ results', Inv runId results' (s.call (copy runId results calls) calls fate) := by
  have hasked : Inv runId results (s.observe (.asked calls (positional calls))) := h.observe rfl
  have hkey : (copy runId results calls).stepKey none =
      (positional calls, copy runId results (calls + 1)) := rfl
  simp only [State.call, hkey]
  rcases hcalls.lt_or_eq with hlt | rfl
  · have hget : (recorded results).get? (positional calls) = some results[calls].bytes := by
      rw [recorded_get?, List.getElem?_eq_getElem hlt]
      rfl
    have hreplay : (copy runId results (calls + 1)).replay (positional calls) =
        some (.ok results[calls].value) := Checkpoint.replay_of hget
    simp only [hreplay]
    refine ⟨results, Inv.observe ?_ ⟨_, hget, results[calls].valueOf_bytes.symm⟩⟩
    refine { hasked with attempt := ?_ }
    intro checkpoint calls' heq
    obtain ⟨rfl, rfl⟩ := Prod.mk.inj (Option.some.inj heq)
    exact ⟨rfl, hlt⟩
  · -- The attempt has reached the end of what was saved.
    have hreplay : (copy runId results (results.length + 1)).replay (positional results.length) =
        none := by
      apply Checkpoint.replay_eq_none.mpr
      change (recorded results).get? _ = none
      rw [recorded_get?, List.getElem?_eq_none le_rfl]
      rfl
    simp only [hreplay]
    exact hasked.run fate

theorem Inv.openRun (h : Inv runId results s) : Inv runId results (s.openRun runId) := by
  have hopened : Checkpoint.opened (store.load s.stored runId) runId =
      .ok (copy runId results 0) := by
    rcases h.stored with ⟨rfl, hnone⟩ | ⟨-, blob, hload, hblob⟩
    · rw [hnone]
      rfl
    · rw [hload]
      exact Checkpoint.opened_of (encodeCheckpoint_iff.mp hblob) runId
  rw [State.openRun, hopened]
  refine { h with attempt := ?_ }
  intro checkpoint calls heq
  obtain ⟨rfl, rfl⟩ := Prod.mk.inj (Option.some.inj heq)
  exact ⟨rfl, Nat.zero_le _⟩

theorem Inv.step (h : Inv runId results s) (event : Event) :
    ∃ results', Inv runId results' (s.step runId event) := by
  cases event with
  | openRun => exact ⟨results, h.openRun⟩
  | crash => exact ⟨results, h.crash⟩
  | call fate =>
      cases hattempt : s.attempt with
      | none =>
          refine ⟨results, ?_⟩
          simp only [State.step, hattempt]
          exact h
      | some attempt =>
          obtain ⟨checkpoint, calls⟩ := attempt
          obtain ⟨rfl, hcalls⟩ := h.attempt checkpoint calls hattempt
          simp only [State.step, hattempt]
          exact h.call hcalls fate

theorem exists_inv (events : List Event) :
    ∃ results, Inv runId results (exec store runId events) :=
  Run.exec_preserves (fun s => ∃ results, Inv runId results s)
    (fun _ event ⟨_, h⟩ => h.step event) ⟨[], .init⟩ events

/-! ### Runs -/

/-- The stored blob, if anything was saved, decodes to what was saved, under `#0`, `#1`, … in this
order. -/
def StoredInOrder (runId : Bytes) (s : State store) : Prop :=
  match store.load s.stored runId with
  | none => Resume.saves s.trace = []
  | some blob => Resume.saves s.trace ≠ [] ∧ ∃ steps : List (String × Bytes),
      decodeCheckpoint blob = .ok (.bytes runId, steps.map stepEntry) ∧
      steps.map Prod.fst = (List.range steps.length).map positional ∧
      steps.map (fun step => (step.1, valueOf step.2)) =
        (Resume.saves s.trace).map fun step => (step.1, .ok step.2)

theorem Inv.storedInOrder (h : Inv runId results s) : StoredInOrder runId s := by
  rw [StoredInOrder, h.saves]
  rcases h.stored with ⟨rfl, hnone⟩ | ⟨hne, blob, hload, hblob⟩
  · rw [hnone]
    rfl
  · rw [hload]
    refine ⟨?_, (recorded results).entries, ?_, ?_, ?_⟩
    · intro hnil
      exact hne (List.mapIdx_eq_nil_iff.mp hnil)
    · exact decodeCheckpoint_of (encodeCheckpoint_iff.mp hblob) (recorded results).nodup
    · rw [recorded, keys_of_results, List.length_mapIdx]
    · apply List.ext_getElem
      · simp [recorded]
      · intro i _ _
        simp [recorded, StepResult.valueOf_bytes]

/-- **Crash and resume.** However often and wherever the attempts at a run end, a step gets the key
of its position in every attempt, a step that was saved does not run again and yields what was
saved, and what is stored is what was saved, in order and without a gap. -/
theorem crash_and_resume (store : AtomicStore Bytes Bytes) (runId : Bytes) (events : List Event) :
    let s := exec store runId events
    (∀ i key, .asked i key ∈ s.trace → key = positional i) ∧
    s.trace.Pairwise AtMostOnce ∧
    (∀ e, .unopened e ∉ s.trace) ∧
    StoredInOrder runId s := by
  obtain ⟨results, h⟩ := @exists_inv store runId events
  exact ⟨h.asked, h.once, h.opens, h.storedInOrder⟩

end Thicket.Py.Resume
