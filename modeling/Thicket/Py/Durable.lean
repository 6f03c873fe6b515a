import Thicket.Lib.AtomicStore
import Thicket.Lib.Run
import Thicket.Py.Checkpoint
import Thicket.Py.ChildContext

/-!
# Durable handlers

Any number of executions of durable handlers on one store, as `Fiber._handler` opens them: keyed by
the trace that the caller's context names. An execution runs its steps on the copy that it has
loaded, any number of them at a time, and every save hands the whole copy to the store. Between all
of this the other executions take their steps, and a save lands some time after it was handed over.

A save that lands replaces what is stored. Nothing that was saved is lost as long as it replaces a
blob that its execution had loaded or handed over before, and as long as no execution records a key
twice.
-/

namespace Thicket.Py.Durable

open Cbor (Bytes)
open Result

/-- `env["trace_id"]` as the id of a run. A trace id is bytes; without one, or with an empty one,
nothing is recorded. -/
def runIdOf (env : Value) : Option Bytes :=
  match env.get (.str "trace_id") .none with
  | .ok (.bytes traceId) => if traceId.isEmpty then none else some traceId
  | _ => none

theorem runIdOf_eq_some {env : Value} {runId : Bytes} : runIdOf env = some runId ↔
    env.get (.str "trace_id") .none = .ok (.bytes runId) ∧ runId ≠ [] := by
  unfold runIdOf
  split
  · rename_i traceId hget
    rw [hget]
    simp only [Except.ok.injEq, Value.bytes.injEq, List.isEmpty_iff]
    split_ifs with hempty
    · subst hempty
      constructor
      · intro h
        cases h
      · rintro ⟨rfl, hne⟩
        exact absurd rfl hne
    · constructor
      · intro h
        cases h
        exact ⟨rfl, hempty⟩
      · rintro ⟨rfl, -⟩
        rfl
  · rename_i hother
    refine iff_of_false nofun fun h => hother runId h.1

/-- A durable handler that is called from a durable handler runs under the same id. -/
theorem runIdOf_childContext {env ctx : Value} {runId : Bytes} (h : runIdOf env = some runId)
    {spanId : Value} {localDeadline : Option Int} {spent : Int} {sink : Option Value}
    {random16 : Tracing.Urandom 16} {random8 : Tracing.Urandom 8}
    (hctx : Tracing.childContext env spanId localDeadline spent sink random16 random8 = .ok ctx) :
    runIdOf ctx = some runId := by
  obtain ⟨hget, hne⟩ := runIdOf_eq_some.mp h
  have hparent : env.orElse (.dict []) = env := by
    apply if_pos
    cases env with
    | dict entries => cases entries <;> first | rfl | cases hget
    | _ => cases hget
  have htruthy : (Value.bytes runId).orElse (.bytes random16.1) = .bytes runId := by
    apply if_pos
    simpa [Value.truthy] using hne
  simp only [Tracing.childContext, hparent, hget, bind_eq_ok, pure_eq_ok, Except.ok.injEq,
    exists_eq_left', htruthy] at hctx
  obtain ⟨_, -, _, -, _, -, _, -, _, -, _, -, rfl⟩ := hctx
  exact runIdOf_eq_some.mpr ⟨rfl, hne⟩

/-- An execution of a durable handler: its copy of the checkpoint, and the blobs that it has loaded
or handed to the store. -/
structure Execution where
  checkpoint : Checkpoint
  known : List (Option Bytes)

/-- A save on its way to the store; `base` are the blobs that its execution knew before. -/
structure Save where
  owner : Nat
  runId : Bytes
  key : String
  bytes : Bytes
  base : List (Option Bytes)
  blob : Bytes

/-- What happens to a step of an execution. The bytes are those that its value is decoded from. -/
inductive Obs where
  | started (owner : Nat) (runId : Bytes) (key : String)
  | recorded (owner : Nat) (runId : Bytes) (key : String) (bytes : Bytes)
  | saved (owner : Nat) (runId : Bytes) (key : String) (bytes : Bytes)
  | returned (owner : Nat) (runId : Bytes) (key : String) (bytes : Bytes)
  deriving DecidableEq

def Obs.owner : Obs → Nat
  | .started owner _ _ | .recorded owner _ _ _ | .saved owner _ _ _ | .returned owner _ _ _ => owner

/-- The run and the key of the step. -/
def Obs.step : Obs → Bytes × String
  | .started _ runId key | .recorded _ runId key _ | .saved _ runId key _
  | .returned _ runId key _ => (runId, key)

/-- `finish` and `fail` are of a running function, `land` is of a save on its way. -/
inductive Event where
  | openRun (env : Value)
  | request (owner : Nat) (key : Option String)
  | finish (i : Nat) (result : StepResult)
  | fail (i : Nat)
  | land (i : Nat)

structure State (store : AtomicStore Bytes Bytes) where
  stored : store.State
  executions : List Execution
  running : List (Nat × String)
  saving : List Save
  trace : List Obs

variable {store : AtomicStore Bytes Bytes}

namespace State

def init : State store :=
  { stored := store.empty, executions := [], running := [], saving := [], trace := [] }

def observe (s : State store) (obs : List Obs) : State store := { s with trace := s.trace ++ obs }

def update (s : State store) (owner : Nat) (e : Execution) : State store :=
  { s with executions := s.executions.set owner e }

/-- The part of `Fiber._handler` that opens a checkpoint. -/
def openRun (s : State store) (env : Value) : State store :=
  match runIdOf env with
  | none => s
  | some runId =>
      match Checkpoint.opened (store.load s.stored runId) runId with
      | .error _ => s
      | .ok checkpoint =>
          { s with executions := s.executions ++
              [{ checkpoint, known := [store.load s.stored runId] }] }

/-- `Checkpoint.step` up to where its function runs. -/
def request (s : State store) (owner : Nat) (key : Option String) : State store :=
  match s.executions[owner]? with
  | none => s
  | some e =>
      let (key, checkpoint) := e.checkpoint.stepKey key
      let s := s.update owner { e with checkpoint }
      match checkpoint.steps.get? key with
      | some bytes => s.observe [.returned owner checkpoint.runId key bytes]
      | none =>
          { s with running := s.running ++ [(owner, key)] }.observe
            [.started owner checkpoint.runId key]

/-- `Checkpoint.step` from where its function has returned to where it awaits the store. -/
def finish (s : State store) (i : Nat) (result : StepResult) : State store :=
  match s.running[i]? with
  | none => s
  | some (owner, key) =>
      match s.executions[owner]? with
      | none => s
      | some e =>
          let s := { s with running := s.running.eraseIdx i }
          match e.checkpoint.record key result.value with
          | .error _ => s
          | .ok checkpoint =>
              let s := s.observe [.recorded owner checkpoint.runId key result.bytes]
              match checkpoint.blob with
              | .error _ => s.update owner { e with checkpoint }
              | .ok blob =>
                  { s.update owner { e with checkpoint, known := e.known ++ [some blob] } with
                    saving := s.saving ++ [{ owner, runId := checkpoint.runId, key,
                                             bytes := result.bytes, base := e.known, blob }] }

def fail (s : State store) (i : Nat) : State store := { s with running := s.running.eraseIdx i }

/-- The store has the blob, and the step returns. -/
def land (s : State store) (i : Nat) : State store :=
  match s.saving[i]? with
  | none => s
  | some save =>
      { s with stored := store.save s.stored save.runId save.blob,
               saving := s.saving.eraseIdx i }.observe
        [.saved save.owner save.runId save.key save.bytes,
          .returned save.owner save.runId save.key save.bytes]

def step (s : State store) : Event → State store
  | .openRun env => s.openRun env
  | .request owner key => s.request owner key
  | .finish i result => s.finish i result
  | .fail i => s.fail i
  | .land i => s.land i

/-- What an execution that opens the run now finds recorded for a step. -/
def found (s : State store) (runId : Bytes) (key : String) : Option Bytes :=
  match Checkpoint.opened (store.load s.stored runId) runId with
  | .error _ => none
  | .ok checkpoint => checkpoint.steps.get? key

/-- Every completed save is still there. -/
def SavesStay (s : State store) : Prop :=
  ∀ owner runId key bytes, .saved owner runId key bytes ∈ s.trace → s.found runId key = some bytes

/-! ### Undisturbed steps -/

/-- The function returns before another call has recorded the same key. -/
def RecordsOnce (s : State store) (i : Nat) : Prop :=
  ∀ r ∈ s.running[i]?, ∀ e ∈ s.executions[r.1]?, e.checkpoint.steps.get? r.2 = none

/-- The save replaces a blob that its execution had loaded or handed over before. -/
def LandsOnKnown (s : State store) (i : Nat) : Prop :=
  ∀ save ∈ s.saving[i]?, store.load s.stored save.runId ∈ save.base

def Undisturbed (s : State store) : Event → Prop
  | .finish i _ => s.RecordsOnce i
  | .land i => s.LandsOnKnown i
  | _ => True

instance (s : State store) (i : Nat) : Decidable (s.RecordsOnce i) :=
  inferInstanceAs (Decidable (∀ r ∈ s.running[i]?, ∀ e ∈ s.executions[r.1]?,
    e.checkpoint.steps.get? r.2 = none))

instance (s : State store) (i : Nat) : Decidable (s.LandsOnKnown i) :=
  inferInstanceAs (Decidable (∀ save ∈ s.saving[i]?, store.load s.stored save.runId ∈ save.base))

instance (s : State store) : (event : Event) → Decidable (s.Undisturbed event)
  | .finish i _ => inferInstanceAs (Decidable (s.RecordsOnce i))
  | .land i => inferInstanceAs (Decidable (s.LandsOnKnown i))
  | .openRun _ | .request _ _ | .fail _ => .isTrue trivial

end State

/-! ### What the copies have to do with the store -/

/-- A blob of the run holds these steps. -/
def Holds (runId : Bytes) (blob : Option Bytes) (steps : OrderedDict String Bytes) : Prop :=
  Checkpoint.opened blob runId = .ok { runId, steps, seq := 0 }

theorem holds_blob {checkpoint : Checkpoint} {blob : Bytes} (h : checkpoint.blob = .ok blob) :
    Holds checkpoint.runId (some blob) checkpoint.steps := Checkpoint.opened_blob h _

theorem State.found_eq {s : State store} {runId : Bytes} {steps : OrderedDict String Bytes}
    (h : Holds runId (store.load s.stored runId) steps) (key : String) :
    s.found runId key = steps.get? key := by
  rw [State.found, h]

/-- A blob of the run holds steps that are all among these. -/
def HoldsWithin (runId : Bytes) (steps : OrderedDict String Bytes) (blob : Option Bytes) : Prop :=
  ∃ d : OrderedDict String Bytes, Holds runId blob d ∧ d.Within steps

/-- Each of these steps was recorded in the run. -/
def Recorded (trace : List Obs) (runId : Bytes) (steps : OrderedDict String Bytes) : Prop :=
  ∀ key bytes, steps.get? key = some bytes → ∃ owner, .recorded owner runId key bytes ∈ trace

structure ExecutionOk (trace : List Obs) (e : Execution) : Prop where
  known : ∀ blob ∈ e.known, HoldsWithin e.checkpoint.runId e.checkpoint.steps blob
  recorded : Recorded trace e.checkpoint.runId e.checkpoint.steps

structure SaveOk (trace : List Obs) (save : Save) : Prop where
  steps : ∃ steps : OrderedDict String Bytes, Holds save.runId (some save.blob) steps ∧
    Recorded trace save.runId steps ∧ steps.get? save.key = some save.bytes ∧
    ∀ blob ∈ save.base, HoldsWithin save.runId steps blob
  own : .recorded save.owner save.runId save.key save.bytes ∈ trace

structure Inv (s : State store) : Prop where
  opens : ∀ runId, ∃ steps, Holds runId (store.load s.stored runId) steps ∧
    Recorded s.trace runId steps
  executions : ∀ e ∈ s.executions, ExecutionOk s.trace e
  saving : ∀ save ∈ s.saving, SaveOk s.trace save
  saves : s.SavesStay

theorem Recorded.append {trace : List Obs} {runId : Bytes} {steps : OrderedDict String Bytes}
    (h : Recorded trace runId steps) (obs : List Obs) : Recorded (trace ++ obs) runId steps := by
  intro key bytes hget
  obtain ⟨owner, hmem⟩ := h key bytes hget
  exact ⟨owner, List.mem_append_left obs hmem⟩

theorem recorded_empty (trace : List Obs) (runId : Bytes) : Recorded trace runId .empty := by
  intro key bytes hget
  cases hget

/-- A step is put among the others when it is recorded. -/
theorem Recorded.put {trace : List Obs} {runId : Bytes} {steps : OrderedDict String Bytes}
    (h : Recorded trace runId steps) (owner : Nat) (key : String) (bytes : Bytes) :
    Recorded (trace ++ [.recorded owner runId key bytes]) runId (steps.put key bytes) := by
  intro key' bytes' hget
  rw [OrderedDict.get?_put] at hget
  split_ifs at hget with hkey
  · obtain rfl := Option.some.inj hget
    subst hkey
    exact ⟨owner, List.mem_append_right _ (List.mem_singleton_self _)⟩
  · exact h.append _ key' bytes' hget

theorem ExecutionOk.append {trace : List Obs} {e : Execution} (h : ExecutionOk trace e)
    (obs : List Obs) : ExecutionOk (trace ++ obs) e := ⟨h.known, h.recorded.append obs⟩

/-- The execution when it has recorded a result. -/
def Execution.put (e : Execution) (key : String) (bytes : Bytes) : Execution :=
  { e with checkpoint := { e.checkpoint with steps := e.checkpoint.steps.put key bytes } }

theorem ExecutionOk.put {trace : List Obs} {e : Execution} (h : ExecutionOk trace e) (owner : Nat)
    {key : String} (hfresh : e.checkpoint.steps.get? key = none) (bytes : Bytes) :
    ExecutionOk (trace ++ [.recorded owner e.checkpoint.runId key bytes]) (e.put key bytes) where
  known blob hblob := by
    obtain ⟨d, hd, hwithin⟩ := h.known blob hblob
    exact ⟨d, hd, hwithin.trans (OrderedDict.within_put bytes hfresh)⟩
  recorded := h.recorded.put owner key bytes

/-- The blob that an execution hands to the store is one that it knows. -/
theorem ExecutionOk.handOver {trace : List Obs} {e : Execution} (h : ExecutionOk trace e)
    {blob : Bytes} (hblob : e.checkpoint.blob = .ok blob) :
    ExecutionOk trace { e with known := e.known ++ [some blob] } where
  known blob' hmem := by
    rcases List.mem_append.mp hmem with hmem | hmem
    · exact h.known blob' hmem
    · rw [List.mem_singleton.mp hmem]
      exact ⟨_, holds_blob hblob, .refl _⟩
  recorded := h.recorded

theorem saveOk_handOver {trace : List Obs} {owner : Nat} {e : Execution} {key : String}
    {bytes blob : Bytes}
    (h : ExecutionOk (trace ++ [.recorded owner e.checkpoint.runId key bytes]) (e.put key bytes))
    (hblob : (e.put key bytes).checkpoint.blob = .ok blob) :
    SaveOk (trace ++ [.recorded owner e.checkpoint.runId key bytes])
      { owner, runId := e.checkpoint.runId, key, bytes, base := e.known, blob } where
  steps := by
    refine ⟨e.checkpoint.steps.put key bytes, holds_blob hblob, h.recorded, ?_, h.known⟩
    exact (OrderedDict.get?_put _ _ _ _).trans (if_pos rfl)
  own := List.mem_append_right _ (List.mem_singleton_self _)

theorem SaveOk.append {trace : List Obs} {save : Save} (h : SaveOk trace save) (obs : List Obs) :
    SaveOk (trace ++ obs) save where
  steps := by
    obtain ⟨steps, hsteps, hrecorded, hrest⟩ := h.steps
    exact ⟨steps, hsteps, hrecorded.append obs, hrest⟩
  own := List.mem_append_left obs h.own

namespace Inv

variable {s : State store}

theorem init : Inv (State.init : State store) where
  opens runId := by
    refine ⟨.empty, ?_, recorded_empty _ _⟩
    rw [State.init, store.load_empty]
    rfl
  executions _ h := nomatch h
  saving _ h := nomatch h
  saves _ _ _ _ h := nomatch h

/-- Nothing but the trace changes, and no save is in what is added. -/
theorem observe (h : Inv s) {obs : List Obs}
    (hobs : ∀ owner runId key bytes, .saved owner runId key bytes ∉ obs) : Inv (s.observe obs) where
  opens runId := by
    obtain ⟨steps, hsteps, hrecorded⟩ := h.opens runId
    exact ⟨steps, hsteps, hrecorded.append obs⟩
  executions e he := (h.executions e he).append obs
  saving save hmem := (h.saving save hmem).append obs
  saves owner runId key bytes hmem := by
    rcases List.mem_append.mp hmem with hmem | hmem
    · exact h.saves owner runId key bytes hmem
    · exact absurd hmem (hobs owner runId key bytes)

theorem update (h : Inv s) (owner : Nat) {e : Execution} (he : ExecutionOk s.trace e) :
    Inv (s.update owner e) where
  opens := h.opens
  executions e' he' := by
    rcases List.mem_or_eq_of_mem_set he' with he' | rfl
    · exact h.executions e' he'
    · exact he
  saving := h.saving
  saves := h.saves

/-- Which functions are running does not matter. -/
theorem running (h : Inv s) (running : List (Nat × String)) : Inv { s with running } :=
  ⟨h.opens, h.executions, h.saving, h.saves⟩

theorem openRun (h : Inv s) (env : Value) : Inv (s.openRun env) := by
  unfold State.openRun
  cases runIdOf env with
  | none => exact h
  | some runId =>
      obtain ⟨steps, hsteps, hrecorded⟩ := h.opens runId
      simp only [show Checkpoint.opened (store.load s.stored runId) runId = _ from hsteps]
      refine ⟨h.opens, ?_, h.saving, h.saves⟩
      intro e he
      rcases List.mem_append.mp he with he | he
      · exact h.executions e he
      · rw [List.mem_singleton.mp he]
        refine ⟨?_, hrecorded⟩
        intro blob hblob
        rw [List.mem_singleton.mp hblob]
        exact ⟨steps, hsteps, .refl steps⟩

theorem request (h : Inv s) (owner : Nat) (key : Option String) : Inv (s.request owner key) := by
  unfold State.request
  cases he : s.executions[owner]? with
  | none => exact h
  | some e =>
      obtain ⟨seq, hseq⟩ := e.checkpoint.stepKey_eq key
      have hupdate : Inv (s.update owner { e with checkpoint := { e.checkpoint with seq } }) := by
        apply h.update
        have hok := h.executions e (List.mem_of_getElem? he)
        exact ⟨hok.known, hok.recorded⟩
      simp only [hseq]
      cases e.checkpoint.steps.get? (e.checkpoint.stepKey key).1 with
      | some bytes => exact hupdate.observe (by simp)
      | none => exact (hupdate.running _).observe (by simp)

theorem fail (h : Inv s) (i : Nat) : Inv (s.fail i) := h.running _

theorem finish (h : Inv s) {i : Nat} (hok : s.RecordsOnce i) (result : StepResult) :
    Inv (s.finish i result) := by
  unfold State.finish
  cases hrunning : s.running[i]? with
  | none => exact h
  | some running =>
      obtain ⟨owner, key⟩ := running
      cases he : s.executions[owner]? with
      | none =>
          simp only [he]
          exact h
      | some e =>
          simp only [he, Checkpoint.record_result]
          have hput := (h.executions e (List.mem_of_getElem? he)).put owner
            (hok _ hrunning _ he) result.bytes
          have hobserved : Inv (({ s with running := s.running.eraseIdx i } : State store).observe
              [.recorded owner e.checkpoint.runId key result.bytes]) :=
            (h.running _).observe (by simp)
          cases hblob : ({ e.checkpoint with
              steps := e.checkpoint.steps.put key result.bytes } : Checkpoint).blob with
          | error _ => exact hobserved.update owner hput
          | ok blob =>
              have hupdate := hobserved.update owner (hput.handOver hblob)
              refine ⟨hupdate.opens, hupdate.executions, ?_, hupdate.saves⟩
              intro save hmem
              rcases List.mem_append.mp hmem with hmem | hmem
              · exact hupdate.saving save hmem
              · rw [List.mem_singleton.mp hmem]
                exact saveOk_handOver hput hblob

theorem land (h : Inv s) {i : Nat} (hok : s.LandsOnKnown i) : Inv (s.land i) := by
  unfold State.land
  cases hsaving : s.saving[i]? with
  | none => exact h
  | some save =>
      obtain ⟨steps, hsteps, hrecorded, hget, hbase⟩ :=
        (h.saving save (List.mem_of_getElem? hsaving)).steps
      have hload (runId : Bytes) := store.load_save s.stored save.runId runId save.blob
      refine ⟨?_, ?_, ?_, ?_⟩
      · intro runId
        change ∃ d, Holds runId (store.load (store.save s.stored save.runId save.blob) runId) d ∧ _
        rw [hload]
        split_ifs with hrun
        · subst hrun
          exact ⟨steps, hsteps, hrecorded.append _⟩
        · obtain ⟨d, hd, hrecorded⟩ := h.opens runId
          exact ⟨d, hd, hrecorded.append _⟩
      · intro e he
        exact (h.executions e he).append _
      · intro save' hmem
        exact (h.saving save' (List.mem_of_mem_eraseIdx hmem)).append _
      · intro owner runId key bytes hmem
        change State.found
          { s with stored := store.save s.stored save.runId save.blob } runId key = _
        by_cases hrun : runId = save.runId
        · subst hrun
          have hsteps' : Holds save.runId
              (store.load (store.save s.stored save.runId save.blob) save.runId) steps := by
            rwa [hload, if_pos rfl]
          rw [State.found_eq hsteps']
          rcases List.mem_append.mp hmem with hmem | hmem
          · -- What is replaced was known to the execution, so the new blob has all of it.
            obtain ⟨d, hd, hwithin⟩ := hbase _ (hok save hsaving)
            apply hwithin
            rw [← State.found_eq hd]
            exact h.saves owner save.runId key bytes hmem
          · obtain ⟨-, rfl, rfl⟩ : owner = save.owner ∧ key = save.key ∧ bytes = save.bytes := by
              simpa using hmem
            exact hget
        · rcases List.mem_append.mp hmem with hmem | hmem
          · have hold := h.saves owner runId key bytes hmem
            rw [State.found] at hold ⊢
            rwa [hload, if_neg hrun]
          · obtain ⟨-, hsame, -⟩ : owner = save.owner ∧ runId = save.runId ∧ key = save.key ∧
                bytes = save.bytes := by simpa using hmem
            exact absurd hsame hrun

/-- **Undisturbed steps lose nothing.** -/
theorem step (h : Inv s) {event : Event} (hok : s.Undisturbed event) : Inv (s.step event) := by
  cases event with
  | openRun env => exact h.openRun env
  | request owner key => exact h.request owner key
  | finish i result => exact h.finish hok result
  | fail i => exact h.fail i
  | land i => exact h.land hok

end Inv

end Thicket.Py.Durable
