import Thicket.Py.Durable

/-!
# Executions that share a run

Executions that share a store and a trace share a checkpoint, and their positional steps have the
same keys. An invocation may have several executions, since it is resumed by executing it again.
Distinct invocations are separate if they request different steps and save over what they know. The
executions of one workflow run no saved step again if they start and save steps only as long as what
is stored is what they know.
-/

namespace Thicket.Py.Durable

open Cbor (Bytes)

variable {store : AtomicStore Bytes Bytes} {s : State store}

/-! ### What a step observes -/

inductive Emits (s : State store) : Event → Obs → Prop
  | replays {owner : Nat} {key : Option String} {e : Execution} {bytes : Bytes}
      (he : s.executions[owner]? = some e)
      (hget : e.checkpoint.steps.get? (e.checkpoint.stepKey key).1 = some bytes) :
      Emits s (.request owner key)
        (.returned owner e.checkpoint.runId (e.checkpoint.stepKey key).1 bytes)
  | starts {owner : Nat} {key : Option String} {e : Execution}
      (he : s.executions[owner]? = some e)
      (hget : e.checkpoint.steps.get? (e.checkpoint.stepKey key).1 = none) :
      Emits s (.request owner key) (.started owner e.checkpoint.runId (e.checkpoint.stepKey key).1)
  | records {i owner : Nat} {result : StepResult} {key : String} {e : Execution}
      (hrunning : (owner, key) ∈ s.running) (he : s.executions[owner]? = some e) :
      Emits s (.finish i result) (.recorded owner e.checkpoint.runId key result.bytes)
  | saves {i : Nat} {save : Save} (hsave : save ∈ s.saving) :
      Emits s (.land i) (.saved save.owner save.runId save.key save.bytes)
  | returns {i : Nat} {save : Save} (hsave : save ∈ s.saving) :
      Emits s (.land i) (.returned save.owner save.runId save.key save.bytes)

/-- What an event does: an execution keeps its number and its run, a function that is running was
running before or is started, and the trace grows by what is observed. -/
structure Stepped (s : State store) (event : Event) (t : State store) : Prop where
  executions : ∀ {owner : Nat} {e : Execution}, s.executions[owner]? = some e →
    ∃ e', t.executions[owner]? = some e' ∧ e'.checkpoint.runId = e.checkpoint.runId
  running : ∀ r ∈ t.running, r ∈ s.running ∨
    ∃ e, s.executions[r.1]? = some e ∧ .started r.1 e.checkpoint.runId r.2 ∈ t.trace
  trace : ∃ obs, t.trace = s.trace ++ obs ∧ ∀ o ∈ obs, Emits s event o

/-- An event that leaves the executions alone and starts no function. -/
theorem Stepped.of_eq {event : Event} {t : State store} {obs : List Obs}
    (hexecutions : t.executions = s.executions) (hrunning : t.running ⊆ s.running)
    (htrace : t.trace = s.trace ++ obs) (hobs : ∀ o ∈ obs, Emits s event o) :
    Stepped s event t where
  executions {_ e} he := ⟨e, hexecutions ▸ he, rfl⟩
  running _ hr := .inl (hrunning hr)
  trace := ⟨obs, htrace, hobs⟩

theorem Stepped.refl (s : State store) (event : Event) : Stepped s event s :=
  .of_eq rfl (List.Subset.refl _) (List.append_nil _).symm (List.forall_mem_nil _)

theorem executions_update {i owner : Nat} {e old new : Execution}
    (hold : s.executions[i]? = some old) (hrun : new.checkpoint.runId = old.checkpoint.runId)
    (he : s.executions[owner]? = some e) :
    ∃ e', (s.update i new).executions[owner]? = some e' ∧
      e'.checkpoint.runId = e.checkpoint.runId := by
  rw [State.update, List.getElem?_set]
  split_ifs with hi hlen
  · subst hi
    obtain rfl := Option.some.inj (hold.symm.trans he)
    exact ⟨new, rfl, hrun⟩
  · exact absurd (List.getElem?_eq_some_iff.mp hold).1 hlen
  · exact ⟨e, he, rfl⟩

theorem stepped_openRun (s : State store) (env : Value) :
    Stepped s (.openRun env) (s.openRun env) := by
  rw [State.openRun]
  split
  · exact .refl s _
  · split
    · exact .refl s _
    · refine ⟨fun {owner e} he => ⟨e, ?_, rfl⟩, fun _ hr => .inl hr, [],
        (List.append_nil _).symm, List.forall_mem_nil _⟩
      rw [List.getElem?_append_left (List.getElem?_eq_some_iff.mp he).1]
      exact he

theorem stepped_request (s : State store) (owner : Nat) (key : Option String) :
    Stepped s (.request owner key) (s.request owner key) := by
  rw [State.request]
  cases he : s.executions[owner]? with
  | none => exact .refl s _
  | some e =>
      obtain ⟨seq, hseq⟩ := e.checkpoint.stepKey_eq key
      simp only [hseq]
      cases hget : e.checkpoint.steps.get? (e.checkpoint.stepKey key).1 with
      | some bytes =>
          exact ⟨executions_update he rfl, fun _ hr => .inl hr, _, rfl,
            List.forall_mem_singleton.mpr (.replays he hget)⟩
      | none =>
          refine ⟨executions_update he rfl, fun r hr => ?_, _, rfl,
            List.forall_mem_singleton.mpr (.starts he hget)⟩
          rcases List.mem_append.mp hr with hr | hr
          · exact .inl hr
          · rw [List.mem_singleton.mp hr]
            exact .inr ⟨e, he, List.mem_append_right _ (List.mem_singleton_self _)⟩

theorem stepped_finish (s : State store) (i : Nat) (result : StepResult) :
    Stepped s (.finish i result) (s.finish i result) := by
  rw [State.finish]
  cases hrunning : s.running[i]? with
  | none => exact .refl s _
  | some running =>
      obtain ⟨owner, key⟩ := running
      cases he : s.executions[owner]? with
      | none =>
          simp only [he]
          exact .refl s _
      | some e =>
          have hemits : Emits s (.finish i result)
              (.recorded owner e.checkpoint.runId key result.bytes) :=
            .records (List.mem_of_getElem? hrunning) he
          simp only [he, Checkpoint.record_result]
          split <;>
            exact ⟨executions_update he rfl, fun _ hr => .inl (List.mem_of_mem_eraseIdx hr), _,
              rfl, List.forall_mem_singleton.mpr hemits⟩

theorem stepped_land (s : State store) (i : Nat) : Stepped s (.land i) (s.land i) := by
  rw [State.land]
  cases hsaving : s.saving[i]? with
  | none => exact .refl s _
  | some save =>
      have hmem := List.mem_of_getElem? hsaving
      exact .of_eq rfl (List.Subset.refl _) rfl (List.forall_mem_cons.mpr
        ⟨.saves hmem, List.forall_mem_singleton.mpr (.returns hmem)⟩)

theorem stepped (s : State store) (event : Event) : Stepped s event (s.step event) := by
  cases event with
  | openRun env => exact stepped_openRun s env
  | request owner key => exact stepped_request s owner key
  | finish i result => exact stepped_finish s i result
  | fail i =>
      exact .of_eq rfl (List.eraseIdx_subset ..) (List.append_nil _).symm (List.forall_mem_nil _)
  | land i => exact stepped_land s i

/-! ### What was started and recorded -/

/-- A function that is running was started by the execution that runs it. -/
def Started (s : State store) : Prop :=
  ∀ r ∈ s.running, ∃ e, s.executions[r.1]? = some e ∧
    .started r.1 e.checkpoint.runId r.2 ∈ s.trace

/-- What a step returns was recorded. -/
def ReturnsRecorded (s : State store) : Prop :=
  ∀ owner runId key bytes, .returned owner runId key bytes ∈ s.trace →
    ∃ owner', .recorded owner' runId key bytes ∈ s.trace

theorem Started.step (h : Started s) (event : Event) : Started (s.step event) := by
  intro r hr
  have hstep := stepped s event
  obtain ⟨obs, htrace, -⟩ := hstep.trace
  have hstarted : ∃ e, s.executions[r.1]? = some e ∧
      .started r.1 e.checkpoint.runId r.2 ∈ (s.step event).trace := by
    rcases hstep.running r hr with hr | hstarted
    · obtain ⟨e, he, hmem⟩ := h r hr
      exact ⟨e, he, htrace ▸ List.mem_append_left obs hmem⟩
    · exact hstarted
  obtain ⟨e, he, hmem⟩ := hstarted
  obtain ⟨e', he', hrun⟩ := hstep.executions he
  exact ⟨e', he', hrun ▸ hmem⟩

theorem ReturnsRecorded.step (h : Inv s) (hreturns : ReturnsRecorded s) (event : Event) :
    ReturnsRecorded (s.step event) := by
  obtain ⟨obs, htrace, hobs⟩ := (stepped s event).trace
  intro owner runId key bytes hmem
  rw [htrace] at hmem ⊢
  have hrecorded : ∃ owner', .recorded owner' runId key bytes ∈ s.trace := by
    rcases List.mem_append.mp hmem with hmem | hmem
    · exact hreturns owner runId key bytes hmem
    · cases hobs _ hmem with
      | replays he hget => exact (h.executions _ (List.mem_of_getElem? he)).recorded _ _ hget
      | returns hsave => exact ⟨_, (h.saving _ hsave).own⟩
  obtain ⟨owner', hrecorded⟩ := hrecorded
  exact ⟨owner', List.mem_append_left _ hrecorded⟩

/-- What is observed of a step is of the event that requests it, or of a step that has been observed
before. -/
theorem emits_cases (h : Inv s) (hstarted : Started s) {event : Event} {o : Obs}
    (hemits : Emits s event o) :
    (∃ key e, event = .request o.owner key ∧ s.executions[o.owner]? = some e ∧
      o.step = (e.checkpoint.runId, (e.checkpoint.stepKey key).1)) ∨
    ∃ obs ∈ s.trace, obs.owner = o.owner ∧ obs.step = o.step := by
  cases hemits with
  | replays he hget => exact .inl ⟨_, _, rfl, he, rfl⟩
  | starts he hget => exact .inl ⟨_, _, rfl, he, rfl⟩
  | records hrunning he =>
      obtain ⟨e', he', hmem⟩ := hstarted _ hrunning
      obtain rfl := Option.some.inj (he'.symm.trans he)
      exact .inr ⟨_, hmem, rfl, rfl⟩
  | saves hsave => exact .inr ⟨_, (h.saving _ hsave).own, rfl, rfl⟩
  | returns hsave => exact .inr ⟨_, (h.saving _ hsave).own, rfl, rfl⟩

/-! ### Separate invocations -/

section Invocations

-- Executions are numbered as they open, and each is one of some invocation.
variable {ι : Type} (invocation : Nat → ι)

/-- What a step returns was recorded by the same invocation, and by no other one. -/
def ReturnsOwn (s : State store) : Prop :=
  ∀ owner runId key bytes, .returned owner runId key bytes ∈ s.trace →
    (∃ owner', invocation owner' = invocation owner ∧
      .recorded owner' runId key bytes ∈ s.trace) ∧
    ∀ owner', .recorded owner' runId key bytes ∈ s.trace → invocation owner' = invocation owner

/-- No other invocation has requested the step. -/
def KeysApart (s : State store) : Event → Prop
  | .request owner key =>
      ∀ e ∈ s.executions[owner]?, ∀ obs ∈ s.trace,
        obs.step = (e.checkpoint.runId, (e.checkpoint.stepKey key).1) →
          invocation obs.owner = invocation owner
  | _ => True

instance [DecidableEq ι] (s : State store) :
    (event : Event) → Decidable (KeysApart invocation s event)
  | .request owner key =>
      inferInstanceAs (Decidable (∀ e ∈ s.executions[owner]?, ∀ obs ∈ s.trace,
        obs.step = (e.checkpoint.runId, (e.checkpoint.stepKey key).1) →
          invocation obs.owner = invocation owner))
  | .openRun _ | .finish _ _ | .fail _ | .land _ => .isTrue trivial

/-- No step is one of two invocations. -/
def StepsApart (s : State store) : Prop :=
  ∀ obs ∈ s.trace, ∀ obs' ∈ s.trace, obs.step = obs'.step →
    invocation obs.owner = invocation obs'.owner

variable {invocation}

theorem ReturnsRecorded.returnsOwn (h : ReturnsRecorded s) (hapart : StepsApart invocation s) :
    ReturnsOwn invocation s := by
  intro owner runId key bytes hmem
  have hsame (owner' : Nat) (hrecorded : .recorded owner' runId key bytes ∈ s.trace) :
      invocation owner' = invocation owner :=
    hapart (.recorded owner' runId key bytes) hrecorded _ hmem rfl
  obtain ⟨owner', hrecorded⟩ := h owner runId key bytes hmem
  exact ⟨⟨owner', hsame owner' hrecorded, hrecorded⟩, hsame⟩

/-- What an event adds of a step is of the invocation that the step has been one of. -/
theorem StepsApart.emits (hapart : StepsApart invocation s) (h : Inv s) (hstarted : Started s)
    {event : Event} (hok : KeysApart invocation s event) {o : Obs} (hemits : Emits s event o)
    {obs : Obs} (hobs : obs ∈ s.trace) (hstep : obs.step = o.step) :
    invocation obs.owner = invocation o.owner := by
  rcases emits_cases h hstarted hemits with ⟨key, e, rfl, he, heq⟩ | ⟨obs', hobs', howner, heq⟩
  · exact hok e he obs hobs (hstep.trans heq)
  · rw [← howner]
    exact hapart obs hobs obs' hobs' (hstep.trans heq.symm)

theorem StepsApart.step (hapart : StepsApart invocation s) (h : Inv s) (hstarted : Started s)
    {event : Event} (hok : KeysApart invocation s event) :
    StepsApart invocation (s.step event) := by
  obtain ⟨added, htrace, hadded⟩ := (stepped s event).trace
  intro obs hobs obs' hobs' hstep
  rw [htrace] at hobs hobs'
  rcases List.mem_append.mp hobs with hobs | hobs
  · rcases List.mem_append.mp hobs' with hobs' | hobs'
    · exact hapart obs hobs obs' hobs' hstep
    · exact hapart.emits h hstarted hok (hadded _ hobs') hobs hstep
  · rcases List.mem_append.mp hobs' with hobs' | hobs'
    · exact (hapart.emits h hstarted hok (hadded _ hobs) hobs' hstep.symm).symm
    · -- both are of one event
      rcases emits_cases h hstarted (hadded _ hobs) with
        ⟨_, _, hevent, -⟩ | ⟨old, hold, howner, heq⟩
      · rcases emits_cases h hstarted (hadded _ hobs') with
          ⟨_, _, hevent', -⟩ | ⟨old, hold, howner, heq⟩
        · obtain ⟨howner, -⟩ := Event.request.inj (hevent.symm.trans hevent')
          rw [howner]
        · rw [← howner]
          exact (hapart.emits h hstarted hok (hadded _ hobs) hold (heq.trans hstep.symm)).symm
      · rw [← howner]
        exact hapart.emits h hstarted hok (hadded _ hobs') hold (heq.trans hstep)

end Invocations

/-- **Separate invocations.** Where distinct invocations request different steps of a run, and every
save replaces what its execution knows, no step returns a value that another invocation has recorded
and nothing that was saved is removed. -/
theorem durable_runs_are_separate (store : AtomicStore Bytes Bytes) {ι : Type}
    (invocation : Nat → ι) {events : List Event}
    (hok : Run.EachStep State.step
      (fun s event => s.Undisturbed event ∧ KeysApart invocation s event)
      (State.init : State store) events) :
    ∀ s ∈ Run.states State.step (State.init : State store) events,
      ReturnsOwn invocation s ∧ s.SavesStay := by
  intro s hs
  have hinv : Inv s ∧ Started s ∧ ReturnsRecorded s ∧ StepsApart invocation s := by
    refine @Run.states_invariant _ _ _ _ _ _
      (fun s => Inv s ∧ Started s ∧ ReturnsRecorded s ∧ StepsApart invocation s) ?_ ?_ hok s hs
    · rintro s event ⟨h, hstarted, hreturns, hapart⟩ ⟨hundisturbed, hkeys⟩
      exact ⟨h.step hundisturbed, hstarted.step event, hreturns.step h event,
        hapart.step h hstarted hkeys⟩
    · exact ⟨.init, nofun, nofun, nofun⟩
  obtain ⟨h, -, hreturns, hapart⟩ := hinv
  exact ⟨hreturns.returnsOwn hapart, h.saves⟩

/-! ### No step again -/

/-- After a step was saved its function does not start. -/
def NotRestarted (earlier later : Obs) : Prop :=
  ∀ owner runId key bytes, earlier = .saved owner runId key bytes →
    ∀ owner', later ≠ .started owner' runId key

/-- An execution starts a step only if what is stored is a blob that it knows. -/
def StartsOnKnown (s : State store) : Event → Prop
  | .request owner key =>
      ∀ e ∈ s.executions[owner]?, e.checkpoint.steps.get? (e.checkpoint.stepKey key).1 = none →
        store.load s.stored e.checkpoint.runId ∈ e.known
  | _ => True

instance (s : State store) : (event : Event) → Decidable (StartsOnKnown s event)
  | .request owner key =>
      inferInstanceAs (Decidable (∀ e ∈ s.executions[owner]?,
        e.checkpoint.steps.get? (e.checkpoint.stepKey key).1 = none →
          store.load s.stored e.checkpoint.runId ∈ e.known))
  | .openRun _ | .finish _ _ | .fail _ | .land _ => .isTrue trivial

theorem not_saved_of_starts (h : Inv s) {event : Event} (hok : StartsOnKnown s event)
    {owner : Nat} {runId : Bytes} {key : String}
    (hstarts : Emits s event (.started owner runId key)) (owner' : Nat) (bytes : Bytes) :
    .saved owner' runId key bytes ∉ s.trace := by
  intro hmem
  cases hstarts with
  | starts he hget =>
      obtain ⟨d, hd, hwithin⟩ := (h.executions _ (List.mem_of_getElem? he)).known _ (hok _ he hget)
      have hfound := h.saves _ _ _ _ hmem
      rw [State.found_eq hd] at hfound
      rw [hwithin _ _ hfound] at hget
      cases hget

theorem notRestarted_step (h : Inv s) (honce : s.trace.Pairwise NotRestarted) {event : Event}
    (hok : StartsOnKnown s event) : (s.step event).trace.Pairwise NotRestarted := by
  obtain ⟨obs, htrace, hobs⟩ := (stepped s event).trace
  rw [htrace]
  apply List.pairwise_append.mpr
  refine ⟨honce, ?_, ?_⟩
  · apply List.pairwise_of_forall_mem_list
    rintro earlier hearlier later hlater owner runId key bytes rfl owner' rfl
    cases hobs _ hearlier
    cases hobs _ hlater
  · rintro earlier hearlier later hlater owner runId key bytes rfl owner' rfl
    exact not_saved_of_starts h hok (hobs _ hlater) owner bytes hearlier

/-- **No saved step runs again.** Where every execution starts and saves its steps only on what it
knows, a step that was saved stays in the stored checkpoint and is not started again. -/
theorem saved_steps_stay (store : AtomicStore Bytes Bytes) {events : List Event}
    (hok : Run.EachStep State.step (fun s event => s.Undisturbed event ∧ StartsOnKnown s event)
      (State.init : State store) events) :
    ∀ s ∈ Run.states State.step (State.init : State store) events,
      s.SavesStay ∧ s.trace.Pairwise NotRestarted := by
  intro s hs
  have hinv : Inv s ∧ s.trace.Pairwise NotRestarted := by
    refine @Run.states_invariant _ _ _ _ _ _ (fun s => Inv s ∧ s.trace.Pairwise NotRestarted)
      ?_ ?_ hok s hs
    · rintro s event ⟨h, honce⟩ ⟨hundisturbed, hstarts⟩
      exact ⟨h.step hundisturbed, notRestarted_step h honce hstarts⟩
    · exact ⟨.init, .nil⟩
  exact ⟨hinv.1.saves, hinv.2⟩

/-! ### Nested and concurrent executions -/

def DictStore : AtomicStore Bytes Bytes := .ofHashMap Bytes Bytes

/-- A step that is requested, returns and is saved before anything else happens. -/
def wholeStep (owner : Nat) (key : Option String) (result : StepResult) : List Event :=
  [.request owner key, .finish 0 result, .land 0]

def sampleRun (events : List Event) : State DictStore := Run.exec State.step .init events

/-- An invocation that is executed twice, its first step once, and then another invocation, which
keys its step itself. -/
def separateEvents : List Event :=
  .openRun Tracing.tracedParent :: wholeStep 0 none .five ++
    .openRun Tracing.tracedParent :: .request 1 none :: wholeStep 1 none .six ++
    .openRun Tracing.tracedParent :: wholeStep 2 (some "report") .six

theorem durable_runs_are_separate_keyed : ReturnsOwn (· / 2) (sampleRun separateEvents) ∧
    (sampleRun separateEvents).SavesStay :=
  durable_runs_are_separate DictStore (· / 2) (by decide +kernel) _ Run.exec_mem_states

/-- Two executions of one workflow, the second of which opens the run after the first has saved. -/
def resumedEvents : List Event :=
  .openRun Tracing.tracedParent :: wholeStep 0 none .five ++
    .openRun Tracing.tracedParent :: .request 1 none :: wholeStep 1 none .six

theorem saved_steps_stay_resumed : (sampleRun resumedEvents).SavesStay ∧
    (sampleRun resumedEvents).trace.Pairwise NotRestarted :=
  saved_steps_stay DictStore (by decide +kernel) _ Run.exec_mem_states

/-- The second step of an invocation calls another durable handler, with the context derived from
its own. The other one has two steps. -/
def nestedEvents (context : Value) : List Event :=
  .openRun Tracing.tracedParent :: wholeStep 0 none .five ++ .request 0 none ::
    .openRun context :: [.request 1 none, .request 1 none, .finish 1 .six, .land 0] ++
    [.finish 0 .five, .land 0]

theorem nested_runs_leak : ∃ context, Tracing.sampleChild Tracing.tracedParent = .ok context ∧
    ¬ ReturnsOwn id (sampleRun (nestedEvents context)) ∧
    ¬ (sampleRun (nestedEvents context)).SavesStay := by
  refine ⟨_, rfl, ?_, ?_⟩
  · intro h
    -- the other invocation is given the value of the first one's step
    have hsame : (0 : Nat) = 1 := (h 1 [4] "#0" [5] (by decide +kernel)).2 0 (by decide +kernel)
    exact absurd hsame Nat.zero_ne_one
  · intro h
    have hsaved := h 1 [4] "#1" [6] (by decide +kernel)
    revert hsaved
    decide +kernel

/-- An execution is still running when another one opens the run. It has two steps; the other one
runs the first of them again and saves over both. -/
def concurrentEvents : List Event :=
  [.openRun Tracing.tracedParent, .openRun Tracing.tracedParent] ++
    wholeStep 0 none .five ++ wholeStep 0 none .five ++
    wholeStep 1 none .six

theorem concurrent_executions_collide : ¬ (sampleRun concurrentEvents).SavesStay ∧
    ¬ (sampleRun concurrentEvents).trace.Pairwise NotRestarted := by
  constructor
  · intro h
    have hsaved := h 0 [4] "#1" [5] (by decide +kernel)
    revert hsaved
    decide +kernel
  · have htrace : (sampleRun concurrentEvents).trace.take 9 =
        [.started 0 [4] "#0", .recorded 0 [4] "#0" [5], .saved 0 [4] "#0" [5],
          .returned 0 [4] "#0" [5], .started 0 [4] "#1", .recorded 0 [4] "#1" [5],
          .saved 0 [4] "#1" [5], .returned 0 [4] "#1" [5], .started 1 [4] "#0"] := by
      decide +kernel
    intro h
    have honce := h.sublist (List.take_sublist 9 _)
    rw [htrace] at honce
    have hpair := List.pairwise_iff_getElem.mp honce 2 8 (by decide) (by decide) (by decide)
    exact hpair 0 [4] "#0" [5] rfl 1 rfl

end Thicket.Py.Durable
