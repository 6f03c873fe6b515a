import Thicket.Lib.Memo
import Thicket.Py.Checkpoint

/-!
# Resuming in the other implementation

A workflow of steps, keyed by position or with a key of their own, is recorded up to some point by
one implementation and resumed from the start by the other. Over the core it takes the next key,
looks it up and records the result if there is none; the SDK has `Checkpoint.step`.

The core numbers a positional step by how many steps are recorded, the SDK by how many positional
steps the run has had. The two numbers are the same at the first run of a workflow whose explicit
keys repeat earlier ones. Once anything is recorded, the core's are too large from the start.
-/

namespace Thicket.Py.Portable

open Cbor (Bytes)
open Memo (Outcome Resumes call table outcomes)
open Result Serde

/-- A step: its explicit key, and what its function returns where it is recorded and where the run
is resumed. -/
structure WorkStep where
  key : Option String
  result : StepResult
  again : StepResult

/-! ### The two implementations -/

/-- One step over the core. -/
def drive (checkpoint : Thicket.Checkpoint) (key : Option String) (value : Bytes) :
    Thicket.Checkpoint × Outcome String Bytes :=
  let key := key.getD checkpoint.nextKey
  match checkpoint.replay key with
  | some value => (checkpoint, { key, ran := false, value })
  | none => (checkpoint.record key value, { key, ran := true, value })

def driveAll (checkpoint : Thicket.Checkpoint) : List (Option String × StepResult) →
    Thicket.Checkpoint × List (Outcome String Bytes)
  | [] => (checkpoint, [])
  | (key, result) :: steps =>
      let (checkpoint, outcome) := drive checkpoint key result.bytes
      let (checkpoint, outcomes) := driveAll checkpoint steps
      (checkpoint, outcome :: outcomes)

/-- One `Checkpoint.step` of the SDK. -/
def perform (checkpoint : Checkpoint) (key : Option String) (value : Value) :
    Except Exc (Checkpoint × Outcome String Value) :=
  let (key, checkpoint) := checkpoint.stepKey key
  match checkpoint.replay key with
  | some value => do return (checkpoint, { key, ran := false, value := ← value })
  | none => do return (← checkpoint.record key value, { key, ran := true, value })

def performAll (checkpoint : Checkpoint) : List (Option String × StepResult) →
    Except Exc (Checkpoint × List (Outcome String Value))
  | [] => .ok (checkpoint, [])
  | (key, result) :: steps => do
      let (checkpoint, outcome) ← perform checkpoint key result.value
      let (checkpoint, outcomes) ← performAll checkpoint steps
      return (checkpoint, outcome :: outcomes)

def fresh (runId : Bytes) : Checkpoint := { runId, steps := .empty, seq := 0 }

section Split

variable (runId : Bytes) (steps : List WorkStep) (r : Nat)

def firstRun : List (Option String × StepResult) := steps.map fun s => (s.key, s.result)

def secondRun : List (Option String × StepResult) := steps.map fun s => (s.key, s.again)

/-- What the core has encoded after the first `r` steps. -/
def coreBlob : Except Error Bytes :=
  (driveAll (.new runId) (firstRun (steps.take r))).1.toCbor

/-- What the SDK has encoded after the first `r` steps. -/
def sdkBlob : Except Exc Bytes := do
  (← performAll (fresh runId) (firstRun (steps.take r))).1.blob

/-- What the core recorded, the SDK resumes. -/
def ResumesInSdk (blob : Bytes) : Prop :=
  ∃ checkpoint resumed,
    (Checkpoint.opened (some blob) runId >>= (performAll · (secondRun steps))) =
      .ok (checkpoint, resumed) ∧
    Resumes (fun bytes value => valueOf bytes = .ok value) r
      (driveAll (.new runId) (firstRun steps)).2 resumed

/-- What the SDK recorded, the core resumes. -/
def ResumesInCore (blob : Bytes) : Prop :=
  ∃ checkpoint full last,
    Thicket.Checkpoint.fromCbor blob = .ok checkpoint ∧
    performAll (fresh runId) (firstRun steps) = .ok (last, full) ∧
    Resumes (fun value bytes => valueBytes value = .ok bytes) r full
      (driveAll checkpoint (secondRun steps)).2

end Split

/-! ### The keys of a workflow -/

/-- The keys that the SDK gives out; `n` steps were positional before. -/
def sdkKeys (n : Nat) : List (Option String) → List String
  | [] => []
  | none :: keys => positional n :: sdkKeys (n + 1) keys
  | some key :: keys => key :: sdkKeys n keys

/-- The keys that are given out over the core; `seen` are recorded. -/
def coreKeys (seen : List String) : List (Option String) → List String
  | [] => []
  | key :: keys =>
      let key := key.getD (positional seen.length)
      key :: coreKeys (if key ∈ seen then seen else seen ++ [key]) keys

/-- An explicit key before a positional step is one that was seen before. -/
def RepeatsAfter (seen : List String) (n : Nat) (keys : List (Option String)) : Prop :=
  ∀ (i j : Nat) (key : String), i < j → keys[i]? = some (some key) → keys[j]? = some none →
    key ∈ seen ++ (sdkKeys n keys).take i

/-- Every explicit key that is used before a positional step is the key of an earlier step. -/
def Repeats (keys : List (Option String)) : Prop := RepeatsAfter [] 0 keys

variable {seen : List String} {n : Nat} {keys : List (Option String)}

/-- Too many steps are recorded for the position. -/
theorem coreKeys_ne (hlen : n < seen.length) (hpos : none ∈ keys) :
    coreKeys seen keys ≠ sdkKeys n keys := by
  induction keys generalizing seen with
  | nil => cases hpos
  | cons key keys ih =>
      cases key with
      | none =>
          intro heq
          rw [coreKeys, sdkKeys] at heq
          have hkey := positional_injective (List.cons.inj heq).1
          omega
      | some key =>
          intro heq
          rw [coreKeys, sdkKeys] at heq
          refine ih ?_ ?_ (List.cons.inj heq).2
          · split_ifs
            · exact hlen
            · rw [List.length_append]
              omega
          · rcases List.mem_cons.mp hpos with hkey | hpos
            · cases hkey
            · exact hpos

theorem coreKeys_explicit (hkeys : none ∉ keys) : coreKeys seen keys = sdkKeys n keys := by
  induction keys generalizing seen with
  | nil => rfl
  | cons key keys ih =>
      cases key with
      | none => exact absurd List.mem_cons_self hkeys
      | some key =>
          rw [coreKeys, sdkKeys]
          exact congrArg (key :: ·) (ih fun hmem => hkeys (List.mem_cons_of_mem _ hmem))

theorem positional_not_mem : positional n ∉ (List.range n).map positional := by
  intro hmem
  obtain ⟨m, hm, heq⟩ := List.mem_map.mp hmem
  obtain rfl := positional_injective heq
  exact absurd (List.mem_range.mp hm) (lt_irrefl m)

theorem repeatsAfter_none : RepeatsAfter seen n (none :: keys) ↔
    RepeatsAfter (seen ++ [positional n]) (n + 1) keys := by
  constructor
  · intro h i j key hij hi hj
    have hmem := h (i + 1) (j + 1) key (by omega) hi hj
    rwa [sdkKeys, List.take_succ_cons, List.append_cons] at hmem
  · intro h i j key hij hi hj
    cases i with
    | zero => cases hi
    | succ i =>
        cases j with
        | zero => omega
        | succ j =>
            rw [sdkKeys, List.take_succ_cons, List.append_cons]
            exact h i j key (by omega) hi hj

theorem repeatsAfter_seen {key : String} (hkey : key ∈ seen) :
    RepeatsAfter seen n (some key :: keys) ↔ RepeatsAfter seen n keys := by
  constructor
  · intro h i j key' hij hi hj
    have hmem := h (i + 1) (j + 1) key' (by omega) hi hj
    rw [sdkKeys, List.take_succ_cons] at hmem
    rcases List.mem_append.mp hmem with hmem | hmem
    · exact List.mem_append_left _ hmem
    · rcases List.mem_cons.mp hmem with rfl | hmem
      · exact List.mem_append_left _ hkey
      · exact List.mem_append_right _ hmem
  · intro h i j key' hij hi hj
    cases i with
    | zero =>
        obtain rfl := Option.some.inj (Option.some.inj hi)
        exact List.mem_append_left _ hkey
    | succ i =>
        cases j with
        | zero => omega
        | succ j =>
            rw [sdkKeys, List.take_succ_cons]
            rcases List.mem_append.mp (h i j key' (by omega) hi hj) with hmem | hmem
            · exact List.mem_append_left _ hmem
            · exact List.mem_append_right _ (List.mem_cons_of_mem _ hmem)

/-- As long as just the positional keys were given out, the numbers agree exactly if no explicit key
that is new comes before a positional step. -/
theorem coreKeys_eq_iff (n : Nat) (keys : List (Option String)) :
    coreKeys ((List.range n).map positional) keys = sdkKeys n keys ↔
      RepeatsAfter ((List.range n).map positional) n keys := by
  induction keys generalizing n with
  | nil =>
      refine iff_of_true rfl ?_
      intro i j key _ hi
      cases hi
  | cons key keys ih =>
      cases key with
      | none =>
          have hseen : (List.range n).map positional ++ [positional n] =
              (List.range (n + 1)).map positional := by
            rw [List.range_succ, List.map_append]
            rfl
          have hkey : (none : Option String).getD
              (positional ((List.range n).map positional).length) = positional n := by
            rw [List.length_map, List.length_range]
            rfl
          rw [coreKeys, hkey, sdkKeys, if_neg positional_not_mem, hseen, repeatsAfter_none, hseen,
            ← ih, List.cons.injEq]
          exact and_iff_right rfl
      | some key =>
          rw [coreKeys, Option.getD_some, sdkKeys, List.cons.injEq, eq_self_iff_true, true_and]
          by_cases hkey : key ∈ (List.range n).map positional
          · rw [if_pos hkey, repeatsAfter_seen hkey, ih]
          · rw [if_neg hkey]
            by_cases hpos : none ∈ keys
            · -- From here on the core is ahead of every position.
              refine iff_of_false (coreKeys_ne ?_ hpos) ?_
              · rw [List.length_append, List.length_map, List.length_range]
                exact Nat.lt_succ_self n
              · intro h
                obtain ⟨j, hj⟩ := List.mem_iff_getElem?.mp hpos
                have hmem := h 0 (j + 1) key (by omega) rfl hj
                rw [List.take_zero, List.append_nil] at hmem
                exact hkey hmem
            · refine iff_of_true (coreKeys_explicit hpos) ?_
              intro i j key' hij _ hj
              cases j with
              | zero => omega
              | succ j =>
                  rw [List.getElem?_cons_succ] at hj
                  exact absurd (List.mem_of_getElem? hj) hpos

/-! ### Both are memoized calls -/

section Calls

variable {runId : Bytes} {d : OrderedDict String StepResult}

/-- The core's checkpoint of these results. -/
def coreTable (runId : Bytes) (d : OrderedDict String StepResult) : Thicket.Checkpoint :=
  coreCheckpoint runId (d.mapValues StepResult.bytes).entries

/-- The SDK's. -/
def sdkTable (runId : Bytes) (d : OrderedDict String StepResult) (seq : Nat) : Checkpoint :=
  { runId, steps := d.mapValues StepResult.bytes, seq }

theorem coreTable_replay (key : String) :
    (coreTable runId d).replay key = (d.get? key).map StepResult.bytes := by
  rw [← OrderedDict.get?_mapValues, Thicket.Checkpoint.replay, coreTable, coreCheckpoint,
    OrderedDict.get?]
  induction (d.mapValues StepResult.bytes).entries with
  | nil => rfl
  | cons e entries ih =>
      rw [List.map_cons, List.find?_cons, List.lookup_cons, BEq.comm]
      cases hkey : key == e.1
      · exact ih
      · rfl

theorem coreTable_nextKey : (coreTable runId d).nextKey = positional d.keys.length := by
  rw [Thicket.Checkpoint.nextKey, coreTable, coreCheckpoint, List.length_map,
    OrderedDict.mapValues, List.length_map, OrderedDict.keys, List.length_map]

theorem drive_eq (key : Option String) (result : StepResult) :
    drive (coreTable runId d) key result.bytes =
      (coreTable runId (call d (key.getD (positional d.keys.length)) result).1,
        (call d (key.getD (positional d.keys.length)) result).2.map StepResult.bytes) := by
  rw [drive, coreTable_nextKey]
  generalize key.getD (positional d.keys.length) = key
  simp only [coreTable_replay, call]
  cases hget : d.get? key with
  | some recorded => rfl
  | none =>
      have hrecord : (coreTable runId d).record key result.bytes =
          coreTable runId (d.put key result) := by
        rw [Thicket.Checkpoint.record, coreTable_replay, hget, Option.map_none, Option.isNone_none,
          if_pos rfl, coreTable, coreTable, OrderedDict.mapValues_put _ result hget, coreCheckpoint,
          coreCheckpoint, OrderedDict.entries_put_fresh, List.map_append]
        · rfl
        · rw [OrderedDict.get?_mapValues, hget]
          rfl
      simp only [Option.map_none, hrecord]
      rfl

theorem perform_eq (seq : Nat) (key : Option String) (result : StepResult) :
    perform (sdkTable runId d seq) key result.value =
      .ok (sdkTable runId (call d (key.getD (positional seq)) result).1
          (if key.isNone then seq + 1 else seq),
        (call d (key.getD (positional seq)) result).2.map StepResult.value) := by
  have hkey : (sdkTable runId d seq).stepKey key = (key.getD (positional seq),
      sdkTable runId d (if key.isNone then seq + 1 else seq)) := by
    cases key <;> rfl
  simp only [perform, hkey]
  generalize key.getD (positional seq) = key'
  have hreplay (seq : Nat) : (sdkTable runId d seq).replay key' =
      (d.get? key').map fun r => .ok r.value := by
    rw [Checkpoint.replay, sdkTable, OrderedDict.get?_mapValues, Option.map_map]
    congr 1
    funext r
    exact r.valueOf_bytes
  simp only [hreplay, call]
  cases hget : d.get? key' with
  | some recorded => rfl
  | none =>
      simp only [Option.map_none, Checkpoint.record_result, sdkTable,
        OrderedDict.mapValues_put _ result hget]
      rfl

/-- The keys that are given out, with the results. -/
def items (keys : List String) (steps : List (Option String × StepResult)) :
    List (String × StepResult) := keys.zip (steps.map Prod.snd)

theorem keys_call (d : OrderedDict String StepResult) (key : String) (result : StepResult) :
    (call d key result).1.keys = if key ∈ d.keys then d.keys else d.keys ++ [key] := by
  rw [call]
  cases hget : d.get? key with
  | some recorded =>
      have hmem : key ∈ d.keys := by
        by_contra hnot
        rw [OrderedDict.get?_eq_none.mpr hnot] at hget
        cases hget
      exact (if_pos hmem).symm
  | none =>
      rw [if_neg (OrderedDict.get?_eq_none.mp hget)]
      change (d.put key result).entries.map Prod.fst = _
      rw [OrderedDict.entries_put_fresh result hget, List.map_append]
      rfl

theorem driveAll_eq (steps : List (Option String × StepResult)) :
    driveAll (coreTable runId d) steps =
      (coreTable runId (table d (items (coreKeys d.keys (steps.map Prod.fst)) steps)),
        (outcomes d (items (coreKeys d.keys (steps.map Prod.fst)) steps)).map
          (.map StepResult.bytes)) := by
  induction steps generalizing d with
  | nil => rfl
  | cons step steps ih =>
      obtain ⟨key, result⟩ := step
      simp only [driveAll, drive_eq, ih, keys_call]
      rfl

theorem performAll_eq (seq : Nat) (steps : List (Option String × StepResult)) :
    ∃ seq', performAll (sdkTable runId d seq) steps =
      .ok (sdkTable runId (table d (items (sdkKeys seq (steps.map Prod.fst)) steps)) seq',
        (outcomes d (items (sdkKeys seq (steps.map Prod.fst)) steps)).map
          (.map StepResult.value)) := by
  induction steps generalizing d seq with
  | nil => exact ⟨seq, rfl⟩
  | cons step steps ih =>
      obtain ⟨key, result⟩ := step
      obtain ⟨seq', hrest⟩ := @ih (call d (key.getD (positional seq)) result).1
        (if key.isNone then seq + 1 else seq)
      refine ⟨seq', ?_⟩
      simp only [performAll, perform_eq, bind, Except.bind, hrest]
      cases key <;> rfl

end Calls

/-! ### A split run -/

theorem length_sdkKeys (n : Nat) (keys : List (Option String)) :
    (sdkKeys n keys).length = keys.length := by
  induction keys generalizing n with
  | nil => rfl
  | cons key keys ih => cases key <;> rw [sdkKeys, List.length_cons, List.length_cons, ih]

theorem length_coreKeys (seen : List String) (keys : List (Option String)) :
    (coreKeys seen keys).length = keys.length := by
  induction keys generalizing seen with
  | nil => rfl
  | cons key keys ih => rw [coreKeys, List.length_cons, List.length_cons, ih]

theorem sdkKeys_take (n : Nat) (keys : List (Option String)) (r : Nat) :
    sdkKeys n (keys.take r) = (sdkKeys n keys).take r := by
  induction keys generalizing n r with
  | nil => simp [sdkKeys]
  | cons key keys ih =>
      cases r with
      | zero => rfl
      | succ r => cases key <;> rw [List.take_succ_cons, sdkKeys, sdkKeys, ih, List.take_succ_cons]

theorem coreKeys_take (seen : List String) (keys : List (Option String)) (r : Nat) :
    coreKeys seen (keys.take r) = (coreKeys seen keys).take r := by
  induction keys generalizing seen r with
  | nil => simp [coreKeys]
  | cons key keys ih =>
      cases r with
      | zero => rfl
      | succ r => rw [List.take_succ_cons, coreKeys, coreKeys, ih, List.take_succ_cons]

theorem keys_items {ks : List String} {run : List (Option String × StepResult)}
    (h : ks.length = run.length) : (items ks run).map Prod.fst = ks := by
  rw [items, List.map_fst_zip]
  rw [List.length_map, h]

variable {runId : Bytes} {steps : List WorkStep} {r : Nat}

theorem firstRun_keys (steps : List WorkStep) :
    (firstRun steps).map Prod.fst = steps.map WorkStep.key := by
  rw [firstRun, List.map_map]
  rfl

theorem secondRun_keys (steps : List WorkStep) :
    (secondRun steps).map Prod.fst = steps.map WorkStep.key := by
  rw [secondRun, List.map_map]
  rfl

theorem items_take {ks : List String} (steps : List WorkStep) (r : Nat) :
    items (ks.take r) (firstRun (steps.take r)) = (items ks (firstRun steps)).take r := by
  rw [items, items, firstRun, firstRun, List.map_take, List.map_take]
  exact List.take_zipWith.symm

theorem length_coreKeys_map (seen : List String) (steps : List WorkStep) :
    (coreKeys seen (steps.map WorkStep.key)).length = steps.length := by
  rw [length_coreKeys, List.length_map]

theorem length_sdkKeys_map (n : Nat) (steps : List WorkStep) :
    (sdkKeys n (steps.map WorkStep.key)).length = steps.length := by
  rw [length_sdkKeys, List.length_map]

/-- The table that is encoded after the first `r` steps. -/
def recordedTable (ks : List String) (steps : List WorkStep) (r : Nat) :
    OrderedDict String StepResult := table .empty ((items ks (firstRun steps)).take r)

/-- Whoever records and whoever resumes, all depends on the keys being the same. -/
theorem resumes_iff_keys {ks ks' : List String} (hlen : ks.length = steps.length)
    (hlen' : ks'.length = steps.length) {α β : Type} (rel : α → β → Prop) {f : StepResult → α}
    {g : StepResult → β} (hrel : ∀ result, rel (f result) (g result)) :
    Resumes rel r ((outcomes .empty (items ks (firstRun steps))).map (.map f))
        ((outcomes (recordedTable ks steps r) (items ks' (secondRun steps))).map (.map g)) ↔
      ks' = ks := by
  have hfirst : (items ks (firstRun steps)).map Prod.fst = ks := by
    apply keys_items
    rw [firstRun, List.length_map, hlen]
  have hsecond : (items ks' (secondRun steps)).map Prod.fst = ks' := by
    apply keys_items
    rw [secondRun, List.length_map, hlen']
  constructor
  · intro h
    have hkeys := h.keys
    rw [List.map_map, List.map_map] at hkeys
    change (outcomes _ _).map Outcome.key = (outcomes _ _).map Outcome.key at hkeys
    rw [Memo.keys_outcomes, Memo.keys_outcomes, hfirst, hsecond] at hkeys
    exact hkeys
  · rintro rfl
    apply Resumes.map _ hrel
    apply Memo.resumes
    rw [hfirst, hsecond]

theorem resumesInSdk_iff {blob : Bytes} (hblob : coreBlob runId steps r = .ok blob) :
    ResumesInSdk runId steps r blob ↔ Repeats (steps.map WorkStep.key) := by
  have hnew : Thicket.Checkpoint.new runId = coreTable runId .empty := rfl
  rw [coreBlob, hnew, driveAll_eq, firstRun_keys, List.map_take] at hblob
  change (coreTable runId (table .empty (items (coreKeys [] _) _))).toCbor = _ at hblob
  rw [coreKeys_take, items_take, Thicket.Checkpoint.toCbor, okOr_eq_ok] at hblob
  have hopened : Checkpoint.opened (some blob) runId = .ok
      (sdkTable runId (recordedTable (coreKeys [] (steps.map WorkStep.key)) steps r) 0) :=
    Checkpoint.opened_of hblob runId
  obtain ⟨seq, hperform⟩ := @performAll_eq runId
    (recordedTable (coreKeys [] (steps.map WorkStep.key)) steps r) 0 (secondRun steps)
  have hkeys : coreKeys [] (steps.map WorkStep.key) = sdkKeys 0 (steps.map WorkStep.key) ↔
      Repeats (steps.map WorkStep.key) := coreKeys_eq_iff 0 _
  rw [secondRun_keys] at hperform
  have hresumes := @resumes_iff_keys steps r _ _ (length_coreKeys_map [] steps)
    (length_sdkKeys_map 0 steps) _ _ (fun bytes value => valueOf bytes = .ok value) _ _
    StepResult.valueOf_bytes
  rw [ResumesInSdk, hopened, hnew, driveAll_eq, firstRun_keys, ← hkeys, eq_comm, ← hresumes]
  constructor
  · rintro ⟨checkpoint, resumed, heq, h⟩
    obtain ⟨-, rfl⟩ := Prod.mk.inj (Except.ok.inj (heq.symm.trans hperform))
    exact h
  · intro h
    exact ⟨_, _, hperform, h⟩

/-- Something is recorded of a run that has begun. -/
theorem recordedTable_length_pos {ks : List String} (hlen : ks.length = steps.length) (hr : 0 < r)
    (hsteps : steps ≠ []) : 0 < (recordedTable ks steps r).keys.length := by
  cases steps with
  | nil => exact absurd rfl hsteps
  | cons step steps =>
      cases ks with
      | nil => cases hlen
      | cons k ks =>
          obtain ⟨r, rfl⟩ := Nat.exists_eq_succ_of_ne_zero hr.ne'
          apply List.length_pos_of_mem (a := k)
          by_contra hnot
          have hnone := OrderedDict.get?_eq_none.mpr hnot
          rw [recordedTable, Memo.get?_table_eq_none] at hnone
          exact hnone.2 List.mem_cons_self

theorem resumesInCore_iff {blob : Bytes} (hblob : sdkBlob runId steps r = .ok blob) :
    ResumesInCore runId steps r blob ↔ none ∉ steps.map WorkStep.key ∨
      r = 0 ∧ Repeats (steps.map WorkStep.key) := by
  have hfresh : fresh runId = sdkTable runId .empty 0 := rfl
  obtain ⟨seq, hfirst⟩ := @performAll_eq runId .empty 0 (firstRun (steps.take r))
  obtain ⟨seq', hfull⟩ := @performAll_eq runId .empty 0 (firstRun steps)
  rw [firstRun_keys, List.map_take, sdkKeys_take, items_take] at hfirst
  rw [firstRun_keys] at hfull
  have hwritten : intoWriter (coreTable runId
      (recordedTable (sdkKeys 0 (steps.map WorkStep.key)) steps r)) = some blob := by
    rw [sdkBlob, hfresh, hfirst] at hblob
    exact encodeCheckpoint_iff.mp hblob
  have hread : Thicket.Checkpoint.fromCbor blob = .ok (coreTable runId
      (recordedTable (sdkKeys 0 (steps.map WorkStep.key)) steps r)) := by
    rw [Thicket.Checkpoint.fromCbor, okOr_eq_ok]
    exact fromReader_intoWriter hwritten
  have hresumes := @resumes_iff_keys steps r _ _ (length_sdkKeys_map 0 steps)
    (length_coreKeys_map (recordedTable (sdkKeys 0 (steps.map WorkStep.key)) steps r).keys steps)
    _ _ (fun value bytes => valueBytes value = .ok bytes) _ _ StepResult.recorded
  have hkeys : ResumesInCore runId steps r blob ↔
      coreKeys (recordedTable (sdkKeys 0 (steps.map WorkStep.key)) steps r).keys
        (steps.map WorkStep.key) = sdkKeys 0 (steps.map WorkStep.key) := by
    rw [← hresumes, ResumesInCore]
    constructor
    · rintro ⟨checkpoint, full, _, hcheckpoint, hperform, h⟩
      obtain rfl := Except.ok.inj (hcheckpoint.symm.trans hread)
      rw [hfresh] at hperform
      obtain ⟨-, rfl⟩ := Prod.mk.inj (Except.ok.inj (hperform.symm.trans hfull))
      rw [driveAll_eq, secondRun_keys] at h
      exact h
    · intro h
      refine ⟨_, _, _, hread, hfull, ?_⟩
      rw [driveAll_eq, secondRun_keys]
      exact h
  rw [hkeys]
  by_cases hpos : none ∈ steps.map WorkStep.key
  · rw [or_iff_right (not_not_intro hpos)]
    rcases Nat.eq_zero_or_pos r with rfl | hr
    · rw [and_iff_right rfl]
      exact coreKeys_eq_iff 0 _
    · refine iff_of_false (coreKeys_ne ?_ hpos) fun h => hr.ne' h.1
      apply recordedTable_length_pos (length_sdkKeys_map 0 steps) hr
      rintro rfl
      cases hpos
  · exact iff_of_true (coreKeys_explicit hpos) (.inl hpos)

/-- **Resuming across implementations.** What the core recorded, the SDK resumes exactly if every
explicit key that is used before a positional step repeats an earlier one. What the SDK recorded,
the core resumes exactly if no step is positional, or if nothing was recorded and the same holds. -/
theorem resumes_across_iff (runId : Bytes) (steps : List WorkStep) (r : Nat)
    {fromCore fromSdk : Bytes} (hcore : coreBlob runId steps r = .ok fromCore)
    (hsdk : sdkBlob runId steps r = .ok fromSdk) :
    (ResumesInSdk runId steps r fromCore ↔ Repeats (steps.map WorkStep.key)) ∧
    (ResumesInCore runId steps r fromSdk ↔ none ∉ steps.map WorkStep.key ∨
      r = 0 ∧ Repeats (steps.map WorkStep.key)) :=
  ⟨resumesInSdk_iff hcore, resumesInCore_iff hsdk⟩

/-! ### Steps that do not resume -/

/-- A step that returns 5 where it is recorded and 6 where the run is resumed. -/
def sampleStep (key : Option String) : WorkStep :=
  { key, result := .five, again := .six }

def positionalSteps : List WorkStep := [sampleStep none, sampleStep none]

/-- An explicit key of its own before a positional step. -/
def mixedSteps : List WorkStep := [sampleStep (some "setup"), sampleStep none]

theorem repeats_positional : Repeats (positionalSteps.map WorkStep.key) := by
  intro i j key _ hi
  match i with
  | 0 => cases hi
  | 1 => cases hi

theorem resumes_across_sample : ∃ fromCore fromSdk,
    coreBlob [1] positionalSteps 1 = .ok fromCore ∧ sdkBlob [1] positionalSteps 1 = .ok fromSdk ∧
      ResumesInSdk [1] positionalSteps 1 fromCore ∧
      ¬ ResumesInCore [1] positionalSteps 1 fromSdk := by
  have hcoreOk : (coreBlob [1] positionalSteps 1).isOk = true := by decide +kernel
  have hsdkOk : (sdkBlob [1] positionalSteps 1).isOk = true := by decide +kernel
  have hcore := eq_ok_valueOr (d := []) hcoreOk
  have hsdk := eq_ok_valueOr (d := []) hsdkOk
  have hiff := resumes_across_iff [1] positionalSteps 1 hcore hsdk
  refine ⟨_, _, hcore, hsdk, hiff.1.mpr repeats_positional, ?_⟩
  rw [hiff.2]
  rintro (hpos | ⟨hr, -⟩)
  · exact hpos List.mem_cons_self
  · cases hr

/-- What the core gives for a run that the SDK has recorded to its end. -/
def resumedInCore (blob : Bytes) : Except Error (List (Outcome String Bytes)) := do
  return (driveAll (← Thicket.Checkpoint.fromCbor blob) (secondRun positionalSteps)).2

theorem positional_steps_run_again : ∃ fromSdk fromCore,
    sdkBlob [1] positionalSteps 2 = .ok fromSdk ∧ coreBlob [1] mixedSteps 2 = .ok fromCore ∧
      (resumedInCore fromSdk).toOption = some
        [{ key := "#2", ran := true, value := [6] }, { key := "#3", ran := true, value := [6] }] ∧
      ¬ ResumesInCore [1] positionalSteps 2 fromSdk ∧ ¬ ResumesInSdk [1] mixedSteps 2 fromCore := by
  have hsdkOk : (sdkBlob [1] positionalSteps 2).isOk = true := by decide +kernel
  have hcoreOk : (coreBlob [1] mixedSteps 2).isOk = true := by decide +kernel
  have hsdk := eq_ok_valueOr (d := []) hsdkOk
  have hcore := eq_ok_valueOr (d := []) hcoreOk
  refine ⟨_, _, hsdk, hcore, by decide +kernel, ?_, ?_⟩
  · rw [resumesInCore_iff hsdk]
    rintro (hpos | ⟨hr, -⟩)
    · exact hpos List.mem_cons_self
    · cases hr
  · rw [resumesInSdk_iff hcore]
    intro hrepeats
    exact List.not_mem_nil (hrepeats 0 1 "setup" Nat.zero_lt_one rfl rfl)

end Thicket.Py.Portable
