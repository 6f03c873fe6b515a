import Thicket.Py.StateFiber

/-!
# Where checkpoints are kept

`FileCheckpointStore` and `FiberCheckpointStore` of `thicket/checkpoint.py`. The first is a store
with atomic operations even if the process is killed in the middle of a save. The second keeps the
checkpoints at a state fiber, and finds what it saved there, whatever else the fiber is asked to do
and however often it is restarted.
-/

namespace Thicket.Py

open Cbor (Bytes)
open Restorable Refinement Result

/-! ### In a file -/

namespace FileCheckpointStore

/-- `self._fs.data.get(run_id)` -/
def loaded (data : Entries) (runId : Bytes) : Option Bytes :=
  match data.at? (.bytes runId) with
  | some (.bytes blob) => some blob
  | _ => none

/-- `self._fs.data[run_id] = blob` -/
def assigned (data : Entries) (runId blob : Bytes) : Entries :=
  valueOr (setItem data (.bytes runId) (.bytes blob)) data

variable {data : Entries} {runId blob : Bytes}

theorem setItem_assigned (data : Entries) (runId blob : Bytes) :
    setItem data (.bytes runId) (.bytes blob) = .ok (assigned data runId blob) := by
  obtain ⟨data', hset⟩ := exists_setItem data (k := .bytes runId) (.bytes blob) rfl
  rw [assigned, hset]
  rfl

theorem valid_assigned (h : FileStore.Valid data) (runId blob : Bytes) :
    FileStore.Valid (assigned data runId blob) :=
  Writable.setItem h (.bytes blob) (setItem_assigned data runId blob)

theorem loaded_assigned (h : FileStore.Valid data) (runId runId' blob : Bytes) :
    loaded (assigned data runId blob) runId' =
      if runId' = runId then some blob else loaded data runId' := by
  have hat := Entries.at?_setItem h.ofEntry.1 rfl (setItem_assigned data runId blob)
  rw [loaded, hat (.bytes runId')]
  by_cases hid : runId' = runId
  · rw [if_pos (congrArg _ hid), if_pos hid]
  · rw [if_neg fun hkey => hid (Key.bytes.inj hkey), if_neg hid]
    rfl

end FileCheckpointStore

open FileCheckpointStore in
/-- The store of a process, as its object holds it. -/
def FileCheckpointStore : AtomicStore Bytes Bytes where
  State := { data : Entries // FileStore.Valid data }
  empty := ⟨[], FileStore.valid_nil⟩
  load s runId := loaded s.1 runId
  save s runId blob := ⟨assigned s.1 runId blob, valid_assigned s.2 runId blob⟩
  load_empty _ := rfl
  load_save_self s runId blob := by
    rw [loaded_assigned s.2, if_pos rfl]
  load_save_of_ne s runId runId' blob h := by
    rw [loaded_assigned s.2, if_neg h]

namespace FileCheckpointStore

/-- The file is that of the store. -/
def Holds (files : Files UInt8) (s : FileCheckpointStore.State) : Prop :=
  StateFiber.program.read files.main = some s.1

/-- The steps of `self._fs.save()` after an assignment. -/
def saveSteps (s : FileCheckpointStore.State) : List (FileStep UInt8) :=
  StateFiber.program.saveSteps s.1

/-- **A save is atomic.** A process that is killed in a save leaves the file of the store as it was
before or as it is after it; and a save that is not cut off and can be encoded leaves the latter. -/
theorem holds_of_killed {files : Files UInt8} {s : FileCheckpointStore.State} (runId blob : Bytes)
    (h : Holds files s) :
    (∀ n, Holds (FileStep.runAll files ((saveSteps (FileCheckpointStore.save s runId blob)).take n))
        s ∨
      Holds (FileStep.runAll files ((saveSteps (FileCheckpointStore.save s runId blob)).take n))
        (FileCheckpointStore.save s runId blob)) ∧
    ((FileStore.dump (FileCheckpointStore.save s runId blob).1).isSome = true →
      Holds (FileStep.runAll files (saveSteps (FileCheckpointStore.save s runId blob)))
        (FileCheckpointStore.save s runId blob)) := by
  have hread {contents : Bytes}
      (hdump : FileStore.dump (FileCheckpointStore.save s runId blob).1 = some contents) :=
    read_dump StateFiber.refinement (FileCheckpointStore.save s runId blob).2 hdump
  constructor
  · intro n
    rw [saveSteps, Program.saveSteps]
    cases hdump : StateFiber.program.dump (FileCheckpointStore.save s runId blob).1 with
    | none =>
        left
        rw [Holds, FileStep.main_runAll]
        · exact h
        · intro step hstep
          rw [List.mem_singleton.mp (List.mem_of_mem_take hstep)]
          intro hreplace
          cases hreplace
    | some contents =>
        apply (FileStep.main_take_save files contents n).imp
        · intro hold
          rw [Holds, hold]
          exact h
        · intro hnew
          rw [Holds, hnew]
          exact hread hdump
  · intro hsome
    obtain ⟨contents, hdump⟩ := Option.isSome_iff_exists.mp hsome
    have hsteps : saveSteps (FileCheckpointStore.save s runId blob) = FileStep.save contents := by
      rw [saveSteps, Program.saveSteps]
      simp only [StateFiber.program, hdump]
    rw [hsteps, Holds, FileStep.runAll_save]
    exact hread hdump

/-- A store with one checkpoint, and the file that its save has left. -/
def oneSaved : FileCheckpointStore.State :=
  FileCheckpointStore.save FileCheckpointStore.empty [1] [2]

def oneSavedFiles : Files UInt8 := ⟨FileStore.dump oneSaved.1, none⟩

/-- The save of a second checkpoint. -/
theorem holds_of_killed_second :
    (∀ n, Holds (FileStep.runAll oneSavedFiles
        ((saveSteps (FileCheckpointStore.save oneSaved [3] [4])).take n)) oneSaved ∨
      Holds (FileStep.runAll oneSavedFiles
        ((saveSteps (FileCheckpointStore.save oneSaved [3] [4])).take n))
        (FileCheckpointStore.save oneSaved [3] [4])) ∧
    Holds (FileStep.runAll oneSavedFiles (saveSteps (FileCheckpointStore.save oneSaved [3] [4])))
      (FileCheckpointStore.save oneSaved [3] [4]) := by
  have hdump : (FileStore.dump oneSaved.1).isSome = true := by decide +kernel
  obtain ⟨contents, hcontents⟩ := Option.isSome_iff_exists.mp hdump
  have hholds : Holds oneSavedFiles oneSaved := by
    rw [Holds, oneSavedFiles, hcontents]
    exact read_dump StateFiber.refinement oneSaved.2 hcontents
  obtain ⟨hkilled, hsaved⟩ := holds_of_killed [3] [4] hholds
  exact ⟨hkilled, hsaved (by decide +kernel)⟩

end FileCheckpointStore

/-! ### At a state fiber -/

namespace FiberCheckpointStore

open StateFiber

/-- The body of `load`'s call. -/
def loadBody (runId : Bytes) : Except Exc Bytes :=
  encodeBody (.dict [(.str "key", .bytes runId)])

/-- The body of `save`'s call. -/
def saveBody (runId blob : Bytes) : Except Exc Bytes :=
  encodeBody (.dict [(.str "key", .bytes runId), (.str "value", .bytes blob)])

/-- `(await self._client.call(...)).get("value")`, from the body of the response. -/
def loaded (body : Bytes) : Except Exc Value := (decodeBody body).get (.str "value") .none

variable {runId blob body : Bytes}

theorem passable_one {name : String} {v : Value} (hname : (Cbor.utf8 name).length < 2 ^ 63)
    (hv : Passable v) : Passable (.dict [(.str name, v)]) := by
  apply Passable.dict (by simp)
  · simp [Value.isHashable]
  · exact List.pairwise_singleton _ _
  · simpa using .str name hname
  · simpa using hv

theorem keyOf_loadBody (hid : runId.length < 2 ^ 63) (hbody : loadBody runId = .ok body) :
    keyOf (decodeBody body) = .ok (.bytes runId) := by
  have hpassable : Passable (.dict [(.str "key", .bytes runId)]) :=
    passable_one (by decide) (.bytes runId hid)
  rw [decodeBody_encode hpassable hbody]
  rfl

theorem asked_saveBody (hid : runId.length < 2 ^ 63) (hblob : blob.length < 2 ^ 63)
    (hbody : saveBody runId blob = .ok body) :
    asked (decodeBody body) = .ok (.bytes runId, .bytes blob) := by
  have hpassable : Passable (.dict [(.str "key", .bytes runId), (.str "value", .bytes blob)]) := by
    apply Passable.dict (by simp)
    · simp [Value.isHashable]
    · exact List.pairwise_pair.mpr rfl
    · simpa using ⟨Passable.str "key" (by decide), Passable.str "value" (by decide)⟩
    · simpa using ⟨Passable.bytes runId hid, Passable.bytes blob hblob⟩
  rw [decodeBody_encode hpassable hbody]
  rfl

/-- The event does not set the checkpoint of the run. -/
def Spares (runId : Bytes) : Event StateFiber.Request → Prop
  | .request i | .killed i _ => ∀ value, parse i ≠ some (.bytes runId, value)
  | .restart => True

theorem key_ne_of_spares {e : Event StateFiber.Request} {a : Option (Answer (Except Exc Value))}
    (h : Spares runId e) : ∀ t ∈ attempt parse (e, a), t.key ≠ .bytes runId := by
  intro t ht hkey
  have hsome {i : StateFiber.Request} {acknowledged : Bool}
      (hi : ∀ value, parse i ≠ some (.bytes runId, value))
      (ht : ((parse i).map fun e => Attempt.mk e.1 e.2 acknowledged) = some t) : False := by
    obtain ⟨e, he, rfl⟩ := Option.map_eq_some_iff.mp ht
    exact hi e.2 (he.trans (congrArg some (Prod.ext hkey rfl)))
  cases e with
  | restart => cases ht
  | killed i steps => exact hsome h ht
  | request i =>
      cases a with
      | none => exact hsome h ht
      | some a =>
          cases a with
          | replied r => exact hsome h ht
          | failed => exact hsome h ht

/-- What was tried around a save that was acknowledged. -/
theorem exists_tried_save {before after : List (Event StateFiber.Request)} {saved : Bytes}
    (hid : runId.length < 2 ^ 63) (hblob : blob.length < 2 ^ 63)
    (hsave : saveBody runId blob = .ok saved)
    (hacknowledged : (program.answer (program.run .fresh before).2 (.set saved)).2 =
      .replied (.ok (.dict [(.str "ok", .bool true)])))
    (hafter : ∀ e ∈ after, Spares runId e) :
    ∃ later : List (Attempt Key Value), (∀ t ∈ later, t.key ≠ .bytes runId) ∧
      tried (before ++ .request (.set saved) :: after) =
        tried before ++ ⟨.bytes runId, .bytes blob, true⟩ :: later := by
  let p := (program.step (program.run .fresh before).2 (.request (.set saved))).1
  refine ⟨attempts parse (program.run p after).1, fun t ht => ?_, ?_⟩
  · obtain ⟨⟨e, a⟩, hmem, ht⟩ := List.mem_filterMap.mp ht
    have he : e ∈ after := by
      rw [← Program.map_fst_run p after]
      exact List.mem_map_of_mem hmem
    exact key_ne_of_spares (hafter e he) t ht
  · have hparse : parse (.set saved) = some (.bytes runId, .bytes blob) := by
      rw [parse, asked_saveBody hid hblob hsave]
      rfl
    have hattempt : attempt parse (.request (.set saved),
        some (program.answer (program.run .fresh before).2 (.set saved)).2) =
          some ⟨.bytes runId, .bytes blob, true⟩ := by
      rw [hacknowledged, attempt, hparse]
      rfl
    rw [tried, Program.run_append, attempts, List.filterMap_append, Program.run_cons,
      List.filterMap_cons]
    show tried before ++ _ = _
    rw [show (program.step (program.run .fresh before).2 (.request (.set saved))).2 =
      some (program.answer (program.run .fresh before).2 (.set saved)).2 from rfl, hattempt]
    rfl

/-- **What was saved is loaded.** A checkpoint whose save was acknowledged is what a load returns,
whatever else was asked of the state fiber before and since, and whenever it was killed or
restarted, as long as no other save of this run was tried. -/
theorem loads_saved {before after : List (Event StateFiber.Request)} {saved asks reply : Bytes}
    {value : Value}
    (hid : runId.length < 2 ^ 63) (hblob : blob.length < 2 ^ 63)
    (hsave : saveBody runId blob = .ok saved) (hload : loadBody runId = .ok asks)
    (hacknowledged : (program.answer (program.run .fresh before).2 (.set saved)).2 =
      .replied (.ok (.dict [(.str "ok", .bool true)])))
    (hafter : ∀ e ∈ after, Spares runId e)
    (hanswer : (program.answer
        (program.run .fresh (before ++ .request (.set saved) :: after)).2 (.get asks)).2 =
      .replied (.ok value))
    (hreply : encodeBody value = .ok reply) :
    loaded reply = .ok (.bytes blob) := by
  obtain ⟨current, hvisible, hget⟩ := exists_current (before ++ .request (.set saved) :: after)
  have hvalue := hget asks _ (keyOf_loadBody hid hload)
  rw [hanswer] at hvalue
  obtain rfl := Except.ok.inj (Answer.replied.inj hvalue)
  obtain ⟨later, hlater, htried⟩ := exists_tried_save hid hblob hsave hacknowledged hafter
  have hfound := hvisible (.bytes runId)
  rw [htried] at hfound
  rw [hfound.eq_value hlater] at hreply
  have hpassable : Passable (.dict [(.str "value", .bytes blob)]) :=
    passable_one (by decide) (.bytes blob hblob)
  rw [loaded, decodeBody_encode hpassable hreply]
  rfl

/-- A run's checkpoint at a fiber that is restarted. -/
theorem loads_saved_restarted :
    loaded [0xA1, 0x65, 0x76, 0x61, 0x6C, 0x75, 0x65, 0x41, 2] = .ok (.bytes [2]) := by
  have hafter : ∀ e ∈ ([.restart] : List (Event StateFiber.Request)), Spares [1] e := by
    intro e he
    rw [List.mem_singleton.mp he]
    trivial
  have hsave : saveBody [1] [2] = .ok [0xA2, 0x63, 0x6B, 0x65, 0x79, 0x41, 1,
      0x65, 0x76, 0x61, 0x6C, 0x75, 0x65, 0x41, 2] := rfl
  have hload : loadBody [1] = .ok [0xA1, 0x63, 0x6B, 0x65, 0x79, 0x41, 1] := rfl
  have hreply : encodeBody (.dict [(.str "value", .bytes [2])]) =
      .ok [0xA1, 0x65, 0x76, 0x61, 0x6C, 0x75, 0x65, 0x41, 2] := rfl
  exact @loads_saved _ _ [] _ _ _ _ _ (by decide) (by decide) hsave hload rfl hafter rfl hreply

end FiberCheckpointStore

end Thicket.Py
