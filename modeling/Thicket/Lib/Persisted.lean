import Mathlib.Data.List.Basic
import Mathlib.Tactic.Common

/-!
# State that a process keeps in a file

A process loads its state from a file when it first needs it and holds it in memory. It saves the
state by writing a second file and renaming it over the first. It may be killed between any two of
these steps, and what it held in memory is then gone. To whoever sends it requests it is a state in
memory and a saved one, and a save that was cut off either happened or did not.
-/

/-- A file, and the one that is written to replace it. -/
structure Files (α : Type) where
  main : Option (List α)
  tmp : Option (List α)

inductive FileStep (α : Type) where
  | truncate
  | write (a : α)
  | replace

namespace FileStep

variable {α : Type}

def run (files : Files α) : FileStep α → Files α
  | truncate => { files with tmp := some [] }
  | write a => { files with tmp := files.tmp.map (· ++ [a]) }
  | replace =>
      match files.tmp with
      | none => files
      | some contents => { main := some contents, tmp := none }

/-- The steps of a save. However a write is buffered, what is in the file when the process is killed
is what it is after some of these. -/
def save (contents : List α) : List (FileStep α) :=
  truncate :: (contents.map write ++ [replace])

def runAll (files : Files α) (steps : List (FileStep α)) : Files α := steps.foldl run files

variable {files : Files α} {contents : List α}

theorem runAll_append (steps more : List (FileStep α)) :
    runAll files (steps ++ more) = runAll (runAll files steps) more := List.foldl_append

theorem runAll_writes (hold : List α) :
    runAll { files with tmp := some hold } (contents.map write) =
      { files with tmp := some (hold ++ contents) } := by
  induction contents generalizing hold with
  | nil => rw [List.append_nil]; rfl
  | cons a contents ih =>
      rw [List.map_cons, List.append_cons]
      exact ih (hold ++ [a])

theorem runAll_save (files : Files α) (contents : List α) :
    runAll files (save contents) = { main := some contents, tmp := none } := by
  show runAll { files with tmp := some [] } (contents.map write ++ [replace]) = _
  rw [runAll_append, runAll_writes]
  rfl

/-- Before the file is replaced, it is as it was. -/
theorem main_runAll {steps : List (FileStep α)} (h : ∀ step ∈ steps, step ≠ replace) :
    (runAll files steps).main = files.main := by
  induction steps generalizing files with
  | nil => rfl
  | cons step steps ih =>
      obtain ⟨hstep, hsteps⟩ := List.forall_mem_cons.mp h
      show (runAll (run files step) steps).main = _
      rw [ih hsteps]
      cases step with
      | replace => exact absurd rfl hstep
      | _ => rfl

/-- **The file is the old one or the new one,** whenever the save is cut off. -/
theorem main_take_save (files : Files α) (contents : List α) (n : Nat) :
    (runAll files ((save contents).take n)).main = files.main ∨
      (runAll files ((save contents).take n)).main = some contents := by
  have hwrites : ∀ step ∈ truncate :: contents.map write, step ≠ replace := by
    simp
  have hsave : save contents = (truncate :: contents.map write) ++ [replace] := rfl
  by_cases hn : n ≤ (truncate :: contents.map write).length
  · rw [hsave, List.take_append_of_le_length hn]
    exact .inl (main_runAll fun step hstep => hwrites step (List.mem_of_mem_take hstep))
  · have hall : (save contents).take n = save contents := by
      apply List.take_of_length_le
      rw [hsave, List.length_append, List.length_singleton]
      omega
    rw [hall, runAll_save]
    exact .inr rfl

end FileStep

/-! ### The process -/

/-- Whether a request's outcome is to be saved before it is answered. -/
inductive Outcome (ρ : Type) where
  | reply (r : ρ)
  | save (r : ρ)

/-- What a request is answered: its reply, or that its state could not be loaded or saved. -/
inductive Answer (ρ : Type) where
  | replied (r : ρ)
  | failed

/-- A request that is answered, one that the process is killed in after so many steps of a save, or
the end of the process between two requests. -/
inductive Event (ι : Type) where
  | request (i : ι)
  | killed (i : ι) (steps : Nat)
  | restart

/-- How the state is written, what it is where there is no file or an empty one, and what requests
do with it. -/
structure Program (δ α ι ρ : Type) where
  empty : δ
  load : List α → Option δ
  dump : δ → Option (List α)
  handle : ι → δ → δ × Outcome ρ

structure Process (δ α : Type) where
  files : Files α
  memory : Option δ

namespace Program

variable {δ α ι ρ : Type} (program : Program δ α ι ρ)

/-- The state that a process finds when it starts. -/
def read (main : Option (List α)) : Option δ :=
  match main with
  | none => some program.empty
  | some [] => some program.empty
  | some contents => program.load contents

/-- The state in memory, loaded if it is not yet. -/
def state (p : Process δ α) : Option δ := p.memory <|> program.read p.files.main

/-- The file is opened before what is written to it is computed. -/
def saveSteps (d : δ) : List (FileStep α) :=
  match program.dump d with
  | none => [.truncate]
  | some contents => FileStep.save contents

def answer (p : Process δ α) (i : ι) : Process δ α × Answer ρ :=
  match program.state p with
  | none => (p, .failed)
  | some d =>
      match program.handle i d with
      | (d', .reply r) => ({ p with memory := some d' }, .replied r)
      | (d', .save r) =>
          ({ files := FileStep.runAll p.files (program.saveSteps d'), memory := some d' },
            if (program.dump d').isSome then .replied r else .failed)

/-- The files that are left behind. -/
def killed (p : Process δ α) (i : ι) (steps : Nat) : Files α :=
  match program.state p with
  | none => p.files
  | some d =>
      match program.handle i d with
      | (_, .reply _) => p.files
      | (d', .save _) => FileStep.runAll p.files ((program.saveSteps d').take steps)

def step (p : Process δ α) : Event ι → Process δ α × Option (Answer ρ)
  | .request i => let (p', a) := program.answer p i; (p', some a)
  | .killed i steps => ({ files := program.killed p i steps, memory := none }, none)
  | .restart => ({ p with memory := none }, none)

/-- The events of a run with their answers, and the process after it. -/
def run (p : Process δ α) : List (Event ι) → List (Event ι × Option (Answer ρ)) × Process δ α
  | [] => ([], p)
  | e :: events =>
      let (p', a) := program.step p e
      let (answers, last) := run p' events
      ((e, a) :: answers, last)

variable {program} {p : Process δ α} {d d' : δ} {i : ι} {r : ρ} {contents : List α}

theorem run_cons (p : Process δ α) (e : Event ι) (events : List (Event ι)) :
    program.run p (e :: events) =
      ((e, (program.step p e).2) :: (program.run (program.step p e).1 events).1,
        (program.run (program.step p e).1 events).2) := rfl

theorem run_append (p : Process δ α) (events more : List (Event ι)) :
    program.run p (events ++ more) =
      ((program.run p events).1 ++ (program.run (program.run p events).2 more).1,
        (program.run (program.run p events).2 more).2) := by
  induction events generalizing p with
  | nil => rfl
  | cons e events ih =>
      rw [List.cons_append, run_cons, run_cons, ih]
      rfl

/-- Every answer is to its event. -/
theorem map_fst_run (p : Process δ α) (events : List (Event ι)) :
    (program.run p events).1.map Prod.fst = events := by
  induction events generalizing p with
  | nil => rfl
  | cons e events ih =>
      rw [run_cons, List.map_cons, ih]

theorem answer_reply (hstate : program.state p = some d)
    (hhandle : program.handle i d = (d', .reply r)) :
    program.answer p i = ({ p with memory := some d' }, .replied r) := by
  simp only [answer, hstate, hhandle]

theorem answer_save (hstate : program.state p = some d)
    (hhandle : program.handle i d = (d', .save r)) (hdump : program.dump d' = some contents) :
    program.answer p i =
      ({ files := { main := some contents, tmp := none }, memory := some d' }, .replied r) := by
  simp only [answer, hstate, hhandle, saveSteps, hdump, FileStep.runAll_save, Option.isSome_some,
    if_true]

theorem answer_fail (hstate : program.state p = some d)
    (hhandle : program.handle i d = (d', .save r)) (hdump : program.dump d' = none) :
    program.answer p i =
      ({ files := { p.files with tmp := some [] }, memory := some d' }, .failed) := by
  simp only [answer, hstate, hhandle, saveSteps, hdump, Option.isSome_none]
  rfl

/-- A process that is killed leaves the file as it was, or as the request's save would. -/
theorem main_killed (hstate : program.state p = some d) (i : ι) (steps : Nat) :
    (program.killed p i steps).main = p.files.main ∨
      ∃ d' r contents, program.handle i d = (d', .save r) ∧ program.dump d' = some contents ∧
        (program.killed p i steps).main = some contents := by
  cases hhandle : program.handle i d with
  | mk d' outcome =>
      cases outcome with
      | reply r =>
          simp only [killed, hstate, hhandle, true_or]
      | save r =>
          simp only [killed, hstate, hhandle, saveSteps]
          cases hdump : program.dump d' with
          | none =>
              refine .inl (FileStep.main_runAll fun step hstep => ?_)
              rw [List.mem_singleton.mp (List.mem_of_mem_take hstep)]
              exact nofun
          | some contents =>
              refine (FileStep.main_take_save p.files contents steps).imp_right fun hnew => ?_
              exact ⟨d', r, contents, rfl, hdump, hnew⟩

end Program

/-- No file, and nothing in memory. -/
def Process.fresh {δ α : Type} : Process δ α := { files := ⟨none, none⟩, memory := none }

/-! ### What it is to those who send requests -/

structure Restorable (σ : Type) where
  saved : σ
  current : σ

namespace Restorable

variable {σ ι ρ : Type} (spec : ι → σ → σ × Outcome ρ)

/-- A request that is to be saved may fail after it has changed what is in memory. One that the
process is killed in was saved, or is lost with what else was not. -/
inductive Step (m : Restorable σ) : Event ι → Option (Answer ρ) → Restorable σ → Prop
  | replied (i : ι) (c : σ) (r : ρ) (h : spec i m.current = (c, .reply r)) :
      Step m (.request i) (some (.replied r)) { m with current := c }
  | saved (i : ι) (c : σ) (r : ρ) (h : spec i m.current = (c, .save r)) :
      Step m (.request i) (some (.replied r)) { saved := c, current := c }
  | failed (i : ι) (c : σ) (r : ρ) (h : spec i m.current = (c, .save r)) :
      Step m (.request i) (some .failed) { m with current := c }
  | lost (i : ι) (steps : Nat) : Step m (.killed i steps) none { m with current := m.saved }
  | kept (i : ι) (steps : Nat) (c : σ) (r : ρ) (h : spec i m.current = (c, .save r)) :
      Step m (.killed i steps) none { saved := c, current := c }
  | restart : Step m .restart none { m with current := m.saved }

inductive Run : Restorable σ → List (Event ι × Option (Answer ρ)) → Restorable σ → Prop
  | nil (m : Restorable σ) : Run m [] m
  | snoc {m m' m'' : Restorable σ} {answers : List (Event ι × Option (Answer ρ))} {e : Event ι}
      {a : Option (Answer ρ)} (h : Run m answers m') (hstep : Step spec m' e a m'') :
      Run m (answers ++ [(e, a)]) m''

variable {spec} {m m' m'' : Restorable σ} {answers more : List (Event ι × Option (Answer ρ))}

theorem Run.append (h : Run spec m answers m') (h' : Run spec m' more m'') :
    Run spec m (answers ++ more) m'' := by
  induction h' with
  | nil => rwa [List.append_nil]
  | snoc _ hstep ih =>
      rw [← List.append_assoc]
      exact .snoc ih hstep

end Restorable

/-! ### Refinement -/

/-- The states that a program keeps to, which it writes so that they can be read, and what they are
to those who send requests. -/
structure Refinement {δ α ι ρ σ : Type} (program : Program δ α ι ρ)
    (spec : ι → σ → σ × Outcome ρ) where
  view : δ → σ
  Valid : δ → Prop
  valid_empty : Valid program.empty
  load_dump : ∀ {d contents}, Valid d → program.dump d = some contents →
    contents ≠ [] ∧ program.load contents = some d
  valid_handle : ∀ {d} i, Valid d → Valid (program.handle i d).1
  view_handle : ∀ {d} i, Valid d →
    spec i (view d) = (view (program.handle i d).1, (program.handle i d).2)

namespace Refinement

variable {δ α ι ρ σ : Type} {program : Program δ α ι ρ} {spec : ι → σ → σ × Outcome ρ}
  (R : Refinement program spec)

structure Represents (p : Process δ α) (m : Restorable σ) : Prop where
  saved : ∃ d, program.read p.files.main = some d ∧ R.Valid d ∧ R.view d = m.saved
  current : ∃ d, program.state p = some d ∧ R.Valid d ∧ R.view d = m.current

variable {R} {p : Process δ α} {m : Restorable σ}

theorem represents_fresh (R : Refinement program spec) :
    R.Represents .fresh ⟨R.view program.empty, R.view program.empty⟩ :=
  ⟨⟨program.empty, rfl, R.valid_empty, rfl⟩, ⟨program.empty, rfl, R.valid_empty, rfl⟩⟩

theorem read_dump (R : Refinement program spec) {d : δ} {contents : List α} (hvalid : R.Valid d)
    (hdump : program.dump d = some contents) : program.read (some contents) = some d := by
  obtain ⟨hne, hload⟩ := R.load_dump hvalid hdump
  cases contents with
  | nil => exact absurd rfl hne
  | cons a contents => exact hload

/-- A process that ends loads what was saved. -/
theorem Represents.ended (h : R.Represents p m) :
    R.Represents { p with memory := none } { m with current := m.saved } :=
  ⟨h.saved, h.saved⟩

theorem Represents.answer (h : R.Represents p m) (i : ι) :
    ∃ m', Restorable.Step spec m (.request i) (some (program.answer p i).2) m' ∧
      R.Represents (program.answer p i).1 m' := by
  obtain ⟨d, hstate, hvalid, hview⟩ := h.current
  have hspec := R.view_handle i hvalid
  have hvalid' := R.valid_handle i hvalid
  rw [hview] at hspec
  cases hhandle : program.handle i d with
  | mk d' outcome =>
      rw [hhandle] at hspec hvalid'
      cases outcome with
      | reply r =>
          rw [Program.answer_reply hstate hhandle]
          exact ⟨_, .replied i _ r hspec, h.saved, d', rfl, hvalid', rfl⟩
      | save r =>
          cases hdump : program.dump d' with
          | none =>
              rw [Program.answer_fail hstate hhandle hdump]
              exact ⟨_, .failed i _ r hspec, h.saved, d', rfl, hvalid', rfl⟩
          | some contents =>
              rw [Program.answer_save hstate hhandle hdump]
              have hread := R.read_dump hvalid' hdump
              exact ⟨_, .saved i _ r hspec, ⟨d', hread, hvalid', rfl⟩, d', rfl, hvalid', rfl⟩

/-- A request that changes nothing is answered from what is current. -/
theorem Represents.replied (h : R.Represents p m) {i : ι} {r : ρ}
    (hspec : spec i m.current = (m.current, .reply r)) : (program.answer p i).2 = .replied r := by
  obtain ⟨m', hstep, -⟩ := h.answer i
  generalize (program.answer p i).2 = a at hstep
  cases hstep with
  | replied _ c r' h =>
      rw [hspec] at h
      obtain ⟨-, h⟩ := Prod.mk.inj h
      cases h
      rfl
  | saved _ c r' h =>
      rw [hspec] at h
      cases h
  | failed _ c r' h =>
      rw [hspec] at h
      cases h

theorem Represents.killed (h : R.Represents p m) (i : ι) (steps : Nat) :
    ∃ m', Restorable.Step spec m (.killed i steps) none m' ∧
      R.Represents { files := program.killed p i steps, memory := none } m' := by
  obtain ⟨d, hstate, hvalid, hview⟩ := h.current
  rcases Program.main_killed hstate i steps with hold | ⟨d', r, contents, hhandle, hdump, hnew⟩
  · obtain ⟨saved, hread, hsaved⟩ := h.saved
    rw [← hold] at hread
    exact ⟨_, .lost i steps, ⟨saved, hread, hsaved⟩, saved, hread, hsaved⟩
  · have hspec := R.view_handle i hvalid
    have hvalid' := R.valid_handle i hvalid
    rw [hview, hhandle] at hspec
    rw [hhandle] at hvalid'
    have hread := R.read_dump hvalid' hdump
    rw [← hnew] at hread
    exact ⟨_, .kept i steps _ r hspec, ⟨d', hread, hvalid', rfl⟩, d', hread, hvalid', rfl⟩

theorem Represents.step (h : R.Represents p m) (e : Event ι) :
    ∃ m', Restorable.Step spec m e (program.step p e).2 m' ∧
      R.Represents (program.step p e).1 m' := by
  cases e with
  | request i => exact h.answer i
  | killed i steps => exact h.killed i steps
  | restart => exact ⟨_, .restart, h.ended⟩

/-- **Every run is one of a saved state and a current one,** with the same answers. -/
theorem Represents.run (h : R.Represents p m) (events : List (Event ι)) :
    ∃ m', Restorable.Run spec m (program.run p events).1 m' ∧
      R.Represents (program.run p events).2 m' := by
  induction events generalizing p m with
  | nil => exact ⟨m, .nil m, h⟩
  | cons e events ih =>
      obtain ⟨m', hstep, h'⟩ := h.step e
      obtain ⟨m'', hrun, h''⟩ := ih h'
      refine ⟨m'', ?_, h''⟩
      have hone : Restorable.Run spec m ([] ++ [(e, (program.step p e).2)]) m' :=
        .snoc (.nil m) hstep
      exact hone.append hrun

end Refinement

/-! ### Histories -/

/-- A request for a key to be given a value, and whether it was answered that it is. -/
structure Attempt (κ ν : Type) where
  key : κ
  value : ν
  acknowledged : Bool

namespace Restorable

variable {σ ι ρ κ ν : Type} (parse : ι → Option (κ × ν))

/-- What an event tried, if anything. -/
def attempt : Event ι × Option (Answer ρ) → Option (Attempt κ ν)
  | (.request i, some (.replied _)) => (parse i).map fun e => ⟨e.1, e.2, true⟩
  | (.request i, _) => (parse i).map fun e => ⟨e.1, e.2, false⟩
  | (.killed i _, _) => (parse i).map fun e => ⟨e.1, e.2, false⟩
  | (.restart, _) => none

def attempts (answers : List (Event ι × Option (Answer ρ))) : List (Attempt κ ν) :=
  answers.filterMap (attempt parse)

variable {parse} {k : κ} {v : ν} {answers : List (Event ι × Option (Answer ρ))}

theorem attempts_concat (answers : List (Event ι × Option (Answer ρ)))
    (e : Event ι × Option (Answer ρ)) :
    attempts parse (answers ++ [e]) = attempts parse answers ++ (attempt parse e).toList := by
  rw [attempts, List.filterMap_append, ← attempts]
  congr 1

/-- Requests that try something change the state and are saved, and no others do. -/
structure Writes (spec : ι → σ → σ × Outcome ρ) (parse : ι → Option (κ × ν))
    (put : σ → κ → ν → σ) : Prop where
  put : ∀ {i k v}, parse i = some (k, v) → ∀ s, ∃ r, spec i s = (put s k v, .save r)
  keep : ∀ {i}, parse i = none → ∀ s, ∃ r, spec i s = (s, .reply r)

variable {spec : ι → σ → σ × Outcome ρ} {put : σ → κ → ν → σ}

theorem Writes.of_reply (h : Writes spec parse put) {i : ι} {s c : σ} {r : ρ}
    (hspec : spec i s = (c, .reply r)) : parse i = none ∧ c = s := by
  cases hparse : parse i with
  | some e =>
      obtain ⟨r', hput⟩ := h.put hparse s
      rw [hspec] at hput
      cases hput
  | none =>
      obtain ⟨r', hkeep⟩ := h.keep hparse s
      rw [hspec] at hkeep
      exact ⟨rfl, (Prod.mk.inj hkeep).1⟩

theorem Writes.of_save (h : Writes spec parse put) {i : ι} {s c : σ} {r : ρ}
    (hspec : spec i s = (c, .save r)) : ∃ e, parse i = some e ∧ c = put s e.1 e.2 := by
  cases hparse : parse i with
  | some e =>
      obtain ⟨r', hput⟩ := h.put hparse s
      rw [hspec] at hput
      exact ⟨e, rfl, (Prod.mk.inj hput).1⟩
  | none =>
      obtain ⟨r', hkeep⟩ := h.keep hparse s
      rw [hspec] at hkeep
      cases hkeep

/-- A property of what was tried, of what is saved and of what is current, that holds in the
beginning and that each attempt preserves, whether or not it is acknowledged or saved. -/
theorem Run.invariant (hwrites : Writes spec parse put)
    (Inv : List (Attempt κ ν) → σ → σ → Prop) {m m' : Restorable σ}
    (hnil : Inv [] m.saved m.current)
    (hsaved : ∀ tried saved current k v acknowledged, Inv tried saved current →
      Inv (tried ++ [⟨k, v, acknowledged⟩]) (put current k v) (put current k v))
    (hfailed : ∀ tried saved current k v, Inv tried saved current →
      Inv (tried ++ [⟨k, v, false⟩]) saved (put current k v))
    (hlost : ∀ tried saved current k v, Inv tried saved current →
      Inv (tried ++ [⟨k, v, false⟩]) saved saved)
    (hended : ∀ tried saved current, Inv tried saved current → Inv tried saved saved)
    (h : Run spec m answers m') : Inv (attempts parse answers) m'.saved m'.current := by
  induction h with
  | nil => exact hnil
  | snoc _ hstep ih =>
      rw [attempts_concat]
      cases hstep with
      | restart => simpa [attempt] using hended _ _ _ ih
      | replied i c r hspec =>
          obtain ⟨hparse, rfl⟩ := hwrites.of_reply hspec
          simpa [attempt, hparse] using ih
      | saved i c r hspec =>
          obtain ⟨e, hparse, rfl⟩ := hwrites.of_save hspec
          simpa [attempt, hparse] using hsaved _ _ _ e.1 e.2 true ih
      | failed i c r hspec =>
          obtain ⟨e, hparse, rfl⟩ := hwrites.of_save hspec
          simpa [attempt, hparse] using hfailed _ _ _ e.1 e.2 ih
      | lost i steps =>
          cases hparse : parse i with
          | some e => simpa [attempt, hparse] using hlost _ _ _ e.1 e.2 ih
          | none => simpa [attempt, hparse] using hended _ _ _ ih
      | kept i steps c r hspec =>
          obtain ⟨e, hparse, rfl⟩ := hwrites.of_save hspec
          simpa [attempt, hparse] using hsaved _ _ _ e.1 e.2 false ih

/-! ### Maps -/

variable [DecidableEq κ]

def update (m : κ → Option ν) (k : κ) (v : ν) : κ → Option ν :=
  fun k' => if k' = k then some v else m k'

/-- The value of the last attempt for a key. -/
def last (tried : List (Attempt κ ν)) (k : κ) : Option ν :=
  ((tried.filter fun a => a.key = k).getLast?).map Attempt.value

/-- It is the last value in some first part of what was tried, and nothing after that part was
acknowledged for the key. -/
def Visible (tried : List (Attempt κ ν)) (k : κ) (o : Option ν) : Prop :=
  ∃ before after, tried = before ++ after ∧
    (∀ a ∈ after, a.key = k → a.acknowledged = false) ∧ last before k = o

variable {tried : List (Attempt κ ν)} {o : Option ν} {a : Attempt κ ν}

theorem last_concat_self (tried : List (Attempt κ ν)) (a : Attempt κ ν) :
    last (tried ++ [a]) a.key = some a.value := by
  rw [last, List.filter_append, List.filter_cons_of_pos (by simp), List.filter_nil,
    List.getLast?_append_of_ne_nil _ (List.cons_ne_nil _ _)]
  rfl

theorem Visible.last (tried : List (Attempt κ ν)) (k : κ) : Visible tried k (last tried k) :=
  ⟨tried, [], (List.append_nil _).symm, nofun, rfl⟩

theorem Visible.concat (h : Visible tried k o) (ha : a.key = k → a.acknowledged = false) :
    Visible (tried ++ [a]) k o := by
  obtain ⟨before, after, rfl, hafter, hlast⟩ := h
  refine ⟨before, after ++ [a], List.append_assoc _ _ _, fun b hb => ?_, hlast⟩
  rcases List.mem_append.mp hb with hb | hb
  · exact hafter b hb
  · rw [List.mem_singleton.mp hb]
    exact ha

/-- An acknowledged value is visible as long as no other is tried. -/
theorem Visible.eq_value {earlier later : List (Attempt κ ν)} {value : ν}
    (h : Visible (earlier ++ ⟨k, value, true⟩ :: later) k o) (hlater : ∀ a ∈ later, a.key ≠ k) :
    o = some value := by
  obtain ⟨before, after, hsplit, hafter, rfl⟩ := h
  rcases List.append_eq_append_iff.mp hsplit with ⟨rest, rfl, hrest⟩ | ⟨rest, rfl, hrest⟩
  · cases rest with
    | nil =>
        rw [List.nil_append] at hrest
        have hself := hafter ⟨k, value, true⟩ (hrest ▸ List.mem_cons_self) rfl
        cases hself
    | cons a rest =>
        obtain ⟨rfl, rfl⟩ := List.cons.inj hrest
        have hnone : (rest.filter fun a => decide (a.key = k)) = [] := by
          apply List.filter_eq_nil_iff.mpr
          intro a ha
          simpa using hlater a (List.mem_append_left _ ha)
        rw [Restorable.last, List.filter_append, List.filter_cons_of_pos (by simp), hnone]
        simp
  · have hself := hafter ⟨k, value, true⟩ (hrest ▸ List.mem_append_right _ List.mem_cons_self) rfl
    cases hself

theorem Visible.update {m : κ → Option ν} (h : ∀ k, Visible tried k (m k)) (k : κ) (v : ν)
    (acknowledged : Bool) (k' : κ) :
    Visible (tried ++ [⟨k, v, acknowledged⟩]) k' (update m k v k') := by
  by_cases hk : k' = k
  · subst hk
    rw [Restorable.update, if_pos rfl, ← last_concat_self tried ⟨k', v, acknowledged⟩]
    exact Visible.last _ _
  · rw [Restorable.update, if_neg hk]
    exact (h k').concat fun hkey => absurd hkey.symm hk

/-- **No acknowledged value is lost,** and none is there that was not tried, in whatever way the
process ends in between. -/
theorem Run.visible {spec : ι → (κ → Option ν) → (κ → Option ν) × Outcome ρ}
    (hwrites : Writes spec parse update) {m : Restorable (κ → Option ν)}
    (h : Run spec ⟨fun _ => none, fun _ => none⟩ answers m) (k : κ) :
    Visible (attempts parse answers) k (m.current k) := by
  have hall : (∀ k, Visible (attempts parse answers) k (m.saved k)) ∧
      ∀ k, Visible (attempts parse answers) k (m.current k) := by
    apply h.invariant hwrites fun tried saved current =>
      (∀ k, Visible tried k (saved k)) ∧ ∀ k, Visible tried k (current k)
    · exact ⟨Visible.last [], Visible.last []⟩
    · intro tried saved current k v acknowledged hinv
      exact ⟨Visible.update hinv.2 k v acknowledged, Visible.update hinv.2 k v acknowledged⟩
    · intro tried saved current k v hinv
      exact ⟨fun k' => (hinv.1 k').concat fun _ => rfl, Visible.update hinv.2 k v false⟩
    · intro tried saved current k v hinv
      exact ⟨fun k' => (hinv.1 k').concat fun _ => rfl, fun k' => (hinv.1 k').concat fun _ => rfl⟩
    · intro tried saved current hinv
      exact ⟨hinv.1, hinv.1⟩
  exact hall.2 k

/-! ### Logs -/

def push (m : κ → List ν) (k : κ) (v : ν) : κ → List ν :=
  fun k' => if k' = k then m k ++ [v] else m k'

/-- What was tried for a key, in order. -/
def triedFor (tried : List (Attempt κ ν)) (k : κ) : List ν :=
  (tried.filter fun a => a.key = k).map Attempt.value

def acknowledgedFor (tried : List (Attempt κ ν)) (k : κ) : List ν :=
  triedFor (tried.filter Attempt.acknowledged) k

theorem triedFor_concat (tried : List (Attempt κ ν)) (a : Attempt κ ν) (k : κ) :
    triedFor (tried ++ [a]) k = triedFor tried k ++ if a.key = k then [a.value] else [] := by
  rw [triedFor, List.filter_append, List.map_append, ← triedFor]
  by_cases hk : a.key = k <;> simp [hk]

theorem acknowledgedFor_concat (tried : List (Attempt κ ν)) (a : Attempt κ ν) (k : κ) :
    acknowledgedFor (tried ++ [a]) k = acknowledgedFor tried k ++
      if a.acknowledged = true ∧ a.key = k then [a.value] else [] := by
  rw [acknowledgedFor, List.filter_append]
  by_cases ha : a.acknowledged = true
  · rw [List.filter_cons_of_pos (by simpa using ha), List.filter_nil, triedFor_concat]
    simp [ha, acknowledgedFor]
  · rw [List.filter_cons_of_neg (by simpa using ha), List.filter_nil, List.append_nil]
    simp [ha, acknowledgedFor]

/-- What is there is part of what was tried, with all that was acknowledged, in order. -/
def Between (tried : List (Attempt κ ν)) (m : κ → List ν) : Prop :=
  ∀ k, (acknowledgedFor tried k).Sublist (m k) ∧ (m k).Sublist (triedFor tried k)

theorem Between.push {m : κ → List ν} (h : Between tried m) (k : κ) (v : ν) (acknowledged : Bool) :
    Between (tried ++ [⟨k, v, acknowledged⟩]) (push m k v) := by
  intro k'
  rw [acknowledgedFor_concat, triedFor_concat]
  by_cases hk : k' = k
  · subst hk
    rw [Restorable.push, if_pos rfl, if_pos rfl]
    refine ⟨(h k').1.append ?_, (h k').2.append (List.Sublist.refl _)⟩
    cases acknowledged <;> simp
  · have hne : ¬k = k' := fun hkk => hk hkk.symm
    rw [Restorable.push, if_neg hk, if_neg hne, if_neg fun hboth => hne hboth.2, List.append_nil,
      List.append_nil]
    exact h k'

theorem Between.concat {m : κ → List ν} (h : Between tried m) (k : κ) (v : ν) :
    Between (tried ++ [⟨k, v, false⟩]) m := by
  intro k'
  rw [acknowledgedFor_concat, triedFor_concat, if_neg (by simp), List.append_nil]
  exact ⟨(h k').1, (h k').2.trans (List.sublist_append_left _ _)⟩

/-- **Nothing acknowledged is lost, and nothing is there twice or out of order,** in whatever way
the process ends in between. -/
theorem Run.between {spec : ι → (κ → List ν) → (κ → List ν) × Outcome ρ}
    (hwrites : Writes spec parse push) {m : Restorable (κ → List ν)}
    (h : Run spec ⟨fun _ => [], fun _ => []⟩ answers m) :
    Between (attempts parse answers) m.current := by
  have hall : Between (attempts parse answers) m.saved ∧
      Between (attempts parse answers) m.current := by
    apply h.invariant hwrites fun tried saved current => Between tried saved ∧ Between tried current
    · exact ⟨fun _ => ⟨.slnil, .slnil⟩, fun _ => ⟨.slnil, .slnil⟩⟩
    · intro tried saved current k v acknowledged hinv
      exact ⟨hinv.2.push k v acknowledged, hinv.2.push k v acknowledged⟩
    · intro tried saved current k v hinv
      exact ⟨hinv.1.concat k v, hinv.2.push k v false⟩
    · intro tried saved current k v hinv
      exact ⟨hinv.1.concat k v, hinv.1.concat k v⟩
    · intro tried saved current hinv
      exact ⟨hinv.1, hinv.1⟩
  exact hall.2

end Restorable
