import Thicket.Core.Checkpoint
import Thicket.Lib.Run

/-!
# Fresh positional keys

The next positional key is the number of recorded steps, and callers may choose keys of the same
form. A chosen key that is ahead of the number of steps is met by a later positional key, and the
step that has it is not recorded. Where no key is ahead, positional keys are fresh for good.
-/

namespace Thicket.Checkpoint

open Cbor (Bytes)

/-- A call of `record`: under `next_key()`, or under a key that the caller chooses. -/
inductive RecordCall where
  | next (value : Bytes)
  | keyed (key : String) (value : Bytes)

def step (self : Checkpoint) : RecordCall → Checkpoint
  | .next value => self.record self.nextKey value
  | .keyed key value => self.record key value

/-- The next key is not the key of a recorded step, and so a step under it is recorded and replayed,
and changes nothing that was recorded before. -/
structure RecordsNext (checkpoint : Checkpoint) : Prop where
  fresh : ∀ s ∈ checkpoint.steps, s.key ≠ checkpoint.nextKey
  appended : ∀ value, (checkpoint.step (.next value)).steps =
    checkpoint.steps ++ [⟨checkpoint.nextKey, value⟩]
  replayed : ∀ value, (checkpoint.step (.next value)).replay checkpoint.nextKey = some value
  unchanged : ∀ value key old, checkpoint.replay key = some old →
    (checkpoint.step (.next value)).replay key = some old

/-- No recorded positional key is ahead of the number of steps. -/
def Positioned (self : Checkpoint) : Prop :=
  ∀ s ∈ self.steps, ∀ m, s.key = positional m → m < self.steps.length

/-- A key that the caller chooses is not ahead of the next positional key. -/
def NotAhead (self : Checkpoint) : RecordCall → Prop
  | .next _ => True
  | .keyed key _ => ∀ m, key = positional m → m ≤ self.steps.length

variable {self : Checkpoint} {key : String} {value : Bytes} {call : RecordCall}
  {calls : List RecordCall}

/-! ### Recording a step -/

theorem replay_eq_none : self.replay key = none ↔ ∀ s ∈ self.steps, s.key ≠ key := by
  simp [replay]

theorem steps_record_of_fresh (h : ∀ s ∈ self.steps, s.key ≠ key) :
    (self.record key value).steps = self.steps ++ [⟨key, value⟩] := by
  rw [record, replay_eq_none.mpr h]
  rfl

theorem record_of_recorded (h : ∃ s ∈ self.steps, s.key = key) : self.record key value = self := by
  apply if_neg
  rw [Option.isNone_iff_eq_none, replay_eq_none]
  intro hfresh
  obtain ⟨s, hs, hkey⟩ := h
  exact hfresh s hs hkey

/-- A step is appended, or its key was recorded before. -/
theorem steps_record (self : Checkpoint) (key : String) (value : Bytes) :
    (∃ s ∈ self.steps, s.key = key) ∧ self.record key value = self ∨
      (∀ s ∈ self.steps, s.key ≠ key) ∧
        (self.record key value).steps = self.steps ++ [⟨key, value⟩] := by
  by_cases h : ∃ s ∈ self.steps, s.key = key
  · exact .inl ⟨h, record_of_recorded h⟩
  · have hfresh : ∀ s ∈ self.steps, s.key ≠ key := by simpa using h
    exact .inr ⟨hfresh, steps_record_of_fresh hfresh⟩

theorem replay_record_of_replay {old : Bytes} {key' : String} (h : self.replay key = some old) :
    (self.record key' value).replay key = some old := by
  rcases steps_record self key' value with ⟨-, hsame⟩ | ⟨-, happended⟩
  · rwa [hsame]
  · rw [replay, Option.map_eq_some_iff] at h
    obtain ⟨s, hs, rfl⟩ := h
    rw [replay, happended, List.find?_append, hs]
    rfl

theorem replay_record_of_fresh (h : ∀ s ∈ self.steps, s.key ≠ key) :
    (self.record key value).replay key = some value := by
  have hnone : self.steps.find? (fun s => s.key == key) = none := by
    rw [List.find?_eq_none]
    intro s hs
    simpa using h s hs
  rw [replay, steps_record_of_fresh h, List.find?_append, hnone]
  simp

theorem recordsNext_iff : self.RecordsNext ↔ ∀ s ∈ self.steps, s.key ≠ self.nextKey := by
  constructor
  · exact fun h => h.fresh
  · intro h
    constructor
    · exact h
    · exact fun value => steps_record_of_fresh h
    · exact fun value => replay_record_of_fresh h
    · exact fun value key old hold => replay_record_of_replay hold

/-! ### Keys that are not ahead -/

theorem Positioned.fresh (h : self.Positioned) : self.RecordsNext := by
  apply recordsNext_iff.mpr
  intro s hs hkey
  exact absurd (h s hs _ hkey) (Nat.lt_irrefl _)

/-- A call records a value under one key, and is not ahead just when that key is not. -/
theorem steps_step (self : Checkpoint) (call : RecordCall) :
    ∃ key value, self.step call = self.record key value ∧
      (self.NotAhead call ↔ ∀ m, key = positional m → m ≤ self.steps.length) := by
  cases call with
  | next value =>
      refine ⟨self.nextKey, value, rfl, iff_of_true trivial ?_⟩
      intro m hm
      exact (positional_injective hm).ge
  | keyed key value => exact ⟨key, value, rfl, Iff.rfl⟩

/-- One call: the next key is fresh before it and no key is ahead after it, just when no key was
ahead before it and the call's is not. -/
theorem positioned_step_iff (self : Checkpoint) (call : RecordCall) :
    self.RecordsNext ∧ (self.step call).Positioned ↔ self.Positioned ∧ self.NotAhead call := by
  obtain ⟨key, value, hstep, hahead⟩ := steps_step self call
  rw [hstep, hahead]
  rcases steps_record self key value with ⟨⟨s, hs, rfl⟩, hsame⟩ | ⟨hfresh, happended⟩
  · rw [hsame]
    constructor
    · intro h
      obtain ⟨-, hpositioned⟩ := h
      exact ⟨hpositioned, fun m hm => (hpositioned s hs m hm).le⟩
    · intro h
      obtain ⟨hpositioned, -⟩ := h
      exact ⟨hpositioned.fresh, hpositioned⟩
  · have hnext : (self.record key value).Positioned ↔
        ∀ s ∈ self.steps ++ [⟨key, value⟩], ∀ m, s.key = positional m →
          m ≤ self.steps.length := by
      rw [Positioned, happended, List.length_append, List.length_singleton]
      simp only [Nat.lt_succ_iff]
    rw [hnext]
    constructor
    · intro h
      obtain ⟨hrecords, hall⟩ := h
      refine ⟨?_, ?_⟩
      · intro s hs m hm
        have hle := hall s (List.mem_append_left _ hs) m hm
        apply Nat.lt_of_le_of_ne hle
        intro heq
        exact hrecords.fresh s hs (by rw [hm, heq, nextKey])
      · exact hall ⟨key, value⟩ (List.mem_append_right _ List.mem_cons_self)
    · intro h
      obtain ⟨hpositioned, hcall⟩ := h
      refine ⟨hpositioned.fresh, ?_⟩
      intro s hs m hm
      rcases List.mem_append.mp hs with hs | hs
      · exact (hpositioned s hs m hm).le
      · obtain rfl := List.mem_singleton.mp hs
        exact hcall m hm

/-- A key that is ahead is met by the positional keys that follow. -/
theorem positioned_of_recordsNext {d : Nat}
    (h : ∀ values : List Bytes, ∀ t ∈ Run.states step self (values.map .next), t.RecordsNext)
    {s : Step} (hs : s ∈ self.steps) : s.key ≠ positional (self.steps.length + d) := by
  induction d generalizing self with
  | zero => exact (h [] self List.mem_cons_self).fresh s hs
  | succ d ih =>
      have happended := (h [] self List.mem_cons_self).appended []
      have hlater : ∀ values : List Bytes,
          ∀ t ∈ Run.states step (self.step (.next [])) (values.map .next), t.RecordsNext :=
        fun values t ht => h ([] :: values) t (List.mem_cons_of_mem _ ht)
      have hne := ih hlater (by rw [happended]; exact List.mem_append_left _ hs)
      rw [happended, List.length_append, List.length_singleton] at hne
      rwa [show self.steps.length + (d + 1) = self.steps.length + 1 + d by omega]

theorem recordsNext_continued_iff :
    (∀ values : List Bytes, ∀ t ∈ Run.states step self (values.map .next), t.RecordsNext) ↔
      self.Positioned := by
  constructor
  · intro h s hs m hm
    by_contra hle
    obtain ⟨d, rfl⟩ := Nat.exists_eq_add_of_le (Nat.le_of_not_lt hle)
    exact positioned_of_recordsNext h hs hm
  · intro h values t ht
    apply Positioned.fresh
    have hstep : ∀ (c : Checkpoint) (call : RecordCall), c.Positioned →
        (∃ value, call = .next value) → (c.step call).Positioned := by
      rintro c _ hc ⟨value, rfl⟩
      exact ((positioned_step_iff c (.next value)).mpr ⟨hc, trivial⟩).2
    apply Run.states_of_mem Positioned hstep h ?_ t ht
    intro call hcall
    obtain ⟨value, -, rfl⟩ := List.mem_map.mp hcall
    exact ⟨value, rfl⟩

/-- **Fresh keys.** From any checkpoint, new or loaded, the next key is fresh in every state of a
run and of all that is recorded under `next_key()` after it, if and only if no positional key is
ahead of the number of steps: neither one that was loaded, nor one that a call chooses. -/
theorem next_key_fresh_iff (self : Checkpoint) (calls : List RecordCall) :
    (∀ values : List Bytes,
        ∀ t ∈ Run.states step self (calls ++ values.map .next), t.RecordsNext) ↔
      self.Positioned ∧ Run.EachStep step NotAhead self calls := by
  induction calls generalizing self with
  | nil => simpa [Run.EachStep] using recordsNext_continued_iff
  | cons call calls ih =>
      rw [Run.EachStep, ← and_assoc, ← positioned_step_iff, and_assoc, ← ih]
      constructor
      · intro h
        refine ⟨h [] self List.mem_cons_self, ?_⟩
        exact fun values t ht => h values t (List.mem_cons_of_mem _ ht)
      · intro h values t ht
        obtain ⟨hself, hrest⟩ := h
        rcases List.mem_cons.mp ht with rfl | ht
        · exact hself
        · exact hrest values t ht

/-- A step was recorded as `#1`; then `#1` is the next key, and a second step is not recorded. -/
theorem next_key_collides :
    ¬((new [1]).step (.keyed "#1" [7])).RecordsNext ∧
      (((new [1]).step (.keyed "#1" [7])).step (.next [8])).steps = [⟨"#1", [7]⟩] := by
  constructor
  · intro h
    exact absurd (h.appended [8]) (by decide +kernel)
  · decide +kernel

end Thicket.Checkpoint
