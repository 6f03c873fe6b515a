import Thicket.Lib.Run
import Mathlib.Tactic.Common

/-!
# A broadcaster

Whoever joins has a queue of its own, with a greeting in it, until it leaves. What is emitted is put
into the queues of all that are there, and each takes from its queue when it likes. So a member
takes what is emitted while it is there, in order, all of it and each once.
-/

namespace Broadcast

variable {α : Type}

structure Member (α : Type) where
  taken : List α
  queue : List α
  present : Bool

inductive Event (α : Type) where
  | join (greeting : List α)
  | emit (a : α)
  | take (member : Nat)
  | leave (member : Nat)

namespace Member

def new (greeting : List α) : Member α := { taken := [], queue := greeting, present := true }

def hear (self : Member α) (a : α) : Member α :=
  if self.present then { self with queue := self.queue ++ [a] } else self

def take (self : Member α) : Member α :=
  match self.present, self.queue with
  | true, a :: queue => { self with taken := self.taken ++ [a], queue }
  | _, _ => self

end Member

def step (members : List (Member α)) : Event α → List (Member α)
  | .join greeting => members ++ [.new greeting]
  | .emit a => members.map fun m => m.hear a
  | .take member => members.modify member Member.take
  | .leave member => members.modify member fun m => { m with present := false }

/-- What is emitted until the member leaves. -/
def heard (member : Nat) : List (Event α) → List α
  | [] => []
  | .emit a :: events => a :: heard member events
  | .leave left :: events => if left = member then [] else heard member events
  | .join _ :: events | .take _ :: events => heard member events

/-- All that a member takes, if it goes on as long as it is there. -/
def Member.all (self : Member α) (later : List α) : List α :=
  self.taken ++ self.queue ++ if self.present then later else []

variable {members : List (Member α)} {k : Nat} {m : Member α}

theorem Member.all_hear (m : Member α) (a : α) (later : List α) :
    (m.hear a).all later = m.all (a :: later) := by
  cases hpresent : m.present <;> simp [all, hear, hpresent]

theorem Member.all_take (m : Member α) (later : List α) : m.take.all later = m.all later := by
  unfold take
  split
  next hpresent hqueue => simp [all, hqueue]
  next => rfl

theorem Member.present_hear (m : Member α) (a : α) : (m.hear a).present = m.present := by
  unfold hear
  split <;> rfl

theorem Member.present_take (m : Member α) : m.take.present = m.present := by
  unfold take
  split <;> rfl

/-- What an event does to a member. -/
theorem exists_step (event : Event α) (hm : members[k]? = some m) :
    ∃ m', (step members event)[k]? = some m' ∧
      (event ≠ .leave k → m'.present = m.present) ∧
      ∀ events : List (Event α), m'.all (heard k events) = m.all (heard k (event :: events)) := by
  have hmodify (i : Nat) (f : Member α → Member α) :
      (members.modify i f)[k]? = some (if i = k then f m else m) := by
    rw [List.getElem?_modify, hm]
    rfl
  cases event with
  | join greeting =>
      refine ⟨m, ?_, fun _ => rfl, fun events => rfl⟩
      have hlt := (List.getElem?_eq_some_iff.mp hm).1
      show (members ++ [.new greeting])[k]? = _
      rw [List.getElem?_append_left hlt, hm]
  | emit a =>
      refine ⟨m.hear a, ?_, fun _ => m.present_hear a, fun events => m.all_hear a _⟩
      show (members.map _)[k]? = _
      rw [List.getElem?_map, hm]
      rfl
  | take member =>
      refine ⟨_, hmodify member Member.take, fun _ => ?_, fun events => ?_⟩
      · split
        · exact m.present_take
        · rfl
      · split
        · exact m.all_take _
        · rfl
  | leave member =>
      refine ⟨_, hmodify member _, fun hstays => ?_, fun events => ?_⟩
      · rw [if_neg fun hk => hstays (congrArg Event.leave hk)]
      · by_cases hk : member = k
        · simp [Member.all, heard, hk]
        · rw [if_neg hk, heard, if_neg hk]

/-- What a member has taken and what waits for it are what was emitted while it was there. -/
theorem exists_exec (events : List (Event α)) (hm : members[k]? = some m) :
    ∃ m', (Run.exec step members events)[k]? = some m' ∧
      (.leave k ∉ events → m'.present = m.present) ∧
      m'.taken ++ m'.queue = m.all (heard k events) := by
  induction events generalizing members m with
  | nil =>
      refine ⟨m, hm, fun _ => rfl, ?_⟩
      rw [Member.all, heard, ite_self, List.append_nil]
  | cons event events ih =>
      obtain ⟨m', hm', hstays, hstep⟩ := exists_step event hm
      obtain ⟨m'', hm'', hrest, htaken⟩ := ih hm'
      refine ⟨m'', hm'', fun hleave => ?_, htaken.trans (hstep events)⟩
      rw [List.mem_cons, not_or] at hleave
      exact (hrest hleave.2).trans (hstays (Ne.symm hleave.1))

/-- **A member hears everything, once and in order.** -/
theorem taken_append_queue (members : List (Member α)) (greeting : List α)
    (events : List (Event α)) :
    ∃ m, (Run.exec step members (.join greeting :: events))[members.length]? = some m ∧
      (.leave members.length ∉ events → m.present = true) ∧
      m.taken ++ m.queue = greeting ++ heard members.length events := by
  have hnew : (step members (.join greeting))[members.length]? = some (.new greeting) :=
    List.getElem?_concat_length
  exact exists_exec events hnew

end Broadcast
