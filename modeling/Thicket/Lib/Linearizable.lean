import Thicket.Lib.Run
import Mathlib.Data.List.Nodup
import Mathlib.Tactic.Common

/-!
# Linearizability

Calls of a shared object begin and return while a machine runs. A run is linearized by a list of
acts of the object, carried out one after the other, if every call that has returned is one of the
acts, and what it has returned is what the object answers there; if no call is two of the acts, or
one of them before it has begun; and if a call that had not begun when another one had returned
comes after it.

A machine with a log of the acts that only grows at its end is linearized by the log.
-/

/-- The calls of a machine. `κ` names a call; it is given an `α` and returns a `ρ`. -/
structure Calls (S κ α ρ : Type) where
  Began : S → κ → Prop
  Returned : S → κ → α → ρ → Prop

/-- An object and its acts. An act is one call's at most. -/
structure SharedObject (σ β κ α ρ : Type) where
  act : σ → β → σ
  call : β → Option κ
  Answers : σ → β → α → ρ → Prop

namespace SharedObject

variable {σ β κ α ρ : Type} (object : SharedObject σ β κ α ρ)

/-- The calls that are carried out, in order. -/
def called (acts : List β) : List κ := acts.filterMap object.call

/-- The state in which the act at a position is carried out. -/
def stateAt (initial : σ) (acts : List β) (position : Nat) : σ :=
  Run.exec object.act initial (acts.take position)

variable {object} {acts more : List β} {k : κ}

theorem called_append : object.called (acts ++ more) = object.called acts ++ object.called more :=
  List.filterMap_append

theorem mem_called : k ∈ object.called acts ↔ ∃ b ∈ acts, object.call b = some k :=
  List.mem_filterMap

section Position

variable [DecidableEq κ]

variable (object) in
def position (acts : List β) (k : κ) : Nat := acts.findIdx fun b => object.call b = some k

theorem position_lt (hk : k ∈ object.called acts) : object.position acts k < acts.length := by
  rw [position, List.findIdx_lt_length]
  simpa using mem_called.mp hk

theorem position_append_of_mem (hk : k ∈ object.called acts) :
    object.position (acts ++ more) k = object.position acts k := by
  have hlt : acts.findIdx (fun b => decide (object.call b = some k)) < acts.length :=
    position_lt hk
  rw [position, position, List.findIdx_append, if_pos hlt]

theorem le_position_append (hk : k ∉ object.called acts) :
    acts.length ≤ object.position (acts ++ more) k := by
  have hnone : ¬ acts.findIdx (fun b => decide (object.call b = some k)) < acts.length := by
    rw [List.findIdx_lt_length]
    simpa [mem_called] using hk
  rw [position, List.findIdx_append, if_neg hnone]
  omega

/-- The position of a call that is carried out once. -/
theorem position_eq {i : Nat} {b : β} (honce : (object.called acts).Nodup)
    (hi : acts[i]? = some b) (hb : object.call b = some k) : object.position acts k = i := by
  induction acts generalizing i with
  | nil => simp at hi
  | cons first acts ih =>
      rw [position, List.findIdx_cons]
      cases i with
      | zero =>
          obtain rfl := Option.some.inj hi
          simp [hb]
      | succ i =>
          have hrest : acts[i]? = some b := hi
          have hk : k ∈ object.called acts := mem_called.mpr ⟨b, List.mem_of_getElem? hrest, hb⟩
          have hfirst : object.call first ≠ some k := by
            intro heq
            rw [called, List.filterMap_cons_some heq] at honce
            exact (List.nodup_cons.mp honce).1 hk
          have hrestOnce : (object.called acts).Nodup :=
            honce.sublist ((List.sublist_cons_self first acts).filterMap _)
          simp only [hfirst, decide_false, cond_false]
          exact congrArg (· + 1) (ih hrestOnce hrest)

end Position

end SharedObject

section

variable {S E σ β κ α ρ : Type}

/-- The acts linearize the run of a machine, with the calls at the positions. -/
structure Linearization (step : S → E → S) (calls : Calls S κ α ρ)
    (object : SharedObject σ β κ α ρ) (start : S) (initial : σ) (events : List E) (acts : List β)
    (position : κ → Nat) : Prop where
  answered : ∀ k a r, calls.Returned (Run.exec step start events) k a r →
    ∃ b, acts[position k]? = some b ∧ object.call b = some k ∧
      object.Answers (object.stateAt initial acts (position k)) b a r
  once : (object.called acts).Nodup
  begun : ∀ k ∈ object.called acts, calls.Began (Run.exec step start events) k
  ordered : ∀ before after, events = before ++ after → ∀ k a r k' a' r',
    calls.Returned (Run.exec step start before) k a r →
    ¬ calls.Began (Run.exec step start before) k' →
    calls.Returned (Run.exec step start events) k' a' r' → position k < position k'

/-- A machine that keeps a log of the acts. -/
structure Logs (calls : Calls S κ α ρ) (object : SharedObject σ β κ α ρ) (initial : σ)
    (log : S → List β) (s : S) : Prop where
  answered : ∀ k a r, calls.Returned s k a r →
    ∃ i b, (log s)[i]? = some b ∧ object.call b = some k ∧
      object.Answers (object.stateAt initial (log s) i) b a r
  once : (object.called (log s)).Nodup
  begun : ∀ k ∈ object.called (log s), calls.Began s k

variable {step : S → E → S} {calls : Calls S κ α ρ} {object : SharedObject σ β κ α ρ} {start : S}
  {initial : σ} {log : S → List β} {events : List E}

theorem Logs.mem_called {s : S} {k : κ} {a : α} {r : ρ} (h : Logs calls object initial log s)
    (hk : calls.Returned s k a r) : k ∈ object.called (log s) := by
  obtain ⟨i, b, hi, hb, -⟩ := h.answered k a r hk
  exact SharedObject.mem_called.mpr ⟨b, List.mem_of_getElem? hi, hb⟩

theorem prefix_exec (hgrows : ∀ s e, log s <+: log (step s e)) (s : S) (events : List E) :
    log s <+: log (Run.exec step s events) := by
  induction events generalizing s with
  | nil => exact List.prefix_refl _
  | cons e events ih => exact (hgrows s e).trans (ih (step s e))

/-- **Linearized by its log.** -/
theorem linearization_of_logs [DecidableEq κ] (hgrows : ∀ s e, log s <+: log (step s e))
    (hlogs : ∀ before after, events = before ++ after →
      Logs calls object initial log (Run.exec step start before)) :
    Linearization step calls object start initial events (log (Run.exec step start events))
      (object.position (log (Run.exec step start events))) := by
  have hlast := hlogs events [] (List.append_nil events).symm
  refine ⟨?_, hlast.once, hlast.begun, ?_⟩
  · intro k a r hk
    obtain ⟨i, b, hi, hb, hanswer⟩ := hlast.answered k a r hk
    rw [SharedObject.position_eq hlast.once hi hb]
    exact ⟨b, hi, hb, hanswer⟩
  · intro before after hevents k a r k' a' r' hk hk' hreturned
    have hbefore := hlogs before after hevents
    obtain ⟨more, hmore⟩ : log (Run.exec step start before) <+:
        log (Run.exec step start events) := by
      rw [hevents, Run.exec_append]
      exact prefix_exec hgrows _ _
    rw [← hmore]
    have hmem := hbefore.mem_called hk
    rw [SharedObject.position_append_of_mem hmem]
    exact Nat.lt_of_lt_of_le (SharedObject.position_lt hmem)
      (SharedObject.le_position_append fun hmem' => hk' (hbefore.begun k' hmem'))

/-! ### Another reading of the same acts -/

variable {β' α' ρ' : Type} {calls' : Calls S κ α' ρ'} {object' : SharedObject σ β' κ α' ρ'}
  {acts : List β} {position : κ → Nat} {read : β → β'} {ok : σ → β → Prop}

theorem exec_map (hact : ∀ s b, ok s b → object'.act s (read b) = object.act s b)
    (hok : Run.EachStep object.act ok initial acts) :
    Run.exec object'.act initial (acts.map read) = Run.exec object.act initial acts := by
  induction acts generalizing initial with
  | nil => rfl
  | cons b acts ih =>
      rw [List.map_cons, Run.exec_cons, Run.exec_cons, hact initial b hok.1]
      exact ih hok.2

theorem stateAt_map (hact : ∀ s b, ok s b → object'.act s (read b) = object.act s b)
    (hok : Run.EachStep object.act ok initial acts) (i : Nat) :
    object'.stateAt initial (acts.map read) i = object.stateAt initial acts i := by
  rw [SharedObject.stateAt, ← List.map_take]
  rw [← List.take_append_drop i acts, Run.eachStep_append] at hok
  exact exec_map hact hok.1

/-- **Refinement.** What linearizes a run of one object linearizes that of another one, if the acts
can be read as those of the latter, with the same effect and an answer that is read the same. -/
theorem Linearization.map (h : Linearization step calls object start initial events acts position)
    (hok : Run.EachStep object.act ok initial acts)
    (hact : ∀ s b, ok s b → object'.act s (read b) = object.act s b)
    (hcall : ∀ b ∈ acts, object'.call (read b) = object.call b)
    (hbegan : ∀ s k, calls'.Began s k ↔ calls.Began s k)
    (hreturned : ∀ before after, events = before ++ after → ∀ k a' r',
      calls'.Returned (Run.exec step start before) k a' r' →
      ∃ a r, calls.Returned (Run.exec step start before) k a r ∧
        ∀ s b, ok s b → object.Answers s b a r → object'.Answers s (read b) a' r') :
    Linearization step calls' object' start initial events (acts.map read) position := by
  have hcalled : object'.called (acts.map read) = object.called acts := by
    rw [SharedObject.called, SharedObject.called, List.filterMap_map]
    exact List.filterMap_congr hcall
  refine ⟨?_, hcalled ▸ h.once, ?_, ?_⟩
  · intro k a' r' hk
    obtain ⟨a, r, hk, hanswers⟩ := hreturned events [] (List.append_nil events).symm k a' r' hk
    obtain ⟨b, hb, hbcall, hanswer⟩ := h.answered k a r hk
    refine ⟨read b, by rw [List.getElem?_map, hb]; rfl, ?_, ?_⟩
    · rw [hcall b (List.mem_of_getElem? hb), hbcall]
    · rw [stateAt_map hact hok]
      apply hanswers _ b _ hanswer
      obtain ⟨hlt, rfl⟩ := List.getElem?_eq_some_iff.mp hb
      apply Run.eachStep_iff_split.mp hok (acts.take (position k)) _ (acts.drop (position k + 1))
      rw [List.getElem_cons_drop, List.take_append_drop]
  · intro k hk
    rw [hcalled] at hk
    exact (hbegan _ k).mpr (h.begun k hk)
  · intro before after hevents k a' r' k' a'' r'' hk hk' hlater
    obtain ⟨a, r, hk, -⟩ := hreturned before after hevents k a' r' hk
    obtain ⟨a', r', hlater, -⟩ :=
      hreturned events [] (List.append_nil events).symm k' a'' r'' hlater
    exact h.ordered before after hevents k a r k' a' r' hk
      (fun hbegun => hk' ((hbegan _ k').mpr hbegun)) hlater

end
