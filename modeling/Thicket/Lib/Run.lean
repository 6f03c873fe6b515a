import Mathlib.Data.List.Basic
import Mathlib.Order.Defs.PartialOrder

/-!
# Runs of a state machine

A machine is a total step function; a run is a list of operations. An invariant is proved once for
a step and then holds in every state a run goes through, and when a step keeps the invariant exactly
under some condition on the state and the operation, the runs that keep it are exactly the runs all
of whose steps meet the condition.
-/

namespace Run

variable {σ ω : Type*} (step : σ → ω → σ)

def exec (s : σ) (ops : List ω) : σ := ops.foldl step s

/-- The states a run goes through, the first and the last included. -/
def states (s : σ) : List ω → List σ
  | [] => [s]
  | op :: ops => s :: states (step s op) ops

/-- Every operation of a run meets `ok` in the state it is applied to. -/
def EachStep (ok : σ → ω → Prop) : σ → List ω → Prop
  | _, [] => True
  | s, op :: ops => ok s op ∧ EachStep ok (step s op) ops

variable {step} {s : σ} {op : ω} {ops : List ω} {ok : σ → ω → Prop} {Inv : σ → Prop}

instance decidableEachStep [∀ s op, Decidable (ok s op)] :
    ∀ (s : σ) (ops : List ω), Decidable (EachStep step ok s ops)
  | _, [] => .isTrue trivial
  | s, op :: ops =>
      have := decidableEachStep (step s op) ops
      inferInstanceAs (Decidable (ok s op ∧ EachStep step ok (step s op) ops))

@[simp] theorem exec_nil : exec step s [] = s := rfl

@[simp] theorem exec_cons : exec step s (op :: ops) = exec step (step s op) ops := rfl

theorem exec_append (more : List ω) :
    exec step s (ops ++ more) = exec step (exec step s ops) more :=
  List.foldl_append

theorem exec_mem_states : exec step s ops ∈ states step s ops := by
  induction ops generalizing s with
  | nil => exact List.mem_singleton_self s
  | cons op ops ih => exact List.mem_cons_of_mem _ ih

theorem eachStep_of_forall (h : ∀ s op, ok s op) : EachStep step ok s ops := by
  induction ops generalizing s with
  | nil => trivial
  | cons op ops ih => exact ⟨h s op, ih⟩

/-- A condition on the operations alone. -/
theorem eachStep_of_mem {ok : ω → Prop} (h : ∀ op ∈ ops, ok op) :
    EachStep step (fun _ op => ok op) s ops := by
  induction ops generalizing s with
  | nil => trivial
  | cons op ops ih =>
      exact ⟨h op List.mem_cons_self, ih fun o ho => h o (List.mem_cons_of_mem _ ho)⟩

theorem EachStep.imp {ok' : σ → ω → Prop} (h : ∀ s op, ok s op → ok' s op)
    (hok : EachStep step ok s ops) : EachStep step ok' s ops := by
  induction ops generalizing s with
  | nil => trivial
  | cons op ops ih => exact ⟨h s op hok.1, ih hok.2⟩

theorem eachStep_append {more : List ω} : EachStep step ok s (ops ++ more) ↔
    EachStep step ok s ops ∧ EachStep step ok (exec step s ops) more := by
  induction ops generalizing s with
  | nil => exact (and_iff_right trivial).symm
  | cons op ops ih =>
      rw [List.cons_append, EachStep, EachStep, exec_cons, ih, and_assoc]

/-- An invariant of the allowed steps may be assumed of each of them. -/
theorem EachStep.and_invariant (hstep : ∀ s op, Inv s → ok s op → Inv (step s op)) (hs : Inv s)
    (hok : EachStep step ok s ops) : EachStep step (fun s op => Inv s ∧ ok s op) s ops := by
  induction ops generalizing s with
  | nil => trivial
  | cons op ops ih => exact ⟨⟨hs, hok.1⟩, ih (hstep s op hs hok.1) hok.2⟩

/-- A run meets a condition step by step if it does after each of its first parts. -/
theorem eachStep_iff_split : EachStep step ok s ops ↔
    ∀ front op rest, ops = front ++ op :: rest → ok (exec step s front) op := by
  induction ops generalizing s with
  | nil => exact iff_of_true trivial fun front op rest h => absurd h (by simp)
  | cons op ops ih =>
      rw [EachStep, ih]
      constructor
      · intro ⟨hop, hops⟩ front o rest h
        cases front with
        | nil =>
            obtain ⟨rfl, -⟩ := List.cons.inj h
            exact hop
        | cons first front =>
            obtain ⟨rfl, htail⟩ := List.cons.inj h
            exact hops front o rest htail
      · intro h
        refine ⟨h [] op ops rfl, ?_⟩
        intro front o rest hops
        exact h (op :: front) o rest (congrArg (op :: ·) hops)

/-- What every allowed step preserves holds in every state of a run of allowed steps. -/
theorem states_invariant (hstep : ∀ s op, Inv s → ok s op → Inv (step s op)) (hs : Inv s)
    (hok : EachStep step ok s ops) : ∀ t ∈ states step s ops, Inv t := by
  induction ops generalizing s with
  | nil =>
      intro t ht
      rw [List.mem_singleton.mp ht]
      exact hs
  | cons op ops ih =>
      intro t ht
      rcases List.mem_cons.mp ht with rfl | ht
      · exact hs
      · exact ih (hstep s op hs hok.1) hok.2 t ht

/-- An invariant of every step, whatever the operation. -/
theorem states_preserves (Inv : σ → Prop) (hstep : ∀ s op, Inv s → Inv (step s op)) (hs : Inv s)
    (ops : List ω) : ∀ t ∈ states step s ops, Inv t := by
  have hok : EachStep step (fun _ _ => True) s ops := eachStep_of_forall fun _ _ => trivial
  exact states_invariant (fun s op hs _ => hstep s op hs) hs hok

/-- An invariant of the steps whose operations meet a condition. -/
theorem states_of_mem (Inv : σ → Prop) {ok : ω → Prop}
    (hstep : ∀ s op, Inv s → ok op → Inv (step s op)) (hs : Inv s) (hops : ∀ op ∈ ops, ok op) :
    ∀ t ∈ states step s ops, Inv t :=
  states_invariant hstep hs (eachStep_of_mem hops)

theorem exec_preserves (Inv : σ → Prop) (hstep : ∀ s op, Inv s → Inv (step s op)) (hs : Inv s)
    (ops : List ω) : Inv (exec step s ops) :=
  states_preserves Inv hstep hs ops _ exec_mem_states

/-- Under an invariant of the allowed steps, let a step keep a property just when it is allowed. Then
a run has the property in every state just when all its steps are allowed. -/
theorem states_property_iff {P : σ → Prop} (hproperty : ∀ s, Inv s → P s)
    (hstep : ∀ s op, Inv s → (P (step s op) ↔ ok s op))
    (hkeep : ∀ s op, Inv s → ok s op → Inv (step s op)) (hs : Inv s) :
    (∀ t ∈ states step s ops, P t) ↔ EachStep step ok s ops := by
  constructor
  · intro hall
    induction ops generalizing s with
    | nil => trivial
    | cons op ops ih =>
        have hnext : P (step s op) := by
          apply hall
          cases ops <;> simp [states]
        have hop := (hstep s op hs).mp hnext
        exact ⟨hop, ih (hkeep s op hs hop) fun t ht => hall t (List.mem_cons_of_mem _ ht)⟩
  · intro hok t ht
    exact hproperty t (states_invariant hkeep hs hok t ht)

/-- **Exactly the allowed runs.** If a step keeps the invariant just when it is allowed, a run keeps
the invariant in every state just when all its steps are allowed. -/
theorem states_invariant_iff (hstep : ∀ s op, Inv s → (Inv (step s op) ↔ ok s op)) (hs : Inv s) :
    (∀ t ∈ states step s ops, Inv t) ↔ EachStep step ok s ops :=
  states_property_iff (fun _ hs => hs) hstep (fun s op hs hok => (hstep s op hs).mpr hok) hs

/-- Two conditions on steps that agree under an invariant, which the second one keeps, are met by the
same runs. -/
theorem eachStep_congr {ok' : σ → ω → Prop} (h : ∀ s op, Inv s → (ok s op ↔ ok' s op))
    (hstep : ∀ s op, Inv s → ok' s op → Inv (step s op)) (hs : Inv s) :
    EachStep step ok s ops ↔ EachStep step ok' s ops := by
  induction ops generalizing s with
  | nil => exact Iff.rfl
  | cons op ops ih =>
      rw [EachStep, EachStep, h s op hs]
      exact and_congr_right fun hop => ih (hstep s op hs hop)

/-- A relation that every allowed step respects relates the ends of a run of allowed steps. -/
theorem exec_related {r : σ → σ → Prop} (hrefl : ∀ s, r s s)
    (htrans : ∀ s t u, r s t → r t u → r s u) (hstep : ∀ s op, ok s op → r s (step s op))
    (hok : EachStep step ok s ops) : r s (exec step s ops) := by
  induction ops generalizing s with
  | nil => exact hrefl s
  | cons op ops ih => exact htrans _ _ _ (hstep s op hok.1) (ih hok.2)

/-! ### Machines that answer -/

variable (step) in
/-- What the operations of a run answer. -/
def answers {α : Type*} (answer : σ → ω → α) (s : σ) : List ω → List α
  | [] => []
  | op :: ops => answer s op :: answers answer (step s op) ops

/-- **Lockstep.** Let two related states answer an operation alike just when it is allowed, and be
related again after an allowed one. Then two runs from them answer alike just when all their steps
are allowed. -/
theorem answers_eq_iff {α : Type*} {answer : σ → ω → α} {r : σ → σ → Prop} {ok : σ × σ → ω → Prop}
    {t : σ} (hanswer : ∀ s t op, r s t → op ∈ ops → (answer s op = answer t op ↔ ok (s, t) op))
    (hstep : ∀ s t op, r s t → op ∈ ops → ok (s, t) op → r (step s op) (step t op)) (h : r s t) :
    answers step answer s ops = answers step answer t ops ↔
      EachStep (fun pair op => (step pair.1 op, step pair.2 op)) ok (s, t) ops := by
  induction ops generalizing s t with
  | nil => exact iff_of_true rfl trivial
  | cons op ops ih =>
      have hop : op ∈ op :: ops := List.mem_cons_self
      rw [answers, answers, List.cons.injEq, EachStep, hanswer s t op h hop]
      apply and_congr_right
      intro hok
      apply ih
      · exact fun s t o hst ho => hanswer s t o hst (List.mem_cons_of_mem _ ho)
      · exact fun s t o hst ho => hstep s t o hst (List.mem_cons_of_mem _ ho)
      · exact hstep s t op h hop hok

/-- **Unwinding.** Let a relation be kept by a relevant operation on both sides and by an irrelevant
one on the left side. Then a run is related to the run of its relevant operations alone. -/
theorem exec_filter {r : σ → σ → Prop} {relevant : ω → Bool}
    (hboth : ∀ s t op, relevant op = true → r s t → r (step s op) (step t op))
    (hleft : ∀ s t op, relevant op = false → r s t → r (step s op) t) {t : σ} (h : r s t)
    (ops : List ω) : r (exec step s ops) (exec step t (ops.filter relevant)) := by
  induction ops generalizing s t with
  | nil => exact h
  | cons op ops ih =>
      cases hop : relevant op with
      | true =>
          rw [List.filter_cons_of_pos hop]
          exact ih (hboth s t op hop h)
      | false =>
          rw [List.filter_cons_of_neg (by simp [hop])]
          exact ih (hleft s t op hop h)

end Run
