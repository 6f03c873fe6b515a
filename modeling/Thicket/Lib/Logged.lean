import Thicket.Lib.Result

/-!
# Runs with a log

A run that writes a log as it goes and in the end returns, raises, or is cut off before it has come
to either. What a run has written stays written however it ends. A rule for each way to put runs
together says what holds of the whole log.
-/

/-- What was written, and how the run ended, if it did. -/
structure Logged (E ε α : Type) where
  log : List E
  outcome : Option (Except ε α)

namespace Logged

variable {E ε α β : Type}

/-- The first run, and the second if the first returns. -/
def andThen (x : Logged E ε α) (f : α → Logged E ε β) : Logged E ε β :=
  match x.outcome with
  | some (.ok a) => { log := x.log ++ (f a).log, outcome := (f a).outcome }
  | some (.error e) => { log := x.log, outcome := some (.error e) }
  | none => { log := x.log, outcome := none }

instance : Monad (Logged E ε) where
  pure a := { log := [], outcome := some (.ok a) }
  bind := andThen

/-- Write one entry. -/
def tell (entry : E) : Logged E ε Unit := { log := [entry], outcome := some (.ok ()) }

/-- A step that writes nothing. -/
def ofExcept (x : Except ε α) : Logged E ε α := { log := [], outcome := some x }

/-- A run that is cut off. -/
def cutOff : Logged E ε α := { log := [], outcome := none }

variable {x : Logged E ε α} {f : α → Logged E ε β}

/-! ### How a run ends -/

/-- Runs that end as computations without a log do, end together as these do together. -/
theorem outcome_bind {r : Except ε α} {g : α → Except ε β} (hx : x.outcome = some r)
    (hf : ∀ a, r = .ok a → (f a).outcome = some (g a)) :
    (x >>= f).outcome = some (r >>= g) := by
  show (x.andThen f).outcome = _
  unfold andThen
  rw [hx]
  cases r with
  | error e => rfl
  | ok a => exact hf a rfl

/-! ### What a run has written -/

/-- The log of a run that returned is one of `P`, the log of any other is one of `Q`. -/
def Writes (x : Logged E ε α) (P : List E → α → Prop) (Q : List E → Prop) : Prop :=
  match x.outcome with
  | some (.ok a) => P x.log a
  | _ => Q x.log

variable {P : List E → α → Prop} {Q : List E → Prop}

theorem writes_pure {a : α} (h : P [] a) : (pure a : Logged E ε α).Writes P Q := h

theorem writes_tell {entry : E} {P : List E → Unit → Prop} (h : P [entry] ()) :
    (tell entry : Logged E ε Unit).Writes P Q := h

theorem writes_cutOff (h : Q []) : (cutOff : Logged E ε α).Writes P Q := h

theorem writes_ofExcept {r : Except ε α} (hok : ∀ a, r = .ok a → P [] a)
    (herror : ∀ e, r = .error e → Q []) : (ofExcept r : Logged E ε α).Writes P Q := by
  cases r with
  | error e => exact herror e rfl
  | ok a => exact hok a rfl

theorem Writes.of_ok (h : x.Writes P Q) {a : α} (hx : x.outcome = some (.ok a)) : P x.log a := by
  unfold Writes at h
  rw [hx] at h
  exact h

/-- What holds however the run ended. -/
theorem Writes.of_any (h : x.Writes P Q) {R : List E → Prop} (hP : ∀ log a, P log a → R log)
    (hQ : ∀ log, Q log → R log) : R x.log := by
  unfold Writes at h
  split at h
  · exact hP _ _ h
  · exact hQ _ h

theorem Writes.mono (h : x.Writes P Q) {P' : List E → α → Prop} {Q' : List E → Prop}
    (hP : ∀ log a, P log a → P' log a) (hQ : ∀ log, Q log → Q' log) : x.Writes P' Q' := by
  unfold Writes at h ⊢
  split at h
  · exact hP _ _ h
  · exact hQ _ h

/-- The log of two runs is what the first wrote, and then what the second did if it was reached. -/
theorem Writes.bind (hx : x.Writes P Q) {P' : List E → β → Prop} {Q' : List E → Prop}
    (hf : ∀ log a, P log a →
      (f a).Writes (fun more b => P' (log ++ more) b) fun more => Q' (log ++ more))
    (hQ : ∀ log, Q log → Q' log) : (x >>= f).Writes P' Q' := by
  show (x.andThen f).Writes P' Q'
  unfold andThen
  unfold Writes at hx
  split
  · next a ha =>
    rw [ha] at hx
    exact hf _ a hx
  · next e he =>
    rw [he] at hx
    exact hQ _ hx
  · next hn =>
    rw [hn] at hx
    exact hQ _ hx

end Logged
