import Mathlib.Tactic.Common

/-!
# Code that changes a state and may raise

What was changed before something is raised stays changed. A triple says what holds after the code
has returned and what holds after it has raised; there is one rule for each way to build code.
-/

/-- Code that reads and changes a state of type `σ` and returns an `α` or raises an `ε`. -/
def Raising (σ ε α : Type) : Type := σ → Except ε α × σ

namespace Raising

variable {σ ε ε' α β : Type}

instance : Monad (Raising σ ε) where
  pure a s := (.ok a, s)
  bind x f s :=
    match x s with
    | (.ok a, s') => f a s'
    | (.error e, s') => (.error e, s')

def raise (e : ε) : Raising σ ε α := fun s => (.error e, s)

def read : Raising σ ε σ := fun s => (.ok s, s)

def change (f : σ → σ) : Raising σ ε Unit := fun s => (.ok (), f s)

/-- A result that does not depend on the state. -/
def outcome (x : Except ε α) : Raising σ ε α := fun s => (x, s)

/-- `try: x except …: handler` -/
def attempt (x : Raising σ ε α) (handler : ε → Raising σ ε α) : Raising σ ε α := fun s =>
  match x s with
  | (.ok a, s') => (.ok a, s')
  | (.error e, s') => handler e s'

/-- The code has returned with `Q` or raised with `E`. -/
def Meets (Q : α → σ → Prop) (E : ε → σ → Prop) : Except ε α × σ → Prop
  | (.ok a, s) => Q a s
  | (.error e, s) => E e s

/-- From a state that meets `P` the code returns with `Q` or raises with `E`. -/
def Triple (P : σ → Prop) (x : Raising σ ε α) (Q : α → σ → Prop) (E : ε → σ → Prop) : Prop :=
  ∀ s, P s → Meets Q E (x s)

variable {P P' : σ → Prop} {Q Q' : α → σ → Prop} {R : β → σ → Prop} {E E' : ε → σ → Prop}
  {x : Raising σ ε α} {f : α → Raising σ ε β} {handler : ε → Raising σ ε α}

theorem Triple.pure {a : α} : Triple (Q a) (Pure.pure a : Raising σ ε α) Q E := fun _ h => h

theorem Triple.raise {e : ε} : Triple (E e) (Raising.raise e) Q E := fun _ h => h

theorem Triple.read {Q : σ → σ → Prop} : Triple (fun s => Q s s) Raising.read Q E := fun _ h => h

theorem Triple.change {g : σ → σ} {Q : Unit → σ → Prop} :
    Triple (fun s => Q () (g s)) (Raising.change g) Q E := fun _ h => h

theorem Triple.outcome {r : Except ε α} :
    Triple (fun s => Meets Q E (r, s)) (Raising.outcome r) Q E := fun _ h => h

theorem read_bind {f : σ → Raising σ ε α} (s : σ) : (Raising.read >>= f) s = f s s := rfl

theorem bind_of_ok {a : α} {s s' : σ} (h : x s = (.ok a, s')) : (x >>= f) s = f a s' := by
  show (match x s with
    | (.ok a, s') => f a s'
    | (.error e, s') => (.error e, s')) = _
  rw [h]

theorem bind_of_error {e : ε} {s s' : σ} (h : x s = (.error e, s')) :
    (x >>= f) s = (.error e, s') := by
  show (match x s with
    | (.ok a, s') => f a s'
    | (.error e, s') => (.error e, s')) = _
  rw [h]

/-- What the first part raises, the whole raises. -/
theorem Triple.bind (hx : Triple P x Q E) (hf : ∀ a, Triple (Q a) (f a) R E) :
    Triple P (x >>= f) R E := by
  intro s h
  have hs := hx s h
  show Meets R E (match x s with
    | (.ok a, s') => f a s'
    | (.error e, s') => (.error e, s'))
  generalize x s = r at hs ⊢
  obtain ⟨e | a, s'⟩ := r
  · exact hs
  · exact hf a s' hs

theorem Triple.attempt (hx : Triple P x Q E') (hhandler : ∀ e, Triple (E' e) (handler e) Q E) :
    Triple P (Raising.attempt x handler) Q E := by
  intro s h
  have hs := hx s h
  show Meets Q E (match x s with
    | (.ok a, s') => (.ok a, s')
    | (.error e, s') => handler e s')
  generalize x s = r at hs ⊢
  obtain ⟨e | a, s'⟩ := r
  · exact hhandler e s' hs
  · exact hs

theorem Triple.weaken (h : Triple P x Q E) (hP : ∀ s, P' s → P s) (hQ : ∀ a s, Q a s → Q' a s)
    (hE : ∀ e s, E e s → E' e s) : Triple P' x Q' E' := by
  intro s hs
  have h := h s (hP s hs)
  generalize x s = r at h ⊢
  obtain ⟨e | a, s'⟩ := r
  · exact hE e s' h
  · exact hQ a s' h

end Raising
