import Thicket.Lib.Run
import Thicket.Net.Outgoing

/-!
# The senders of a Python connection

`Conn._send_signed` of `thicket/conn.py`, from the lock on: the task that holds the lock encrypts its
message and writes the frame in one go, and then waits until the transport has drained. A task that
waits for the lock, or in `drain`, may be cancelled.
-/

namespace Thicket.Py

open Cbor (Bytes)
open Net (Noise Fits plaintextChunks frameLength maxFrame nonceAfter counted Carries)

/-- What `write_frame` hands to the transport. -/
def writeFrame (payload : Bytes) : Except Exc Bytes :=
  if payload.length > maxFrame then .error .valueError
  else .ok (Net.delimited payload)

/-- The tasks that wait for `_write_lock`, the one that holds it, and what the transport was given.
`sent` holds the messages that were written, each with the nonce after it, and `results` how the
locked part of each `_send_signed` ended. -/
structure Sender where
  waiting : List (Nat × Bytes)
  holder : Option Nat
  nonce : Nat
  wire : Bytes
  sent : List (Bytes × Nat)
  results : List (Bytes × Except Exc Unit)

inductive SenderEvent where
  | send (task : Nat) (message : Bytes)
  | acquire (task : Nat)
  | drained (task : Nat)
  | cancel (task : Nat)

namespace Sender

def new : Sender :=
  { waiting := [], holder := none, nonce := 0, wire := [], sent := [], results := [] }

section

variable (encrypt : Nat → Bytes → Bytes)

/-- The locked part up to `drain`, which no other task interrupts. -/
def locked (self : Sender) (task : Nat) (message : Bytes) : Sender :=
  match Secure.encryptFrame encrypt self.nonce message with
  | (.error e, nonce) => { self with nonce, results := self.results ++ [(message, .error e)] }
  | (.ok frame, nonce) =>
      match writeFrame frame with
      | .error e => { self with nonce, results := self.results ++ [(message, .error e)] }
      | .ok bytes =>
          { self with holder := some task, nonce, wire := self.wire ++ bytes,
                      sent := self.sent ++ [(message, nonce)],
                      results := self.results ++ [(message, .ok ())] }

/-- `async with self._write_lock` -/
def acquire (self : Sender) (task : Nat) : Sender :=
  match self.holder, self.waiting.find? fun w => w.1 == task with
  | none, some (_, message) =>
      { self with waiting := self.waiting.eraseP fun w => w.1 == task }.locked encrypt task message
  | _, _ => self

end

/-- The end of `drain`, or its cancellation, releases the lock. -/
def release (self : Sender) (task : Nat) : Sender :=
  if self.holder = some task then { self with holder := none } else self

def cancel (self : Sender) (task : Nat) : Sender :=
  { self with waiting := self.waiting.eraseP fun w => w.1 == task }.release task

def step (encrypt : Nat → Bytes → Bytes) (self : Sender) : SenderEvent → Sender
  | .send task message => { self with waiting := self.waiting ++ [(task, message)] }
  | .acquire task => self.acquire encrypt task
  | .drained task => self.release task
  | .cancel task => self.cancel task

/-- The messages that were not written although they were encrypted. -/
def Wasted (message : Bytes) : Prop :=
  ¬Fits message ∧ (plaintextChunks message).length < 2 ^ 32

instance : DecidablePred Wasted := fun _ => inferInstanceAs (Decidable (_ ∧ _))

def wasted (self : Sender) : List Bytes := (self.results.map Prod.fst).filter fun m => Wasted m

/-! ### What a step does -/

variable {noise : Noise} {s : Sender} {message : Bytes}

theorem locked_of_fits (hfits : Fits message) (s : Sender) (task : Nat) :
    s.locked noise.write task message =
      { s with
        holder := some task, nonce := (Net.encryptFrame noise.write s.nonce message).2,
        wire := s.wire ++ Net.delimited (Net.encryptFrame noise.write s.nonce message).1,
        sent := s.sent ++ [(message, (Net.encryptFrame noise.write s.nonce message).2)],
        results := s.results ++ [(message, .ok ())] } := by
  have hframe : (Net.encryptFrame noise.write s.nonce message).1.length ≤ maxFrame := by
    rw [Net.length_encryptFrame]
    exact hfits
  have hwrite : writeFrame (Net.encryptFrame noise.write s.nonce message).1 =
      .ok (Net.delimited (Net.encryptFrame noise.write s.nonce message).1) := by
    rw [writeFrame, if_neg (by omega)]
  rw [locked, Secure.encryptFrame_eq noise s.nonce hfits.length_chunks]
  simp only [hwrite]

/-- A message that is too large is encrypted, unless its chunks cannot be counted. -/
theorem locked_of_not_fits (noise : Noise) (hfits : ¬Fits message) (s : Sender) (task : Nat) :
    s.locked noise.write task message =
      { s with nonce := s.nonce +
                 (if Wasted message then (plaintextChunks message).length else 0),
               results := s.results ++ [(message,
                 .error (if Wasted message then .valueError else .overflowError))] } := by
  by_cases hcount : (plaintextChunks message).length < 2 ^ 32
  · have hframe : ¬(Net.encryptFrame noise.write s.nonce message).1.length ≤ maxFrame := by
      rw [Net.length_encryptFrame]
      exact hfits
    have hwrite : writeFrame (Net.encryptFrame noise.write s.nonce message).1 =
        .error .valueError := by
      rw [writeFrame, if_pos (by omega)]
    have hwasted : Wasted message := ⟨hfits, hcount⟩
    rw [locked, Secure.encryptFrame_eq noise s.nonce hcount, if_pos hwasted, if_pos hwasted]
    simp only [hwrite]
    rfl
  · have hwasted : ¬Wasted message := fun hwasted => hcount hwasted.2
    rw [locked, Secure.encryptFrame_of_le noise s.nonce (by omega), if_neg hwasted, if_neg hwasted]
    rfl

theorem wasted_append (s : Sender) (r : Bytes × Except Exc Unit) :
    wasted { s with results := s.results ++ [r] } =
      s.wasted ++ (if Wasted r.1 then [r.1] else []) := by
  by_cases hw : Wasted r.1 <;> simp [wasted, List.filter_append, hw]

theorem acquire_of_find (noise : Noise) {task : Nat} (hholder : s.holder = none)
    (hfind : s.waiting.find? (fun w => w.1 == task) = some (task, message)) :
    s.acquire noise.write task =
      { s with waiting := s.waiting.eraseP fun w => w.1 == task }.locked noise.write task
        message := by
  unfold acquire
  split
  · next hfound =>
      rw [hfind] at hfound
      cases hfound
      rfl
  · next hother => exact absurd hfind (hother task message hholder)

theorem acquire_cases (noise : Noise) (s : Sender) (task : Nat) :
    s.acquire noise.write task = s ∨ ∃ message, s.holder = none ∧
      s.waiting.find? (fun w => w.1 == task) = some (task, message) ∧ s.acquire noise.write task =
        { s with waiting := s.waiting.eraseP fun w => w.1 == task }.locked noise.write task
          message := by
  unfold acquire
  split
  · next task' message hholder hfind =>
      have htask : task' = task := by simpa using List.find?_some hfind
      rw [htask] at hfind
      exact Or.inr ⟨message, hholder, hfind, rfl⟩
  · exact Or.inl rfl

/-- What holds however large the messages are. The nonce counts what was written and what was wasted,
and as long as nothing was wasted the wire carries what was written. -/
structure Inv (noise : Noise) (s : Sender) : Prop where
  nonce : s.nonce = nonceAfter (s.sent.map Prod.fst) + nonceAfter s.wasted
  stream : s.wasted = [] → s.sent = counted 0 (s.sent.map Prod.fst) ∧
    Carries noise (s.sent.map Prod.fst) (nonceAfter (s.sent.map Prod.fst)) s.wire
  sent : s.sent.map Prod.fst = (s.results.map Prod.fst).filter fun m => Fits m
  results : ∀ r ∈ s.results, (r.2 = .ok () ↔ Fits r.1)

theorem inv_new (noise : Noise) : Inv noise new := by
  refine ⟨rfl, fun _ => ⟨rfl, .nil noise⟩, rfl, ?_⟩
  intro r hr
  cases hr

theorem Inv.locked_fits (h : Inv noise s) (task : Nat) {message : Bytes} (hfits : Fits message) :
    Inv noise (s.locked noise.write task message) := by
  have hsame : wasted { s with results := s.results ++ [(message, .ok ())] } = s.wasted := by
    rw [wasted_append, if_neg fun hwasted => hwasted.1 hfits, List.append_nil]
  have hmap : (s.sent ++ [(message, (Net.encryptFrame noise.write s.nonce message).2)]).map
      Prod.fst = s.sent.map Prod.fst ++ [message] := by
    rw [List.map_append]
    rfl
  rw [locked_of_fits hfits]
  refine ⟨?_, ?_, ?_, ?_⟩
  · change s.nonce + (plaintextChunks message).length = nonceAfter ((s.sent ++ [_]).map _) +
      nonceAfter (wasted { s with results := s.results ++ [(message, .ok ())] })
    rw [hsame, hmap, Net.nonceAfter_append, h.nonce]
    omega
  · intro hnone
    have hclean : s.wasted = [] := hsame.symm.trans hnone
    obtain ⟨hcounted, hcarries⟩ := h.stream hclean
    have hnonce : s.nonce = nonceAfter (s.sent.map Prod.fst) := by
      rw [h.nonce, hclean]
      rfl
    have hnext : (Net.encryptFrame noise.write s.nonce message).2 =
        nonceAfter (s.sent.map Prod.fst ++ [message]) := by
      rw [Net.nonceAfter_append, ← hnonce]
      rfl
    have hput := hcarries.put hfits
    rw [← hnonce] at hput
    refine ⟨?_, ?_⟩
    · change s.sent ++ [_] = counted 0 ((s.sent ++ [_]).map Prod.fst)
      rw [hmap, Net.counted_append, ← hcounted, hnext, Nat.zero_add]
    · change Carries noise ((s.sent ++ [_]).map Prod.fst)
        (nonceAfter ((s.sent ++ [_]).map Prod.fst)) (s.wire ++ _)
      rw [hmap, ← hnext]
      exact hput
  · change (s.sent ++ [_]).map Prod.fst = ((s.results ++ [_]).map Prod.fst).filter _
    rw [hmap, h.sent]
    simp [List.filter_append, hfits]
  · intro r hr
    rcases List.mem_append.mp hr with hr | hr
    · exact h.results r hr
    · rw [List.mem_singleton.mp hr]
      exact iff_of_true rfl hfits

/-- A message that is refused wastes its nonces, if it was encrypted. -/
theorem Inv.locked_refused (h : Inv noise s) (task : Nat) {message : Bytes}
    (hfits : ¬Fits message) : Inv noise (s.locked noise.write task message) := by
  have hwasted : ∀ e, wasted { s with results := s.results ++ [(message, .error e)] } =
      s.wasted ++ (if Wasted message then [message] else []) :=
    fun e => wasted_append s (message, .error e)
  rw [locked_of_not_fits noise hfits]
  refine ⟨?_, ?_, ?_, ?_⟩
  · change s.nonce + _ = nonceAfter (s.sent.map Prod.fst) +
      nonceAfter (wasted { s with results := s.results ++ [(message, .error _)] })
    rw [hwasted, h.nonce]
    by_cases hw : Wasted message
    · rw [if_pos hw, if_pos hw, Net.nonceAfter_append]
      omega
    · rw [if_neg hw, if_neg hw, List.append_nil, Nat.add_zero]
  · intro hnone
    apply h.stream
    exact (List.append_eq_nil_iff.mp ((hwasted _).symm.trans hnone)).1
  · change s.sent.map Prod.fst = ((s.results ++ [_]).map Prod.fst).filter _
    rw [h.sent]
    simp [List.filter_append, hfits]
  · intro r hr
    rcases List.mem_append.mp hr with hr | hr
    · exact h.results r hr
    · rw [List.mem_singleton.mp hr]
      exact iff_of_false (by intro hok; cases hok) hfits

theorem Inv.locked (h : Inv noise s) (task : Nat) (message : Bytes) :
    Inv noise (s.locked noise.write task message) := by
  by_cases hfits : Fits message
  · exact h.locked_fits task hfits
  · exact h.locked_refused task hfits

theorem Inv.release (h : Inv noise s) (task : Nat) : Inv noise (s.release task) := by
  unfold Sender.release
  split_ifs
  · exact ⟨h.nonce, h.stream, h.sent, h.results⟩
  · exact h

theorem Inv.step (h : Inv noise s) (event : SenderEvent) :
    Inv noise (s.step noise.write event) := by
  cases event with
  | send task message => exact ⟨h.nonce, h.stream, h.sent, h.results⟩
  | acquire task =>
      rcases acquire_cases noise s task with heq | ⟨message, -, -, heq⟩
      · change Inv noise (s.acquire noise.write task)
        rw [heq]
        exact h
      · change Inv noise (s.acquire noise.write task)
        rw [heq]
        apply Inv.locked
        exact ⟨h.nonce, h.stream, h.sent, h.results⟩
  | drained task => exact h.release task
  | cancel task =>
      apply Inv.release
      exact ⟨h.nonce, h.stream, h.sent, h.results⟩

end Sender

end Thicket.Py
