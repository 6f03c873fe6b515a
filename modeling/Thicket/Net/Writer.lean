import Thicket.Lib.Run
import Thicket.Net.Outgoing

/-!
# The writer of a connection

Senders hand their messages to a bounded queue and return; one task takes them from it, encrypts each
and writes its frame. A sender that waits for room may be cancelled. What the task encrypts it writes,
unless the frame is too large: then it stops, and its queue with it.
-/

namespace Thicket.Net

open Cbor (Bytes)

/-- The capacity of the queue of outgoing messages. -/
def outCapacity : Nat := 256

/-- The writer task and the senders: those that wait for room in the queue, the queue, the bytes of a
frame that are still to be written, and what is on the wire. `sent` holds the messages whose frames the
task went on to write, each with the nonce after it, and `results` what each `send` returned. -/
structure Writer where
  waiting : List (Nat × Bytes)
  queue : List Bytes
  nonce : Nat
  outgoing : Bytes
  wire : Bytes
  running : Bool
  sent : List (Bytes × Nat)
  results : List (Bytes × Except NetError Unit)

inductive WriterEvent where
  | send (sender : Nat) (message : Bytes)
  | finish (sender : Nat)
  | cancel (sender : Nat)
  | take
  | write (n : Nat)

namespace Writer

def new : Writer :=
  { waiting := [], queue := [], nonce := 0, outgoing := [], wire := [], running := true, sent := [],
    results := [] }

/-- `out_tx.send(message)` goes through as soon as there is room, or fails on a closed queue. -/
def finish (self : Writer) (sender : Nat) : Writer :=
  match self.waiting.find? fun w => w.1 == sender with
  | none => self
  | some (_, message) =>
      let waiting := self.waiting.eraseP fun w => w.1 == sender
      if self.running then
        if self.queue.length < outCapacity then
          { self with waiting, queue := self.queue ++ [message],
                      results := self.results ++ [(message, .ok ())] }
        else self
      else { self with waiting, results := self.results ++ [(message, .error .closed)] }

def cancel (self : Writer) (sender : Nat) : Writer :=
  { self with waiting := self.waiting.eraseP fun w => w.1 == sender }

variable (writeMessage : Nat → Bytes → Bytes)

/-- The task receives the next message, encrypts it and begins to write its frame. -/
def take (self : Writer) : Writer :=
  match self.queue with
  | [] => self
  | message :: queue =>
      if self.running ∧ self.outgoing = [] then
        let (frame, nonce) := encryptFrame writeMessage self.nonce message
        match writeFrame frame with
        | .ok outgoing =>
            { self with queue, nonce, outgoing, sent := self.sent ++ [(message, nonce)] }
        | .error _ => { self with queue := [], nonce, running := false }
      else self

/-- The next `n` bytes of the frame get on the wire. -/
def write (self : Writer) (n : Nat) : Writer :=
  { self with outgoing := self.outgoing.drop n, wire := self.wire ++ self.outgoing.take n }

def step (self : Writer) : WriterEvent → Writer
  | .send sender message => { self with waiting := self.waiting ++ [(sender, message)] }
  | .finish sender => self.finish sender
  | .cancel sender => self.cancel sender
  | .take => self.take writeMessage
  | .write n => self.write n

/-- The messages that were handed over, in order: those on the wire and those in the queue. -/
def handedOver (self : Writer) : List Bytes := self.sent.map Prod.fst ++ self.queue

/-- The messages whose `send` returned without an error, in order. -/
def accepted (self : Writer) : List Bytes :=
  (self.results.filter fun r => r.2.isOk).map Prod.fst

/-! ### What a step does -/

variable {noise : Noise} {s : Writer} {message : Bytes}

theorem finish_cases (s : Writer) (sender : Nat) : s.finish sender = s ∨
    ∃ message, s.waiting.find? (fun w => w.1 == sender) = some (sender, message) ∧
      (s.running = true ∧ s.queue.length < outCapacity ∧ s.finish sender =
        { s with waiting := s.waiting.eraseP fun w => w.1 == sender,
                 queue := s.queue ++ [message], results := s.results ++ [(message, .ok ())] } ∨
      s.running = false ∧ s.finish sender =
        { s with waiting := s.waiting.eraseP fun w => w.1 == sender,
                 results := s.results ++ [(message, .error .closed)] }) := by
  unfold finish
  split
  · exact Or.inl rfl
  · next sender' message hfind =>
      have hsender : sender' = sender := by simpa using List.find?_some hfind
      rw [hsender] at hfind
      split_ifs with hrunning hroom
      · exact Or.inr ⟨message, hfind, Or.inl ⟨hrunning, hroom, rfl⟩⟩
      · exact Or.inl rfl
      · rw [Bool.not_eq_true] at hrunning
        exact Or.inr ⟨message, hfind, Or.inr ⟨hrunning, rfl⟩⟩

theorem take_of_fits (noise : Noise) {queue : List Bytes} (hqueue : s.queue = message :: queue)
    (hidle : s.running = true ∧ s.outgoing = []) (hfits : Fits message) :
    s.take noise.write =
      { s with queue, nonce := (encryptFrame noise.write s.nonce message).2,
               outgoing := delimited (encryptFrame noise.write s.nonce message).1,
               sent := s.sent ++ [(message, (encryptFrame noise.write s.nonce message).2)] } := by
  have hlen := length_encryptFrame noise s.nonce message
  have hwrite : writeFrame (encryptFrame noise.write s.nonce message).1 =
      .ok (delimited (encryptFrame noise.write s.nonce message).1) :=
    writeFrame_eq_ok.mpr ⟨hlen ▸ hfits, rfl⟩
  simp only [take, hqueue, if_pos hidle, hwrite]

/-- The task has encrypted the message when it stops. -/
theorem take_of_not_fits (noise : Noise) {queue : List Bytes} (hqueue : s.queue = message :: queue)
    (hidle : s.running = true ∧ s.outgoing = []) (hfits : ¬Fits message) :
    s.take noise.write =
      { s with queue := [], nonce := (encryptFrame noise.write s.nonce message).2,
               running := false } := by
  have hlen := length_encryptFrame noise s.nonce message
  have hwrite : writeFrame (encryptFrame noise.write s.nonce message).1 =
      .error .frameTooLarge := by
    unfold Fits at hfits
    rw [writeFrame, if_pos (by omega)]
  simp only [take, hqueue, if_pos hidle, hwrite]

theorem take_cases (noise : Noise) (s : Writer) : s.take noise.write = s ∨
    ∃ message queue, s.queue = message :: queue ∧ s.running = true ∧ s.outgoing = [] ∧
      (Fits message ∧ s.take noise.write =
        { s with queue, nonce := (encryptFrame noise.write s.nonce message).2,
                 outgoing := delimited (encryptFrame noise.write s.nonce message).1,
                 sent := s.sent ++ [(message, (encryptFrame noise.write s.nonce message).2)] } ∨
      ¬Fits message ∧ s.take noise.write =
        { s with queue := [], nonce := (encryptFrame noise.write s.nonce message).2,
                 running := false }) := by
  cases hqueue : s.queue with
  | nil =>
      left
      rw [take, hqueue]
  | cons message queue =>
      by_cases hidle : s.running = true ∧ s.outgoing = []
      · refine Or.inr ⟨message, queue, rfl, hidle.1, hidle.2, ?_⟩
        by_cases hfits : Fits message
        · exact Or.inl ⟨hfits, take_of_fits noise hqueue hidle hfits⟩
        · exact Or.inr ⟨hfits, take_of_not_fits noise hqueue hidle hfits⟩
      · left
        simp only [take, hqueue, if_neg hidle]

/-- What holds however large the messages are. While the task runs, everything that was encrypted is
written; it stops only at a message that is too large, whose `send` had returned without an error. -/
structure Inv (noise : Noise) (s : Writer) : Prop where
  sent : s.sent = counted 0 (s.sent.map Prod.fst)
  stream : Carries noise (s.sent.map Prod.fst) (nonceAfter (s.sent.map Prod.fst))
    (s.wire ++ s.outgoing)
  nonce : s.running = true → s.nonce = nonceAfter (s.sent.map Prod.fst)
  accepted : s.running = true → s.accepted = s.handedOver
  stopped : s.running = false → ∃ message ∈ s.accepted, ¬Fits message
  failed : ∀ r ∈ s.results, r.2 = .ok () ∨ r.2 = .error .closed ∧ s.running = false

theorem inv_new (noise : Noise) : Inv noise new := by
  refine ⟨rfl, .nil noise, fun _ => rfl, fun _ => rfl, fun h => ?_, fun r hr => ?_⟩
  · cases h
  · cases hr

theorem accepted_append_ok (s : Writer) (message : Bytes) :
    accepted { s with results := s.results ++ [(message, .ok ())] } = s.accepted ++ [message] := by
  simp [accepted, List.filter_append, Except.isOk, Except.toBool]

theorem accepted_append_error (s : Writer) (message : Bytes) (e : NetError) :
    accepted { s with results := s.results ++ [(message, .error e)] } = s.accepted := by
  simp [accepted, List.filter_append, Except.isOk, Except.toBool]

theorem Inv.finish (h : Inv noise s) (sender : Nat) : Inv noise (s.finish sender) := by
  rcases finish_cases s sender with heq | ⟨message, -, ⟨hrunning, -, heq⟩ | ⟨hstopped, heq⟩⟩
  · rw [heq]
    exact h
  · rw [heq]
    refine ⟨h.sent, h.stream, h.nonce, ?_, ?_, ?_⟩
    · intro _
      have hok := accepted_append_ok s message
      change Writer.accepted { s with results := s.results ++ [(message, .ok ())] } = _ ++ (_ ++ _)
      rw [hok, h.accepted hrunning, handedOver, List.append_assoc]
    · intro hstopped
      exact absurd (hrunning.symm.trans hstopped) (by decide)
    · intro r hr
      rcases List.mem_append.mp hr with hr | hr
      · exact h.failed r hr
      · rw [List.mem_singleton.mp hr]
        exact Or.inl rfl
  · rw [heq]
    refine ⟨h.sent, h.stream, h.nonce, ?_, ?_, ?_⟩
    · intro hrunning
      exact absurd (hrunning.symm.trans hstopped) (by decide)
    · intro _
      have herror := accepted_append_error s message .closed
      change ∃ m ∈ Writer.accepted { s with results := s.results ++ [(message, .error .closed)] }, _
      rw [herror]
      exact h.stopped hstopped
    · intro r hr
      rcases List.mem_append.mp hr with hr | hr
      · exact h.failed r hr
      · rw [List.mem_singleton.mp hr]
        exact Or.inr ⟨rfl, hstopped⟩

theorem Inv.take (h : Inv noise s) : Inv noise (s.take noise.write) := by
  rcases take_cases noise s with heq | ⟨message, queue, hqueue, hrunning, hidle, hcases⟩
  · rw [heq]
    exact h
  have hnonce := h.nonce hrunning
  have haccepted : s.accepted = s.sent.map Prod.fst ++ message :: queue := by
    rw [h.accepted hrunning, handedOver, hqueue]
  rcases hcases with ⟨hfits, heq⟩ | ⟨hlarge, heq⟩
  · have hmap : (s.sent ++ [(message, (encryptFrame noise.write s.nonce message).2)]).map Prod.fst =
        s.sent.map Prod.fst ++ [message] := by
      rw [List.map_append]
      rfl
    have hnext : (encryptFrame noise.write s.nonce message).2 =
        nonceAfter (s.sent.map Prod.fst ++ [message]) := by
      rw [nonceAfter_append, ← hnonce]
      rfl
    rw [heq]
    refine ⟨?_, ?_, ?_, ?_, ?_, ?_⟩
    · change s.sent ++ [_] = counted 0 ((s.sent ++ [_]).map Prod.fst)
      rw [hmap, counted_append, ← h.sent, hnext, Nat.zero_add]
    · change Carries noise ((s.sent ++ [_]).map Prod.fst) (nonceAfter ((s.sent ++ [_]).map Prod.fst))
        (s.wire ++ _)
      have hput := h.stream.put hfits
      rw [hidle, List.append_nil, ← hnonce] at hput
      rw [hmap, ← hnext]
      exact hput
    · intro _
      change _ = nonceAfter ((s.sent ++ [_]).map Prod.fst)
      rw [hmap]
      exact hnext
    · intro _
      change s.accepted = (s.sent ++ [_]).map Prod.fst ++ queue
      rw [hmap, haccepted, List.append_assoc]
      rfl
    · intro hstopped
      exact absurd (hrunning.symm.trans hstopped) (by decide)
    · exact h.failed
  · rw [heq]
    refine ⟨h.sent, h.stream, ?_, ?_, ?_, ?_⟩
    · intro hfalse
      cases hfalse
    · intro hfalse
      cases hfalse
    · intro _
      refine ⟨message, ?_, hlarge⟩
      change message ∈ s.accepted
      rw [haccepted]
      exact List.mem_append_right _ List.mem_cons_self
    · intro r hr
      rcases h.failed r hr with hok | ⟨-, hstopped⟩
      · exact Or.inl hok
      · exact absurd (hrunning.symm.trans hstopped) (by decide)

theorem Inv.step (h : Inv noise s) (event : WriterEvent) :
    Inv noise (s.step noise.write event) := by
  cases event with
  | send sender message => exact ⟨h.sent, h.stream, h.nonce, h.accepted, h.stopped, h.failed⟩
  | finish sender => exact h.finish sender
  | cancel sender => exact ⟨h.sent, h.stream, h.nonce, h.accepted, h.stopped, h.failed⟩
  | take => exact h.take
  | write n =>
      refine ⟨h.sent, ?_, h.nonce, h.accepted, h.stopped, h.failed⟩
      change Carries noise _ _ (s.wire ++ s.outgoing.take n ++ s.outgoing.drop n)
      rw [List.append_assoc, List.take_append_drop]
      exact h.stream

end Writer

end Thicket.Net
