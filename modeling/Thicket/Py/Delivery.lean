import Thicket.Net.Writer
import Thicket.Py.Sender

/-!
# Delivery over a secure channel

Both senders put every frame they encrypt on the wire, in the order of encryption, as long as the
frames are within the limit. A message that is too large is encrypted before it is refused.
-/

namespace Thicket

open Cbor (Bytes)
open Net
open Py (Sender SenderEvent)

/-- What was written reaches the peer: `sent` holds the messages with the sender's nonce after each,
and `pending` is what of the last frame is not yet on the wire. -/
structure Delivered (noise : Noise) (wire pending : Bytes) (sent : List (Bytes × Nat)) : Prop where
  received : ∀ (side : Side) (arrived : Bytes), arrived <+: wire →
    side.receive noise.read 0 (framesOf arrived) <+: sent
  complete : pending = [] → ∀ side : Side, side.receive noise.read 0 (framesOf wire) = sent
  chunkCount : ∀ m ∈ sent, (plaintextChunks m.1).length < 2 ^ 32
  chunkLength : ∀ m ∈ sent, ∀ nonce,
    ∀ ciphertext ∈ Aead.sealAll noise.write nonce (plaintextChunks m.1), ciphertext.length < 2 ^ 16

theorem Net.Carries.delivered {noise : Noise} {sent : List (Bytes × Nat)} {nonce : Nat}
    {wire pending : Bytes} (h : Carries noise (sent.map Prod.fst) nonce (wire ++ pending))
    (hcounted : sent = counted 0 (sent.map Prod.fst)) : Delivered noise wire pending sent := by
  refine ⟨?_, ?_, ?_, ?_⟩
  · intro side arrived harrived
    rw [hcounted]
    exact h.receive_part side (harrived.trans (List.prefix_append _ _))
  · intro hnone side
    rw [hnone, List.append_nil] at h
    rw [h.receive_eq side, ← hcounted]
  · intro m hm
    exact (h.fits m.1 (List.mem_map_of_mem hm)).length_chunks
  · intro m _ nonce ciphertext hciphertext
    exact length_of_mem_sealAll noise nonce m.1 hciphertext

/-! ### Messages within the limit -/

def Net.WriterEvent.Fits : WriterEvent → Prop
  | .send _ message => Net.Fits message
  | _ => True

def Py.SenderEvent.Fits : SenderEvent → Prop
  | .send _ message => Net.Fits message
  | _ => True

instance : DecidablePred WriterEvent.Fits := fun
  | .send _ message => inferInstanceAs (Decidable (Net.Fits message))
  | .finish _ | .cancel _ | .take | .write _ => isTrue trivial

instance : DecidablePred SenderEvent.Fits := fun
  | .send _ message => inferInstanceAs (Decidable (Net.Fits message))
  | .acquire _ | .drained _ | .cancel _ => isTrue trivial

/-- No message of a sender, whether it waits or is done, is too large. -/
structure AllFit (waiting : List (Nat × Bytes)) (done : List Bytes) : Prop where
  waiting : ∀ w ∈ waiting, Fits w.2
  done : ∀ message ∈ done, Fits message

namespace AllFit

variable {waiting : List (Nat × Bytes)} {done : List Bytes}

theorem nil : AllFit [] [] := by
  refine ⟨fun w hw => ?_, fun m hm => ?_⟩
  · cases hw
  · cases hm

theorem send (h : AllFit waiting done) (task : Nat) {message : Bytes} (hfits : Fits message) :
    AllFit (waiting ++ [(task, message)]) done := by
  refine ⟨fun w hw => ?_, h.done⟩
  rcases List.mem_append.mp hw with hw | hw
  · exact h.waiting w hw
  · rw [List.mem_singleton.mp hw]
    exact hfits

theorem erase (h : AllFit waiting done) (task : Nat) :
    AllFit (waiting.eraseP fun w => w.1 == task) done :=
  ⟨fun w hw => h.waiting w (List.mem_of_mem_eraseP hw), h.done⟩

theorem finish (h : AllFit waiting done) {task : Nat} {message : Bytes}
    (hmem : (task, message) ∈ waiting) :
    AllFit (waiting.eraseP fun w => w.1 == task) (done ++ [message]) := by
  refine ⟨(h.erase task).waiting, fun m hm => ?_⟩
  rcases List.mem_append.mp hm with hm | hm
  · exact h.done m hm
  · rw [List.mem_singleton.mp hm]
    exact h.waiting _ hmem

end AllFit

theorem Net.Writer.allFit_step {noise : Noise} {s : Writer} {event : WriterEvent}
    (hevent : event.Fits) (h : AllFit s.waiting (s.results.map Prod.fst)) :
    AllFit (s.step noise.write event).waiting ((s.step noise.write event).results.map Prod.fst) := by
  cases event with
  | send sender message => exact h.send sender hevent
  | finish sender =>
      change AllFit (s.finish sender).waiting ((s.finish sender).results.map Prod.fst)
      rcases Writer.finish_cases s sender with heq | ⟨message, hfind, ⟨-, -, heq⟩ | ⟨-, heq⟩⟩
      · rw [heq]
        exact h
      · rw [heq, List.map_append]
        exact h.finish (List.mem_of_find?_eq_some hfind)
      · rw [heq, List.map_append]
        exact h.finish (List.mem_of_find?_eq_some hfind)
  | cancel sender => exact h.erase sender
  | take =>
      change AllFit (s.take noise.write).waiting ((s.take noise.write).results.map Prod.fst)
      rcases Writer.take_cases noise s with heq | ⟨message, queue, -, -, -, ⟨-, heq⟩ | ⟨-, heq⟩⟩
      · rw [heq]
        exact h
      · rw [heq]
        exact h
      · rw [heq]
        exact h
  | write n => exact h

theorem Py.Sender.allFit_step {noise : Noise} {s : Sender} {event : SenderEvent}
    (hevent : event.Fits) (h : AllFit s.waiting (s.results.map Prod.fst)) :
    AllFit (s.step noise.write event).waiting ((s.step noise.write event).results.map Prod.fst) := by
  cases event with
  | send task message => exact h.send task hevent
  | acquire task =>
      change AllFit (s.acquire noise.write task).waiting
        ((s.acquire noise.write task).results.map Prod.fst)
      rcases Sender.acquire_cases noise s task with heq | ⟨message, -, hfind, heq⟩
      · rw [heq]
        exact h
      · have hmem := List.mem_of_find?_eq_some hfind
        have hfits : Net.Fits message := h.waiting _ hmem
        rw [heq, Sender.locked_of_fits hfits, List.map_append]
        exact h.finish hmem
  | drained task =>
      change AllFit (s.release task).waiting ((s.release task).results.map Prod.fst)
      unfold Sender.release
      split_ifs
      · exact h
      · exact h
  | cancel task =>
      change AllFit (Sender.release _ task).waiting ((Sender.release _ task).results.map Prod.fst)
      unfold Sender.release
      split_ifs
      · exact h.erase task
      · exact h.erase task

/-- **Messages within the limit all arrive**, under every schedule of the senders and of the writer.
The peer recovers what was written, in that order and with the sender's nonces, whichever side it is. -/
theorem secure_channel_round_trip (noise : Noise) :
    (∀ events : List WriterEvent, (∀ event ∈ events, event.Fits) →
      ∀ s ∈ Run.states (Writer.step noise.write) Writer.new events,
        Delivered noise s.wire s.outgoing s.sent ∧
        s.running = true ∧ s.accepted = s.sent.map Prod.fst ++ s.queue ∧
        ∀ r ∈ s.results, r.2 = .ok ()) ∧
    (∀ events : List SenderEvent, (∀ event ∈ events, event.Fits) →
      ∀ s ∈ Run.states (Sender.step noise.write) Sender.new events,
        Delivered noise s.wire [] s.sent ∧
        s.results.map Prod.fst = s.sent.map Prod.fst ∧ ∀ r ∈ s.results, r.2 = .ok ()) := by
  refine ⟨?_, ?_⟩
  · intro events hevents s hs
    obtain ⟨hinv, hfit⟩ := Run.states_of_mem
      (fun s => Writer.Inv noise s ∧ AllFit s.waiting (s.results.map Prod.fst))
      (fun _ event h hevent => ⟨h.1.step event, Writer.allFit_step hevent h.2⟩)
      ⟨Writer.inv_new noise, AllFit.nil⟩ hevents s hs
    have hrunning : s.running = true := by
      cases h : s.running with
      | true => rfl
      | false =>
          obtain ⟨message, hmem, hlarge⟩ := hinv.stopped h
          obtain ⟨r, hr, rfl⟩ := List.mem_map.mp hmem
          exact absurd (hfit.done r.1 (List.mem_map_of_mem (List.mem_filter.mp hr).1)) hlarge
    refine ⟨hinv.stream.delivered hinv.sent, hrunning, hinv.accepted hrunning, ?_⟩
    intro r hr
    rcases hinv.failed r hr with hok | ⟨-, hstopped⟩
    · exact hok
    · exact absurd (hrunning.symm.trans hstopped) (by decide)
  · intro events hevents s hs
    obtain ⟨hinv, hfit⟩ := Run.states_of_mem
      (fun s => Sender.Inv noise s ∧ AllFit s.waiting (s.results.map Prod.fst))
      (fun _ event h hevent => ⟨h.1.step event, Sender.allFit_step hevent h.2⟩)
      ⟨Sender.inv_new noise, AllFit.nil⟩ hevents s hs
    have hclean : s.wasted = [] := by
      apply List.filter_eq_nil_iff.mpr
      intro m hm hwasted
      exact (of_decide_eq_true hwasted).1 (hfit.done m hm)
    obtain ⟨hcounted, hcarries⟩ := hinv.stream hclean
    rw [← List.append_nil s.wire] at hcarries
    refine ⟨hcarries.delivered hcounted, ?_, ?_⟩
    · rw [hinv.sent]
      symm
      apply List.filter_eq_self.mpr
      intro m hm
      exact decide_eq_true (hfit.done m hm)
    · intro r hr
      exact (hinv.results r hr).mpr (hfit.done r.1 (List.mem_map_of_mem hr))

/-- A toy cipher: the tag repeats the nonce. -/
def taggedNoise : Noise where
  write nonce message := message ++ List.replicate 16 (UInt8.ofNat nonce)
  read nonce ciphertext :=
    if ciphertext.drop (ciphertext.length - 16) = List.replicate 16 (UInt8.ofNat nonce) then
      .ok (ciphertext.take (ciphertext.length - 16))
    else .error "decrypt"
  length_write nonce message := by rw [List.length_append, List.length_replicate]
  read_write nonce message := by simp

theorem secure_channel_round_trip_cancelled :
    (∀ s ∈ Run.states (Writer.step taggedNoise.write) Writer.new
        [.send 0 [1], .send 1 [2, 3], .cancel 0, .finish 1, .take, .write 26],
      Delivered taggedNoise s.wire s.outgoing s.sent) ∧
    ∀ s ∈ Run.states (Sender.step taggedNoise.write) Sender.new
        [.send 0 [1], .send 1 [2, 3], .acquire 1, .cancel 1, .acquire 0],
      Delivered taggedNoise s.wire [] s.sent := by
  refine ⟨fun s hs => ?_, fun s hs => ?_⟩
  · exact ((secure_channel_round_trip taggedNoise).1 _ (by decide) s hs).1
  · exact ((secure_channel_round_trip taggedNoise).2 _ (by decide) s hs).1

/-! ### Messages that are too large -/

def fitting {ε : Type} (results : List (Bytes × Except ε Unit)) : List Bytes :=
  (results.map Prod.fst).filter fun m => Fits m

/-- What is too large is reported to its sender, and everything else is as if it had not been sent. -/
structure FailsAlone {ε : Type} (noise : Noise) (results : List (Bytes × Except ε Unit)) (idle : Prop)
    (nonce : Nat) (wire : Bytes) : Prop where
  reported : ∀ r ∈ results, r.2 = .ok () ↔ Fits r.1
  nonce : idle → nonce = nonceAfter (fitting results)
  delivered : idle → ∀ side : Side,
    side.receive noise.read 0 (framesOf wire) = counted 0 (fitting results)

def Net.Writer.FailsAlone (noise : Noise) (s : Writer) : Prop :=
  Thicket.FailsAlone noise s.results (s.queue = [] ∧ s.outgoing = []) s.nonce s.wire

def Py.Sender.FailsAlone (noise : Noise) (s : Sender) : Prop :=
  Thicket.FailsAlone noise s.results True s.nonce s.wire

/-- The message that is put on the queue is not too large. -/
def Net.Writer.QueuesFitting (s : Writer) : WriterEvent → Prop
  | .finish sender => ∀ message, s.waiting.find? (fun w => w.1 == sender) = some (sender, message) →
      s.queue.length < outCapacity → Net.Fits message
  | _ => True

/-- The message that is encrypted is not too large, or too large to be encrypted. -/
def Py.Sender.EncryptsFitting (s : Sender) : SenderEvent → Prop
  | .acquire task => ∀ message, s.holder = none →
      s.waiting.find? (fun w => w.1 == task) = some (task, message) → ¬Sender.Wasted message
  | _ => True

/-- While nothing too large was queued, the writer runs. -/
def Net.Writer.Clean (noise : Noise) (s : Writer) : Prop :=
  s.Inv noise ∧ s.running = true ∧ ∀ r ∈ s.results, Fits r.1

namespace Net.Writer

variable {noise : Noise} {s : Writer}

theorem Clean.failsAlone (h : s.Clean noise) : s.FailsAlone noise := by
  obtain ⟨hinv, hrunning, hfits⟩ := h
  have hok : ∀ r ∈ s.results, r.2 = .ok () := by
    intro r hr
    rcases hinv.failed r hr with hok | ⟨-, hstopped⟩
    · exact hok
    · exact absurd (hrunning.symm.trans hstopped) (by decide)
  have hall : s.accepted = s.results.map Prod.fst := by
    rw [accepted, List.filter_eq_self.mpr]
    intro r hr
    rw [hok r hr]
    rfl
  have hfitting : fitting s.results = s.results.map Prod.fst := by
    apply List.filter_eq_self.mpr
    intro m hm
    obtain ⟨r, hr, rfl⟩ := List.mem_map.mp hm
    exact decide_eq_true (hfits r hr)
  have hsent : s.queue = [] → s.sent.map Prod.fst = fitting s.results := by
    intro hqueue
    rw [hfitting, ← hall, hinv.accepted hrunning, handedOver, hqueue, List.append_nil]
  refine ⟨fun r hr => iff_of_true (hok r hr) (hfits r hr), ?_, ?_⟩
  · intro hidle
    rw [hinv.nonce hrunning, hsent hidle.1]
  · intro hidle side
    have hstream := hinv.stream
    rw [hidle.2, List.append_nil] at hstream
    rw [hstream.receive_eq side, hsent hidle.1]

theorem Clean.step (h : s.Clean noise) {event : WriterEvent} (hevent : s.QueuesFitting event) :
    (s.step noise.write event).Clean noise := by
  obtain ⟨hinv, hrunning, hfits⟩ := h
  refine ⟨hinv.step event, ?_⟩
  cases event with
  | send sender message => exact ⟨hrunning, hfits⟩
  | finish sender =>
      change (s.finish sender).running = true ∧ ∀ r ∈ (s.finish sender).results, Fits r.1
      rcases finish_cases s sender with heq | ⟨message, hfind, ⟨-, hroom, heq⟩ | ⟨hstopped, -⟩⟩
      · rw [heq]
        exact ⟨hrunning, hfits⟩
      · rw [heq]
        refine ⟨hrunning, fun r hr => ?_⟩
        rcases List.mem_append.mp hr with hr | hr
        · exact hfits r hr
        · rw [List.mem_singleton.mp hr]
          exact hevent message hfind hroom
      · exact absurd (hrunning.symm.trans hstopped) (by decide)
  | cancel sender => exact ⟨hrunning, hfits⟩
  | take =>
      change (s.take noise.write).running = true ∧ ∀ r ∈ (s.take noise.write).results, Fits r.1
      rcases take_cases noise s with heq | ⟨message, queue, hqueue, -, -, ⟨-, heq⟩ | ⟨hlarge, -⟩⟩
      · rw [heq]
        exact ⟨hrunning, hfits⟩
      · rw [heq]
        exact ⟨hrunning, hfits⟩
      · have hmem : message ∈ s.accepted := by
          rw [hinv.accepted hrunning, handedOver, hqueue]
          exact List.mem_append_right _ List.mem_cons_self
        obtain ⟨r, hr, rfl⟩ := List.mem_map.mp hmem
        exact absurd (hfits r (List.mem_filter.mp hr).1) hlarge
  | write n => exact ⟨hrunning, hfits⟩

/-- A message that is too large is on the queue with its sender told that all is well. -/
theorem Clean.queuesFitting (h : s.Clean noise) {event : WriterEvent}
    (hnext : (s.step noise.write event).FailsAlone noise) : s.QueuesFitting event := by
  cases event with
  | finish sender =>
      intro message hfind hroom
      have heq : s.finish sender =
          { s with waiting := s.waiting.eraseP fun w => w.1 == sender,
                   queue := s.queue ++ [message],
                   results := s.results ++ [(message, .ok ())] } := by
        rw [finish, hfind]
        simp only [h.2.1, hroom, ↓reduceIte]
      have hreported := hnext.reported (message, .ok ())
      change (_ ∈ (s.finish sender).results → _) at hreported
      rw [heq] at hreported
      exact (hreported (List.mem_append_right _ (List.mem_singleton_self _))).mp rfl
  | _ => trivial

end Net.Writer

/-- While nothing was encrypted in vain, the nonce is the peer's. -/
def Py.Sender.Clean (noise : Noise) (s : Sender) : Prop := s.Inv noise ∧ s.wasted = []

namespace Py.Sender

variable {noise : Noise} {s : Sender}

theorem Clean.failsAlone (h : s.Clean noise) : s.FailsAlone noise := by
  obtain ⟨hinv, hclean⟩ := h
  obtain ⟨-, hcarries⟩ := hinv.stream hclean
  have hsent : s.sent.map Prod.fst = fitting s.results := hinv.sent
  refine ⟨hinv.results, ?_, ?_⟩
  · intro _
    rw [hinv.nonce, hclean, hsent]
    rfl
  · intro _ side
    rw [hcarries.receive_eq side, hsent]

theorem wasted_locked (noise : Noise) (s : Sender) (task : Nat) (message : Bytes) :
    (s.locked noise.write task message).wasted =
      s.wasted ++ (if Wasted message then [message] else []) := by
  by_cases hfits : Fits message
  · rw [locked_of_fits hfits]
    exact wasted_append s (message, .ok ())
  · rw [locked_of_not_fits noise hfits]
    exact wasted_append s (message, .error _)

theorem Clean.step (h : s.Clean noise) {event : SenderEvent} (hevent : s.EncryptsFitting event) :
    (s.step noise.write event).Clean noise := by
  obtain ⟨hinv, hclean⟩ := h
  refine ⟨hinv.step event, ?_⟩
  cases event with
  | send task message => exact hclean
  | acquire task =>
      change (s.acquire noise.write task).wasted = []
      rcases acquire_cases noise s task with heq | ⟨message, hholder, hfind, heq⟩
      · rw [heq]
        exact hclean
      · rw [heq, wasted_locked, if_neg (hevent message hholder hfind), List.append_nil]
        exact hclean
  | drained task =>
      change (s.release task).wasted = []
      unfold release
      split_ifs
      · exact hclean
      · exact hclean
  | cancel task =>
      change (release _ task).wasted = []
      unfold release
      split_ifs
      · exact hclean
      · exact hclean

theorem chunks_pos {message : Bytes} (hlarge : ¬Fits message) :
    0 < (plaintextChunks message).length := by
  rw [Nat.pos_iff_ne_zero]
  intro hzero
  have hempty : plaintextChunks message = [] := List.eq_nil_of_length_eq_zero hzero
  have hmessage : message = [] := by
    rw [← flatten_plaintextChunks message, hempty]
    rfl
  apply hlarge
  rw [hmessage]
  decide

/-- What is encrypted in vain leaves the nonce ahead of the peer's. -/
theorem Clean.encryptsFitting (h : s.Clean noise) {event : SenderEvent}
    (hnext : (s.step noise.write event).FailsAlone noise) : s.EncryptsFitting event := by
  cases event with
  | acquire task =>
      intro message hholder hfind hwasted
      have hacquire : s.acquire noise.write task =
          { s with waiting := s.waiting.eraseP fun w => w.1 == task,
                   nonce := s.nonce + (plaintextChunks message).length,
                   results := s.results ++ [(message, .error .valueError)] } := by
        rw [acquire_of_find noise hholder hfind, locked_of_not_fits noise hwasted.1,
          if_pos hwasted, if_pos hwasted]
      have hfitting : fitting (s.results ++ [(message, .error .valueError)]) =
          fitting s.results := by
        simp [fitting, List.filter_append, hwasted.1]
      have hbefore := h.failsAlone.nonce trivial
      have hafter := hnext.nonce trivial
      change (s.acquire noise.write task).nonce =
        nonceAfter (fitting (s.acquire noise.write task).results) at hafter
      rw [hacquire] at hafter
      change s.nonce + _ = nonceAfter (fitting (s.results ++ [_])) at hafter
      rw [hfitting, ← hbefore] at hafter
      have hpos := chunks_pos hwasted.1
      omega
  | _ => trivial

end Py.Sender

/-- **Exactly when what is too large fails alone.** In the core nothing too large may get on the queue,
where the size is not checked; in the SDK nothing too large may be encrypted, which happens before the
frame is refused. -/
theorem oversized_fails_alone_iff (noise : Noise) :
    (∀ events : List WriterEvent,
      (∀ s ∈ Run.states (Writer.step noise.write) Writer.new events, s.FailsAlone noise) ↔
        Run.EachStep (Writer.step noise.write) Writer.QueuesFitting Writer.new events) ∧
    (∀ events : List SenderEvent,
      (∀ s ∈ Run.states (Sender.step noise.write) Sender.new events, s.FailsAlone noise) ↔
        Run.EachStep (Sender.step noise.write) Sender.EncryptsFitting Sender.new events) := by
  refine ⟨fun events => ?_, fun events => ?_⟩
  · refine Run.states_property_iff (fun s (h : s.Clean noise) => h.failsAlone) ?_
      (fun s event h hevent => h.step hevent) ⟨Writer.inv_new noise, rfl, fun r hr => ?_⟩
    · intro s event h
      exact ⟨h.queuesFitting, fun hevent => (h.step hevent).failsAlone⟩
    · cases hr
  · refine Run.states_property_iff (fun s (h : s.Clean noise) => h.failsAlone) ?_
      (fun s event h hevent => h.step hevent) ⟨Sender.inv_new noise, rfl⟩
    intro s event h
    exact ⟨h.encryptsFitting, fun hevent => (h.step hevent).failsAlone⟩

/-- A message of 16 MiB. -/
def bulk : Bytes := List.replicate (16 * 1024 * 1024) 0

theorem length_chunks_bulk : (plaintextChunks bulk).length = 257 := by
  rw [length_plaintextChunks, bulk, List.length_replicate]
  rfl

theorem bulk_not_fits : ¬Fits bulk := by
  unfold Fits
  rw [frameLength, length_chunks_bulk, bulk, List.length_replicate]
  decide

theorem writer_of_not_fits (noise : Noise) {message : Bytes} (hlarge : ¬Fits message) :
    (Run.exec (Writer.step noise.write) Writer.new
      [.send 0 message, .finish 0, .take, .send 1 [1], .finish 1]).results =
        [(message, .ok ()), ([1], .error .closed)] := by
  let queued : Writer := { Writer.new with queue := [message], results := [(message, .ok ())] }
  have hqueued : Run.exec (Writer.step noise.write) Writer.new [.send 0 message, .finish 0] =
      queued := rfl
  change (Run.exec (Writer.step noise.write)
    (Run.exec (Writer.step noise.write) Writer.new [.send 0 message, .finish 0]) _).results = _
  rw [hqueued, Run.exec_cons]
  change (Run.exec (Writer.step noise.write) (queued.take noise.write) _).results = _
  rw [Writer.take_of_not_fits noise rfl ⟨rfl, rfl⟩ hlarge]
  rfl

theorem sender_of_wasted (noise : Noise) {message : Bytes} (hwasted : Sender.Wasted message) :
    Run.exec (Sender.step noise.write) Sender.new
        [.send 0 message, .acquire 0, .send 1 [1], .acquire 1] =
      Sender.locked noise.write
        { Sender.new with nonce := (plaintextChunks message).length,
                          results := [(message, .error .valueError)] } 1 [1] := by
  let waiting : Sender := { Sender.new with waiting := [(0, message)] }
  have hacquire : waiting.acquire noise.write 0 =
      { Sender.new with nonce := 0 + (plaintextChunks message).length,
                        results := [(message, .error .valueError)] } := by
    rw [Sender.acquire_of_find noise rfl rfl, Sender.locked_of_not_fits noise hwasted.1,
      if_pos hwasted, if_pos hwasted]
    rfl
  change Run.exec (Sender.step noise.write) (waiting.acquire noise.write 0) _ = _
  rw [hacquire, Nat.zero_add]
  let ahead : Sender := { Sender.new with
    waiting := [(1, [1])], nonce := (plaintextChunks message).length,
    results := [(message, .error .valueError)] }
  have hnext : ahead.waiting.find? (fun w => w.1 == 1) = some (1, [1]) := rfl
  exact Sender.acquire_of_find noise (s := ahead) rfl hnext

/-- The core's `send` succeeds for the message, and fails for the next one. The SDK's fails, and the
peer cannot decrypt the next message. -/
theorem oversized_ends_the_channel :
    (Run.exec (Writer.step taggedNoise.write) Writer.new
      [.send 0 bulk, .finish 0, .take, .send 1 [1], .finish 1]).results =
        [(bulk, .ok ()), ([1], .error .closed)] ∧
    (Run.exec (Sender.step taggedNoise.write) Sender.new
      [.send 0 bulk, .acquire 0, .send 1 [1], .acquire 1]).results =
        [(bulk, .error .valueError), ([1], .ok ())] ∧
    ∀ side : Side, side.receive taggedNoise.read 0 (framesOf (Run.exec
      (Sender.step taggedNoise.write) Sender.new
      [.send 0 bulk, .acquire 0, .send 1 [1], .acquire 1]).wire) = [] := by
  have hwasted : Sender.Wasted bulk := ⟨bulk_not_fits, by rw [length_chunks_bulk]; decide⟩
  rw [sender_of_wasted taggedNoise hwasted, length_chunks_bulk]
  refine ⟨writer_of_not_fits taggedNoise bulk_not_fits, rfl, ?_⟩
  intro side
  cases side
  · rfl
  · rfl

end Thicket
