import Thicket.Net.Receiver

/-!
# What a sender puts on the wire

Frames are encrypted under one nonce counter and written whole, one after the other. As long as no
message is encrypted that is not written, the peer that reads any part of the stream recovers the
messages of its complete frames, each with the sender's nonce after it.
-/

namespace Thicket.Net

open Cbor (Bytes)

section

variable (writeMessage : Nat → Bytes → Bytes)

/-- The frames of messages that are encrypted one after the other. -/
def encryptAll (nonce : Nat) : List Bytes → List Bytes
  | [] => []
  | message :: messages =>
      let (frame, nonce) := encryptFrame writeMessage nonce message
      frame :: encryptAll nonce messages

end

/-- Messages with the nonce after each. -/
def counted (nonce : Nat) : List Bytes → List (Bytes × Nat)
  | [] => []
  | message :: messages =>
      let nonce := nonce + (plaintextChunks message).length
      (message, nonce) :: counted nonce messages

def nonceAfter (messages : List Bytes) : Nat := (messages.flatMap plaintextChunks).length

/-- The encrypted frame of a message is within the limit. -/
def Fits (message : Bytes) : Prop := frameLength message ≤ maxFrame

instance : DecidablePred Fits := fun _ => inferInstanceAs (Decidable (_ ≤ _))

variable {message : Bytes} {messages : List Bytes} {nonce : Nat} {noise : Noise} {side : Side}

theorem Fits.length_chunks (h : Fits message) : (plaintextChunks message).length < 2 ^ 32 := by
  unfold Fits frameLength maxFrame at h
  omega

theorem encryptAll_cons (writeMessage : Nat → Bytes → Bytes) (nonce : Nat) :
    encryptAll writeMessage nonce (message :: messages) =
      (encryptFrame writeMessage nonce message).1 ::
        encryptAll writeMessage (nonce + (plaintextChunks message).length) messages := rfl

theorem counted_cons : counted nonce (message :: messages) =
    (message, nonce + (plaintextChunks message).length) ::
      counted (nonce + (plaintextChunks message).length) messages := rfl

theorem nonceAfter_cons : nonceAfter (message :: messages) =
    (plaintextChunks message).length + nonceAfter messages := by
  rw [nonceAfter, List.flatMap_cons, List.length_append, nonceAfter]

theorem nonceAfter_append (messages : List Bytes) (message : Bytes) :
    nonceAfter (messages ++ [message]) =
      nonceAfter messages + (plaintextChunks message).length := by
  rw [nonceAfter, List.flatMap_append, List.length_append, List.flatMap_singleton, nonceAfter]

theorem encryptAll_append (messages : List Bytes) (message : Bytes) (nonce : Nat) :
    encryptAll noise.write nonce (messages ++ [message]) =
      encryptAll noise.write nonce messages ++
        [(encryptFrame noise.write (nonce + nonceAfter messages) message).1] := by
  induction messages generalizing nonce with
  | nil => rfl
  | cons first messages ih =>
      have hnonce : nonce + (plaintextChunks first).length + nonceAfter messages =
          nonce + nonceAfter (first :: messages) := by
        rw [nonceAfter_cons, Nat.add_assoc]
      rw [List.cons_append, encryptAll_cons, encryptAll_cons, ih, hnonce, List.cons_append]

theorem counted_append (messages : List Bytes) (message : Bytes) (nonce : Nat) :
    counted nonce (messages ++ [message]) = counted nonce messages ++
      [(message, nonce + nonceAfter (messages ++ [message]))] := by
  induction messages generalizing nonce with
  | nil =>
      rw [List.nil_append, nonceAfter, List.flatMap_singleton]
      rfl
  | cons first messages ih =>
      have hnonce : nonce + (plaintextChunks first).length + nonceAfter (messages ++ [message]) =
          nonce + nonceAfter (first :: (messages ++ [message])) := by
        rw [nonceAfter_cons, Nat.add_assoc]
      rw [List.cons_append, counted_cons, counted_cons, ih, hnonce, List.cons_append]

/-! ### The peer -/

theorem receive_encryptAll (noise : Noise) (side : Side) (nonce : Nat)
    (h : ∀ message ∈ messages, Fits message) :
    side.receive noise.read nonce (encryptAll noise.write nonce messages) =
      counted nonce messages := by
  induction messages generalizing nonce with
  | nil => rfl
  | cons message messages ih =>
      have hfirst := Side.decryptFrame_encryptFrame noise side nonce
        (h message List.mem_cons_self).length_chunks
      have hrest := ih (nonce + (plaintextChunks message).length)
        fun m hm => h m (List.mem_cons_of_mem _ hm)
      rw [encryptAll_cons, Side.receive, hfirst]
      exact congrArg _ hrest

/-- A receiver that has fewer frames has the first of the messages. -/
theorem receive_mono {frames frames' : List Bytes} (h : frames <+: frames') (nonce : Nat) :
    side.receive noise.read nonce frames <+: side.receive noise.read nonce frames' := by
  induction frames generalizing frames' nonce with
  | nil => exact List.nil_prefix
  | cons frame frames ih =>
      obtain ⟨rest, rfl⟩ := h
      rw [List.cons_append, Side.receive, Side.receive]
      split
      · exact List.cons_prefix_cons.mpr ⟨rfl, ih (List.prefix_append _ _) _⟩
      · exact List.nil_prefix

theorem length_le_of_mem_encryptAll {frame : Bytes} (h : ∀ message ∈ messages, Fits message)
    (hframe : frame ∈ encryptAll noise.write nonce messages) : frame.length ≤ maxFrame := by
  induction messages generalizing nonce with
  | nil => cases hframe
  | cons message messages ih =>
      rcases List.mem_cons.mp hframe with rfl | hframe
      · have hfits := h message List.mem_cons_self
        rwa [Fits, ← length_encryptFrame noise nonce] at hfits
      · exact ih (fun m hm => h m (List.mem_cons_of_mem _ hm)) hframe

/-! ### A sender's stream -/

/-- The stream is that of the messages, and nothing else was encrypted. -/
structure Carries (noise : Noise) (messages : List Bytes) (nonce : Nat) (stream : Bytes) : Prop where
  nonce : nonce = nonceAfter messages
  stream : stream = (encryptAll noise.write 0 messages).flatMap delimited
  fits : ∀ message ∈ messages, Fits message

namespace Carries

variable {stream : Bytes}

theorem nil (noise : Noise) : Carries noise [] 0 [] :=
  ⟨rfl, rfl, fun _ hm => absurd hm List.not_mem_nil⟩

/-- One more message is encrypted, and its frame written. -/
theorem put (h : Carries noise messages nonce stream) (hfits : Fits message) :
    Carries noise (messages ++ [message]) (encryptFrame noise.write nonce message).2
      (stream ++ delimited (encryptFrame noise.write nonce message).1) := by
  obtain ⟨rfl, rfl, hall⟩ := h
  refine ⟨(nonceAfter_append messages message).symm, ?_, ?_⟩
  · rw [encryptAll_append, List.flatMap_append, List.flatMap_singleton, Nat.zero_add]
  · intro m hm
    rcases List.mem_append.mp hm with hm | hm
    · exact hall m hm
    · rwa [List.mem_singleton.mp hm]

/-- **The peer has all the messages** of the stream, each with the sender's nonce after it. -/
theorem receive_eq (h : Carries noise messages nonce stream) (side : Side) :
    side.receive noise.read 0 (framesOf stream) = counted 0 messages := by
  obtain ⟨-, rfl, hall⟩ := h
  rw [framesOf_flatMap fun frame hframe => length_le_of_mem_encryptAll hall hframe]
  exact receive_encryptAll noise side 0 hall

/-- Of a part of the stream it has the first messages. -/
theorem receive_part (h : Carries noise messages nonce stream) (side : Side) {wire : Bytes}
    (hwire : wire <+: stream) :
    side.receive noise.read 0 (framesOf wire) <+: counted 0 messages := by
  rw [← h.receive_eq side]
  exact Net.receive_mono (framesOf_mono hwire) 0

end Carries

end Thicket.Net
