import Thicket.Lib.CborStrict
import Thicket.Lib.Checked
import Thicket.Net.Framing
import Thicket.Net.SecureFrame

/-!
# Hostile frames

`secure::decrypt_frame` with its sums and its indexing, each of which could panic, the scratch
buffer that the Noise library writes to, and the turns of its loop. The chunk count and the lengths
of the chunks are the peer's. The position never passes the end of the frame, and a turn that
another one follows has moved it on by the two bytes of a length at least, so it is the frame that
bounds the turns.
-/

namespace Thicket.Net.FrameBounds

open Cbor (Bytes)
open Checked Raising Result

/-- The buffer that every chunk of a frame is decrypted into. -/
abbrev Scratch := Vector UInt8 (noiseMaxPayload + 16)

/-- `TransportState::read_message`: from the state of the cipher, a ciphertext and the buffer, how
many bytes of the buffer are the message, with the text of an error. -/
abbrev ReadMessage (σ : Type) := σ → Bytes → Scratch → Except String Nat × Scratch × σ

/-- The cipher, the buffer, and how many turns of the loop have begun. -/
structure Receiver (σ : Type) where
  transport : σ
  buf : Scratch
  turns : Nat

/-- Code of a receiver; the text is that of the `Crypto` error. -/
abbrev Code (σ α : Type) := Raising (Receiver σ) (Stop String) α

section

variable {σ : Type} (readMessage : ReadMessage σ)

/-- `transport.read_message(payload, &mut buf).map_err(crypto)?` -/
def readInto (payload : Bytes) : Code σ Nat := fun s =>
  let (n, buf, transport) := readMessage s.transport payload s.buf
  (n.mapError .error, { s with transport, buf })

/-- `from_be_bytes(frame[start..stop].try_into().unwrap())` for a number of `width` bytes. -/
def fromBeBytes (width : Nat) (frame : Bytes) (start stop : Nat) : Except (Stop String) Nat := do
  let bytes ← toArray width (← slice frame start stop)
  return Cbor.ofBigEndian bytes.toList

/-- The ciphertext at a position and the position after it. -/
def chunkAt (frame : Bytes) (pos : Nat) : Except (Stop String) (Bytes × Nat) := do
  stopIf ((← add pos 2) > frame.length) "truncated chunk header"
  let len ← fromBeBytes 2 frame pos (← add pos 2)
  let pos ← add pos 2
  stopIf ((← add pos len) > frame.length) "truncated chunk"
  return (← slice frame pos (← add pos len), ← add pos len)

/-- A turn of the loop, with the message of its chunk and the position after it. -/
def turn (frame : Bytes) (pos : Nat) : Code σ (Bytes × Nat) := do
  Raising.change fun s => { s with turns := s.turns + 1 }
  let (ciphertext, pos) ← Raising.outcome (chunkAt frame pos)
  let n ← readInto readMessage ciphertext
  let s ← Raising.read
  let message ← Raising.outcome (slice s.buf.toList 0 n)
  return (message, pos)

def decryptChunks (frame : Bytes) : Nat → Nat → Bytes → Code σ Bytes
  | 0, _, out => pure out
  | count + 1, pos, out => do
      let (message, pos) ← turn readMessage frame pos
      decryptChunks frame count pos (out ++ message)

def decryptAll (frame : Bytes) : Code σ Bytes := do
  Raising.outcome (stopIf (frame.length < 4) "short frame")
  let count ← Raising.outcome (fromBeBytes 4 frame 0 4)
  decryptChunks readMessage frame count 4 []

/-- `secure::decrypt_frame` -/
def decryptFrame (transport : σ) (frame : Slice UInt8) : Except (Stop String) Bytes × Receiver σ :=
  decryptAll readMessage frame.1 { transport, buf := Vector.replicate _ 0, turns := 0 }

end

/-! ### Indexing -/

section

variable {frame ciphertext : Bytes} {pos pos' width start stop : Nat}

theorem fromBeBytes_ok (hwidth : stop = start + width) (hstop : stop ≤ frame.length) :
    fromBeBytes width frame start stop = .ok (Cbor.ofBigEndian (frame.extract start stop)) := by
  have hlength : (frame.extract start stop).length = width := by
    rw [length_extract hstop]
    omega
  rw [fromBeBytes, slice_ok (by omega) hstop]
  simp only [bind_pure_comp]
  show (toArray width (frame.extract start stop)).map _ = _
  rw [toArray_ok hlength]
  rfl

/-- Where the position is in the frame nothing panics. -/
theorem chunkAt_eq (hframe : frame.length < 2 ^ 63) (hpos : pos ≤ frame.length) :
    chunkAt frame pos = (nextChunk frame pos).mapError .error := by
  have hheader : (add pos 2 : Except (Stop String) Nat) = .ok (pos + 2) := add_ok (by omega)
  simp only [chunkAt, nextChunk, hheader, ok_bind]
  by_cases hshort : pos + 2 > frame.length
  · simp only [stopIf, failIf, if_pos hshort, error_bind]
    rfl
  have hvalue := Cbor.ofBigEndian_lt (frame.extract pos (pos + 2))
  rw [length_extract (Nat.le_of_not_gt hshort), Nat.add_sub_cancel_left] at hvalue
  simp only [fromBeBytes_ok rfl (Nat.le_of_not_gt hshort), stopIf, failIf, if_neg hshort, ok_bind]
  generalize Cbor.ofBigEndian (frame.extract pos (pos + 2)) = len at *
  have hend : (add (pos + 2) len : Except (Stop String) Nat) = .ok (pos + 2 + len) :=
    add_ok (by omega)
  simp only [hend, ok_bind]
  by_cases hlong : pos + 2 + len > frame.length
  · simp only [if_pos hlong, error_bind]
    rfl
  · simp only [if_neg hlong, ok_bind]
    rw [slice_ok (by omega) (Nat.le_of_not_gt hlong)]
    rfl

/-- The chunk at a position is all of the frame from there to the position after it. -/
theorem drop_of_nextChunk (h : nextChunk frame pos = .ok (ciphertext, pos')) :
    frame.drop pos = chunkBytes ciphertext ++ frame.drop pos' ∧ pos + 2 ≤ pos' ∧
      pos' ≤ frame.length ∧ ciphertext.length < 2 ^ 16 := by
  simp only [nextChunk, bind_eq_ok, exists_unit, failIf_eq_ok, pure_eq_ok, Prod.mk.injEq] at h
  obtain ⟨hheader, hbody, rfl, rfl⟩ := h
  have hlength : (frame.extract pos (pos + 2)).length = 2 := by
    rw [length_extract (by omega)]
    omega
  have hwritten := Cbor.bigEndian_ofBigEndian (frame.extract pos (pos + 2))
  have hvalue := Cbor.ofBigEndian_lt (frame.extract pos (pos + 2))
  have hsplit : frame.drop pos = frame.extract pos (pos + 2) ++ frame.drop (pos + 2) :=
    drop_eq_extract_append (by omega)
  rw [hlength] at hwritten hvalue
  generalize Cbor.ofBigEndian (frame.extract pos (pos + 2)) = len at *
  have hciphertext : (frame.extract (pos + 2) (pos + 2 + len)).length = len := by
    rw [length_extract (by omega)]
    omega
  refine ⟨?_, by omega, by omega, by omega⟩
  rw [chunkBytes, hciphertext, hwritten, hsplit, List.append_assoc]
  congr 1
  exact drop_eq_extract_append (by omega)

/-- The length of a chunk is two bytes long, so its message fits the buffer. -/
theorem slice_message {n : Nat} (hfits : ciphertext.length < 2 ^ 16)
    (hn : n + 16 = ciphertext.length) (buf : Scratch) :
    (slice buf.toList 0 n : Except (Stop String) Bytes) = .ok (buf.toList.take n) := by
  have hsize : n ≤ buf.toList.length := by
    rw [Vector.length_toList, noiseMaxPayload]
    omega
  exact slice_ok (Nat.zero_le n) hsize

end

/-! ### Turns -/

section

variable {σ : Type} (readMessage : ReadMessage σ)

/-- A message is shorter than its ciphertext by the tag. -/
def Sized : Prop := ∀ transport payload buf n,
  (readMessage transport payload buf).1 = .ok n → n + 16 = payload.length

/-- The cipher accepts the ciphertexts one after the other and decrypts them to the messages. -/
inductive OpensAll : σ → Scratch → List Bytes → List Bytes → σ → Scratch → Prop
  | nil (transport : σ) (buf : Scratch) : OpensAll transport buf [] [] transport buf
  | cons {transport transport' last : σ} {buf buf' lastBuf : Scratch} {ciphertext : Bytes} {n : Nat}
      {ciphertexts messages : List Bytes}
      (hread : readMessage transport ciphertext buf = (.ok n, buf', transport'))
      (hrest : OpensAll transport' buf' ciphertexts messages last lastBuf) :
      OpensAll transport buf (ciphertext :: ciphertexts) (buf'.toList.take n :: messages)
        last lastBuf

variable {readMessage} {frame : Bytes} {start : Receiver σ}

/-- A turn has taken a chunk off the frame, and the cipher has accepted it. -/
structure Taken (readMessage : ReadMessage σ) (frame : Bytes) (pos : Nat) (start : Receiver σ)
    (ciphertext message : Bytes) (pos' : Nat) (after : Receiver σ) : Prop where
  chunk : frame.drop pos = chunkBytes ciphertext ++ frame.drop pos'
  moved : pos + 2 ≤ pos'
  inside : pos' ≤ frame.length
  fits : ciphertext.length < 2 ^ 16
  read : ∃ n, readMessage start.transport ciphertext start.buf =
    (.ok n, after.buf, after.transport) ∧ message = after.buf.toList.take n
  turns : after.turns = start.turns + 1

/-- A function that has stopped has not panicked. -/
def Refused (turns : Nat) (e : Stop String) (after : Receiver σ) : Prop :=
  e ≠ .panic ∧ after.turns ≤ turns

theorem triple_turn (hsized : Sized readMessage) (hframe : frame.length < 2 ^ 63) {pos : Nat}
    (hpos : pos ≤ frame.length) :
    Triple (fun s => s = start) (turn readMessage frame pos)
      (fun r s => ∃ ciphertext, Taken readMessage frame pos start ciphertext r.1 r.2 s)
      (Refused (start.turns + 1)) := by
  let begun : Receiver σ := { start with turns := start.turns + 1 }
  refine Triple.bind (Q := fun _ s => s = begun) ?_ fun _ => ?_
  · intro s hs
    subst hs
    rfl
  rw [chunkAt_eq hframe hpos]
  refine Triple.bind (Q := fun r s => nextChunk frame pos = .ok r ∧ s = begun) ?_ fun r => ?_
  · intro s hs
    subst hs
    cases hchunk : nextChunk frame pos with
    | error text => exact ⟨nofun, Nat.le_refl _⟩
    | ok r => exact ⟨rfl, rfl⟩
  obtain ⟨ciphertext, pos'⟩ := r
  refine Triple.bind (Q := fun n s => nextChunk frame pos = .ok (ciphertext, pos') ∧
    s.turns = begun.turns ∧
    readMessage begun.transport ciphertext begun.buf = (.ok n, s.buf, s.transport)) ?_ fun n => ?_
  · intro s ⟨hchunk, hs⟩
    subst hs
    show Meets _ _ (_, _)
    cases hread : readMessage begun.transport ciphertext begun.buf with
    | mk result rest =>
        cases result with
        | error text => exact ⟨nofun, Nat.le_refl _⟩
        | ok n => exact ⟨hchunk, rfl, rfl⟩
  intro s ⟨hchunk, hturns, hread⟩
  obtain ⟨hdrop, hmoved, hinside, hfits⟩ := drop_of_nextChunk hchunk
  have hn := hsized begun.transport ciphertext begun.buf n (by rw [hread])
  show Meets _ _ ((Raising.outcome (slice s.buf.toList 0 n) >>= fun message =>
    pure (message, pos') : Code σ (Bytes × Nat)) s)
  rw [slice_message hfits hn]
  exact ⟨ciphertext, hdrop, hmoved, hinside, hfits, ⟨n, hread, rfl⟩, hturns⟩

/-- As many chunks as announced are taken off the frame, and the cipher has accepted them in order.
-/
structure TakenAll (readMessage : ReadMessage σ) (frame : Bytes) (pos count : Nat)
    (start : Receiver σ) (ciphertexts messages : List Bytes) (after : Receiver σ) : Prop where
  announced : ciphertexts.length = count
  chunks : ∃ rest, frame.drop pos = ciphertexts.flatMap chunkBytes ++ rest
  fits : ∀ c ∈ ciphertexts, c.length < 2 ^ 16
  read : OpensAll readMessage start.transport start.buf ciphertexts messages
    after.transport after.buf
  turns : after.turns = start.turns + count

theorem Taken.cons {pos pos' count : Nat} {ciphertext message : Bytes}
    {ciphertexts messages : List Bytes} {mid after : Receiver σ}
    (h : Taken readMessage frame pos start ciphertext message pos' mid)
    (hrest : TakenAll readMessage frame pos' count mid ciphertexts messages after) :
    TakenAll readMessage frame pos (count + 1) start (ciphertext :: ciphertexts)
      (message :: messages) after := by
  obtain ⟨n, hread, rfl⟩ := h.read
  obtain ⟨rest, hchunks⟩ := hrest.chunks
  refine ⟨?_, ⟨rest, ?_⟩, ?_, .cons hread hrest.read, ?_⟩
  · rw [List.length_cons, hrest.announced]
  · rw [h.chunk, hchunks, List.flatMap_cons, List.append_assoc]
  · intro c hc
    rcases List.mem_cons.mp hc with rfl | hc
    · exact h.fits
    · exact hrest.fits c hc
  · rw [hrest.turns, h.turns]
    omega

/-- The induction is on the announced count, but what bounds the turns is how much of the frame is
left: the first turn has moved on by two bytes if there is a second. -/
theorem triple_decryptChunks (hsized : Sized readMessage) (hframe : frame.length < 2 ^ 63)
    (count : Nat) {pos : Nat} (hpos : pos ≤ frame.length) (out : Bytes) :
    Triple (fun s => s = start) (decryptChunks readMessage frame count pos out)
      (fun plaintext s => ∃ ciphertexts messages, plaintext = out ++ messages.flatten ∧
        TakenAll readMessage frame pos count start ciphertexts messages s ∧
        pos + 2 * count ≤ frame.length)
      (Refused (start.turns + ((frame.length - pos) / 2 + 1))) := by
  induction count generalizing pos out start with
  | zero =>
      intro s hs
      subst hs
      refine ⟨[], [], (List.append_nil out).symm, ?_, hpos⟩
      exact ⟨rfl, ⟨_, rfl⟩, nofun, .nil _ _, rfl⟩
  | succ count ih =>
      have hturn : Triple (fun s => s = start) (turn readMessage frame pos)
          (fun r s => ∃ ciphertext, Taken readMessage frame pos start ciphertext r.1 r.2 s)
          (Refused (start.turns + ((frame.length - pos) / 2 + 1))) := by
        apply (triple_turn hsized hframe hpos).weaken (fun _ h => h) (fun _ _ h => h)
        intro e s h
        obtain ⟨hpanic, hturns⟩ := h
        exact ⟨hpanic, by omega⟩
      refine Triple.bind hturn fun r => ?_
      obtain ⟨message, pos'⟩ := r
      intro s hs
      obtain ⟨ciphertext, htaken⟩ := hs
      have hmoved := htaken.moved
      have hinside := htaken.inside
      have hturns := htaken.turns
      refine (ih hinside (out ++ message)).weaken (fun _ h => h) ?_ ?_ s rfl
      · intro plaintext after hall
        obtain ⟨ciphertexts, messages, rfl, hall, hcount⟩ := hall
        refine ⟨ciphertext :: ciphertexts, message :: messages, ?_, htaken.cons hall, by omega⟩
        rw [List.flatten_cons, List.append_assoc]
      · intro e after h
        obtain ⟨hpanic, hle⟩ := h
        exact ⟨hpanic, by omega⟩

end

/-! ### A cipher that counts

The cipher of the channel decrypts under a nonce that it counts up. With it the messages are those
of `Net.decryptFrame`. -/

def overwrite {len : Nat} (buf : Vector UInt8 len) (message : Bytes) : Vector UInt8 len :=
  Vector.ofFn fun i => message.getD i buf[i]

def counting (read : Nat → Bytes → Except String Bytes) : ReadMessage Nat :=
  fun nonce payload buf =>
    match read nonce payload with
    | .error text => (.error text, buf, nonce)
    | .ok message => (.ok message.length, overwrite buf message, nonce + 1)

section

variable {read : Nat → Bytes → Except String Bytes}

theorem take_overwrite {len : Nat} (buf : Vector UInt8 len) {message : Bytes}
    (h : message.length ≤ len) :
    (overwrite buf message).toList.take message.length = message := by
  apply List.ext_getElem
  · rw [List.length_take, Vector.length_toList, Nat.min_eq_left h]
  · intro i hi hi'
    simp [overwrite, hi']

def Shortens (read : Nat → Bytes → Except String Bytes) : Prop :=
  ∀ nonce payload message, read nonce payload = .ok message → message.length + 16 = payload.length

theorem sized_counting (hread : Shortens read) : Sized (counting read) := by
  intro nonce payload buf n h
  unfold counting at h
  split at h
  · cases h
  · next message hmessage =>
      obtain rfl := Except.ok.inj h
      exact hread nonce payload message hmessage

variable {frame : Bytes}

theorem readInto_counting (ciphertext : Bytes) (s : Receiver Nat) :
    readInto (counting read) ciphertext s =
      match read s.transport ciphertext with
      | .error text => (.error (.error text), s)
      | .ok message => (.ok message.length,
          { s with transport := s.transport + 1, buf := overwrite s.buf message }) := by
  unfold readInto counting
  cases read s.transport ciphertext <;> rfl

theorem turn_counting (hread : Shortens read) (hframe : frame.length < 2 ^ 63) {pos : Nat}
    (hpos : pos ≤ frame.length) (s : Receiver Nat) : turn (counting read) frame pos s =
      match nextChunk frame pos with
      | .error text => (.error (.error text), { s with turns := s.turns + 1 })
      | .ok (ciphertext, pos') =>
          match read s.transport ciphertext with
          | .error text => (.error (.error text), { s with turns := s.turns + 1 })
          | .ok message => (.ok (message, pos'),
              { transport := s.transport + 1, buf := overwrite s.buf message,
                turns := s.turns + 1 }) := by
  rw [turn, chunkAt_eq hframe hpos]
  cases hchunk : nextChunk frame pos with
  | error text => rfl
  | ok r =>
      obtain ⟨ciphertext, pos'⟩ := r
      obtain ⟨-, -, -, hfits⟩ := drop_of_nextChunk hchunk
      show (readInto (counting read) ciphertext >>= _ : Code Nat (Bytes × Nat)) _ = _
      let begun : Receiver Nat := { s with turns := s.turns + 1 }
      have hstep : readInto (counting read) ciphertext begun = _ :=
        readInto_counting ciphertext begun
      show (readInto (counting read) ciphertext >>= fun n => Raising.read >>= fun s =>
        Raising.outcome (slice s.buf.toList 0 n) >>= fun message => pure (message, pos') :
          Code Nat (Bytes × Nat)) begun = _
      dsimp only
      cases hmessage : read s.transport ciphertext with
      | error text =>
          rw [show read begun.transport ciphertext = .error text from hmessage] at hstep
          rw [bind_of_error hstep]
      | ok message =>
          rw [show read begun.transport ciphertext = .ok message from hmessage] at hstep
          have hlen := hread _ _ _ hmessage
          have hsize : message.length ≤ noiseMaxPayload + 16 := by
            unfold noiseMaxPayload
            omega
          rw [bind_of_ok hstep, read_bind]
          show (Raising.outcome (slice (overwrite s.buf message).toList 0 message.length) >>=
            fun message => pure (message, pos') : Code Nat (Bytes × Nat)) _ = _
          rw [slice_message hfits hlen, take_overwrite _ hsize]
          rfl

/-- What is decrypted, and the nonce after it, are those of the loop without a buffer. -/
theorem decryptChunks_counting (hread : Shortens read) (hframe : frame.length < 2 ^ 63)
    (count : Nat) {pos : Nat} (hpos : pos ≤ frame.length) (out : Bytes) (s : Receiver Nat) :
    let r := decryptChunks (counting read) frame count pos out s
    (r.1, r.2.transport) =
      ((Net.decryptChunks (nextChunk frame) read count pos s.transport).1.map
        (out ++ ·) |>.mapError .error,
      (Net.decryptChunks (nextChunk frame) read count pos s.transport).2) := by
  induction count generalizing pos out s with
  | zero =>
      show (Except.ok out, s.transport) = (Except.ok (out ++ []), s.transport)
      rw [List.append_nil]
  | succ count ih =>
      have hturn := turn_counting hread hframe hpos s
      rw [decryptChunks, Net.decryptChunks]
      cases hchunk : nextChunk frame pos with
      | error text =>
          rw [hchunk] at hturn
          rw [bind_of_error hturn]
          rfl
      | ok r =>
          obtain ⟨ciphertext, pos'⟩ := r
          obtain ⟨-, -, hinside, -⟩ := drop_of_nextChunk hchunk
          rw [hchunk] at hturn
          dsimp only at hturn ⊢
          cases hmessage : read s.transport ciphertext with
          | error text =>
              rw [hmessage] at hturn
              rw [bind_of_error hturn]
              rfl
          | ok message =>
              rw [hmessage] at hturn
              rw [bind_of_ok hturn]
              refine (ih hinside (out ++ message) _).trans ?_
              dsimp only
              cases Net.decryptChunks (nextChunk frame) read count pos' (s.transport + 1) with
              | mk rest last =>
                  cases rest with
                  | error text => rfl
                  | ok rest =>
                      show (Except.ok (out ++ message ++ rest), last) = _
                      rw [List.append_assoc]
                      rfl

/-- With a cipher that counts, what `decrypt_frame` returns and the nonce after it are those of
`Net.decryptFrame`. -/
theorem decryptFrame_counting (hread : Shortens read) (nonce : Nat) (frame : Slice UInt8) :
    let r := decryptFrame (counting read) nonce frame
    (r.1, r.2.transport) = ((Net.decryptFrame read nonce frame.1).1.mapError .error,
      (Net.decryptFrame read nonce frame.1).2) := by
  obtain ⟨frame, hframe⟩ := frame
  unfold decryptFrame decryptAll Net.decryptFrame
  by_cases hshort : frame.length < 4
  · rw [if_pos hshort, stopIf, if_pos hshort]
    rfl
  have hheader : 4 ≤ frame.length := Nat.le_of_not_lt hshort
  rw [if_neg hshort, stopIf, if_neg hshort, fromBeBytes_ok rfl hheader]
  refine (decryptChunks_counting hread hframe _ hheader [] _).trans ?_
  generalize Cbor.ofBigEndian (frame.extract 0 4) = count
  obtain ⟨result, last⟩ := Net.decryptChunks (nextChunk frame) read count 4 nonce
  cases result <;> rfl

end

/-! ### Frames -/

section

variable {σ : Type} {readMessage : ReadMessage σ} {frame : Bytes} {start : Receiver σ}

/-- The frame contains as many chunks as it announces. -/
structure Complete (frame : Bytes) (ciphertexts : List Bytes) : Prop where
  header : 4 ≤ frame.length
  announced : ciphertexts.length = Cbor.ofBigEndian (frame.take 4)
  chunks : ∃ rest, frame = frame.take 4 ++ (ciphertexts.flatMap chunkBytes ++ rest)
  fits : ∀ c ∈ ciphertexts, c.length < 2 ^ 16

theorem triple_decryptAll (hsized : Sized readMessage) (hframe : frame.length < 2 ^ 63) :
    Triple (fun s => s = start) (decryptAll readMessage frame)
      (fun plaintext s => s.turns ≤ start.turns + ((frame.length - 4) / 2 + 1) ∧
        ∃ ciphertexts messages, Complete frame ciphertexts ∧
          OpensAll readMessage start.transport start.buf ciphertexts messages s.transport s.buf ∧
          plaintext = messages.flatten)
      (Refused (start.turns + ((frame.length - 4) / 2 + 1))) := by
  refine Triple.bind (Q := fun _ s => 4 ≤ frame.length ∧ s = start) ?_ fun _ => ?_
  · intro s hs
    subst hs
    show Meets _ _ (stopIf _ _, s)
    unfold stopIf
    split_ifs with hshort
    · exact ⟨nofun, Nat.le_add_right _ _⟩
    · exact ⟨by omega, rfl⟩
  intro s hs
  obtain ⟨hheader, hs⟩ := hs
  subst hs
  show Meets _ _ ((Raising.outcome (fromBeBytes 4 frame 0 4) >>= fun count =>
    decryptChunks readMessage frame count 4 [] : Code σ Bytes) s)
  rw [fromBeBytes_ok rfl hheader]
  refine (triple_decryptChunks hsized hframe _ hheader []).weaken (fun _ h => h) ?_
    (fun _ _ h => h) s rfl
  intro plaintext after hall
  obtain ⟨ciphertexts, messages, rfl, hall, hcount⟩ := hall
  obtain ⟨rest, hchunks⟩ := hall.chunks
  refine ⟨?_, ciphertexts, messages, ⟨hheader, ?_, ⟨rest, ?_⟩, hall.fits⟩, hall.read, rfl⟩
  · rw [hall.turns]
    omega
  · rw [hall.announced, List.extract_eq_take_drop, List.drop_zero]
  · rw [← hchunks, List.take_append_drop]

theorem meets_decryptFrame (hsized : Sized readMessage) (transport : σ) (frame : Slice UInt8) :
    Meets (fun plaintext s => s.turns ≤ (frame.1.length - 4) / 2 + 1 ∧
        ∃ ciphertexts messages, Complete frame.1 ciphertexts ∧
          OpensAll readMessage transport (Vector.replicate _ 0) ciphertexts messages
            s.transport s.buf ∧
          plaintext = messages.flatten)
      (Refused ((frame.1.length - 4) / 2 + 1)) (decryptFrame readMessage transport frame) := by
  have hmeets := triple_decryptAll hsized frame.2
    { transport, buf := Vector.replicate _ 0, turns := 0 } rfl
  simp only [Nat.zero_add] at hmeets
  exact hmeets

theorem turns_decryptFrame (hsized : Sized readMessage) (transport : σ) (frame : Slice UInt8) :
    (decryptFrame readMessage transport frame).2.turns ≤ (frame.1.length - 4) / 2 + 1 := by
  have hmeets := meets_decryptFrame hsized transport frame
  generalize decryptFrame readMessage transport frame = r at hmeets ⊢
  obtain ⟨e | plaintext, after⟩ := r
  · exact hmeets.2
  · exact hmeets.1

variable (readMessage) in
/-- **Hostile frames.** Whatever the bytes of a frame and the state of the cipher, decryption does
not index outside of the frame or its buffer, takes at most one turn more than there are lengths of
chunks in the frame, and returns a message only if the announced chunks are all there and are all
accepted. -/
theorem decryptFrame_bounded (hsized : Sized readMessage) (transport : σ) (frame : Slice UInt8) :
    (decryptFrame readMessage transport frame).1 ≠ .error .panic ∧
    (decryptFrame readMessage transport frame).2.turns ≤ (frame.1.length - 4) / 2 + 1 ∧
    ∀ plaintext, (decryptFrame readMessage transport frame).1 = .ok plaintext →
      ∃ ciphertexts messages last lastBuf, Complete frame.1 ciphertexts ∧
        OpensAll readMessage transport (Vector.replicate _ 0) ciphertexts messages last lastBuf ∧
        plaintext = messages.flatten := by
  have hmeets := meets_decryptFrame hsized transport frame
  refine ⟨?_, turns_decryptFrame hsized transport frame, ?_⟩
  · intro hpanic
    rw [← Prod.eta (decryptFrame readMessage transport frame), hpanic] at hmeets
    exact hmeets.1 rfl
  · intro plaintext hok
    rw [← Prod.eta (decryptFrame readMessage transport frame), hok] at hmeets
    obtain ⟨-, ciphertexts, messages, hcomplete, hopens, hplaintext⟩ := hmeets
    exact ⟨ciphertexts, messages, _, _, hcomplete, hopens, hplaintext⟩

/-- One message of one byte. -/
def recordedFrame : Slice UInt8 := ⟨[0, 0, 0, 1, 0, 17, 7] ++ List.replicate 16 0, by decide⟩

def recordedRead : Nat → Bytes → Except String Bytes :=
  Aead.Log.read "decrypt error" [(7 :: List.replicate 16 0, [7])]

theorem shortens_recordedRead : Shortens recordedRead := by
  intro nonce payload message h
  have hentry := List.mem_of_getElem? (Aead.Log.read_eq_ok.mp h)
  obtain ⟨rfl, rfl⟩ := Prod.mk.inj (List.mem_singleton.mp hentry)
  rfl

theorem decryptFrame_bounded_recorded :
    (decryptFrame (counting recordedRead) 0 recordedFrame).1 ≠ .error .panic ∧
    (decryptFrame (counting recordedRead) 0 recordedFrame).2.turns ≤ 10 ∧
    ∃ ciphertexts messages last lastBuf, Complete recordedFrame.1 ciphertexts ∧
      OpensAll (counting recordedRead) 0 (Vector.replicate _ 0) ciphertexts messages last lastBuf ∧
      [7] = messages.flatten := by
  obtain ⟨hpanic, hturns, hok⟩ := decryptFrame_bounded (counting recordedRead)
    (sized_counting shortens_recordedRead) 0 recordedFrame
  have hmodel : (Net.decryptFrame recordedRead 0 recordedFrame.1).1 = .ok [7] := by decide
  obtain ⟨hrun, -⟩ := Prod.mk.inj (decryptFrame_counting shortens_recordedRead 0 recordedFrame)
  rw [hmodel] at hrun
  exact ⟨hpanic, hturns, hok [7] hrun⟩

/-- A frame that `read_frame` has returned takes no more turns than half of what it can be long. -/
theorem turns_of_readFrame {r buf rest : Bytes} (hsized : Sized readMessage) (transport : σ)
    (h : readFrame r = .ok (some (buf, rest))) : ∃ hbuf : buf.length < 2 ^ 63,
      (decryptFrame readMessage transport ⟨buf, hbuf⟩).2.turns ≤ maxFrame / 2 := by
  obtain ⟨-, -, -, hlen, -⟩ := exists_of_readFrame h
  unfold maxFrame at hlen ⊢
  have hbuf : buf.length < 2 ^ 63 := by omega
  have hturns := turns_decryptFrame hsized transport ⟨buf, hbuf⟩
  refine ⟨hbuf, ?_⟩
  dsimp only at hturns
  omega

end

end Thicket.Net.FrameBounds
