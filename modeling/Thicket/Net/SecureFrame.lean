import Thicket.Lib.Aead
import Thicket.Lib.Chunks
import Thicket.Lib.CborDecode

/-!
# Encrypted frames

One logical frame is cut to Noise's message limit: a chunk count, then each chunk as the length of its
ciphertext and the ciphertext. The Noise library is what it makes of a message under a nonce, and the
state of one direction of a channel is the next nonce.
-/

namespace Thicket.Net

open Cbor (Bytes)
open Result

/-- Noise messages are bounded at 65535 bytes; 16 of those are the AEAD tag. -/
def noiseMaxPayload : Nat := 65535 - 16

def plaintextChunks (plaintext : Bytes) : List Bytes :=
  if plaintext.isEmpty then [] else chunks noiseMaxPayload plaintext

/-- A ciphertext with its length in front. -/
def chunkBytes (ciphertext : Bytes) : Bytes := Cbor.bigEndian 2 ciphertext.length ++ ciphertext

section

variable (writeMessage : Nat → Bytes → Bytes)

/-- `secure::encrypt_frame`, with the next nonce. -/
def encryptFrame (nonce : Nat) (plaintext : Bytes) : Bytes × Nat :=
  let chunks := plaintextChunks plaintext
  let ciphertexts := Aead.sealAll writeMessage nonce chunks
  (Cbor.bigEndian 4 chunks.length ++ ciphertexts.flatMap chunkBytes, nonce + chunks.length)

end

section

variable {ε : Type} (next : Nat → Except ε (Bytes × Nat))
  (readMessage : Nat → Bytes → Except ε Bytes)

/-- The loop of `decrypt_frame`: `next` gives the ciphertext at a position and the position after it. -/
def decryptChunks : Nat → Nat → Nat → Except ε Bytes × Nat
  | 0, _, nonce => (.ok [], nonce)
  | count + 1, pos, nonce =>
      match next pos with
      | .error e => (.error e, nonce)
      | .ok (ciphertext, pos) =>
          match readMessage nonce ciphertext with
          | .error e => (.error e, nonce)
          | .ok buf =>
              let (out, nonce) := decryptChunks count pos (nonce + 1)
              (out.map (buf ++ ·), nonce)

/-- The ciphertexts that the loop reads, as many as announced. -/
def splitChunks : Nat → Nat → Except ε (List Bytes)
  | 0, _ => .ok []
  | count + 1, pos => do
      let (ciphertext, pos) ← next pos
      return ciphertext :: (← splitChunks count pos)

end

def nextChunk (frame : Bytes) (pos : Nat) : Except String (Bytes × Nat) := do
  failIf (pos + 2 > frame.length) "truncated chunk header"
  let len := Cbor.ofBigEndian (frame.extract pos (pos + 2))
  let pos := pos + 2
  failIf (pos + len > frame.length) "truncated chunk"
  return (frame.extract pos (pos + len), pos + len)

/-- `secure::decrypt_frame`, with the next nonce; the text is that of the `Crypto` error. -/
def decryptFrame (readMessage : Nat → Bytes → Except String Bytes) (nonce : Nat) (frame : Bytes) :
    Except String Bytes × Nat :=
  if frame.length < 4 then (.error "short frame", nonce)
  else
    let count := Cbor.ofBigEndian (frame.extract 0 4)
    decryptChunks (nextChunk frame) readMessage count 4 nonce

/-- What a frame holds for the cipher, whatever bytes it is. -/
def splitFrame (frame : Bytes) : Except String (List Bytes) :=
  if frame.length < 4 then .error "short frame"
  else splitChunks (nextChunk frame) (Cbor.ofBigEndian (frame.extract 0 4)) 4

/-! ### What is read -/

section

variable {ε : Type} {next : Nat → Except ε (Bytes × Nat)}
  {readMessage : Nat → Bytes → Except ε Bytes} {plaintext : Bytes} {nonce nonce' : Nat}

/-- The loop decrypts the ciphertexts one after the other and joins them. -/
theorem decryptChunks_eq_ok {count pos : Nat} :
    decryptChunks next readMessage count pos nonce = (.ok plaintext, nonce') ↔
      ∃ ciphertexts messages, splitChunks next count pos = .ok ciphertexts ∧
        Aead.openAll readMessage nonce ciphertexts = .ok messages ∧
        plaintext = messages.flatten ∧ nonce' = nonce + ciphertexts.length := by
  induction count generalizing pos nonce nonce' plaintext with
  | zero =>
      simp only [decryptChunks, splitChunks, Prod.mk.injEq, Except.ok.injEq]
      constructor
      · intro h
        obtain ⟨rfl, rfl⟩ := h
        exact ⟨[], [], rfl, rfl, rfl, rfl⟩
      · intro h
        obtain ⟨_, messages, rfl, hopen, rfl, rfl⟩ := h
        obtain rfl : [] = messages := Except.ok.inj hopen
        exact ⟨rfl, rfl⟩
  | succ count ih =>
      rw [decryptChunks]
      simp only [splitChunks, bind_eq_ok, pure_eq_ok]
      constructor
      · intro h
        split at h
        · cases h
        · next ciphertext pos' hnext =>
            split at h
            · cases h
            · next buf hread =>
                cases hrest : decryptChunks next readMessage count pos' (nonce + 1) with
                | mk out last =>
                    rw [hrest] at h
                    obtain ⟨hout, rfl⟩ : out.map (buf ++ ·) = .ok plaintext ∧ last = nonce' := by
                      simpa using h
                    cases out with
                    | error e => cases hout
                    | ok out =>
                        obtain rfl : buf ++ out = plaintext := Except.ok.inj hout
                        obtain ⟨rest, messages, hsplit, hopen, rfl, rfl⟩ := ih.mp hrest
                        refine ⟨ciphertext :: rest, buf :: messages,
                          ⟨(ciphertext, pos'), hnext, rest, hsplit, rfl⟩, ?_, rfl, ?_⟩
                        · rw [Aead.openAll, hread, hopen]
                          rfl
                        · rw [List.length_cons]
                          omega
      · intro h
        obtain ⟨_, messages, ⟨⟨ciphertext, pos'⟩, hnext, rest, hsplit, rfl⟩, hopen, rfl, rfl⟩ := h
        simp only [Aead.openAll, bind_eq_ok, pure_eq_ok] at hopen
        obtain ⟨buf, hread, opened, hopened, rfl⟩ := hopen
        have hloop := ih.mpr ⟨rest, opened, hsplit, hopened, rfl, rfl⟩
        rw [hnext]
        simp only [hread, hloop, Prod.mk.injEq]
        rw [List.length_cons]
        exact ⟨rfl, by omega⟩

end

/-- A frame decrypts to its chunks, decrypted one after the other. -/
theorem decryptFrame_eq_ok {readMessage : Nat → Bytes → Except String Bytes}
    {frame plaintext : Bytes} {nonce nonce' : Nat} :
    decryptFrame readMessage nonce frame = (.ok plaintext, nonce') ↔
      ∃ ciphertexts messages, splitFrame frame = .ok ciphertexts ∧
        Aead.openAll readMessage nonce ciphertexts = .ok messages ∧
        plaintext = messages.flatten ∧ nonce' = nonce + ciphertexts.length := by
  rw [decryptFrame, splitFrame]
  by_cases hlen : frame.length < 4
  · rw [if_pos hlen, if_pos hlen]
    simp
  · rw [if_neg hlen, if_neg hlen]
    exact decryptChunks_eq_ok

/-! ### What is written -/

theorem plaintextChunks_eq (plaintext : Bytes) :
    plaintextChunks plaintext = chunks noiseMaxPayload plaintext := by
  unfold plaintextChunks
  split_ifs with hempty
  · rw [List.isEmpty_iff.mp hempty]
    exact (Chunks.chunks_nil (by decide)).symm
  · rfl

theorem flatten_plaintextChunks (plaintext : Bytes) :
    (plaintextChunks plaintext).flatten = plaintext := by
  rw [plaintextChunks_eq]
  exact Chunks.flatten_chunks (by decide) plaintext

theorem plaintextChunks_ne_nil {chunk : Bytes} (h : chunk ∈ plaintextChunks plaintext) :
    chunk ≠ [] := by
  rw [plaintextChunks_eq] at h
  exact Chunks.ne_nil_of_mem (by decide) h

theorem length_plaintextChunks (plaintext : Bytes) : (plaintextChunks plaintext).length =
    (plaintext.length + noiseMaxPayload - 1) / noiseMaxPayload := by
  rw [plaintextChunks_eq, Chunks.length_chunks]

/-- A position in a frame after what is already read. -/
theorem extract_append (before middle after : Bytes) :
    (before ++ (middle ++ after)).extract before.length (before.length + middle.length) = middle := by
  rw [List.extract_eq_take_drop, List.drop_left, Nat.add_sub_cancel_left, List.take_left]

theorem nextChunk_chunkBytes (before ciphertext after : Bytes)
    (hlen : ciphertext.length < 2 ^ 16) :
    nextChunk (before ++ (chunkBytes ciphertext ++ after)) before.length =
      .ok (ciphertext, before.length + (chunkBytes ciphertext).length) := by
  have hheader : (Cbor.bigEndian 2 ciphertext.length).length = 2 := Cbor.bigEndian_length _ _
  have hcount : (chunkBytes ciphertext).length = 2 + ciphertext.length := by
    rw [chunkBytes, List.length_append, hheader]
  have hlenBytes : (before ++ (chunkBytes ciphertext ++ after)).extract before.length
      (before.length + 2) = Cbor.bigEndian 2 ciphertext.length := by
    have hextract := extract_append before (Cbor.bigEndian 2 ciphertext.length)
      (ciphertext ++ after)
    rw [hheader] at hextract
    rw [chunkBytes, List.append_assoc]
    exact hextract
  have hbody : (before ++ (chunkBytes ciphertext ++ after)).extract (before.length + 2)
      (before.length + 2 + ciphertext.length) = ciphertext := by
    have hextract := extract_append (before ++ Cbor.bigEndian 2 ciphertext.length) ciphertext after
    rw [List.length_append, hheader, List.append_assoc] at hextract
    rw [chunkBytes, List.append_assoc]
    exact hextract
  have htotal : (before ++ (chunkBytes ciphertext ++ after)).length =
      before.length + (2 + ciphertext.length) + after.length := by
    rw [List.length_append, List.length_append, hcount]
    omega
  have hvalue : Cbor.ofBigEndian (Cbor.bigEndian 2 ciphertext.length) = ciphertext.length :=
    Cbor.ofBigEndian_bigEndian (by omega)
  rw [nextChunk, hlenBytes, hvalue]
  simp only [hbody, htotal, hcount, bind_eq_ok, exists_unit, failIf_eq_ok, pure_eq_ok]
  refine ⟨by omega, by omega, ?_⟩
  rw [Nat.add_assoc]

theorem splitChunks_chunkBytes {ε : Type} (next : Bytes → Nat → Except ε (Bytes × Nat))
    (hnext : ∀ before ciphertext after : Bytes, ciphertext.length < 2 ^ 16 →
      next (before ++ (chunkBytes ciphertext ++ after)) before.length =
        .ok (ciphertext, before.length + (chunkBytes ciphertext).length))
    {ciphertexts : List Bytes} (before : Bytes) (h : ∀ c ∈ ciphertexts, c.length < 2 ^ 16) :
    splitChunks (next (before ++ ciphertexts.flatMap chunkBytes)) ciphertexts.length before.length =
      .ok ciphertexts := by
  induction ciphertexts generalizing before with
  | nil => rfl
  | cons c ciphertexts ih =>
      have hfirst := hnext before c (ciphertexts.flatMap chunkBytes) (h c List.mem_cons_self)
      have hrest := ih (before ++ chunkBytes c) fun c hc => h c (List.mem_cons_of_mem _ hc)
      rw [List.append_assoc, List.length_append] at hrest
      rw [List.flatMap_cons, List.length_cons, splitChunks, hfirst]
      simp only [bind_eq_ok, Except.ok.injEq, exists_eq_left', pure_eq_ok, hrest]

/-! ### The way back -/

/-- What the Noise library does for one direction of a channel. -/
abbrev Noise := Aead.Cipher UInt8 String 16

section

variable (noise : Noise) (nonce : Nat) (plaintext : Bytes)

/-- The ciphertext of a chunk fits its length field. -/
theorem length_of_mem_sealAll {ciphertext : Bytes}
    (h : ciphertext ∈ Aead.sealAll noise.write nonce (plaintextChunks plaintext)) :
    ciphertext.length < 2 ^ 16 := by
  obtain ⟨chunk, hchunk, hlen⟩ := noise.exists_of_mem_sealAll h
  rw [plaintextChunks_eq] at hchunk
  have hle := Chunks.length_le_of_mem hchunk
  unfold noiseMaxPayload at hle
  omega

/-- How long the frame of a message is. -/
def frameLength (plaintext : Bytes) : Nat :=
  4 + plaintext.length + 18 * (plaintextChunks plaintext).length

theorem length_flatMap_chunkBytes (messages : List Bytes) :
    ((Aead.sealAll noise.write nonce messages).flatMap chunkBytes).length =
      messages.flatten.length + 18 * messages.length := by
  induction messages generalizing nonce with
  | nil => rfl
  | cons message messages ih =>
      rw [Aead.sealAll, List.flatMap_cons, List.length_append, ih, chunkBytes, List.length_append,
        Cbor.bigEndian_length, noise.length_write, List.flatten_cons, List.length_append,
        List.length_cons]
      omega

theorem length_encryptFrame :
    (encryptFrame noise.write nonce plaintext).1.length = frameLength plaintext := by
  change (Cbor.bigEndian 4 _ ++ _).length = _
  rw [List.length_append, Cbor.bigEndian_length, length_flatMap_chunkBytes,
    flatten_plaintextChunks, frameLength]
  omega

variable {plaintext}

theorem splitFrame_encryptFrame (hcount : (plaintextChunks plaintext).length < 2 ^ 32) :
    splitFrame (encryptFrame noise.write nonce plaintext).1 =
      .ok (Aead.sealAll noise.write nonce (plaintextChunks plaintext)) := by
  have hheader : (Cbor.bigEndian 4 (plaintextChunks plaintext).length).length = 4 :=
    Cbor.bigEndian_length _ _
  have hlen : ¬(encryptFrame noise.write nonce plaintext).1.length < 4 := by
    rw [length_encryptFrame, frameLength]
    omega
  have hsplit := splitChunks_chunkBytes nextChunk nextChunk_chunkBytes
    (Cbor.bigEndian 4 (plaintextChunks plaintext).length)
    fun c hc => length_of_mem_sealAll noise nonce plaintext hc
  rw [hheader, Aead.length_sealAll] at hsplit
  have hextract := extract_append [] (Cbor.bigEndian 4 (plaintextChunks plaintext).length)
    ((Aead.sealAll noise.write nonce (plaintextChunks plaintext)).flatMap chunkBytes)
  rw [hheader] at hextract
  have hvalue : Cbor.ofBigEndian (Cbor.bigEndian 4 (plaintextChunks plaintext).length) =
      (plaintextChunks plaintext).length := Cbor.ofBigEndian_bigEndian (by omega)
  have hannounced : Cbor.ofBigEndian
      ((encryptFrame noise.write nonce plaintext).1.extract 0 4) =
        (plaintextChunks plaintext).length := (congrArg Cbor.ofBigEndian hextract).trans hvalue
  rw [splitFrame, if_neg hlen, hannounced]
  exact hsplit

end

end Thicket.Net
