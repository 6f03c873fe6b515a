import Thicket.Net.SecureFrame
import Thicket.Py.Decode

/-!
# Encrypted frames in the Python SDK

`thicket/secure.py` as far as it encrypts and decrypts frames. A number that its field cannot hold is
an `OverflowError`, and a slice stops at the end of the frame.
-/

namespace Thicket.Py.Secure

open Cbor (Bytes)
open Net (Noise noiseMaxPayload plaintextChunks)
open Result

/-- `n.to_bytes(width, "big")` -/
def toBytes (n width : Nat) : Except Exc Bytes :=
  if n < 256 ^ width then .ok (Cbor.bigEndian width n) else .error .overflowError

section

variable (encrypt : Nat → Bytes → Bytes)

/-- The loop of `encrypt_frame`, with the next nonce. -/
def encryptChunks : List Bytes → Bytes → Nat → Except Exc Bytes × Nat
  | [], out, nonce => (.ok out, nonce)
  | ch :: chunks, out, nonce =>
      let ct := encrypt nonce ch
      match toBytes ct.length 2 with
      | .error e => (.error e, nonce + 1)
      | .ok len => encryptChunks chunks (out ++ len ++ ct) (nonce + 1)

def encryptFrame (nonce : Nat) (plaintext : Bytes) : Except Exc Bytes × Nat :=
  let chunks := plaintextChunks plaintext
  match toBytes chunks.length 4 with
  | .error e => (.error e, nonce)
  | .ok out => encryptChunks encrypt chunks out nonce

end

def nextChunk (frame : Bytes) (pos : Nat) : Except Exc (Bytes × Nat) :=
  let n := fromBytes frame pos 2
  let pos := pos + 2
  .ok (slice frame pos n, pos + n)

def decryptFrame (decrypt : Nat → Bytes → Except Exc Bytes) (nonce : Nat) (frame : Bytes) :
    Except Exc Bytes × Nat :=
  Net.decryptChunks (nextChunk frame) decrypt (fromBytes frame 0 4) 4 nonce

/-- What a frame holds for the cipher, whatever bytes it is. -/
def splitFrame (frame : Bytes) : Except Exc (List Bytes) :=
  Net.splitChunks (nextChunk frame) (fromBytes frame 0 4) 4

variable {frame plaintext : Bytes} {nonce nonce' : Nat}

theorem decryptFrame_eq_ok {decrypt : Nat → Bytes → Except Exc Bytes} :
    decryptFrame decrypt nonce frame = (.ok plaintext, nonce') ↔
      ∃ ciphertexts messages, splitFrame frame = .ok ciphertexts ∧
        Aead.openAll decrypt nonce ciphertexts = .ok messages ∧
        plaintext = messages.flatten ∧ nonce' = nonce + ciphertexts.length :=
  Net.decryptChunks_eq_ok

/-! ### The same frames as the core -/

theorem slice_eq_extract (pos n : Nat) : slice frame pos n = frame.extract pos (pos + n) := by
  rw [List.extract_eq_take_drop, Nat.add_sub_cancel_left]
  rfl

theorem nextChunk_of_core {pos : Nat} {chunk : Bytes × Nat}
    (h : Net.nextChunk frame pos = .ok chunk) : nextChunk frame pos = .ok chunk := by
  simp only [Net.nextChunk, bind_eq_ok, exists_unit, failIf_eq_ok, pure_eq_ok] at h
  obtain ⟨-, -, rfl⟩ := h
  simp only [nextChunk, fromBytes, slice_eq_extract]

theorem splitChunks_of_core {count pos : Nat} {ciphertexts : List Bytes}
    (h : Net.splitChunks (Net.nextChunk frame) count pos = .ok ciphertexts) :
    Net.splitChunks (nextChunk frame) count pos = .ok ciphertexts := by
  induction count generalizing pos ciphertexts with
  | zero =>
      obtain rfl : [] = ciphertexts := Except.ok.inj h
      rfl
  | succ count ih =>
      simp only [Net.splitChunks, bind_eq_ok, pure_eq_ok] at h ⊢
      obtain ⟨chunk, hnext, rest, hrest, rfl⟩ := h
      exact ⟨chunk, nextChunk_of_core hnext, rest, ih hrest, rfl⟩

/-- What the core splits, the SDK splits in the same way. -/
theorem splitFrame_of_core {ciphertexts : List Bytes}
    (h : Net.splitFrame frame = .ok ciphertexts) : splitFrame frame = .ok ciphertexts := by
  unfold Net.splitFrame at h
  split_ifs at h
  rw [splitFrame, fromBytes, slice_eq_extract]
  exact splitChunks_of_core h

theorem toBytes_of_lt {n width : Nat} (h : n < 256 ^ width) :
    toBytes n width = .ok (Cbor.bigEndian width n) := by
  rw [toBytes, if_pos h]

section

variable (noise : Noise) (nonce : Nat)

theorem encryptChunks_eq {chunks : List Bytes} (out : Bytes)
    (h : ∀ c ∈ Aead.sealAll noise.write nonce chunks, c.length < 2 ^ 16) :
    encryptChunks noise.write chunks out nonce =
      (.ok (out ++ (Aead.sealAll noise.write nonce chunks).flatMap Net.chunkBytes),
        nonce + chunks.length) := by
  induction chunks generalizing nonce out with
  | nil =>
      rw [encryptChunks, Aead.sealAll, List.flatMap_nil, List.append_nil]
      rfl
  | cons ch chunks ih =>
      have hfits : (noise.write nonce ch).length < 256 ^ 2 := h _ List.mem_cons_self
      have hrest := ih (nonce + 1)
        (out ++ Cbor.bigEndian 2 (noise.write nonce ch).length ++ noise.write nonce ch)
        fun c hc => h c (List.mem_cons_of_mem _ hc)
      have hnext : nonce + (chunks.length + 1) = nonce + 1 + chunks.length := by omega
      rw [encryptChunks, toBytes_of_lt hfits]
      change encryptChunks noise.write chunks _ (nonce + 1) = _
      rw [hrest, Aead.sealAll, List.flatMap_cons, Net.chunkBytes, List.length_cons, hnext]
      simp only [List.append_assoc]

/-- With less than `2 ^ 32` chunks the SDK writes the core's frame. -/
theorem encryptFrame_eq (hcount : (plaintextChunks plaintext).length < 2 ^ 32) :
    encryptFrame noise.write nonce plaintext =
      (.ok (Net.encryptFrame noise.write nonce plaintext).1,
        (Net.encryptFrame noise.write nonce plaintext).2) := by
  have hfits : (plaintextChunks plaintext).length < 256 ^ 4 := by omega
  rw [encryptFrame, toBytes_of_lt hfits]
  exact encryptChunks_eq noise nonce _ fun c hc => Net.length_of_mem_sealAll noise nonce plaintext hc

/-- With `2 ^ 32` chunks or more it encrypts nothing. -/
theorem encryptFrame_of_le (hcount : 2 ^ 32 ≤ (plaintextChunks plaintext).length) :
    encryptFrame noise.write nonce plaintext = (.error .overflowError, nonce) := by
  rw [encryptFrame, toBytes, if_neg (by omega)]

end

end Thicket.Py.Secure
