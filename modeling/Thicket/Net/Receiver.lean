import Thicket.Net.Framing
import Thicket.Net.SecureFrame
import Thicket.Py.Secure

/-!
# The receiving end of a channel

The two receivers of encrypted frames, the core's and the SDK's, on what the Noise library does for the
direction. Both decrypt the ciphertexts that a frame delimits one after the other, and recover what
either sender encrypted as long as their nonces agree.
-/

namespace Thicket.Net

open Cbor (Bytes)
open Result

inductive Side where
  | core
  | sdk
  deriving DecidableEq

namespace Side

variable (read : Nat → Bytes → Except String Bytes)

/-- `decrypt_frame`: the frame, if it decrypts, and the next nonce. -/
def decryptFrame (side : Side) (nonce : Nat) (frame : Bytes) : Option Bytes × Nat :=
  match side with
  | .core =>
      let (plaintext, nonce) := Net.decryptFrame read nonce frame
      (plaintext.toOption, nonce)
  | .sdk =>
      let decrypt := fun nonce ciphertext => (read nonce ciphertext).mapError fun _ => Py.Exc.raised
      let (plaintext, nonce) := Py.Secure.decryptFrame decrypt nonce frame
      (plaintext.toOption, nonce)

/-- The ciphertexts in a frame, which its count and length fields tell. -/
def splitFrame (side : Side) (frame : Bytes) : Option (List Bytes) :=
  match side with
  | .core => (Net.splitFrame frame).toOption
  | .sdk => (Py.Secure.splitFrame frame).toOption

/-- The messages that are received in frames, with the nonce after each, until one does not decrypt. -/
def receive (side : Side) : Nat → List Bytes → List (Bytes × Nat)
  | _, [] => []
  | nonce, frame :: frames =>
      match side.decryptFrame read nonce frame with
      | (some plaintext, nonce) => (plaintext, nonce) :: receive side nonce frames
      | (none, _) => []

end Side

/-! ### What decrypts -/

variable {read : Nat → Bytes → Except String Bytes} {side : Side} {frame plaintext : Bytes}
  {nonce nonce' : Nat}

theorem openAll_mapError {ε ε' : Type} {f : ε → ε'} {read : Nat → Bytes → Except ε Bytes}
    {ciphertexts messages : List Bytes} :
    Aead.openAll (fun n c => (read n c).mapError f) nonce ciphertexts = .ok messages ↔
      Aead.openAll read nonce ciphertexts = .ok messages := by
  induction ciphertexts generalizing nonce messages with
  | nil => simp [Aead.openAll]
  | cons c ciphertexts ih => simp only [Aead.openAll, bind_eq_ok, mapError_ok_iff, ih, pure_eq_ok]

theorem prod_toOption_eq {ε α : Type} {x : Except ε α × Nat} {a : α} :
    (x.1.toOption, x.2) = (some a, nonce') ↔ x = (.ok a, nonce') := by
  rw [Prod.mk.injEq, toOption_eq_some, Prod.ext_iff]

theorem Side.decryptFrame_eq_some :
    side.decryptFrame read nonce frame = (some plaintext, nonce') ↔
      ∃ ciphertexts messages, side.splitFrame frame = some ciphertexts ∧
        Aead.openAll read nonce ciphertexts = .ok messages ∧
        plaintext = messages.flatten ∧ nonce' = nonce + ciphertexts.length := by
  cases side with
  | core =>
      simp only [Side.decryptFrame, Side.splitFrame, prod_toOption_eq, toOption_eq_some]
      exact Net.decryptFrame_eq_ok
  | sdk =>
      simp only [Side.decryptFrame, Side.splitFrame, prod_toOption_eq, toOption_eq_some,
        Py.Secure.decryptFrame_eq_ok, openAll_mapError]

theorem Side.splitFrame_of_core {ciphertexts : List Bytes}
    (h : Net.splitFrame frame = .ok ciphertexts) (side : Side) :
    side.splitFrame frame = some ciphertexts := by
  cases side with
  | core => exact toOption_eq_some.mpr h
  | sdk => exact toOption_eq_some.mpr (Py.Secure.splitFrame_of_core h)

/-- **Either receiver recovers a frame**, and its nonce is the sender's again. -/
theorem Side.decryptFrame_encryptFrame (noise : Noise) (side : Side) (nonce : Nat)
    (hcount : (plaintextChunks plaintext).length < 2 ^ 32) :
    side.decryptFrame noise.read nonce (encryptFrame noise.write nonce plaintext).1 =
      (some plaintext, (encryptFrame noise.write nonce plaintext).2) := by
  have hsplit := side.splitFrame_of_core (splitFrame_encryptFrame noise nonce hcount)
  refine Side.decryptFrame_eq_some.mpr ⟨_, _, hsplit, noise.openAll_sealAll nonce _,
    (flatten_plaintextChunks plaintext).symm, ?_⟩
  rw [Aead.length_sealAll]
  rfl

end Thicket.Net
