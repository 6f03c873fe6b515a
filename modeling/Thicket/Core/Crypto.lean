import Thicket.Lib.Result
import Thicket.Lib.Serde
import Mathlib.Tactic.NormNum

/-!
# Primitives and the signing rule

SHA-256 and Ed25519 are third-party code, so a `Crypto` stands for them: the two functions, and the
sizes their types promise. What a result needs of signatures beyond that is a hypothesis of its own.

Everything signed is signed over `signingBytes domain payload`, the domain tag, a NUL and the CBOR
of the payload. The payload can be read back from these bytes.
-/

namespace Thicket

open Cbor (Bytes)
open Result Serde

/-- Errors of the kernel. The text `Serialization` carries is the serializer's own. -/
inductive Error where
  | serialization
  | badKey
  | badSig
  | verifyFailed
  | idMismatch
  | noValidEndorsement
  | endorsementExpired
  | revoked
  | badEndorsement
  deriving DecidableEq, Repr

structure Crypto where
  sha256 : Bytes → Bytes
  SigningKey : Type
  /-- `signing_key.verifying_key().to_bytes()` -/
  verifyingKey : SigningKey → Bytes
  sign : SigningKey → Bytes → Bytes
  /-- Whether `VerifyingKey::from_bytes` accepts 32 bytes as a curve point. -/
  keyDecodes : Bytes → Bool
  /-- `vk.verify(msg, &sig).is_ok()` -/
  verify : Bytes → Bytes → Bytes → Bool
  sha256_length : ∀ bytes, (sha256 bytes).length = 32
  verifyingKey_length : ∀ key, (verifyingKey key).length = 32
  sign_length : ∀ key msg, (sign key msg).length = 64

/-- The canonical bytes to be signed for a payload under a domain tag. -/
def signingBytes {α : Type} [Serialize α] (domain : String) (payload : α) : Except Error Bytes := do
  let body ← okOr (Cbor.encode (toCbor payload)) .serialization
  return Cbor.utf8 domain ++ 0 :: body

theorem signingBytes_injective {α : Type} [Serialize α] [LawfulSerialize α] {domain : String}
    {a b : α} {msg : Bytes} (ha : signingBytes domain a = .ok msg)
    (hb : signingBytes domain b = .ok msg) : a = b := by
  simp only [signingBytes, bind_eq_ok, okOr_eq_ok, pure_eq_ok] at ha hb
  obtain ⟨bodyA, hbodyA, rfl⟩ := ha
  obtain ⟨bodyB, hbodyB, hmsg⟩ := hb
  obtain rfl : bodyB = bodyA := (List.cons.inj (List.append_cancel_left hmsg)).2
  exact toCbor_injective (Cbor.encode_injective hbodyA hbodyB)

variable (crypto : Crypto)

/-- Verify a raw Ed25519 signature over `msg` for the given public key bytes. -/
def verifyRaw (pubBytes msg sigBytes : Bytes) : Except Error Unit := do
  failIf (pubBytes.length ≠ 32) .badKey
  failIf (¬crypto.keyDecodes pubBytes) .badKey
  failIf (sigBytes.length ≠ 64) .badSig
  failIf (¬crypto.verify pubBytes msg sigBytes) .verifyFailed

def verifySignature (pubBytes msg sigBytes : Bytes) : Except Error Unit :=
  verifyRaw crypto pubBytes msg sigBytes

variable {crypto}

theorem verifyRaw_eq_ok {pub msg sig : Bytes} : verifyRaw crypto pub msg sig = .ok () ↔
    pub.length = 32 ∧ crypto.keyDecodes pub ∧ sig.length = 64 ∧ crypto.verify pub msg sig := by
  simp [verifyRaw, bind_eq_ok]

/-- A signature that verifies is 64 bytes, so it is not empty. -/
theorem ne_nil_of_verifyRaw {pub msg sig : Bytes} (h : verifyRaw crypto pub msg sig = .ok ()) :
    sig ≠ [] := by
  rintro rfl
  simpa using (verifyRaw_eq_ok.mp h).2.2.1

variable (crypto)

structure WorkingKey where
  signing : crypto.SigningKey

structure RootKey where
  signing : crypto.SigningKey

variable {crypto}

def WorkingKey.public (key : WorkingKey crypto) : Bytes := crypto.verifyingKey key.signing

def WorkingKey.sign (key : WorkingKey crypto) (msg : Bytes) : Bytes := crypto.sign key.signing msg

def RootKey.public (key : RootKey crypto) : Bytes := crypto.verifyingKey key.signing

theorem WorkingKey.public_length (key : WorkingKey crypto) : key.public.length = 32 :=
  crypto.verifyingKey_length _

/-! ### What results assume of signatures -/

variable (crypto)

/-- A signature verifies under the public key of the key that made it. -/
def Crypto.SignVerifies : Prop :=
  ∀ key msg, crypto.keyDecodes (crypto.verifyingKey key) = true ∧
    crypto.verify (crypto.verifyingKey key) msg (crypto.sign key msg) = true

/-- A signature value verifies for at most one public key and message. -/
def Crypto.SignaturesBind : Prop :=
  ∀ {pub pub' msg msg' sig}, verifyRaw crypto pub msg sig = .ok () →
    verifyRaw crypto pub' msg' sig = .ok () → pub = pub' ∧ msg = msg'

variable {crypto}

theorem WorkingKey.verify_sign (h : crypto.SignVerifies) (key : WorkingKey crypto) (msg : Bytes) :
    verifySignature crypto key.public msg (key.sign msg) = .ok () := by
  obtain ⟨hdecodes, hverify⟩ := h key.signing msg
  exact verifyRaw_eq_ok.mpr ⟨key.public_length, hdecodes, crypto.sign_length _ _, hverify⟩

/-! ### Two evaluable schemes

The first signs every message, by a checksum, and meets `SignVerifies`. A 64-byte signature over
messages of any length cannot also be binding, so the second one knows a finite list of signatures
and verifies these only. -/

/-- Thirty-two bytes of a polynomial checksum. -/
def checksum (msg : Bytes) : Bytes :=
  Cbor.bigEndian 32 (msg.foldl (fun acc byte => acc * 257 + byte.toNat + 1) 1)

/-- The public key of a one-byte seed. -/
def seedPublic (seed : UInt8) : Bytes := List.replicate 32 seed

theorem checksum_length (msg : Bytes) : (checksum msg).length = 32 := Cbor.bigEndian_length _ _

theorem seedPublic_length (seed : UInt8) : (seedPublic seed).length = 32 := List.length_replicate

def Crypto.checked : Crypto where
  sha256 := checksum
  SigningKey := UInt8
  verifyingKey := seedPublic
  sign seed msg := seedPublic seed ++ checksum msg
  keyDecodes _ := true
  verify pub msg sig := sig == pub ++ checksum msg
  sha256_length := checksum_length
  verifyingKey_length := seedPublic_length
  sign_length seed msg := by rw [List.length_append, seedPublic_length, checksum_length]

theorem Crypto.checked_signVerifies : Crypto.checked.SignVerifies := by
  intro key msg
  refine ⟨rfl, ?_⟩
  change (seedPublic key ++ checksum msg == seedPublic key ++ checksum msg) = true
  exact beq_self_eq_true _

/-- A signature some key made: its public key, the message, and the value. -/
abbrev Signature := Bytes × Bytes × Bytes

def Crypto.recorded (signatures : List Signature) : Crypto where
  sha256 := checksum
  SigningKey := UInt8
  verifyingKey := seedPublic
  sign seed msg :=
    let made := signatures.find? fun s => s.1 == seedPublic seed && s.2.1 == msg
    (made.elim [] fun s => s.2.2).rightpad 64 0 |>.take 64
  keyDecodes _ := true
  verify pub msg sig := signatures.contains (pub, msg, sig)
  sha256_length := checksum_length
  verifyingKey_length := seedPublic_length
  sign_length seed msg := by
    rw [List.length_take, List.length_rightpad]
    omega

theorem Crypto.recorded_verifyRaw {signatures : List Signature} {pub msg sig : Bytes}
    (h : verifyRaw (Crypto.recorded signatures) pub msg sig = .ok ()) :
    (pub, msg, sig) ∈ signatures := by
  have hverify : signatures.contains (pub, msg, sig) = true := (verifyRaw_eq_ok.mp h).2.2.2
  exact List.contains_iff_mem.mp hverify

theorem Crypto.recorded_signaturesBind {signatures : List Signature}
    (hdistinct : ∀ s ∈ signatures, ∀ t ∈ signatures, s.2.2 = t.2.2 → s = t) :
    (Crypto.recorded signatures).SignaturesBind := by
  intro pub pub' msg msg' sig h h'
  have hsame := hdistinct _ (recorded_verifyRaw h) _ (recorded_verifyRaw h') rfl
  simp only [Prod.mk.injEq, and_true] at hsame
  exact hsame

end Thicket
