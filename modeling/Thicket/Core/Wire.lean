import Thicket.Core.Record
import Thicket.Lib.SerdeJson

/-!
# Records on the wire

How the kernel's types are read. Every value that is written, in CBOR or in JSON, is read back.
-/

namespace Thicket

open Cbor (Bytes)
open Result Serde

instance : Deserialize Id where
  ofCbor v := (ofCbor v).map Id.mk

instance : LawfulDeserialize Id where
  ofCbor_view format a := congrArg (Option.map Id.mk) (ofCbor_view format a.bytes)

instance : Deserialize Visibility where
  ofCbor := unitVariant [.public, .unlisted, .private] Visibility.name

instance : LawfulDeserialize Visibility where
  ofCbor_view format a := by
    simp only [Serialize.toCbor, Format.view_text]
    cases a <;> decide

instance : Deserialize KeyEndorsement where
  ofCbor v := do
    let fs ← fields v
    return { workingPub := ← fs.required "working_pub", notBefore := ← fs.required "not_before",
             notAfter := ← fs.required "not_after", rootSig := ← fs.required "root_sig" }

instance : LawfulDeserialize KeyEndorsement where
  ofCbor_view format a := by
    refine (fields_bind format _ _).trans ?_
    rw [required_of_named (a := a.workingPub) (by simp),
      required_of_named (a := a.notBefore) (by simp), required_of_named (a := a.notAfter) (by simp),
      required_of_named (a := a.rootSig) (by simp)]
    rfl

instance : Deserialize Io where
  ofCbor v := do
    let fs ← fields v
    return { input := ← fs.required "input", output := ← fs.required "output" }

instance : LawfulDeserialize Io where
  ofCbor_view format a := by
    refine (fields_bind format _ _).trans ?_
    rw [required_of_named (a := a.input) (by simp), required_of_named (a := a.output) (by simp)]
    rfl

instance : NonNull Io := ⟨rfl⟩

instance : Deserialize Capability where
  ofCbor v := do
    let fs ← fields v
    return { kind := ← fs.required "kind", description := ← fs.required "description",
             io := ← fs.defaulted "io" none, tags := ← fs.defaulted "tags" [],
             modalities := ← fs.defaulted "modalities" [], envelope := ← fs.defaulted "envelope" ∅ }

instance : LawfulDeserialize Capability where
  ofCbor_view format a := by
    refine (fields_bind format _ _).trans ?_
    rw [required_of_named (a := a.kind) (by simp), required_of_named (a := a.description) (by simp),
      optional_of_named (a := a.io) (by simp), defaulted_of_named (a := a.tags) (by simp),
      defaulted_of_named (a := a.modalities) (by simp),
      defaulted_of_named (a := a.envelope) (by simp)]
    rfl

instance : Deserialize Locator where
  ofCbor v := do
    let fs ← fields v
    return { protocol := ← fs.required "protocol", endpoint := ← fs.required "endpoint" }

instance : LawfulDeserialize Locator where
  ofCbor_view format a := by
    refine (fields_bind format _ _).trans ?_
    rw [required_of_named (a := a.protocol) (by simp),
      required_of_named (a := a.endpoint) (by simp)]
    rfl

instance : Deserialize Lease where
  ofCbor v := do
    let fs ← fields v
    return { ttl := ← fs.required "ttl", issuedAt := ← fs.required "issued_at",
             expiresAt := ← fs.required "expires_at" }

instance : LawfulDeserialize Lease where
  ofCbor_view format a := by
    refine (fields_bind format _ _).trans ?_
    rw [required_of_named (a := a.ttl) (by simp), required_of_named (a := a.issuedAt) (by simp),
      required_of_named (a := a.expiresAt) (by simp)]
    rfl

instance : NonNull Lease := ⟨rfl⟩

instance : Deserialize RecordPayload where
  ofCbor v := do
    let fs ← fields v
    return { schema := ← fs.required "schema", id := ← fs.required "id",
             rootPublicKey := ← fs.required "root_public_key", keys := ← fs.required "keys",
             kind := ← fs.required "kind", locators := ← fs.defaulted "locators" [],
             capabilities := ← fs.defaulted "capabilities" [],
             profile := ← fs.defaulted "profile" ∅, supports := ← fs.defaulted "supports" ∅,
             visibility := ← fs.defaulted "visibility" .public,
             lease := ← fs.defaulted "lease" none, version := ← fs.required "version",
             ext := ← fs.defaulted "ext" ∅ }

instance : LawfulDeserialize RecordPayload where
  ofCbor_view format a := by
    refine (fields_bind format _ _).trans ?_
    rw [required_of_named (a := a.schema) (by simp), required_of_named (a := a.id) (by simp),
      required_of_named (a := a.rootPublicKey) (by simp), required_of_named (a := a.keys) (by simp),
      required_of_named (a := a.kind) (by simp), defaulted_of_named (a := a.locators) (by simp),
      defaulted_of_named (a := a.capabilities) (by simp),
      defaulted_of_named (a := a.profile) (by simp), defaulted_of_named (a := a.supports) (by simp),
      defaulted_of_named (a := a.visibility) (by simp), optional_of_named (a := a.lease) (by simp),
      required_of_named (a := a.version) (by simp), defaulted_of_named (a := a.ext) (by simp)]
    rfl

instance : Serialize SignedRecord where
  toCbor r := struct (field "payload" r.payload ++ (field "signer_pub" r.signerPub ++
    field "signature" r.signature))

instance : Deserialize SignedRecord where
  ofCbor v := do
    let fs ← fields v
    return { payload := ← fs.required "payload", signerPub := ← fs.required "signer_pub",
             signature := ← fs.required "signature" }

instance : LawfulDeserialize SignedRecord where
  ofCbor_view format a := by
    refine (fields_bind format _ _).trans ?_
    rw [required_of_named (a := a.payload) (by simp),
      required_of_named (a := a.signerPub) (by simp),
      required_of_named (a := a.signature) (by simp)]
    rfl

/-! ### JSON -/

instance : JsonWritable Id := ⟨fun _ => rfl⟩

instance : JsonWritable Visibility := ⟨fun _ => rfl⟩

instance : JsonWritable KeyEndorsement where
  toJson_isSome a := by
    apply toJson_struct
    simp only [List.forall_mem_append]
    exact ⟨forall_mem_field, forall_mem_field, forall_mem_field, forall_mem_field⟩

instance : JsonWritable Io where
  toJson_isSome a := by
    apply toJson_struct
    simp only [List.forall_mem_append]
    exact ⟨forall_mem_field, forall_mem_field⟩

instance : JsonWritable Capability where
  toJson_isSome a := by
    apply toJson_struct
    simp only [List.forall_mem_append]
    exact ⟨forall_mem_field, forall_mem_field, forall_mem_optionalField, forall_mem_field,
      forall_mem_field, forall_mem_field⟩

instance : JsonWritable Locator where
  toJson_isSome a := by
    apply toJson_struct
    simp only [List.forall_mem_append]
    exact ⟨forall_mem_field, forall_mem_field⟩

instance : JsonWritable Lease where
  toJson_isSome a := by
    apply toJson_struct
    simp only [List.forall_mem_append]
    exact ⟨forall_mem_field, forall_mem_field, forall_mem_field⟩

instance : JsonWritable RecordPayload where
  toJson_isSome a := by
    apply toJson_struct
    simp only [List.forall_mem_append]
    exact ⟨forall_mem_field, forall_mem_field, forall_mem_field, forall_mem_field, forall_mem_field,
      forall_mem_field, forall_mem_field, forall_mem_field, forall_mem_field, forall_mem_field,
      forall_mem_optionalField, forall_mem_field, forall_mem_field⟩

instance : JsonWritable SignedRecord where
  toJson_isSome a := by
    apply toJson_struct
    simp only [List.forall_mem_append]
    exact ⟨forall_mem_field, forall_mem_field, forall_mem_field⟩

namespace SignedRecord

def toCbor (self : SignedRecord) : Except Error Bytes :=
  okOr (intoWriter self) .serialization

def fromCbor (bytes : Bytes) : Except Error SignedRecord := okOr (fromReader bytes) .serialization

def toJson (self : SignedRecord) : Except Error String := okOr (toJsonString self) .serialization

def fromJson (s : String) : Except Error SignedRecord := okOr (fromJsonString s) .serialization

end SignedRecord

end Thicket
