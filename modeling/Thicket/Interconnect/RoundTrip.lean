import Thicket.Core.Checkpoint
import Thicket.Interconnect.Wire

/-!
# The wire round trip

Whatever is written is read back as it was, so a decoded object passes and fails verification
exactly as the original does. Optional and empty parts are written by one rule and read by another;
that the two agree is the round trip of the field combinators.
-/

namespace Thicket

open Cbor (Bytes)
open Result Serde

theorem SignedRecord.fromCbor_toCbor {record : SignedRecord} {bytes : Bytes}
    (h : record.toCbor = .ok bytes) : SignedRecord.fromCbor bytes = .ok record := by
  rw [SignedRecord.toCbor, okOr_eq_ok] at h
  rw [SignedRecord.fromCbor, okOr_eq_ok]
  exact fromReader_intoWriter h

theorem SignedRecord.fromJson_toJson (record : SignedRecord) :
    ∃ s, record.toJson = .ok s ∧ SignedRecord.fromJson s = .ok record := by
  obtain ⟨s, hs⟩ := toJsonString_isSome record
  refine ⟨s, ?_, ?_⟩
  · rw [SignedRecord.toJson, okOr_eq_ok]
    exact hs
  · rw [SignedRecord.fromJson, okOr_eq_ok]
    exact fromJsonString_toJsonString hs

theorem Checkpoint.fromCbor_toCbor {checkpoint : Checkpoint} {bytes : Bytes}
    (h : checkpoint.toCbor = .ok bytes) : Checkpoint.fromCbor bytes = .ok checkpoint := by
  rw [Checkpoint.toCbor, okOr_eq_ok] at h
  rw [Checkpoint.fromCbor, okOr_eq_ok]
  exact fromReader_intoWriter h

/-- **Round trip.** Every record, envelope, grant and checkpoint is read back from its CBOR, and
every record from its JSON, which it always has. -/
theorem wire_round_trip :
    (∀ (x : SignedRecord) (bytes : Bytes), x.toCbor = .ok bytes →
      SignedRecord.fromCbor bytes = .ok x) ∧
    (∀ (x : SignedEnvelope) (bytes : Bytes), intoWriter x = some bytes →
      fromReader bytes = some x) ∧
    (∀ (x : Grant) (bytes : Bytes), intoWriter x = some bytes → fromReader bytes = some x) ∧
    (∀ (x : Checkpoint) (bytes : Bytes), x.toCbor = .ok bytes →
      Checkpoint.fromCbor bytes = .ok x) ∧
    ∀ x : SignedRecord, ∃ s, x.toJson = .ok s ∧ SignedRecord.fromJson s = .ok x := by
  refine ⟨?_, ?_, ?_, ?_, ?_⟩
  · intro x bytes h
    exact SignedRecord.fromCbor_toCbor h
  · intro x bytes h
    exact fromReader_intoWriter h
  · intro x bytes h
    exact fromReader_intoWriter h
  · intro x bytes h
    exact Checkpoint.fromCbor_toCbor h
  · exact SignedRecord.fromJson_toJson

/-- An error reply whose context carries a deadline only. -/
def sampleReply : SignedEnvelope :=
  { payload :=
      { v := 1, fromId := ⟨[1]⟩, toId := ⟨[2]⟩, typ := .error, capability := none,
        correlation := [3], contentType := none, context := { Context.empty with deadline := some 9 },
        auth := none, streamSeq := none, streamEnd := false, error := some ⟨.timeout, "late"⟩,
        body := [], ext := ∅ },
    signerPub := [4], signature := [5] }

theorem wire_round_trip_sample :
    let record := sampleRecord ⟨(1 : UInt8)⟩ ⟨(2 : UInt8)⟩
      (some { ttl := 5, issuedAt := 10, expiresAt := 15 }) 7
    SignedRecord.fromCbor (valueOr record.toCbor []) = .ok record ∧
      fromReader ((intoWriter sampleReply).getD []) = some sampleReply := by
  intro record
  have hrecord : record.toCbor = .ok (valueOr record.toCbor []) := eq_ok_valueOr (by decide +kernel)
  have hreply : intoWriter sampleReply = some ((intoWriter sampleReply).getD []) := by
    decide +kernel
  exact ⟨wire_round_trip.1 record _ hrecord, wire_round_trip.2.1 sampleReply _ hreply⟩

end Thicket
