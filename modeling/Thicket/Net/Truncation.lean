import Thicket.Lib.CutStream
import Thicket.Net.Framing

/-!
# Frames of a stream that was cut

A stream of frames that ends early has the frames before the cut. A cut inside a body is an error; a
cut inside the four bytes of a length looks like the end of the stream.
-/

namespace Thicket.Net

open Cbor (Bytes)
open ItemReader (extent LieBefore Reports)

/-- `read_frame`, called until it has nothing to return. -/
def frameReader : ItemReader UInt8 Bytes NetError where
  read := readFrame
  shorter h := by
    have hlen := length_of_readFrame h
    omega
  append := readFrame_append

variable {payload header : Bytes} {payloads : List Bytes} {cut n : Nat}

theorem mapM_writeFrame (hlen : ∀ payload ∈ payloads, payload.length ≤ maxFrame) :
    payloads.mapM writeFrame = .ok (payloads.map delimited) :=
  Result.mapM_eq_ok fun payload h => writeFrame_eq_ok.mpr ⟨hlen payload h, rfl⟩

theorem reads_delimited (hlen : payload.length ≤ maxFrame) : frameReader.Reads delimited payload :=
  readFrame_delimited hlen

theorem framesOf_eq_nil {r : Bytes} (h : ∀ found, readFrame r ≠ .ok (some found)) :
    framesOf r = [] := by
  unfold framesOf
  cases r.length with
  | zero => rfl
  | succ n =>
      rw [readFrames]
      split
      · next hread => exact absurd hread (h _)
      · rfl

/-- What is read to the end are the complete frames. -/
theorem frameReader_items (r : Bytes) : (frameReader.toEnd r).items = framesOf r := by
  induction hn : r.length using Nat.strong_induction_on generalizing r with
  | _ n ih =>
      cases hread : readFrame r with
      | error e =>
          rw [ItemReader.toEnd_of_error hread, framesOf_eq_nil (by simp [hread])]
      | ok found =>
          cases found with
          | none => rw [ItemReader.toEnd_of_none hread, framesOf_eq_nil (by simp [hread])]
          | some found =>
              obtain ⟨payload, rest⟩ := found
              have hlen := length_of_readFrame hread
              rw [ItemReader.toEnd_of_some hread, framesOf_of_readFrame hread,
                ih rest.length (by omega) rest rfl]

/-! ### Incomplete frames -/

theorem length_delimited (payload : Bytes) : (delimited payload).length = payload.length + 4 := by
  rw [delimited, List.length_append, Cbor.bigEndian_length, Nat.add_comm]

theorem takeBytes_eq_none {r : Bytes} (h : r.length < n) : Cbor.takeBytes n r = none :=
  if_neg (Nat.not_le.mpr h)

/-- Without a whole length there is no frame, and no error either. -/
theorem readFrame_short {r : Bytes} (h : r.length < 4) : readFrame r = .ok none := by
  rw [readFrame, Cbor.readNumber, takeBytes_eq_none h]
  rfl

theorem readFrame_header (hheader : header.length = 4) (r : Bytes) : readFrame (header ++ r) =
    if Cbor.ofBigEndian header > maxFrame then .error .frameTooLarge
    else
      match Cbor.takeBytes (Cbor.ofBigEndian header) r with
      | none => .error .io
      | some (buf, r) => .ok (some (buf, r)) := by
  have htake := Cbor.takeBytes_append header r
  rw [hheader] at htake
  rw [readFrame, Cbor.readNumber, htake]
  rfl

theorem readFrame_tooLarge (hheader : header.length = 4)
    (hlen : maxFrame < Cbor.ofBigEndian header) (r : Bytes) :
    readFrame (header ++ r) = .error .frameTooLarge := by
  rw [readFrame_header hheader, if_pos hlen]

/-- With its length a frame that is incomplete is an error. -/
theorem readFrame_part (hlen : payload.length ≤ maxFrame) (hheader : 4 ≤ n)
    (hn : n < (delimited payload).length) :
    readFrame ((delimited payload).take n) = .error .io := by
  rw [length_delimited] at hn
  have hfour : (Cbor.bigEndian 4 payload.length).length = 4 := Cbor.bigEndian_length 4 _
  have hvalue : Cbor.ofBigEndian (Cbor.bigEndian 4 payload.length) = payload.length := by
    apply Cbor.ofBigEndian_bigEndian
    unfold maxFrame at hlen
    omega
  have htake : (delimited payload).take n =
      Cbor.bigEndian 4 payload.length ++ payload.take (n - 4) := by
    rw [delimited, List.take_append, List.take_of_length_le (by omega), hfour]
  have hbody : (payload.take (n - 4)).length < payload.length := by
    rw [List.length_take]
    omega
  rw [htake, readFrame_header hfour, hvalue, if_neg (by omega), takeBytes_eq_none hbody]

/-! ### Where the cut may be -/

/-- The cut leaves one, two or three bytes of the length of the frame after `front`. -/
def InsideHeader (payloads : List Bytes) (cut : Nat) : Prop :=
  ∃ front, front <+: payloads ∧ front ≠ payloads ∧ extent delimited front < cut ∧
    cut < extent delimited front + 4

instance : Decidable (InsideHeader payloads cut) :=
  decidable_of_iff (∃ front ∈ payloads.inits, front ≠ payloads ∧ extent delimited front < cut ∧
    cut < extent delimited front + 4) (by simp only [List.mem_inits, InsideHeader])

/-- Only a cut inside a length is taken for the end of the stream. -/
theorem silent_iff (hlen : ∀ payload ∈ payloads, payload.length ≤ maxFrame) :
    frameReader.Silent delimited payloads cut ↔ InsideHeader payloads cut := by
  constructor
  · intro ⟨front, payload, hin, hinside, hsilent⟩
    refine ⟨front, hin.whole_front, hin.ne, hinside, ?_⟩
    by_contra hheader
    have hlt := hin.lt
    rw [ItemReader.extent_concat] at hlt
    have hpayload : payload ∈ payloads := hin.mem
    have hpart : readFrame ((delimited payload).take (cut - extent delimited front)) = .error .io :=
      readFrame_part (hlen payload hpayload) (by omega) (by omega)
    cases hsilent.symm.trans hpart
  · intro ⟨front, ⟨later, hlater⟩, hne, hinside, hheader⟩
    cases later with
    | nil => exact absurd (hlater ▸ (List.append_nil front).symm) hne
    | cons payload later =>
        have hfront : front ++ [payload] <+: payloads := ⟨later, by rw [← hlater]; simp⟩
        refine ⟨front, payload, ⟨hfront, by omega, ?_⟩, hinside, readFrame_short ?_⟩
        · rw [ItemReader.extent_concat, length_delimited]
          omega
        · rw [List.length_take]
          omega

theorem frameReader_lieBefore (hlen : ∀ payload ∈ payloads, payload.length ≤ maxFrame)
    (hcut : cut ≤ extent delimited payloads) :
    LieBefore delimited payloads cut
      (frameReader.toEnd ((payloads.flatMap delimited).take cut)).items :=
  ItemReader.toEnd_lieBefore (fun payload h => reads_delimited (hlen payload h)) hcut rfl

theorem frameReader_reports_iff (hlen : ∀ payload ∈ payloads, payload.length ≤ maxFrame)
    (hcut : cut ≤ extent delimited payloads) :
    Reports delimited payloads cut
      (frameReader.toEnd ((payloads.flatMap delimited).take cut)) ↔ ¬InsideHeader payloads cut := by
  rw [← silent_iff hlen]
  exact ItemReader.reports_iff (fun payload h => reads_delimited (hlen payload h)) hcut rfl

end Thicket.Net
