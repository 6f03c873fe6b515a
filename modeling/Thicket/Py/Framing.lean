import Thicket.Net.Truncation

/-!
# Framing in both languages

The SDK writes and reads the frames of the core, with its own exceptions. What a cut of the stream
looks like is therefore the same on both sides.
-/

namespace Thicket.Py.Framing

open Cbor (Bytes)
open Net (delimited InsideHeader)
open ItemReader (LieBefore OnBoundary Reports)

/-- The exceptions of a stream and of its frames. -/
inductive StreamExc where
  | valueError (message : String)
  | incompleteReadError
  deriving DecidableEq, Repr

def maxFrame : Nat := 16 * 1024 * 1024

/-- `reader.readexactly(n)` on a stream that ends. -/
def readexactly (n : Nat) (r : Bytes) : Except StreamExc (Bytes × Bytes) :=
  if n ≤ r.length then .ok (r.take n, r.drop n) else .error .incompleteReadError

/-- What `write_frame` writes. -/
def writeFrame (payload : Bytes) : Except StreamExc Bytes :=
  if payload.length > maxFrame then .error (.valueError "frame too large")
  else .ok (Cbor.bigEndian 4 payload.length ++ payload)

/-- `read_frame` on a stream that ends, with what it leaves on the stream. -/
def readFrame (r : Bytes) : Except StreamExc (Option (Bytes × Bytes)) :=
  match readexactly 4 r with
  | .error .incompleteReadError => .ok none
  | .error e => .error e
  | .ok (header, r) => do
      let n := Cbor.ofBigEndian header
      if n > maxFrame then throw (.valueError "frame too large")
      let body ← readexactly n r
      return some body

variable {payload header : Bytes} {payloads : List Bytes} {cut : Nat}

/-! ### The frames of the core -/

/-- The exception in place of an error of the core. -/
def excOf : NetError → StreamExc
  | .frameTooLarge => .valueError "frame too large"
  | _ => .incompleteReadError

theorem writeFrame_eq (payload : Bytes) :
    writeFrame payload = (Net.writeFrame payload).mapError excOf := by
  rw [writeFrame, Net.writeFrame]
  change (if payload.length > Net.maxFrame then _ else _) = _
  split_ifs <;> rfl

theorem readFrame_eq (r : Bytes) : readFrame r = (Net.readFrame r).mapError excOf := by
  by_cases hheader : r.length < 4
  · have hshort : readexactly 4 r = .error .incompleteReadError := if_neg (by omega)
    rw [Net.readFrame_short hheader, readFrame, hshort]
    rfl
  · have hsplit : r = r.take 4 ++ r.drop 4 := (List.take_append_drop 4 r).symm
    have hfour : (r.take 4).length = 4 := by
      rw [List.length_take]
      omega
    have hread : readexactly 4 r = .ok (r.take 4, r.drop 4) := if_pos (by omega)
    have hcore := Net.readFrame_header hfour (r.drop 4)
    rw [← hsplit] at hcore
    rw [readFrame, hread, hcore]
    change (if Cbor.ofBigEndian (r.take 4) > Net.maxFrame then _ else _) = _
    split_ifs with hlen
    · rfl
    · rw [readexactly, Cbor.takeBytes]
      split_ifs <;> rfl

/-- `read_frame`, called until it has nothing to return. -/
def frameReader : ItemReader UInt8 Bytes StreamExc where
  read := readFrame
  shorter h := by
    rw [readFrame_eq, Result.mapError_ok_iff] at h
    exact Net.frameReader.shorter h
  append h more := by
    rw [readFrame_eq, Result.mapError_ok_iff] at h ⊢
    exact Net.frameReader.append h more

theorem frameReader_eq : frameReader = Net.frameReader.mapError excOf := by
  have hread : readFrame = fun r => (Net.readFrame r).mapError excOf := funext readFrame_eq
  simp only [frameReader, ItemReader.mapError, hread]
  rfl

theorem mapM_writeFrame (hlen : ∀ payload ∈ payloads, payload.length ≤ Net.maxFrame) :
    payloads.mapM writeFrame = .ok (payloads.map delimited) := by
  apply Result.mapM_eq_ok
  intro payload h
  rw [writeFrame_eq, Net.writeFrame_eq_ok.mpr ⟨hlen payload h, rfl⟩]
  rfl

theorem readFrame_tooLarge (hheader : header.length = 4)
    (hlarge : Net.maxFrame < Cbor.ofBigEndian header) (r : Bytes) :
    readFrame (header ++ r) = .error (.valueError "frame too large") := by
  rw [readFrame_eq, Net.readFrame_tooLarge hheader hlarge]
  rfl

/-! ### Cuts -/

/-- In both languages frames that may be written are read back up to a cut, and the cut is reported
as it is unless it lies inside a length. A length above the maximum is an error. -/
theorem cut_reported_iff (payloads : List Bytes) (cut : Nat)
    (hlen : ∀ payload ∈ payloads, payload.length ≤ Net.maxFrame)
    (hcut : cut ≤ (payloads.flatMap delimited).length) :
    (payloads.mapM Net.writeFrame = .ok (payloads.map delimited) ∧
      payloads.mapM writeFrame = .ok (payloads.map delimited)) ∧
    (LieBefore delimited payloads cut
        (Net.frameReader.toEnd ((payloads.flatMap delimited).take cut)).items ∧
      LieBefore delimited payloads cut
        (frameReader.toEnd ((payloads.flatMap delimited).take cut)).items) ∧
    (Reports delimited payloads cut
        (Net.frameReader.toEnd ((payloads.flatMap delimited).take cut)) ∧
      Reports delimited payloads cut
        (frameReader.toEnd ((payloads.flatMap delimited).take cut)) ↔
      ¬InsideHeader payloads cut) ∧
    ∀ header r : Bytes, header.length = 4 → Net.maxFrame < Cbor.ofBigEndian header →
      Net.readFrame (header ++ r) = .error .frameTooLarge ∧
      readFrame (header ++ r) = .error (.valueError "frame too large") := by
  refine ⟨⟨Net.mapM_writeFrame hlen, mapM_writeFrame hlen⟩, ⟨?_, ?_⟩, ?_, ?_⟩
  · exact Net.frameReader_lieBefore hlen hcut
  · rw [frameReader_eq, ItemReader.toEnd_mapError]
    exact Net.frameReader_lieBefore hlen hcut
  · rw [frameReader_eq, ItemReader.reports_mapError_iff, and_self]
    exact Net.frameReader_reports_iff hlen hcut
  · intro header r hheader hlarge
    exact ⟨Net.readFrame_tooLarge hheader hlarge r, readFrame_tooLarge hheader hlarge r⟩

/-- A cut in the body of the second frame is an error after the first one. -/
theorem cut_reported_in_body :
    Reports delimited [[7], [8, 9]] 10
        (Net.frameReader.toEnd (([[7], [8, 9]].flatMap delimited).take 10)) ∧
      Reports delimited [[7], [8, 9]] 10
        (frameReader.toEnd (([[7], [8, 9]].flatMap delimited).take 10)) := by
  have hreports := cut_reported_iff [[7], [8, 9]] 10 (by decide) (by decide)
  exact hreports.2.2.1.mpr (by decide)

/-- Two bytes of a length are read as a clean end, though no frame ends there. -/
theorem cut_header_unreported :
    Net.frameReader.toEnd ((delimited [7]).take 2) = { items := [], failure := none } ∧
      frameReader.toEnd ((delimited [7]).take 2) = { items := [], failure := none } ∧
      ¬OnBoundary delimited [[7]] 2 :=
  ⟨ItemReader.toEnd_of_none rfl, ItemReader.toEnd_of_none rfl, by decide⟩

end Thicket.Py.Framing
