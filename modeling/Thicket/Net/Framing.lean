import Thicket.Lib.CborDecode
import Thicket.Net.Secure

/-!
# Length-delimited framing

A frame on a byte stream is its length in four bytes and then its body. A reader of what was written so
far has the frames that are complete, and the rest of the stream only adds to them.
-/

namespace Thicket.Net

open Cbor (Bytes)

/-- Maximum accepted frame size (16 MiB). -/
def maxFrame : Nat := 16 * 1024 * 1024

/-- A frame as it stands on the stream. -/
def delimited (payload : Bytes) : Bytes := Cbor.bigEndian 4 payload.length ++ payload

/-- What `write_frame` writes. -/
def writeFrame (payload : Bytes) : Except NetError Bytes :=
  if payload.length > maxFrame then .error .frameTooLarge
  else .ok (delimited payload)

/-- `read_frame` on a stream that ends, with what it leaves on the stream. -/
def readFrame (r : Bytes) : Except NetError (Option (Bytes × Bytes)) :=
  match Cbor.readNumber 4 r with
  | none => .ok none
  | some (len, r) =>
      if len > maxFrame then .error .frameTooLarge
      else
        match Cbor.takeBytes len r with
        | none => .error .io
        | some (buf, r) => .ok (some (buf, r))

/-- The frames that `read_frame` returns one after the other, at most `n` of them. -/
def readFrames : Nat → Bytes → List Bytes
  | 0, _ => []
  | n + 1, r =>
      match readFrame r with
      | .ok (some (buf, r)) => buf :: readFrames n r
      | _ => []

/-- The complete frames of a stream; there are no more of them than bytes. -/
def framesOf (r : Bytes) : List Bytes := readFrames r.length r

variable {payload frame buf r rest more : Bytes} {frames : List Bytes} {n : Nat}

theorem writeFrame_eq_ok : writeFrame payload = .ok frame ↔
    payload.length ≤ maxFrame ∧ frame = delimited payload := by
  unfold writeFrame
  split_ifs with hlen
  · simp only [false_iff, not_and]
    omega
  · simp only [Except.ok.injEq]
    exact ⟨fun h => ⟨by omega, h.symm⟩, fun h => h.2.symm⟩

/-! ### One frame -/

theorem readFrame_delimited (hlen : payload.length ≤ maxFrame) (r : Bytes) :
    readFrame (delimited payload ++ r) = .ok (some (payload, r)) := by
  have hfit : payload.length < 256 ^ 4 := by
    unfold maxFrame at hlen
    omega
  rw [readFrame, delimited, List.append_assoc, Cbor.readNumber_bigEndian hfit]
  change (if payload.length > maxFrame then _ else _) = _
  rw [if_neg (by omega), Cbor.takeBytes_append]

theorem takeBytes_eq_some {bytes : Bytes} (h : Cbor.takeBytes n r = some (bytes, rest)) :
    bytes.length = n ∧ r = bytes ++ rest := by
  unfold Cbor.takeBytes at h
  split_ifs at h with hn
  simp only [Option.some.injEq, Prod.mk.injEq] at h
  obtain ⟨rfl, rfl⟩ := h
  exact ⟨List.length_take_of_le hn, (List.take_append_drop n r).symm⟩

/-- A frame that is read takes its length and its body off the stream. -/
theorem exists_of_readFrame (h : readFrame r = .ok (some (buf, rest))) :
    ∃ lenBuf, lenBuf.length = 4 ∧ Cbor.ofBigEndian lenBuf = buf.length ∧ buf.length ≤ maxFrame ∧
      r = lenBuf ++ (buf ++ rest) := by
  unfold readFrame at h
  split at h
  · cases h
  · next len r' hhead =>
      split_ifs at h with hlen
      split at h
      · cases h
      · next buf' r'' hbody =>
          obtain ⟨rfl, rfl⟩ : buf' = buf ∧ r'' = rest := by simpa using h
          obtain ⟨hbuf, rfl⟩ := takeBytes_eq_some hbody
          simp only [Cbor.readNumber, Option.bind_eq_bind, Option.bind_eq_some_iff, Option.pure_def,
            Option.some.injEq, Prod.mk.injEq, Prod.exists] at hhead
          obtain ⟨lenBuf, _, htake, rfl, rfl⟩ := hhead
          obtain ⟨hlenBuf, rfl⟩ := takeBytes_eq_some htake
          exact ⟨lenBuf, hlenBuf, hbuf.symm, by omega, rfl⟩

theorem length_of_readFrame (h : readFrame r = .ok (some (buf, rest))) :
    rest.length + 4 ≤ r.length := by
  obtain ⟨lenBuf, hlenBuf, -, -, rfl⟩ := exists_of_readFrame h
  simp only [List.length_append]
  omega

/-- More bytes after a complete frame do not change it. -/
theorem readFrame_append (h : readFrame r = .ok (some (buf, rest))) (more : Bytes) :
    readFrame (r ++ more) = .ok (some (buf, rest ++ more)) := by
  obtain ⟨lenBuf, hlenBuf, hvalue, hlen, rfl⟩ := exists_of_readFrame h
  have hhead := Cbor.takeBytes_append lenBuf (buf ++ rest ++ more)
  rw [hlenBuf] at hhead
  rw [readFrame, Cbor.readNumber, List.append_assoc, hhead]
  change (if Cbor.ofBigEndian lenBuf > maxFrame then _ else _) = _
  rw [hvalue, if_neg (by omega), List.append_assoc, Cbor.takeBytes_append]

/-! ### All frames of a stream -/

/-- There are enough turns as soon as there are as many as bytes. -/
theorem readFrames_eq_framesOf (hn : r.length ≤ n) : readFrames n r = framesOf r := by
  have hsame : ∀ m n : Nat, ∀ r : Bytes, r.length ≤ m → r.length ≤ n →
      readFrames m r = readFrames n r := by
    intro m
    induction m with
    | zero =>
        intro n r hm _
        obtain rfl : r = [] := List.eq_nil_of_length_eq_zero (by omega)
        cases n <;> rfl
    | succ m ih =>
        intro n r hm hn
        cases n with
        | zero =>
            obtain rfl : r = [] := List.eq_nil_of_length_eq_zero (by omega)
            rfl
        | succ n =>
            rw [readFrames, readFrames]
            split
            · next buf rest hread =>
                have hlen := length_of_readFrame hread
                rw [ih n rest (by omega) (by omega)]
            · rfl
  exact hsame n r.length r hn le_rfl

theorem framesOf_of_readFrame (h : readFrame r = .ok (some (buf, rest))) :
    framesOf r = buf :: framesOf rest := by
  have hlen := length_of_readFrame h
  obtain ⟨n, hn⟩ : ∃ n, r.length = n + 1 := ⟨r.length - 1, by omega⟩
  rw [framesOf, hn, readFrames, h]
  change buf :: readFrames n rest = _
  rw [readFrames_eq_framesOf (by omega)]

theorem framesOf_delimited (hlen : payload.length ≤ maxFrame) (r : Bytes) :
    framesOf (delimited payload ++ r) = payload :: framesOf r :=
  framesOf_of_readFrame (readFrame_delimited hlen r)

/-- What is complete stays as it is when the stream goes on. -/
theorem framesOf_append_mono (r more : Bytes) : framesOf r <+: framesOf (r ++ more) := by
  have hall : ∀ n : Nat, ∀ r : Bytes, readFrames n r <+: framesOf (r ++ more) := by
    intro n
    induction n with
    | zero =>
        intro r
        exact List.nil_prefix
    | succ n ih =>
        intro r
        rw [readFrames]
        split
        · next buf rest hread =>
            rw [framesOf_of_readFrame (readFrame_append hread more)]
            exact List.cons_prefix_cons.mpr ⟨rfl, ih rest⟩
        · exact List.nil_prefix
  exact hall r.length r

theorem framesOf_mono (h : r <+: rest) : framesOf r <+: framesOf rest := by
  obtain ⟨more, rfl⟩ := h
  exact framesOf_append_mono r more

/-- Frames of allowed sizes come back as they were written. -/
theorem framesOf_flatMap (h : ∀ payload ∈ frames, payload.length ≤ maxFrame) :
    framesOf (frames.flatMap delimited) = frames := by
  induction frames with
  | nil => rfl
  | cons payload frames ih =>
      rw [List.flatMap_cons, framesOf_delimited (h payload List.mem_cons_self),
        ih fun p hp => h p (List.mem_cons_of_mem _ hp)]

end Thicket.Net
