import Thicket.Lib.Logged
import Thicket.Py.DecodeItems

/-!
# How far the decoder goes

The decoder with a log of the items it starts and of the parts of the data it reads, each with the
length that the head announced. Nothing but its own calls bounds how deep it goes: what runs out of
`fuel` is cut off. Items start one after another, at least a byte apart, and one that starts at the
end of the data fails there. So no announced count makes the decoder start more items than there
are bytes and one, and a read that goes past the end leaves the index past the end as well.
-/

namespace Thicket.Py

open Cbor (Bytes)
open Result

inductive Part where
  | head
  | length
  | body
  deriving DecidableEq, Repr

/-- What the decoder does to the data. -/
inductive Move where
  | start (i : Nat)
  | read (part : Part) (i n : Nat)
  deriving DecidableEq, Repr

abbrev Decoding (α : Type) : Type := Logged Move Exc α

/-! ### The decoder with its log -/

namespace Decoding

def raise {α : Type} (e : Exc) : Decoding α := Logged.ofExcept (.error e)

def decSimple (info : Nat) : Decoding Value := Logged.ofExcept (Py.decSimple info)

def decArgument (data : Bytes) (info i : Nat) : Decoding (Nat × Nat) :=
  if info < 24 then pure (info, i)
  else if info = 24 then do
    Logged.tell (.read .length i 1)
    let b ← Logged.ofExcept (byteAt data i)
    return (b.toNat, i + 1)
  else if info = 25 then do
    Logged.tell (.read .length i 2)
    return (fromBytes data i 2, i + 2)
  else if info = 26 then do
    Logged.tell (.read .length i 4)
    return (fromBytes data i 4, i + 4)
  else if info = 27 then do
    Logged.tell (.read .length i 8)
    return (fromBytes data i 8, i + 8)
  else raise .valueError

section Loops

variable (item : Nat → Decoding (Value × Nat))

def decItems : Nat → Nat → Decoding (List Value × Nat)
  | 0, i => pure ([], i)
  | n + 1, i => do
      let (v, i) ← item i
      let (arr, i) ← decItems n i
      return (v :: arr, i)

def decEntries : Nat → Nat → List (Value × Value) → Decoding (List (Value × Value) × Nat)
  | 0, i, d => pure (d, i)
  | n + 1, i, d => do
      let (k, i) ← item i
      let (v, i) ← item i
      let d ← Logged.ofExcept (setItem d k v)
      decEntries n i d

end Loops

def decContents (data : Bytes) (item : Nat → Decoding (Value × Nat)) (major n i : Nat) :
    Decoding (Value × Nat) :=
  match major with
  | 0 => pure (.int n, i)
  | 2 => do
      Logged.tell (.read .body i n)
      return (.bytes (slice data i n), i + n)
  | 3 => do
      Logged.tell (.read .body i n)
      let s ← Logged.ofExcept (okOr (Utf8.decode (slice data i n)) .valueError)
      return (.str s, i + n)
  | 4 => do
      let (arr, i) ← decItems item n i
      return (.list arr, i)
  | 5 => do
      let (d, i) ← decEntries item n i []
      return (.dict d, i)
  | _ => raise .valueError

/-- `_dec` -/
def dec (data : Bytes) : Nat → Nat → Decoding (Value × Nat)
  | 0, _ => Logged.cutOff
  | fuel + 1, i => do
      Logged.tell (.start i)
      Logged.tell (.read .head i 1)
      let b ← Logged.ofExcept (byteAt data i)
      let major := b.toNat >>> 5
      let info := b.toNat &&& 0x1F
      if major = 7 then do
        let v ← decSimple info
        return (v, i + 1)
      else do
        let (n, i) ← decArgument data info (i + 1)
        decContents data (dec data fuel) major n i

def decode (data : Bytes) (fuel : Nat) : Decoding Value := do
  let (obj, i) ← dec data fuel 0
  if i ≠ data.length then raise .valueError
  else pure obj

end Decoding

/-! ### It is the decoder -/

section Agreement

variable {data : Bytes} {info major n i : Nat}

theorem outcome_decArgument :
    (Decoding.decArgument data info i).outcome = some (decArgument data info i) := by
  unfold Decoding.decArgument decArgument
  split_ifs
  all_goals try rfl
  cases byteAt data i <;> rfl

variable {run : Nat → Decoding (Value × Nat)} {item : Nat → Except Exc (Value × Nat)}

/-- From index `i` on the runs end as the items do. -/
def AgreesFrom (run : Nat → Decoding (Value × Nat)) (item : Nat → Except Exc (Value × Nat))
    (i : Nat) : Prop :=
  ∀ k, i ≤ k → (run k).outcome = some (item k)

theorem AgreesFrom.mono (h : AgreesFrom run item i) {j : Nat} (hj : i ≤ j) :
    AgreesFrom run item j :=
  fun k hk => h k (hj.trans hk)

theorem AgreesFrom.decItems (h : AgreesFrom run item i) (hitem : Advances item) :
    (Decoding.decItems run n i).outcome = some (decItems item n i) := by
  induction n generalizing i with
  | zero => rfl
  | succ n ih =>
      apply Logged.outcome_bind (h i le_rfl)
      intro a ha
      obtain ⟨v, j⟩ := a
      apply Logged.outcome_bind (ih (h.mono (hitem ha).le))
      intro b _
      rfl

theorem AgreesFrom.decEntries (h : AgreesFrom run item i) (hitem : Advances item)
    (d : List (Value × Value)) :
    (Decoding.decEntries run n i d).outcome = some (decEntries item n i d) := by
  induction n generalizing i d with
  | zero => rfl
  | succ n ih =>
      apply Logged.outcome_bind (h i le_rfl)
      intro a ha
      obtain ⟨k, j⟩ := a
      have hj : AgreesFrom run item j := h.mono (hitem ha).le
      apply Logged.outcome_bind (hj j le_rfl)
      intro b hb
      obtain ⟨v, l⟩ := b
      show (Logged.ofExcept (setItem d k v) >>= _).outcome = _
      apply Logged.outcome_bind rfl
      intro d' _
      exact ih (hj.mono (hitem hb).le) d'

theorem AgreesFrom.decContents (h : AgreesFrom run item i) (hitem : Advances item) :
    (Decoding.decContents data run major n i).outcome = some (decContents data item major n i) := by
  unfold Decoding.decContents
  split
  · rfl
  · rfl
  · show (Logged.ofExcept _ >>= _).outcome = _
    apply Logged.outcome_bind rfl
    intro s _
    rfl
  · apply Logged.outcome_bind (h.decItems hitem)
    intro a _
    rfl
  · apply Logged.outcome_bind (h.decEntries hitem [])
    intro a _
    rfl
  · have hother : Py.decContents data item major n i = .error .valueError := by
      unfold Py.decContents
      split
      all_goals first | contradiction | rfl
    rw [hother]
    rfl

/-- With more fuel than there are bytes left, no item is cut off. -/
theorem outcome_dec {fuel depth : Nat} (hfuel : 0 < fuel) (hrest : data.length < fuel + i)
    (hdepth : data.length ≤ depth + i) :
    (Decoding.dec data fuel i).outcome = some (dec data depth i) := by
  induction fuel generalizing i depth with
  | zero => cases hfuel
  | succ fuel ih =>
      show (Logged.ofExcept (byteAt data i) >>= _).outcome = _
      cases depth with
      | zero =>
          have hend : byteAt data i = .error .indexError := by
            rw [byteAt, List.getElem?_eq_none (by omega)]
            rfl
          rw [hend]
          rfl
      | succ depth =>
          apply Logged.outcome_bind rfl
          intro b hb
          have hi : i < data.length := (drop_of_byteAt hb).1
          dsimp only
          split_ifs
          · apply Logged.outcome_bind rfl
            intro v _
            rfl
          · apply Logged.outcome_bind outcome_decArgument
            intro a ha
            obtain ⟨n, j⟩ := a
            have hj : i + 1 ≤ j := le_of_decArgument ha
            have hagree : AgreesFrom (Decoding.dec data fuel) (dec data depth) j := by
              intro k hk
              exact ih (by omega) (by omega) (by omega)
            exact hagree.decContents (dec_advances depth)

end Agreement

/-! ### How far it gets -/

namespace Move

def isStart : Move → Bool
  | .start _ => true
  | .read _ _ _ => false

/-- How many items are started. -/
def starts (moves : List Move) : Nat := moves.countP isStart

/-- The moves lead from `i` to `j`, each where the one before it has ended. -/
def Tiles : Nat → List Move → Nat → Prop
  | i, [], j => i = j
  | i, .start k :: moves, j => k = i ∧ Tiles i moves j
  | i, .read _ k n :: moves, j => k = i ∧ Tiles (i + n) moves j

/-- All that is read, in the order in which it is read. -/
def bytesRead (data : Bytes) : List Move → Bytes
  | [] => []
  | .start _ :: moves => bytesRead data moves
  | .read _ i n :: moves => slice data i n ++ bytesRead data moves

theorem starts_append (moves more : List Move) :
    starts (moves ++ more) = starts moves + starts more :=
  List.countP_append

theorem Tiles.append {moves more : List Move} {i j k : Nat} (h : Tiles i moves j)
    (hmore : Tiles j more k) : Tiles i (moves ++ more) k := by
  induction moves generalizing i with
  | nil =>
      obtain rfl : i = j := h
      exact hmore
  | cons move moves ih =>
      cases move with
      | start l => exact ⟨h.1, ih h.2⟩
      | read part l n => exact ⟨h.1, ih h.2⟩

theorem Tiles.le {moves : List Move} {i j : Nat} (h : Tiles i moves j) : i ≤ j := by
  induction moves generalizing i with
  | nil => exact Nat.le_of_eq h
  | cons move moves ih =>
      cases move with
      | start l => exact ih h.2
      | read part l n => exact (Nat.le_add_right i n).trans (ih h.2)

/-- No read goes past the end. -/
theorem Tiles.read_le {moves : List Move} {i j l n : Nat} {part : Part} (h : Tiles i moves j)
    (hmem : .read part l n ∈ moves) : l + n ≤ j := by
  induction moves generalizing i with
  | nil => cases hmem
  | cons move moves ih =>
      rcases List.mem_cons.mp hmem with rfl | hin
      · obtain ⟨rfl, h⟩ := h
        exact h.le
      · cases move with
        | start k => exact ih h.2 hin
        | read part k m => exact ih h.2 hin

/-- Nothing is left out, and nothing is read twice. -/
theorem Tiles.bytesRead_append {moves : List Move} {i j : Nat} {data : Bytes}
    (h : Tiles i moves j) : bytesRead data moves ++ data.drop j = data.drop i := by
  induction moves generalizing i with
  | nil =>
      obtain rfl : i = j := h
      rfl
  | cons move moves ih =>
      cases move with
      | start k => exact ih h.2
      | read part k n =>
          obtain ⟨rfl, h⟩ := h
          rw [bytesRead, List.append_assoc, ih h, slice, ← List.drop_drop]
          exact List.take_append_drop n (data.drop k)

end Move

section Proceeding

open Move

variable {data : Bytes} {moves more : List Move} {i j k n : Nat}

/-- What has been done by a decoder that has come from `i` to `j`. -/
structure Passed (data : Bytes) (i : Nat) (moves : List Move) (j : Nat) : Prop where
  tiles : Tiles i moves j
  starts_le : starts moves + min i data.length ≤ min j data.length

/-- What has been done from `i` on by a decoder that has not returned. -/
def Stopped (data : Bytes) (i : Nat) (moves : List Move) : Prop :=
  starts moves + min i data.length ≤ data.length + 1

theorem Passed.nil : Passed data i [] i := ⟨rfl, by rw [starts, List.countP_nil, Nat.zero_add]⟩

theorem Stopped.nil : Stopped data i [] := by
  show 0 + min i data.length ≤ data.length + 1
  omega

theorem Passed.append (h : Passed data i moves j) (hmore : Passed data j more k) :
    Passed data i (moves ++ more) k := by
  refine ⟨h.tiles.append hmore.tiles, ?_⟩
  have hfirst := h.starts_le
  have hsecond := hmore.starts_le
  rw [starts_append]
  omega

theorem Passed.stopped (h : Passed data i moves j) (hmore : Stopped data j more) :
    Stopped data i (moves ++ more) := by
  have hfirst := h.starts_le
  unfold Stopped at hmore ⊢
  rw [starts_append]
  omega

theorem passed_read (part : Part) : Passed data i [.read part i n] (i + n) := by
  refine ⟨⟨rfl, rfl⟩, ?_⟩
  show 0 + min i data.length ≤ _
  omega

/-- A started item has a byte of its own. -/
theorem passed_start (h : i < data.length) :
    Passed data i [.start i, .read .head i 1] (i + 1) := by
  refine ⟨⟨rfl, rfl, rfl⟩, ?_⟩
  show 1 + min i data.length ≤ _
  omega

/-- One that starts where the data has ended does not get on. -/
theorem stopped_start : Stopped data i [.start i, .read .head i 1] := by
  show 1 + min i data.length ≤ _
  omega

/-- Started at `i`, the run is at `next a` when it returns `a`. -/
def Proceeds {α : Type} (data : Bytes) (i : Nat) (x : Decoding α) (next : α → Nat) : Prop :=
  x.Writes (fun moves a => Passed data i moves (next a)) (Stopped data i)

variable {α β : Type} {x : Decoding α} {f : α → Decoding β} {next : α → Nat} {next' : β → Nat}

theorem proceeds_pure {a : α} (h : next a = i) : Proceeds data i (pure a) next := by
  apply Logged.writes_pure
  rw [h]
  exact .nil

theorem proceeds_ofExcept (r : Except Exc α) : Proceeds data i (Logged.ofExcept r) fun _ => i :=
  Logged.writes_ofExcept (fun _ _ => .nil) fun _ _ => .nil

theorem proceeds_raise (e : Exc) : Proceeds data i (Decoding.raise e) next := Stopped.nil

theorem proceeds_read (part : Part) :
    Proceeds data i (Logged.tell (.read part i n)) fun _ => i + n :=
  Logged.writes_tell (passed_read part)

theorem Proceeds.bind (hx : Proceeds data i x next) (hf : ∀ a, Proceeds data (next a) (f a) next') :
    Proceeds data i (x >>= f) next' := by
  apply Logged.Writes.bind hx
  · intro moves a hmoves
    apply (hf a).mono
    · intro more b hmore
      exact hmoves.append hmore
    · intro more hmore
      exact hmoves.stopped hmore
  · intro moves hmoves
    exact hmoves

/-- Starting an item, and what is done with its first byte. -/
theorem proceeds_item {f : UInt8 → Decoding α} (hf : ∀ b, Proceeds data (i + 1) (f b) next) :
    Proceeds data i (do
      Logged.tell (.start i)
      Logged.tell (.read .head i 1)
      let b ← Logged.ofExcept (byteAt data i)
      f b) next := by
  cases hb : byteAt data i with
  | error e => exact stopped_start
  | ok b =>
      have hstart := passed_start (drop_of_byteAt hb).1
      exact (hf b).mono (fun _ _ hmore => hstart.append hmore) fun _ hmore => hstart.stopped hmore

theorem proceeds_decArgument {info : Nat} :
    Proceeds data i (Decoding.decArgument data info i) Prod.snd := by
  unfold Decoding.decArgument
  split_ifs
  · exact proceeds_pure rfl
  · apply (proceeds_read .length).bind
    intro _
    apply (proceeds_ofExcept _).bind
    intro b
    exact proceeds_pure rfl
  · exact (proceeds_read .length).bind fun _ => proceeds_pure rfl
  · exact (proceeds_read .length).bind fun _ => proceeds_pure rfl
  · exact (proceeds_read .length).bind fun _ => proceeds_pure rfl
  · exact proceeds_raise _

variable {item : Nat → Decoding (Value × Nat)}

theorem proceeds_decItems (hitem : ∀ i, Proceeds data i (item i) Prod.snd) :
    Proceeds data i (Decoding.decItems item n i) Prod.snd := by
  induction n generalizing i with
  | zero => exact proceeds_pure rfl
  | succ n ih =>
      apply (hitem i).bind
      intro a
      apply ih.bind
      intro b
      exact proceeds_pure rfl

theorem proceeds_decEntries (hitem : ∀ i, Proceeds data i (item i) Prod.snd)
    (d : List (Value × Value)) : Proceeds data i (Decoding.decEntries item n i d) Prod.snd := by
  induction n generalizing i d with
  | zero => exact proceeds_pure rfl
  | succ n ih =>
      apply (hitem i).bind
      intro a
      apply (hitem a.2).bind
      intro b
      apply (proceeds_ofExcept _).bind
      intro d'
      exact ih d'

theorem proceeds_decContents {major : Nat} (hitem : ∀ i, Proceeds data i (item i) Prod.snd) :
    Proceeds data i (Decoding.decContents data item major n i) Prod.snd := by
  unfold Decoding.decContents
  split
  · exact proceeds_pure rfl
  · exact (proceeds_read .body).bind fun _ => proceeds_pure rfl
  · apply (proceeds_read .body).bind
    intro _
    apply (proceeds_ofExcept _).bind
    intro s
    exact proceeds_pure rfl
  · exact (proceeds_decItems hitem).bind fun _ => proceeds_pure rfl
  · exact (proceeds_decEntries hitem []).bind fun _ => proceeds_pure rfl
  · exact proceeds_raise _

theorem proceeds_dec (fuel : Nat) : Proceeds data i (Decoding.dec data fuel i) Prod.snd := by
  induction fuel generalizing i with
  | zero => exact Logged.writes_cutOff .nil
  | succ fuel ih =>
      apply proceeds_item
      intro b
      dsimp only
      split_ifs
      · exact (proceeds_ofExcept _).bind fun _ => proceeds_pure rfl
      · exact proceeds_decArgument.bind fun _ => proceeds_decContents fun _ => ih

end Proceeding

/-! ### The whole data -/

section Whole

variable {data : Bytes} {fuel : Nat}

theorem outcome_decode (hfuel : data.length < fuel) :
    (Decoding.decode data fuel).outcome = some (decode data) := by
  apply Logged.outcome_bind (outcome_dec (by omega) (by omega) (by omega))
  intro a _
  dsimp only
  split_ifs
  · rfl
  · rfl

/-- A run that returns has gone from the start of the data to its end. -/
theorem writes_decode (data : Bytes) (fuel : Nat) : (Decoding.decode data fuel).Writes
    (fun moves _ => Passed data 0 moves data.length) (Stopped data 0) := by
  apply Logged.Writes.bind (proceeds_dec fuel)
  · intro moves a hmoves
    dsimp only
    split_ifs with hend
    · exact hmoves.stopped .nil
    · obtain hend : a.2 = data.length := not_not.mp hend
      rw [hend] at hmoves
      exact hmoves.append .nil
  · intro moves hmoves
    exact hmoves

/-- However a run ends, it has started at most one more item than there are bytes. -/
theorem starts_decode_le (data : Bytes) (fuel : Nat) :
    Move.starts (Decoding.decode data fuel).log ≤ data.length + 1 := by
  apply (writes_decode data fuel).of_any (R := fun moves => Move.starts moves ≤ data.length + 1)
  · intro moves _ hmoves
    have h := hmoves.starts_le
    omega
  · intro moves hmoves
    unfold Stopped at hmoves
    omega

/-- **The decoder ends, inside the data.** It returns or raises, whatever the heads announce. It has
started at most one more item than there are bytes, and if it returns a value, then no read went
past the end, and what it read is the whole data. -/
theorem decode_ends (data : Bytes) (hfuel : data.length < fuel) :
    (Decoding.decode data fuel).outcome = some (decode data) ∧
      Move.starts (Decoding.decode data fuel).log ≤ data.length + 1 ∧
      ∀ v, decode data = .ok v →
        (∀ part i n, Move.read part i n ∈ (Decoding.decode data fuel).log → i + n ≤ data.length) ∧
          Move.bytesRead data (Decoding.decode data fuel).log = data := by
  have houtcome := outcome_decode hfuel
  refine ⟨houtcome, starts_decode_le data fuel, ?_⟩
  intro v hv
  rw [hv] at houtcome
  have htiles := ((writes_decode data fuel).of_ok houtcome).tiles
  refine ⟨fun part i n hmem => htiles.read_le hmem, ?_⟩
  have hread : Move.bytesRead data (Decoding.decode data fuel).log ++ data.drop data.length =
      data.drop 0 := htiles.bytesRead_append
  rw [List.drop_length, List.append_nil, List.drop_zero] at hread
  exact hread

/-- A list of a number and a byte string that announces one byte. -/
theorem decode_ends_list :
    (Decoding.decode [0x82, 0x01, 0x41, 0xFF] 5).outcome = some (decode [0x82, 0x01, 0x41, 0xFF]) ∧
      Move.starts (Decoding.decode [0x82, 0x01, 0x41, 0xFF] 5).log ≤ 4 + 1 := by
  have h := decode_ends [0x82, 0x01, 0x41, 0xFF] (show 4 < 5 by omega)
  exact ⟨h.1, h.2.1⟩

end Whole

end Thicket.Py
