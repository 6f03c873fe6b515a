import Thicket.Lib.Run
import Thicket.Net.Receiver

/-!
# Integrity of a channel

One direction of an established channel with an attacker on the wire, in the symbolic model of its
cipher. The attacker delivers any bytes as frames, and the receiver stops at the first one that does
not decrypt. Every chunk is authenticated with its position, but a frame's chunk count is not: the
receiver has the sender's frames as long as the attacker leaves the chunks in the groups they came in.
-/

namespace Thicket.Net

open Cbor (Bytes)

/-! ### A direction -/

structure Direction where
  log : Aead.Log UInt8
  sent : List Bytes
  wire : List Bytes
  nonce : Nat
  accepted : List Bytes
  isOpen : Bool

def Direction.new : Direction :=
  { log := [], sent := [], wire := [], nonce := 0, accepted := [], isOpen := true }

inductive Transfer where
  | encrypt (plaintext : Bytes)
  | deliver (frame : Bytes)

namespace Direction

variable (writeMessage : Nat → Bytes → Bytes) (side : Side)

def encrypt (self : Direction) (plaintext : Bytes) : Direction :=
  { self with log := self.log ++ self.log.entries writeMessage (plaintextChunks plaintext),
              sent := self.sent ++ [plaintext],
              wire := self.wire ++ [(encryptFrame writeMessage self.log.length plaintext).1] }

def deliver (self : Direction) (frame : Bytes) : Direction :=
  if self.isOpen then
    match side.decryptFrame (self.log.read "decrypt error") self.nonce frame with
    | (some plaintext, nonce) => { self with nonce, accepted := self.accepted ++ [plaintext] }
    | (none, nonce) => { self with nonce, isOpen := false }
  else self

def step (self : Direction) : Transfer → Direction
  | .encrypt plaintext => self.encrypt writeMessage plaintext
  | .deliver frame => self.deliver side frame

/-- The frame holds the sender's next ciphertexts, but not as many as the sender's next frame. -/
def Regroups (self : Direction) (frame : Bytes) : Prop :=
  self.isOpen = true ∧ ∃ ciphertexts, side.splitFrame frame = some ciphertexts ∧
    ciphertexts <+: (self.log.drop self.nonce).map Prod.fst ∧
    ∀ plaintext, self.sent[self.accepted.length]? = some plaintext →
      ciphertexts.length ≠ (plaintextChunks plaintext).length

def Allowed (self : Direction) : Transfer → Prop
  | .encrypt _ => True
  | .deliver frame => ¬self.Regroups side frame

end Direction

/-! ### What is accepted -/

namespace Direction

/-- What decrypts is some of the sender's next chunks. -/
theorem decryptFrame_eq_some {side : Side} {log : Aead.Log UInt8} {nonce nonce' : Nat}
    {frame plaintext : Bytes} :
    side.decryptFrame (log.read "decrypt error") nonce frame = (some plaintext, nonce') ↔
      ∃ entries, entries <+: log.drop nonce ∧ side.splitFrame frame = some (entries.map Prod.fst) ∧
        plaintext = (entries.map Prod.snd).flatten ∧ nonce' = nonce + entries.length := by
  simp only [Side.decryptFrame_eq_some, Aead.Log.openAll_eq_ok]
  constructor
  · intro h
    obtain ⟨_, _, hsplit, ⟨entries, hprefix, rfl, rfl⟩, hplain, hnonce⟩ := h
    rw [List.length_map] at hnonce
    exact ⟨entries, hprefix, hsplit, hplain, hnonce⟩
  · intro h
    obtain ⟨entries, hprefix, hsplit, hplain, hnonce⟩ := h
    refine ⟨_, _, hsplit, ⟨entries, hprefix, rfl, rfl⟩, hplain, ?_⟩
    rw [List.length_map]
    exact hnonce

variable {writeMessage : Nat → Bytes → Bytes} {side : Side} {s : Direction} {frame : Bytes}

/-- The receiver is where the frames that it accepted end. -/
structure InStep (s : Direction) : Prop where
  accepted : s.accepted <+: s.sent
  nonce : s.isOpen = true → s.nonce = (s.accepted.flatMap plaintextChunks).length
  log : s.log.map Prod.snd = s.sent.flatMap plaintextChunks

theorem inStep_new : InStep new := ⟨List.prefix_refl _, fun _ => rfl, rfl⟩

theorem InStep.encrypt (h : InStep s) (plaintext : Bytes) :
    InStep (s.encrypt writeMessage plaintext) := by
  refine ⟨h.accepted.trans (List.prefix_append _ _), h.nonce, ?_⟩
  change (s.log ++ s.log.entries writeMessage (plaintextChunks plaintext)).map Prod.snd =
    (s.sent ++ [plaintext]).flatMap plaintextChunks
  rw [List.map_append, h.log, Aead.Log.map_snd_entries, List.flatMap_append, List.flatMap_singleton]

/-- What the receiver can accept next are the first chunks of the frames after those it accepted. -/
theorem InStep.messages (h : InStep s) (hopen : s.isOpen = true) {rest : List Bytes}
    (hrest : s.sent = s.accepted ++ rest) {entries : Aead.Log UInt8}
    (hentries : entries <+: s.log.drop s.nonce) :
    entries.map Prod.snd = (rest.flatMap plaintextChunks).take entries.length ∧
      entries.length ≤ (rest.flatMap plaintextChunks).length := by
  have hnext : (s.log.drop s.nonce).map Prod.snd = rest.flatMap plaintextChunks := by
    rw [List.map_drop, h.log, h.nonce hopen, hrest, List.flatMap_append, List.drop_left]
  have hprefix := hentries.map Prod.snd
  rw [hnext] at hprefix
  have htake := List.prefix_iff_eq_take.mp hprefix
  rw [List.length_map] at htake
  have hlen := hprefix.length_le
  rw [List.length_map] at hlen
  exact ⟨htake, hlen⟩

/-- The next chunks join to the next frame only if they are as many as its own. -/
theorem flatten_take_eq_iff {plaintext : Bytes} {rest : List Bytes} {n : Nat}
    (hn : n ≤ ((plaintext :: rest).flatMap plaintextChunks).length) :
    (((plaintext :: rest).flatMap plaintextChunks).take n).flatten = plaintext ↔
      n = (plaintextChunks plaintext).length := by
  have hne : ∀ piece ∈ (plaintext :: rest).flatMap plaintextChunks, piece ≠ [] := by
    intro piece hpiece
    obtain ⟨_, -, hpiece⟩ := List.mem_flatMap.mp hpiece
    exact plaintextChunks_ne_nil hpiece
  have hown : (((plaintext :: rest).flatMap plaintextChunks).take
      (plaintextChunks plaintext).length).flatten = plaintext := by
    rw [List.flatMap_cons, List.take_left, flatten_plaintextChunks]
  constructor
  · intro h
    apply Chunks.eq_of_flatten_take_eq hne hn _ (h.trans hown.symm)
    rw [List.flatMap_cons, List.length_append]
    omega
  · intro h
    rw [h, hown]

/-- A delivery is refused, or it is accepted as some of the next chunks. -/
theorem deliver_cases (hopen : s.isOpen = true) (frame : Bytes) :
    ((∀ entries, entries <+: s.log.drop s.nonce →
        side.splitFrame frame ≠ some (entries.map Prod.fst)) ∧
      ∃ nonce, s.deliver side frame = { s with nonce, isOpen := false }) ∨
    ∃ entries, entries <+: s.log.drop s.nonce ∧
      side.splitFrame frame = some (entries.map Prod.fst) ∧
      s.deliver side frame =
        { s with nonce := s.nonce + entries.length,
                 accepted := s.accepted ++ [(entries.map Prod.snd).flatten] } := by
  rw [deliver, if_pos hopen]
  cases hdecrypt : side.decryptFrame (s.log.read "decrypt error") s.nonce frame with
  | mk plaintext nonce =>
      cases plaintext with
      | none =>
          refine Or.inl ⟨?_, nonce, rfl⟩
          intro entries hprefix hsplit
          have haccepted := decryptFrame_eq_some.mpr ⟨entries, hprefix, hsplit, rfl, rfl⟩
          rw [hdecrypt] at haccepted
          cases congrArg Prod.fst haccepted
      | some plaintext =>
          obtain ⟨entries, hprefix, hsplit, rfl, rfl⟩ := decryptFrame_eq_some.mp hdecrypt
          exact Or.inr ⟨entries, hprefix, hsplit, rfl⟩

/-- What is regrouped, in terms of the next chunks. -/
theorem regroups_iff (hopen : s.isOpen = true) {entries : Aead.Log UInt8}
    (hentries : entries <+: s.log.drop s.nonce)
    (hsplit : side.splitFrame frame = some (entries.map Prod.fst)) :
    s.Regroups side frame ↔ ∀ plaintext, s.sent[s.accepted.length]? = some plaintext →
      entries.length ≠ (plaintextChunks plaintext).length := by
  constructor
  · intro h
    obtain ⟨-, ciphertexts, hsplit', -, hcount⟩ := h
    obtain rfl : entries.map Prod.fst = ciphertexts := Option.some.inj (hsplit.symm.trans hsplit')
    rwa [List.length_map] at hcount
  · intro hcount
    refine ⟨hopen, _, hsplit, hentries.map Prod.fst, ?_⟩
    rwa [List.length_map]

/-- **Exactly the frames that are not regrouped** keep what is accepted a prefix of what was sent. -/
theorem InStep.accepted_deliver_iff (h : InStep s) :
    (s.deliver side frame).accepted <+: (s.deliver side frame).sent ↔ ¬s.Regroups side frame := by
  by_cases hopen : s.isOpen = true
  · rcases deliver_cases hopen frame with ⟨hrefused, nonce, heq⟩ | ⟨entries, hprefix, hsplit, heq⟩
    · rw [heq]
      have hnot : ¬s.Regroups side frame := by
        intro hregroups
        obtain ⟨-, ciphertexts, hsplit, hciphertexts, -⟩ := hregroups
        obtain ⟨entries, hentries, rfl⟩ := List.prefix_map_iff.mp hciphertexts
        exact hrefused entries hentries hsplit
      exact iff_of_true h.accepted hnot
    · obtain ⟨rest, hrest⟩ := h.accepted
      obtain ⟨htake, hlen⟩ := h.messages hopen hrest.symm hprefix
      rw [heq, regroups_iff hopen hprefix hsplit, ← hrest, htake]
      change s.accepted ++ [_] <+: s.accepted ++ rest ↔ _
      rw [List.prefix_append_right_inj]
      cases rest with
      | nil => simp
      | cons plaintext rest =>
          have hget : (s.accepted ++ plaintext :: rest)[s.accepted.length]? = some plaintext := by
            rw [List.getElem?_append_right le_rfl, Nat.sub_self]
            rfl
          rw [hget, List.cons_prefix_cons, flatten_take_eq_iff hlen]
          simp
  · rw [deliver, if_neg hopen]
    exact iff_of_true h.accepted fun hregroups => hopen hregroups.1

theorem InStep.deliver (h : InStep s) (hnot : ¬s.Regroups side frame) :
    InStep (s.deliver side frame) := by
  have haccepted := h.accepted_deliver_iff.mpr hnot
  by_cases hopen : s.isOpen = true
  · rcases deliver_cases hopen frame with ⟨-, nonce, heq⟩ | ⟨entries, hprefix, hsplit, heq⟩
    · rw [heq]
      exact ⟨h.accepted, fun hfalse => absurd hfalse Bool.false_ne_true, h.log⟩
    · have hcount := (regroups_iff hopen hprefix hsplit).not.mp hnot
      simp only [ne_eq, not_forall, not_not] at hcount
      obtain ⟨plaintext, hnext, hcount⟩ := hcount
      rw [heq] at haccepted ⊢
      refine ⟨haccepted, ?_, h.log⟩
      intro _
      have hplain : (entries.map Prod.snd).flatten = plaintext := by
        obtain ⟨rest, hrest⟩ := haccepted
        change s.accepted ++ [_] ++ rest = s.sent at hrest
        rw [← hrest, List.append_assoc, List.getElem?_append_right le_rfl, Nat.sub_self] at hnext
        exact Option.some.inj hnext
      change s.nonce + entries.length = ((s.accepted ++ [_]).flatMap plaintextChunks).length
      rw [hplain, List.flatMap_append, List.length_append, List.flatMap_singleton, ← hcount,
        h.nonce hopen]
  · rw [Direction.deliver, if_neg hopen]
    exact h

/-- **Integrity.** In every run of encryptions and deliveries of any bytes, what the receiver
accepts is in every state a prefix of what the sender encrypted, exactly when no delivery of the run
regroups the sender's chunks. -/
theorem accepted_prefix_iff (writeMessage : Nat → Bytes → Bytes) (side : Side)
    (transfers : List Transfer) :
    (∀ s ∈ Run.states (step writeMessage side) new transfers, s.accepted <+: s.sent) ↔
      Run.EachStep (step writeMessage side) (Allowed side) new transfers := by
  refine Run.states_property_iff (fun s h => h.accepted) ?_ ?_ inStep_new
  · intro s transfer h
    cases transfer with
    | encrypt plaintext => exact iff_of_true (h.encrypt plaintext).accepted trivial
    | deliver frame => exact h.accepted_deliver_iff
  · intro s transfer h hallowed
    cases transfer with
    | encrypt plaintext => exact h.encrypt plaintext
    | deliver frame => exact h.deliver hallowed

/-- A cipher that appends the nonce. -/
def sampleWrite (nonce : Nat) (message : Bytes) : Bytes := message ++ Cbor.bigEndian 16 nonce

/-- Four zero bytes, a frame of no chunks, are accepted in the place of the sender's first frame, on
either side. -/
theorem empty_frame_is_accepted :
    ¬∃ side : Side, ∀ transfers : List Transfer,
      ∀ s ∈ Run.states (step sampleWrite side) new transfers, s.accepted <+: s.sent := by
  rintro ⟨side, hall⟩
  have hempty := hall [.encrypt [1], .deliver [0, 0, 0, 0]] _ Run.exec_mem_states
  revert hempty
  cases side <;> decide

end Direction

end Thicket.Net
