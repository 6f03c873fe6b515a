import Mathlib.Data.List.Infix
import Mathlib.Tactic.Common
import Thicket.Lib.Run

/-!
# A bounded stream that is cut off when it overflows

A sender that never waits puts items into a bounded buffer. The first item that finds no room, or no
receiver, ends the stream, as does an item that is marked as the last. So what gets through has no gap:
it is a first part of what was sent, and all of it when the receiver keeps up.
-/

namespace BoundedStream

variable {α : Type} (isLast : α → Bool)

/-- The items up to the first one that is marked as the last. -/
def upToLast : List α → List α
  | [] => []
  | a :: items => if isLast a then [a] else a :: upToLast items

structure Stream (α : Type) where
  unread : List α
  received : List α
  sending : Bool
  receiving : Bool
  deriving DecidableEq

inductive Event (α : Type) where
  | item (a : α)
  | recv
  | drop
  deriving DecidableEq

def Event.item? : Event α → Option α
  | .item a => some a
  | _ => none

namespace Stream

def new : Stream α := { unread := [], received := [], sending := true, receiving := true }

def send (capacity : Nat) (self : Stream α) (a : α) : Stream α :=
  if self.sending then
    if self.receiving ∧ self.unread.length < capacity then
      { self with unread := self.unread ++ [a], sending := !isLast a }
    else { self with sending := false }
  else self

def step (capacity : Nat) (self : Stream α) : Event α → Stream α
  | .item a => self.send isLast capacity a
  | .recv =>
      match self.unread with
      | [] => self
      | a :: unread => { self with unread, received := self.received ++ [a] }
  | .drop => { self with unread := [], receiving := false }

end Stream

/-! ### The first part of a list -/

variable {isLast} {items : List α} {a : α}

theorem upToLast_prefix (items : List α) : upToLast isLast items <+: items := by
  induction items with
  | nil => exact List.prefix_refl _
  | cons b items ih =>
      rw [upToLast]
      split_ifs
      · exact List.cons_prefix_cons.mpr ⟨rfl, List.nil_prefix⟩
      · exact List.cons_prefix_cons.mpr ⟨rfl, ih⟩

/-- Where no item is a last one, the next item still belongs to it. -/
theorem upToLast_append_of_none (h : ∀ b ∈ items, isLast b = false) (a : α) :
    upToLast isLast (items ++ [a]) = items ++ [a] := by
  induction items with
  | nil =>
      rw [List.nil_append, upToLast]
      split_ifs <;> rfl
  | cons b items ih =>
      have hb : ¬isLast b = true := by simp [h b List.mem_cons_self]
      rw [List.cons_append, upToLast, if_neg hb, ih fun c hc => h c (List.mem_cons_of_mem _ hc)]

theorem upToLast_append_of_some {b : α} (hmem : b ∈ items) (hlast : isLast b = true)
    (rest : List α) : upToLast isLast (items ++ rest) = upToLast isLast items := by
  induction items with
  | nil => cases hmem
  | cons c items ih =>
      rw [List.cons_append, upToLast, upToLast]
      split_ifs with hc
      · rfl
      · rcases List.mem_cons.mp hmem with rfl | hmem
        · exact absurd hlast hc
        · rw [ih hmem]

theorem upToLast_mono (items rest : List α) :
    upToLast isLast items <+: upToLast isLast (items ++ rest) := by
  induction items with
  | nil => exact List.nil_prefix
  | cons b items ih =>
      rw [List.cons_append, upToLast, upToLast]
      split_ifs
      · exact List.prefix_refl _
      · exact List.cons_prefix_cons.mpr ⟨rfl, ih⟩

/-! ### What gets through -/

variable {capacity : Nat} {s : Stream α} {events : List (Event α)}

/-- `sent` are the items so far. While the stream is open nothing was cut off. -/
structure Inv (isLast : α → Bool) (sent : List α) (s : Stream α) : Prop where
  through : s.received ++ s.unread <+: upToLast isLast sent
  whole : s.sending = true → s.receiving = true → s.received ++ s.unread = sent
  unended : s.sending = true → ∀ b ∈ sent, isLast b = false

theorem inv_new : Inv isLast [] (Stream.new (α := α)) :=
  ⟨List.prefix_refl _, fun _ _ => rfl, fun _ _ hb => absurd hb List.not_mem_nil⟩

theorem Inv.send {sent : List α} (h : Inv isLast sent s) (a : α) :
    Inv isLast (sent ++ [a]) (s.send isLast capacity a) := by
  have hmore := h.through.trans (upToLast_mono sent [a])
  unfold Stream.send
  split_ifs with hsending hroom
  · refine ⟨?_, fun _ _ => ?_, fun hopen => ?_⟩
    · change s.received ++ (s.unread ++ [a]) <+: _
      rw [← List.append_assoc, h.whole hsending hroom.1,
        upToLast_append_of_none (h.unended hsending)]
    · change s.received ++ (s.unread ++ [a]) = _
      rw [← List.append_assoc, h.whole hsending hroom.1]
    · intro b hb
      rcases List.mem_append.mp hb with hb | hb
      · exact h.unended hsending b hb
      · rw [List.mem_singleton.mp hb]
        simpa using hopen
  · exact ⟨hmore, fun hopen _ => (by cases hopen), fun hopen => (by cases hopen)⟩
  · exact ⟨hmore, fun hopen _ => absurd hopen hsending, fun hopen => absurd hopen hsending⟩

theorem Inv.step {sent : List α} (h : Inv isLast sent s) (event : Event α) :
    Inv isLast (sent ++ event.item?.toList) (s.step isLast capacity event) := by
  cases event with
  | item a => exact h.send a
  | recv =>
      change Inv isLast (sent ++ []) _
      rw [List.append_nil, Stream.step]
      split
      · exact h
      · next a unread hunread =>
          have hsame : s.received ++ [a] ++ unread = s.received ++ s.unread := by
            rw [hunread, List.append_assoc, List.singleton_append]
          refine ⟨?_, ?_, h.unended⟩
          · change s.received ++ [a] ++ unread <+: _
            rw [hsame]
            exact h.through
          · intro hsending hreceiving
            change s.received ++ [a] ++ unread = _
            rw [hsame]
            exact h.whole hsending hreceiving
  | drop =>
      change Inv isLast (sent ++ []) _
      rw [List.append_nil]
      refine ⟨?_, fun _ hreceiving => (by cases hreceiving), h.unended⟩
      change s.received ++ [] <+: _
      rw [List.append_nil]
      exact (List.prefix_append _ _).trans h.through

/-- The items of a run, in order. -/
def sentItems (events : List (Event α)) : List α := events.filterMap Event.item?

theorem sentItems_append (events : List (Event α)) (event : Event α) :
    sentItems (events ++ [event]) = sentItems events ++ event.item?.toList := by
  rw [sentItems, List.filterMap_append]
  cases event <;> rfl

theorem exec_append (capacity : Nat) (events : List (Event α)) (event : Event α) :
    Run.exec (Stream.step isLast capacity) .new (events ++ [event]) =
      (Run.exec (Stream.step isLast capacity) .new events).step isLast capacity event := by
  rw [Run.exec_append]
  rfl

theorem inv_exec (capacity : Nat) (events : List (Event α)) :
    Inv isLast (sentItems events) (Run.exec (Stream.step isLast capacity) .new events) := by
  induction events using List.reverseRecOn with
  | nil => exact inv_new
  | append_singleton events event ih =>
      rw [sentItems_append, exec_append]
      exact ih.step event

/-- **No gap**: what is received and what is still in the buffer are a first part of what was sent. -/
theorem through_prefix (capacity : Nat) (events : List (Event α)) :
    (Run.exec (Stream.step isLast capacity) .new events).received ++
        (Run.exec (Stream.step isLast capacity) .new events).unread <+:
      upToLast isLast (sentItems events) :=
  (inv_exec capacity events).through

/-- The receiver, which stays, has never left more items unread than the buffer holds. -/
structure KeepsUp (isLast : α → Bool) (capacity : Nat) (events : List (Event α)) : Prop where
  stays : Event.drop ∉ events
  keeps : ∀ before, before <+: events →
    (upToLast isLast (sentItems before)).length ≤
      (Run.exec (Stream.step isLast capacity) .new before).received.length + capacity

theorem KeepsUp.of_append {event : Event α} (h : KeepsUp isLast capacity (events ++ [event])) :
    KeepsUp isLast capacity events :=
  ⟨fun hdrop => h.stays (List.mem_append_left _ hdrop),
    fun before hbefore => h.keeps before (hbefore.trans (List.prefix_append _ _))⟩

/-- Everything is through, and the stream ends at a last item only. -/
structure Complete (isLast : α → Bool) (sent : List α) (s : Stream α) : Prop where
  through : s.received ++ s.unread = upToLast isLast sent
  receiving : s.receiving = true
  ended : s.sending = false → ∃ b ∈ sent, isLast b = true

theorem Complete.send {sent : List α} (h : Complete isLast sent s) (hinv : Inv isLast sent s) (a : α)
    (hkeeps : (upToLast isLast (sent ++ [a])).length ≤ s.received.length + capacity) :
    Complete isLast (sent ++ [a]) (s.send isLast capacity a) := by
  cases hsending : s.sending with
  | true =>
      have hall := upToLast_append_of_none (hinv.unended hsending) a
      have hwhole := hinv.whole hsending h.receiving
      have hroom : s.unread.length < capacity := by
        have hlen := congrArg List.length hwhole
        rw [List.length_append] at hlen
        rw [hall, List.length_append, List.length_singleton] at hkeeps
        omega
      rw [Stream.send, if_pos hsending, if_pos ⟨h.receiving, hroom⟩]
      refine ⟨?_, h.receiving, fun hended => ⟨a, ?_, ?_⟩⟩
      · change s.received ++ (s.unread ++ [a]) = _
        rw [hall, ← List.append_assoc, hwhole]
      · exact List.mem_append_right _ (List.mem_singleton_self a)
      · simpa using hended
  | false =>
      obtain ⟨b, hb, hlast⟩ := h.ended hsending
      rw [Stream.send, if_neg (by simp [hsending])]
      refine ⟨?_, h.receiving, fun _ => ⟨b, List.mem_append_left _ hb, hlast⟩⟩
      rw [upToLast_append_of_some hb hlast]
      exact h.through

theorem complete_exec (h : KeepsUp isLast capacity events) :
    Complete isLast (sentItems events) (Run.exec (Stream.step isLast capacity) .new events) := by
  induction events using List.reverseRecOn with
  | nil => exact ⟨rfl, rfl, fun hended => (by cases hended)⟩
  | append_singleton events event ih =>
      have hbefore := ih h.of_append
      have hinv : Inv isLast (sentItems events) _ := inv_exec capacity events
      rw [sentItems_append, exec_append]
      cases event with
      | item a =>
          have hkeeps := h.keeps _ (List.prefix_refl _)
          rw [sentItems_append, exec_append] at hkeeps
          apply hbefore.send hinv a
          refine hkeeps.trans (Nat.add_le_add_right (Nat.le_of_eq ?_) _)
          change (Stream.send isLast capacity (Run.exec _ .new events) a).received.length = _
          unfold Stream.send
          split_ifs <;> rfl
      | recv =>
          change Complete isLast (_ ++ []) _
          rw [List.append_nil, Stream.step]
          split
          · exact hbefore
          · next a unread hunread =>
              refine ⟨?_, hbefore.receiving, hbefore.ended⟩
              rw [← hbefore.through, hunread, List.append_assoc, List.singleton_append]
      | drop => exact absurd (List.mem_append_right _ List.mem_cons_self) h.stays

/-- **Nothing is lost** when the receiver keeps up. -/
theorem through_eq (h : KeepsUp isLast capacity events) :
    (Run.exec (Stream.step isLast capacity) .new events).received ++
        (Run.exec (Stream.step isLast capacity) .new events).unread =
      upToLast isLast (sentItems events) :=
  (complete_exec h).through

end BoundedStream
