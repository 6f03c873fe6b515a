import Thicket.Lib.Broadcast
import Thicket.Py.Canonical
import Thicket.Py.FileStore
import Thicket.Py.Terminal

/-!
# The trigger fiber

`trigger.subscribe` and `trigger.emit` of `fibers/py/trigger/trigger.py`, where `Fiber._stream` runs
the subscription. Its pump and the generator go on in turns, and between any two of their steps
others subscribe and emit. A handler of `emit` runs without awaiting anything.
-/

namespace Thicket.Py

open Cbor (Bytes)
open Result

/-! ### What arrives can be passed on -/

theorem Entries.key_of_setItem {d d' : Entries} {k v : Value} (hset : setItem d k v = .ok d')
    {e : Value × Value} (he : e ∈ d') : e.1 = k ∨ ∃ e' ∈ d, e'.1 = e.1 := by
  rw [setItem] at hset
  split_ifs at hset
  · obtain rfl := Except.ok.inj hset
    obtain ⟨e', he', rfl⟩ := List.mem_map.mp he
    refine .inr ⟨e', he', ?_⟩
    split_ifs <;> rfl
  · obtain rfl := Except.ok.inj hset
    rcases List.mem_append.mp he with he | he
    · exact .inr ⟨e, he, rfl⟩
    · exact .inl (congrArg Prod.fst (List.mem_singleton.mp he))

mutual

theorem encodes_of_built : ∀ {item : Cbor.Value} {v : Value}, Value.built item = .ok v →
    (Cbor.encode item).isSome = true → ∃ bytes, enc v = .ok bytes
  | .null, v, h, _ => by
    obtain rfl := Except.ok.inj h
    exact ⟨_, rfl⟩
  | .bool b, v, h, _ => by
    obtain rfl := Except.ok.inj h
    exact ⟨_, rfl⟩
  | .uint n, v, h, hsome => by
    obtain rfl := Except.ok.inj h
    obtain ⟨head, hhead⟩ := encHead_ok 0 ((Cbor.isSome_head 0).mp hsome)
    exact ⟨head, hhead⟩
  | .bytes bs, v, h, hsome => by
    obtain rfl := Except.ok.inj h
    obtain ⟨head, hhead⟩ := encHead_ok 2 (Cbor.isSome_encode_bytes.mp hsome)
    rw [enc, hhead]
    exact ⟨_, rfl⟩
  | .text s, v, h, hsome => by
    obtain rfl := Except.ok.inj h
    obtain ⟨head, hhead⟩ := encHead_ok 3 (Cbor.isSome_encode_text.mp hsome)
    rw [enc, hhead]
    exact ⟨_, rfl⟩
  | .array items, v, h, hsome => by
    obtain ⟨hlength, hitems⟩ := Cbor.isSome_encode_array.mp hsome
    simp only [Value.built, bind_eq_ok, pure_eq_ok] at h
    obtain ⟨vs, hvs, rfl⟩ := h
    obtain ⟨hsame, hvs⟩ := encodes_of_builtItems hvs hitems
    obtain ⟨head, hhead⟩ := encHead_ok 4 (n := vs.length) (hsame ▸ hlength)
    obtain ⟨rest, hrest⟩ := encItems_ok hvs
    rw [enc, hhead, hrest]
    exact ⟨_, rfl⟩
  | .map es, v, h, hsome => by
    obtain ⟨hlength, hentries⟩ := Cbor.isSome_encode_map.mp hsome
    simp only [Value.built, bind_eq_ok, pure_eq_ok] at h
    obtain ⟨d, hd, rfl⟩ := h
    have hshorter := length_builtEntries hd
    have hd := encodes_of_builtEntries (List.forall_mem_nil _) hd hentries
    obtain ⟨head, hhead⟩ := encHead_ok 5 (n := d.length) (by
      rw [List.length_nil] at hshorter
      omega)
    obtain ⟨rest, hrest⟩ := encEntries_ok (fun e he => (hd e he).1) fun e he => (hd e he).2
    rw [enc, hhead, hrest]
    exact ⟨_, rfl⟩

theorem encodes_of_builtItems : ∀ {items : List Cbor.Value} {vs : List Value},
    Value.builtItems items = .ok vs → (∀ item ∈ items, (Cbor.encode item).isSome = true) →
      items.length = vs.length ∧ ∀ v ∈ vs, ∃ bytes, enc v = .ok bytes
  | [], vs, h, _ => by
    obtain rfl := Except.ok.inj h
    exact ⟨rfl, List.forall_mem_nil _⟩
  | item :: items, vs, h, hsome => by
    obtain ⟨hitem, hitems⟩ := List.forall_mem_cons.mp hsome
    simp only [Value.builtItems, bind_eq_ok, pure_eq_ok] at h
    obtain ⟨v, hv, vs', hvs, rfl⟩ := h
    obtain ⟨hlength, hvs⟩ := encodes_of_builtItems hvs hitems
    exact ⟨congrArg (· + 1) hlength,
      List.forall_mem_cons.mpr ⟨encodes_of_built hv hitem, hvs⟩⟩

theorem encodes_of_builtEntries : ∀ {es : List (Cbor.Value × Cbor.Value)} {d d' : Entries},
    (∀ e ∈ d, (∃ bytes, enc e.1 = .ok bytes) ∧ ∃ bytes, enc e.2 = .ok bytes) →
    Value.builtEntries d es = .ok d' →
    (∀ e ∈ es, (Cbor.encode e.1).isSome = true ∧ (Cbor.encode e.2).isSome = true) →
      ∀ e ∈ d', (∃ bytes, enc e.1 = .ok bytes) ∧ ∃ bytes, enc e.2 = .ok bytes
  | [], d, d', hd, h, _ => by
    obtain rfl := Except.ok.inj h
    exact hd
  | (key, value) :: es, d, d', hd, h, hsome => by
    obtain ⟨⟨hkey, hvalue⟩, hes⟩ := List.forall_mem_cons.mp hsome
    simp only [Value.builtEntries, bind_eq_ok] at h
    obtain ⟨k, hk, v, hv, d'', hset, hrest⟩ := h
    refine encodes_of_builtEntries (fun e he => ?_) hrest hes
    constructor
    · rcases Entries.key_of_setItem hset he with hsame | ⟨e', he', hsame⟩
      · exact hsame ▸ encodes_of_built hk hkey
      · exact hsame ▸ (hd e' he').1
    · rcases Entries.mem_of_setItem hset he with hsame | ⟨e', he', hsame⟩
      · exact hsame ▸ encodes_of_built hv hvalue
      · exact hsame ▸ (hd e' he').2

end

theorem decodeBody_of_decode {bytes : Bytes} {v : Value} (h : decode bytes = .ok v) :
    decodeBody bytes = v := by
  have hne : bytes.isEmpty = false := by
    cases bytes with
    | nil => cases h
    | cons b bytes => rfl
  simp only [decodeBody, hne, h, Bool.false_eq_true, if_false]

/-- The body that a chunk has. -/
def bodyOf (event : Value) : Bytes := (encodeBody event).toOption.getD []

/-- An event that has a body, from which it is read again, unless it is a byte string. -/
structure Carried (event : Value) : Prop where
  body : encodeBody event = .ok (bodyOf event)
  read : (∀ bs, event ≠ .bytes bs) → decodeBody (bodyOf event) = event

theorem Carried.of_encodeBody {event : Value} {bytes : Bytes} (h : encodeBody event = .ok bytes)
    (hread : (∀ bs, event ≠ .bytes bs) → decodeBody bytes = event) : Carried event := by
  have hbody : bodyOf event = bytes := by rw [bodyOf, h]; rfl
  exact ⟨hbody ▸ h, hbody ▸ hread⟩

theorem carried_none : Carried .none := .of_encodeBody rfl fun _ => rfl

theorem carried_bytes (bs : Bytes) : Carried (.bytes bs) :=
  .of_encodeBody rfl fun h => absurd rfl (h bs)

theorem carried_of_decode {body : Bytes} {v : Value} (h : decode body = .ok v) : Carried v := by
  obtain ⟨item, hitem, hbuilt⟩ := decode_eq_ok.mp h
  obtain ⟨bytes, hbytes⟩ := encodes_of_built hbuilt (Cbor.isSome_encode_of_decode hitem)
  have hread : decodeBody bytes = v :=
    decodeBody_of_decode ((Writable.of_decode h).decode_encode hbytes)
  cases v with
  | none => exact carried_none
  | bytes bs => exact carried_bytes bs
  | bool | int | str | list | dict => exact .of_encodeBody hbytes fun _ => hread

/-- Whatever body an event was emitted in. -/
theorem carried_decodeBody (body : Bytes) : Carried (decodeBody body) := by
  rw [decodeBody]
  split_ifs
  · exact carried_none
  · cases h : decode body with
    | error e => exact carried_bytes body
    | ok v => exact carried_of_decode h

namespace Trigger

/-! ### Subscriptions -/

/-- A subscription: its queue, whether that is among `subs`, what the generator has yielded and the
pump has not sent, and the pump of `_stream` with what it has sent. -/
structure Subscription where
  queue : List Value
  listed : Bool
  yielded : Option Value
  seq : Nat
  frames : List Frame
  pumping : Bool

/-- What happens at the fiber. A subscription is stopped by the subscriber's disconnecting. -/
inductive Event where
  | subscribe
  | emit (body : Bytes)
  | get (subscriber : Nat)
  | send (subscriber : Nat)
  | stop (subscriber : Nat)
  | discard (subscriber : Nat)
  deriving DecidableEq

namespace Subscription

/-- It begins with `yield None`. -/
def new : Subscription :=
  { queue := [], listed := true, yielded := some .none, seq := 0, frames := [], pumping := true }

/-- `q.put_nowait(event)` for a queue that is listed. -/
def put (self : Subscription) (event : Value) : Subscription :=
  if self.listed then { self with queue := self.queue ++ [event] } else self

/-- `yield await q.get()`, when the pump asks for the next chunk. -/
def get (self : Subscription) : Subscription :=
  match self.pumping, self.yielded, self.queue with
  | true, none, event :: queue => { self with yielded := some event, queue }
  | _, _, _ => self

/-- The body of the pump's loop. What it raises ends it. -/
def send (self : Subscription) : Subscription :=
  match self.pumping, self.yielded with
  | true, some chunk =>
      match encodeBody chunk with
      | .ok body =>
          { self with
            yielded := none, seq := self.seq + 1,
            frames := self.frames ++ [.streamChunk self.seq false body] }
      | .error _ => { self with pumping := false }
  | _, _ => self

/-- The pump is cancelled. -/
def stop (self : Subscription) : Subscription := { self with pumping := false }

/-- `subs.discard(q)`, once the generator is closed. -/
def discard (self : Subscription) : Subscription :=
  if self.pumping then self else { self with listed := false }

end Subscription

def step (subs : List Subscription) : Event → List Subscription
  | .subscribe => subs ++ [.new]
  | .emit body => subs.map fun s => s.put (decodeBody body)
  | .get subscriber => subs.modify subscriber Subscription.get
  | .send subscriber => subs.modify subscriber Subscription.send
  | .stop subscriber => subs.modify subscriber Subscription.stop
  | .discard subscriber => subs.modify subscriber Subscription.discard

/-- The events that are emitted until the subscription is stopped. -/
def heard (subscriber : Nat) : List Event → List Value
  | [] => []
  | .emit body :: events => decodeBody body :: heard subscriber events
  | .stop stopped :: events => if stopped = subscriber then [] else heard subscriber events
  | .subscribe :: events | .get _ :: events | .send _ :: events | .discard _ :: events =>
      heard subscriber events

/-! ### A subscription takes part in a broadcast -/

/-- What a subscription has sent is what a member has taken, and what the member still has to take
is what was yielded and what is in the queue. -/
structure Follows (s : Subscription) (m : Broadcast.Member Value) : Prop where
  seq : s.seq = m.taken.length
  frames : s.frames = Fiber.chunkFrames (m.taken.map bodyOf)
  present : m.present = s.pumping
  listed : s.pumping = true → s.listed = true
  queue : s.pumping = true → m.queue = s.yielded.toList ++ s.queue
  carried : ∀ event ∈ m.taken ++ m.queue, Carried event

variable {s : Subscription} {m : Broadcast.Member Value}

theorem follows_new : Follows .new (.new [.none]) where
  seq := rfl
  frames := rfl
  present := rfl
  listed := fun _ => rfl
  queue := fun _ => rfl
  carried := List.forall_mem_singleton.mpr carried_none

theorem Follows.put (h : Follows s m) (body : Bytes) :
    Follows (s.put (decodeBody body)) (m.hear (decodeBody body)) := by
  cases hpumping : s.pumping with
  | true =>
      have hlisted := h.listed hpumping
      have hpresent : m.present = true := h.present.trans hpumping
      rw [Subscription.put, if_pos hlisted, Broadcast.Member.hear, if_pos hpresent]
      refine ⟨h.seq, h.frames, h.present, fun _ => hlisted, fun _ => ?_, ?_⟩
      · rw [h.queue hpumping, List.append_assoc]
      · rw [← List.append_assoc]
        exact List.forall_mem_append.mpr
          ⟨h.carried, List.forall_mem_singleton.mpr (carried_decodeBody body)⟩
  | false =>
      have hpresent : m.present = false := h.present.trans hpumping
      have hstopped {p : Prop} (hrunning : s.pumping = true) : p := by
        rw [hpumping] at hrunning
        cases hrunning
      rw [Subscription.put, Broadcast.Member.hear, hpresent, if_neg Bool.false_ne_true]
      split_ifs
      · exact ⟨h.seq, h.frames, h.present, h.listed, hstopped, h.carried⟩
      · exact h

theorem Follows.get (h : Follows s m) : Follows s.get m := by
  unfold Subscription.get
  split
  next event queue hpumping hyielded hqueue =>
    refine ⟨h.seq, h.frames, h.present, h.listed, fun _ => ?_, h.carried⟩
    rw [h.queue hpumping, hyielded, hqueue]
    rfl
  next => exact h

theorem send_of_none (h : s.yielded = none) : s.send = s := by
  rw [Subscription.send, h]
  cases s.pumping <;> rfl

theorem chunkFrames_append (bodies : List Bytes) (body : Bytes) :
    Fiber.chunkFrames (bodies ++ [body]) =
      Fiber.chunkFrames bodies ++ [.streamChunk bodies.length false body] := by
  rw [Fiber.chunkFrames, List.mapIdx_concat]
  rfl

theorem Follows.send (h : Follows s m) {event : Value} (hyielded : s.yielded = some event) :
    Follows s.send m.take := by
  cases hpumping : s.pumping with
  | true =>
      have hqueue : m.queue = event :: s.queue := by rw [h.queue hpumping, hyielded]; rfl
      have hcarried : Carried event := h.carried event (by simp [hqueue])
      simp only [Subscription.send, Broadcast.Member.take, hpumping, hyielded, hcarried.body,
        hqueue, h.present]
      refine ⟨?_, ?_, rfl, fun _ => h.listed hpumping, fun _ => rfl, ?_⟩
      · rw [List.length_append, List.length_singleton, h.seq]
      · rw [List.map_append, List.map_singleton, chunkFrames_append, List.length_map, ← h.seq,
          ← h.frames]
      · have hall := h.carried
        rw [hqueue] at hall
        rw [List.append_assoc]
        exact hall
  | false => simpa only [Subscription.send, Broadcast.Member.take, h.present, hpumping] using h

theorem Follows.stop (h : Follows s m) : Follows s.stop { m with present := false } where
  seq := h.seq
  frames := h.frames
  present := rfl
  listed := fun hrunning => absurd hrunning Bool.false_ne_true
  queue := fun hrunning => absurd hrunning Bool.false_ne_true
  carried := h.carried

theorem Follows.discard (h : Follows s m) : Follows s.discard m := by
  rw [Subscription.discard]
  split_ifs with hpumping
  · exact h
  · refine ⟨h.seq, h.frames, h.present, fun hrunning => ?_, h.queue, h.carried⟩
    exact absurd hrunning hpumping

theorem forall₂_modify {α β : Type} {R : α → β → Prop} {f : α → α} {g : β → β} {as : List α}
    {bs : List β} (h : List.Forall₂ R as bs) (i : Nat)
    (hfg : ∀ a b, as[i]? = some a → R a b → R (f a) (g b)) :
    List.Forall₂ R (as.modify i f) (bs.modify i g) := by
  induction h generalizing i with
  | nil => simp
  | cons hab hrest ih =>
      cases i with
      | zero => exact .cons (hfg _ _ rfl hab) hrest
      | succ i => exact .cons hab (ih i hfg)

theorem exists_of_forall₂ {α β : Type} {R : α → β → Prop} {as : List α} {bs : List β} {i : Nat}
    {b : β} (h : List.Forall₂ R as bs) (hb : bs[i]? = some b) : ∃ a, as[i]? = some a ∧ R a b := by
  obtain ⟨hi, rfl⟩ := List.getElem?_eq_some_iff.mp hb
  have hi' : i < as.length := h.length_eq ▸ hi
  exact ⟨as[i], List.getElem?_eq_getElem hi', h.get hi' hi⟩

/-- What one event at the fiber is for the broadcast. -/
structure Simulates (subs : List Subscription) (members : List (Broadcast.Member Value))
    (event : Event) (events : List (Broadcast.Event Value)) : Prop where
  follows : List.Forall₂ Follows (step subs event) (Run.exec Broadcast.step members events)
  heard : ∀ subscriber later later', Broadcast.heard subscriber later' = heard subscriber later →
    Broadcast.heard subscriber (events ++ later') = heard subscriber (event :: later)
  leaves : ∀ subscriber, .leave subscriber ∈ events → event = .stop subscriber

variable {subs : List Subscription} {members : List (Broadcast.Member Value)}

theorem follows_modify (h : List.Forall₂ Follows subs members) (i : Nat)
    {f : Subscription → Subscription}
    (hf : ∀ s m, subs[i]? = some s → Follows s m → Follows (f s) m) :
    List.Forall₂ Follows (subs.modify i f) members := by
  have hsame : List.Forall₂ Follows (subs.modify i f) (members.modify i id) :=
    forall₂_modify h i hf
  rwa [List.modify_id] at hsame

theorem exists_simulates (h : List.Forall₂ Follows subs members) (event : Event) :
    ∃ events, Simulates subs members event events := by
  cases event with
  | subscribe =>
      refine ⟨[.join [.none]], ?_, fun _ _ _ hlater => hlater, by simp⟩
      exact List.rel_append h (.cons follows_new .nil)
  | emit body =>
      refine ⟨[.emit (decodeBody body)], ?_, ?_, by simp⟩
      · show List.Forall₂ Follows (subs.map _) (members.map _)
        rw [List.forall₂_map_left_iff, List.forall₂_map_right_iff]
        exact h.imp fun s m hfollows => hfollows.put body
      · exact fun _ _ _ hlater => congrArg (decodeBody body :: ·) hlater
  | get subscriber =>
      refine ⟨[], ?_, fun _ _ _ hlater => hlater, by simp⟩
      exact follows_modify h subscriber fun _ _ _ hfollows => hfollows.get
  | send subscriber =>
      -- the broadcast's member takes something only if the generator has yielded
      cases hyielded : subs[subscriber]?.bind Subscription.yielded with
      | some event =>
          refine ⟨[.take subscriber], ?_, fun _ _ _ hlater => hlater, by simp⟩
          refine forall₂_modify h subscriber fun s m hs hfollows => ?_
          rw [hs] at hyielded
          exact hfollows.send hyielded
      | none =>
          refine ⟨[], ?_, fun _ _ _ hlater => hlater, by simp⟩
          refine follows_modify h subscriber fun s m hs hfollows => ?_
          rw [hs] at hyielded
          rwa [send_of_none hyielded]
  | stop subscriber =>
      refine ⟨[.leave subscriber], ?_, ?_, by simp⟩
      · exact forall₂_modify h subscriber fun _ _ _ hfollows => hfollows.stop
      · intro other later later' hlater
        show (if subscriber = other then [] else Broadcast.heard other later') = _
        rw [hlater]
        rfl
  | discard subscriber =>
      refine ⟨[], ?_, fun _ _ _ hlater => hlater, by simp⟩
      exact follows_modify h subscriber fun _ _ _ hfollows => hfollows.discard

/-- Any run at the fiber is one of the broadcast. -/
theorem exists_broadcast (h : List.Forall₂ Follows subs members) (events : List Event) :
    ∃ heardEvents, List.Forall₂ Follows (Run.exec step subs events)
        (Run.exec Broadcast.step members heardEvents) ∧
      ∀ subscriber, Broadcast.heard subscriber heardEvents = heard subscriber events ∧
        (.leave subscriber ∈ heardEvents → .stop subscriber ∈ events) := by
  induction events generalizing subs members with
  | nil => exact ⟨[], h, fun subscriber => ⟨rfl, fun hleave => absurd hleave List.not_mem_nil⟩⟩
  | cons event events ih =>
      obtain ⟨first, hfirst⟩ := exists_simulates h event
      obtain ⟨rest, hrest, hheard⟩ := ih hfirst.follows
      refine ⟨first ++ rest, ?_, fun subscriber => ⟨?_, fun hleave => ?_⟩⟩
      · rw [Run.exec_append]
        exact hrest
      · exact hfirst.heard subscriber events rest (hheard subscriber).1
      · rcases List.mem_append.mp hleave with hmem | hmem
        · exact hfirst.leaves subscriber hmem ▸ List.mem_cons_self
        · exact List.mem_cons_of_mem _ ((hheard subscriber).2 hmem)

/-- The number of a subscription that is made after these events. -/
def nextSubscriber (before : List Event) : Nat := (Run.exec step [] before).length

/-- **Every subscriber hears every event.** Whoever else subscribes, emits and leaves, what a
subscription has sent is the marker and the first of the events that were emitted since, each once
and in order, as chunks numbered from zero; as long as it is not stopped, all others wait for it. -/
theorem subscribers_hear (before after : List Event) :
    ∃ s taken,
      (Run.exec step [] (before ++ .subscribe :: after))[nextSubscriber before]? = some s ∧
      s.frames = Fiber.chunkFrames (taken.map bodyOf) ∧
      (∀ event ∈ taken, Carried event) ∧
      taken <+: .none :: heard (nextSubscriber before) after ∧
      (.stop (nextSubscriber before) ∉ after →
        taken ++ (s.yielded.toList ++ s.queue) = .none :: heard (nextSubscriber before) after) := by
  obtain ⟨first, hfirst, -⟩ := exists_broadcast .nil before
  have hlength := hfirst.length_eq
  obtain ⟨rest, hrest, hheard⟩ := exists_broadcast
    (show List.Forall₂ Follows _ (Broadcast.step _ (.join [.none])) from
      List.rel_append hfirst (.cons follows_new .nil)) after
  obtain ⟨m, hm, hpresent, htaken⟩ := Broadcast.taken_append_queue
    (Run.exec Broadcast.step [] first) [.none] rest
  rw [← hlength, ← nextSubscriber] at hm hpresent htaken
  obtain ⟨hheard, hleave⟩ := hheard (nextSubscriber before)
  rw [hheard] at htaken
  obtain ⟨s, hs, hfollows⟩ := exists_of_forall₂ hrest hm
  refine ⟨s, m.taken, ?_, hfollows.frames, fun event hevent => ?_, ⟨m.queue, htaken⟩,
    fun hstop => ?_⟩
  · rw [Run.exec_append]
    exact hs
  · exact hfollows.carried event (List.mem_append_left _ hevent)
  · have hpumping := hfollows.present.symm.trans (hpresent fun hmem => hstop (hleave hmem))
    rw [← hfollows.queue hpumping]
    exact htaken

end Trigger

end Thicket.Py
