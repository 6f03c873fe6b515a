import Thicket.Registry.Registry
import Thicket.Lib.TtlCache
import Thicket.Lib.Run

/-!
# Federated resolve

A node resolves an id from its cache or by asking its peers in order, and takes the first answer
that verifies. Peers are other parties: what they answer may change from call to call, so a call
comes with the peers as they are then.

`resolve` is an expiring cache in front of `accepted`, the peers' first verifying answer
(`resolve_eq_serve`).
-/

namespace Thicket

open Result

structure Peer where
  resolve : Id → UInt64 → Option SignedRecord

/-- The part of a federation that resolving uses, but for the peers. -/
structure Federation where
  cache : TtlCache Id SignedRecord UInt64
  defaultTtl : UInt64

namespace Federation

def new : Federation := { cache := ∅, defaultTtl := 300 }

def isCached (self : Federation) (id : Id) (now : UInt64) : Bool :=
  self.cache[id]?.any fun (_, expires) => expires > now

/-- How long a record is cached for: its lease's `ttl`, or a default. -/
def ttl (self : Federation) (rec : SignedRecord) : UInt64 :=
  rec.payload.lease.elim self.defaultTtl fun l => l.ttl

variable (crypto : Crypto)

/-- Ask the peers in order, verify, and cache. -/
def askPeers (self : Federation) (id : Id) (now : UInt64) :
    List Peer → Federation × Option SignedRecord
  | [] => (self, none)
  | peer :: peers =>
      match peer.resolve id now with
      | some rec =>
          if rec.verify crypto now .new = .ok () then
            ({ self with cache := self.cache.insert id (rec, now + self.ttl rec) }, some rec)
          else
            askPeers self id now peers
      | none => askPeers self id now peers

/-- Resolve by id with a TTL cache. Cache hits skip the peers. -/
def resolve (self : Federation) (peers : List Peer) (id : Id) (now : UInt64) :
    Federation × Option SignedRecord :=
  match self.cache[id]? with
  | some (rec, expires) =>
      if expires > now then (self, some rec) else askPeers crypto self id now peers
  | none => askPeers crypto self id now peers

/-! ### A cache in front of the peers -/

/-- The first of the peers' answers that verifies. -/
def accepted (peers : List Peer) (id : Id) (now : UInt64) : Option SignedRecord :=
  peers.findSome? fun peer =>
    (peer.resolve id now).filter fun rec => rec.verify crypto now .new = .ok ()

/-- What the cache is filled with on a miss. -/
def fetched (self : Federation) (peers : List Peer) (id : Id) (now : UInt64) :
    Option (SignedRecord × UInt64) :=
  (accepted crypto peers id now).map fun rec => (rec, now + self.ttl rec)

variable {crypto} {self : Federation} {peers : List Peer} {id : Id} {now : UInt64}
  {rec : SignedRecord}

theorem askPeers_eq (self : Federation) (peers : List Peer) (id : Id) (now : UInt64) :
    askPeers crypto self id now peers =
      match fetched crypto self peers id now with
      | some entry => ({ self with cache := self.cache.insert id entry }, some entry.1)
      | none => (self, none) := by
  induction peers with
  | nil => rfl
  | cons peer peers ih =>
      simp only [askPeers, fetched, accepted, List.findSome?_cons]
      cases peer.resolve id now with
      | none => exact ih
      | some rec =>
          by_cases hverify : rec.verify crypto now .new = .ok ()
          · simp only [hverify, Option.filter_some, decide_true, if_true, Option.map_some]
          · simp only [hverify, Option.filter_some, decide_false, Bool.false_eq_true, if_false]
            exact ih

/-- Resolving serves from the cache what the peers' first verifying answer filled it with. -/
theorem resolve_eq_serve (self : Federation) (peers : List Peer) (id : Id) (now : UInt64) :
    self.resolve crypto peers id now =
      let served := self.cache.serve id now (fetched crypto self peers id now)
      ({ self with cache := served.1 }, served.2) := by
  simp only [resolve, TtlCache.serve, TtlCache.fresh?, askPeers_eq]
  cases self.cache[id]? with
  | none =>
      cases fetched crypto self peers id now with
      | none => rfl
      | some entry => rfl
  | some entry =>
      obtain ⟨rec, expires⟩ := entry
      by_cases hfresh : now < expires
      · simp only [gt_iff_lt, hfresh, if_true]
      · simp only [gt_iff_lt, hfresh, if_false]
        cases fetched crypto self peers id now with
        | none => rfl
        | some entry => rfl

theorem isCached_eq_false : self.isCached id now = false ↔ self.cache.fresh? id now = none := by
  rw [isCached, TtlCache.fresh?]
  cases self.cache[id]? with
  | none => simp
  | some entry =>
      obtain ⟨rec, expires⟩ := entry
      by_cases hfresh : now < expires
      · simp [hfresh]
      · simp [hfresh]

/-- The answer of the first peer whose answer verifies. -/
theorem accepted_iff : accepted crypto peers id now = some rec ↔
    ∃ before peer after, peers = before ++ peer :: after ∧
      (∀ p ∈ before, ∀ r, p.resolve id now = some r → r.verify crypto now .new ≠ .ok ()) ∧
      peer.resolve id now = some rec ∧ rec.verify crypto now .new = .ok () := by
  simp only [accepted, List.findSome?_eq_some_iff, Option.filter_eq_some_iff, decide_eq_true_eq,
    Option.filter_eq_none_iff]
  constructor
  · intro ⟨before, peer, after, hpeers, hanswer, hbefore⟩
    exact ⟨before, peer, after, hpeers, hbefore, hanswer⟩
  · intro ⟨before, peer, after, hpeers, hbefore, hanswer⟩
    exact ⟨before, peer, after, hpeers, hanswer, hbefore⟩

theorem verify_of_accepted (h : accepted crypto peers id now = some rec) :
    rec.verify crypto now .new = .ok () := by
  obtain ⟨_, _, _, _, _, _, hverify⟩ := accepted_iff.mp h
  exact hverify

theorem fetched_eq_some {expires : UInt64} : fetched crypto self peers id now = some (rec, expires) ↔
    accepted crypto peers id now = some rec ∧ now + self.ttl rec = expires := by
  rw [fetched, Option.map_eq_some_iff]
  constructor
  · rintro ⟨rec', haccepted, hentry⟩
    obtain ⟨rfl, rfl⟩ := Prod.mk.inj hentry
    exact ⟨haccepted, rfl⟩
  · rintro ⟨haccepted, rfl⟩
    exact ⟨rec, haccepted, rfl⟩

/-! ### Runs -/

/-- A call of `resolve`, with the peers as they are then. -/
structure Call where
  peers : List Peer
  id : Id
  now : UInt64

variable (crypto) in
def step (self : Federation) (call : Call) : Federation :=
  (self.resolve crypto call.peers call.id call.now).1

variable (crypto) in
def answer (self : Federation) (call : Call) : Option SignedRecord :=
  (self.resolve crypto call.peers call.id call.now).2

variable {call : Call}

theorem step_cache (self : Federation) (call : Call) : (self.step crypto call).cache =
    (self.cache.serve call.id call.now (fetched crypto self call.peers call.id call.now)).1 := by
  rw [step, resolve_eq_serve]

/-- What is returned is a fresh entry, or the first verifying answer of the peers. -/
theorem answer_cases (h : self.answer crypto call = some rec) :
    (∃ expires, self.cache[call.id]? = some (rec, expires) ∧ call.now < expires) ∨
      self.isCached call.id call.now = false ∧
        accepted crypto call.peers call.id call.now = some rec := by
  rw [answer, resolve_eq_serve] at h
  rcases TtlCache.serve_eq_some h with hhit | ⟨hmiss, expires, hfetched⟩
  · exact .inl hhit
  · exact .inr ⟨isCached_eq_false.mpr hmiss, (fetched_eq_some.mp hfetched).1⟩

/-- On a miss the first verifying answer is returned, and cached from now on. -/
theorem resolve_of_miss (hmiss : self.isCached call.id call.now = false)
    (haccepted : accepted crypto call.peers call.id call.now = some rec) :
    self.answer crypto call = some rec ∧
      (self.step crypto call).cache[call.id]? = some (rec, call.now + self.ttl rec) := by
  have hfetched : fetched crypto self call.peers call.id call.now
      = some (rec, call.now + self.ttl rec) := fetched_eq_some.mpr ⟨haccepted, rfl⟩
  have hserve := TtlCache.serve_of_not_fresh (isCached_eq_false.mp hmiss) rec
    (call.now + self.ttl rec)
  constructor
  · rw [answer, resolve_eq_serve, hfetched, hserve]
  · rw [step_cache, hfetched, hserve, HashMap.getElem?_insert, if_pos rfl]

end Federation

end Thicket
