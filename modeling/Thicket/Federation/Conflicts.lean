import Thicket.Federation.Federation

/-!
# Conflicting copies

Peers may hold different versions of a record. A search compares them, a resolve does not: it takes
the first answer that verifies.
-/

namespace Thicket.Federation

open Result

variable {crypto : Crypto} {peers : List Peer} {id : Id} {now : UInt64} {rec : SignedRecord}

variable (crypto) in
/-- A peer answers with a record of the identity that verifies. -/
def Offers (peers : List Peer) (id : Id) (now : UInt64) (rec : SignedRecord) : Prop :=
  ∃ peer ∈ peers, peer.resolve id now = some rec ∧ rec.verify crypto now .new = .ok () ∧ rec.id = id

variable (crypto) in
/-- It is the newest of what the peers offer. -/
def IsNewest (peers : List Peer) (id : Id) (now : UInt64) (rec : SignedRecord) : Prop :=
  Offers crypto peers id now rec ∧
    ∀ other, Offers crypto peers id now other → other.payload.version ≤ rec.payload.version

variable (crypto) in
/-- A peer answers with a record that verifies, no peer before it does, and this record is one of
the identity and none that is offered is newer. -/
def NewestFirst (peers : List Peer) (id : Id) (now : UInt64) : Prop :=
  ∀ before peer after rec, peers = before ++ peer :: after →
    (∀ p ∈ before, ∀ r, p.resolve id now = some r → r.verify crypto now .new ≠ .ok ()) →
    peer.resolve id now = some rec → rec.verify crypto now .new = .ok () →
      rec.id = id ∧ ∀ other, Offers crypto peers id now other →
        other.payload.version ≤ rec.payload.version

/-- **Resolving the newest record.** Where nothing fresh is cached, what is returned is the newest
record that is offered if and only if the first answer that verifies is. -/
theorem resolve_newest_iff (fed : Federation) (call : Call)
    (hmiss : fed.isCached call.id call.now = false) :
    (∀ rec, fed.answer crypto call = some rec → IsNewest crypto call.peers call.id call.now rec) ↔
      NewestFirst crypto call.peers call.id call.now := by
  constructor
  · intro hall before peer after rec hpeers hbefore hanswer hverify
    have haccepted := accepted_iff.mpr ⟨before, peer, after, hpeers, hbefore, hanswer, hverify⟩
    obtain ⟨⟨_, _, _, _, hid⟩, hnewest⟩ := hall rec (resolve_of_miss hmiss haccepted).1
    exact ⟨hid, hnewest⟩
  · intro hfirst rec hanswer
    rcases answer_cases hanswer with ⟨expires, hentry, hfresh⟩ | ⟨-, haccepted⟩
    · rw [isCached, hentry] at hmiss
      exact absurd hfresh (by simpa using hmiss)
    · obtain ⟨before, peer, after, hpeers, hbefore, hpeer, hverify⟩ := accepted_iff.mp haccepted
      obtain ⟨hid, hnewest⟩ := hfirst before peer after rec hpeers hbefore hpeer hverify
      refine ⟨⟨peer, ?_, hpeer, hverify, hid⟩, hnewest⟩
      rw [hpeers]
      simp

/-! ### Two versions of a record -/

def holding (version : UInt64) : Peer :=
  { resolve _ _ := some (sampleRecord ⟨(1 : UInt8)⟩ ⟨(2 : UInt8)⟩ none version) }

/-- The two peers are asked for the record, the one that holds version `first` before the other. -/
def askBoth (first second : UInt64) : Call :=
  { peers := [holding first, holding second], id := (⟨(1 : UInt8)⟩ : RootKey Crypto.checked).id,
    now := 5 }

theorem resolve_newest_in_order : IsNewest .checked (askBoth 2 1).peers (askBoth 2 1).id 5
    (sampleRecord ⟨(1 : UInt8)⟩ ⟨(2 : UInt8)⟩ none 2) := by
  refine (resolve_newest_iff new (askBoth 2 1) rfl).mpr ?_ _ (by decide +kernel)
  intro before peer after rec hpeers hbefore hanswer _
  have hfirst : before = [] := by
    cases before with
    | nil => rfl
    | cons p before =>
        obtain ⟨hp, -⟩ := List.cons.inj hpeers
        have hverify : (sampleRecord ⟨(1 : UInt8)⟩ ⟨(2 : UInt8)⟩ none 2).verify .checked 5 .new =
            .ok () := by
          decide +kernel
        exact absurd hverify (hbefore p List.mem_cons_self _ (hp ▸ rfl))
  rw [hfirst, List.nil_append] at hpeers
  obtain ⟨rfl, -⟩ := List.cons.inj hpeers
  obtain rfl := Option.some.inj hanswer
  refine ⟨by decide +kernel, ?_⟩
  intro other ⟨peer, hpeer, hother, _⟩
  rcases List.mem_pair.mp hpeer with rfl | rfl
  · obtain rfl := Option.some.inj hother
    decide +kernel
  · obtain rfl := Option.some.inj hother
    decide +kernel

theorem resolve_takes_the_older :
    ¬∀ rec, new.answer .checked (askBoth 1 2) = some rec →
      IsNewest .checked (askBoth 1 2).peers (askBoth 1 2).id 5 rec := by
  intro hall
  have hanswer : new.answer .checked (askBoth 1 2) =
      some (sampleRecord ⟨(1 : UInt8)⟩ ⟨(2 : UInt8)⟩ none 1) := by
    decide +kernel
  have hoffers : Offers .checked (askBoth 1 2).peers (askBoth 1 2).id 5
      (sampleRecord ⟨(1 : UInt8)⟩ ⟨(2 : UInt8)⟩ none 2) :=
    ⟨holding 2, by simp [askBoth], rfl, by decide +kernel, by decide +kernel⟩
  exact absurd ((hall _ hanswer).2 _ hoffers) (by decide +kernel)

end Thicket.Federation
