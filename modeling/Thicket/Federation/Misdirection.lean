import Thicket.Federation.Federation
import Thicket.Py.Federation

/-!
# Which identity a federated resolve answers for

Verification binds a record to the identity it names, not to the one that was asked for, and neither
federation compares the two. So a resolve answers for the id that was asked exactly as long as no
peer gets to answer with a record of somebody else.
-/

namespace Thicket

open Cbor (Bytes)
open Result

variable {crypto : Crypto}

namespace Federation

variable {self : Federation} {peers : List Peer} {id : Id} {now : UInt64} {rec : SignedRecord}

variable (crypto) in
/-- A peer answers with a record of another identity that verifies, and no peer before it answers
with a record that verifies. -/
def Misdirected (peers : List Peer) (id : Id) (now : UInt64) : Prop :=
  ∃ before peer after rec, peers = before ++ peer :: after ∧
    (∀ p ∈ before, ∀ r, p.resolve id now = some r → r.verify crypto now .new ≠ .ok ()) ∧
    peer.resolve id now = some rec ∧ rec.verify crypto now .new = .ok () ∧ rec.id ≠ id

theorem misdirected_iff : Misdirected crypto peers id now ↔
    ∃ rec, accepted crypto peers id now = some rec ∧ rec.id ≠ id := by
  simp only [accepted_iff]
  constructor
  · intro ⟨before, peer, after, rec, hpeers, hbefore, hanswer, hverify, hid⟩
    exact ⟨rec, ⟨before, peer, after, hpeers, hbefore, hanswer, hverify⟩, hid⟩
  · intro ⟨rec, ⟨before, peer, after, hpeers, hbefore, hanswer, hverify⟩, hid⟩
    exact ⟨before, peer, after, rec, hpeers, hbefore, hanswer, hverify, hid⟩

/-- What is cached under an id is a record of that id. -/
abbrev Filed (self : Federation) : Prop :=
  self.cache.Holds fun id rec _ => rec.payload.id = id

variable (crypto) in
/-- The call has to ask the peers, and is misdirected. -/
def Astray (self : Federation) (call : Call) : Prop :=
  self.isCached call.id call.now = false ∧ Misdirected crypto call.peers call.id call.now

theorem filed_step_iff (h : self.Filed) (call : Call) :
    (self.step crypto call).Filed ↔ ¬self.Astray crypto call := by
  rw [Filed, step_cache, h.serve_iff, Astray, isCached_eq_false, misdirected_iff]
  constructor
  · rintro hfiled ⟨hmiss, rec, haccepted, hid⟩
    exact hid (hfiled hmiss rec _ (fetched_eq_some.mpr ⟨haccepted, rfl⟩))
  · intro hsafe hmiss rec expires hfetched
    by_contra hid
    exact hsafe ⟨hmiss, rec, (fetched_eq_some.mp hfetched).1, hid⟩

theorem answer_id_iff (h : self.Filed) (call : Call) :
    (∀ rec, self.answer crypto call = some rec → rec.payload.id = call.id) ↔
      ¬self.Astray crypto call := by
  rw [Astray, misdirected_iff]
  constructor
  · rintro hanswer ⟨hmiss, rec, haccepted, hid⟩
    exact hid (hanswer rec (resolve_of_miss hmiss haccepted).1)
  · intro hsafe rec hanswer
    rcases answer_cases hanswer with ⟨expires, hentry, -⟩ | ⟨hmiss, haccepted⟩
    · exact h call.id rec expires hentry
    · by_contra hid
      exact hsafe ⟨hmiss, rec, haccepted, hid⟩

theorem filed_new : new.Filed := TtlCache.holds_empty

theorem run_id_iff (calls : List Call) :
    (Run.EachStep (step crypto)
        (fun fed call => ∀ rec, fed.answer crypto call = some rec → rec.payload.id = call.id)
        new calls ∧ ∀ fed ∈ Run.states (step crypto) new calls, fed.Filed) ↔
      Run.EachStep (step crypto) (fun fed call => ¬fed.Astray crypto call) new calls := by
  have hstep : ∀ (fed : Federation) (call : Call), fed.Filed →
      ((fed.step crypto call).Filed ↔ ¬fed.Astray crypto call) :=
    fun _ call h => filed_step_iff h call
  rw [Run.eachStep_congr (fun _ call h => answer_id_iff h call)
    (fun fed call h => (hstep fed call h).mpr) filed_new]
  rw [Run.states_invariant_iff hstep filed_new, and_self_iff]

end Federation

namespace Py

variable {fiberId : Bytes} {now : Int} {c : DirectoryClient} {clients : List DirectoryClient}
  {rec : Value}

variable (crypto) in
/-- The directory answers, with nothing or with a record that does not verify. -/
def Passes (fiberId : Bytes) (now : Int) (c : DirectoryClient) : Prop :=
  c.resolve fiberId = .ok .none ∨
    ∃ rec, c.resolve fiberId = .ok rec ∧ verifyRecord crypto rec now = .ok false

variable (crypto) in
def Accepts (fiberId : Bytes) (now : Int) (c : DirectoryClient) (rec : Value) : Prop :=
  c.resolve fiberId = .ok rec ∧ rec ≠ .none ∧ verifyRecord crypto rec now = .ok true

variable (crypto) in
/-- A directory answers with a record of another identity that verifies, and the ones before it have
all been passed over. -/
def Misdirected (fiberId : Bytes) (now : Int) (clients : List DirectoryClient) : Prop :=
  ∃ before c after rec, clients = before ++ c :: after ∧
    (∀ b ∈ before, Passes crypto fiberId now b) ∧ Accepts crypto fiberId now c rec ∧
    recordId rec ≠ .ok (.bytes fiberId)

theorem resolve_of_answer (clients : List DirectoryClient) (hanswer : c.resolve fiberId = .ok rec)
    (hrec : rec ≠ .none) : resolve crypto fiberId now (c :: clients) =
      (do if ← verifyRecord crypto rec now then return rec
          else resolve crypto fiberId now clients) := by
  rw [resolve, hanswer]
  cases rec with
  | none => exact absurd rfl hrec
  | _ => rfl

theorem resolve_of_passes (h : Passes crypto fiberId now c) (clients : List DirectoryClient) :
    resolve crypto fiberId now (c :: clients) = resolve crypto fiberId now clients := by
  rcases h with hnone | ⟨rec, hanswer, hverify⟩
  · rw [resolve, hnone]
    rfl
  · by_cases hrec : rec = .none
    · rw [resolve, hanswer, hrec]
      rfl
    · rw [resolve_of_answer clients hanswer hrec, hverify]
      rfl

theorem resolve_of_accepts (h : Accepts crypto fiberId now c rec) (clients : List DirectoryClient) :
    resolve crypto fiberId now (c :: clients) = .ok rec := by
  obtain ⟨hanswer, hrec, hverify⟩ := h
  rw [resolve_of_answer clients hanswer hrec, hverify]
  rfl

/-- A directory is passed over, is believed, or makes the resolve raise. -/
theorem passes_or_accepts_or_raises (c : DirectoryClient) :
    Passes crypto fiberId now c ∨ (∃ rec, Accepts crypto fiberId now c rec) ∨
      ∃ e, ∀ clients, resolve crypto fiberId now (c :: clients) = .error e := by
  cases hanswer : c.resolve fiberId with
  | error e =>
      refine .inr (.inr ⟨e, fun clients => ?_⟩)
      rw [resolve, hanswer]
      rfl
  | ok rec =>
      by_cases hrec : rec = .none
      · exact .inl (.inl (hrec ▸ hanswer))
      · cases hverify : verifyRecord crypto rec now with
        | error e =>
            refine .inr (.inr ⟨e, fun clients => ?_⟩)
            rw [resolve_of_answer clients hanswer hrec, hverify]
            rfl
        | ok verified =>
            cases verified with
            | false => exact .inl (.inr ⟨rec, hanswer, hverify⟩)
            | true => exact .inr (.inl ⟨rec, hanswer, hrec, hverify⟩)

/-- A resolve returns the record of the first directory that is believed. -/
theorem resolve_eq_ok (hrec : rec ≠ .none) : resolve crypto fiberId now clients = .ok rec ↔
    ∃ before c after, clients = before ++ c :: after ∧
      (∀ b ∈ before, Passes crypto fiberId now b) ∧ Accepts crypto fiberId now c rec := by
  constructor
  · intro h
    induction clients with
    | nil => exact absurd (Except.ok.inj h).symm hrec
    | cons c clients ih =>
        rcases passes_or_accepts_or_raises c with hpasses | ⟨rec', haccepts⟩ | ⟨e, hraises⟩
        · rw [resolve_of_passes hpasses] at h
          obtain ⟨before, c', after, rfl, hbefore, haccepts⟩ := ih h
          refine ⟨c :: before, c', after, rfl, ?_, haccepts⟩
          intro b hb
          rcases List.mem_cons.mp hb with rfl | hb
          · exact hpasses
          · exact hbefore b hb
        · rw [resolve_of_accepts haccepts] at h
          obtain rfl := Except.ok.inj h
          exact ⟨[], c, clients, rfl, List.forall_mem_nil _, haccepts⟩
        · rw [hraises] at h
          cases h
  · rintro ⟨before, c, after, rfl, hbefore, haccepts⟩
    induction before with
    | nil => exact resolve_of_accepts haccepts after
    | cons b before ih =>
        obtain ⟨hb, hbefore⟩ := List.forall_mem_cons.mp hbefore
        rw [List.cons_append, resolve_of_passes hb]
        exact ih hbefore

theorem resolve_id_iff :
    (∀ rec, resolve crypto fiberId now clients = .ok rec → rec ≠ .none →
      recordId rec = .ok (.bytes fiberId)) ↔ ¬Misdirected crypto fiberId now clients := by
  constructor
  · rintro hall ⟨before, c, after, rec, hclients, hbefore, haccepts, hid⟩
    have hrec := haccepts.2.1
    exact hid (hall rec ((resolve_eq_ok hrec).mpr ⟨before, c, after, hclients, hbefore, haccepts⟩)
      hrec)
  · intro hsafe rec hresolve hrec
    by_contra hid
    obtain ⟨before, c, after, hclients, hbefore, haccepts⟩ := (resolve_eq_ok hrec).mp hresolve
    exact hsafe ⟨before, c, after, rec, hclients, hbefore, haccepts, hid⟩

end Py

open Federation in
/-- Over any run of calls the Rust federation returns and caches only records of the ids they answer
for, and the Python one returns only such records, exactly as long as no call that asks the peers is
answered first with a verifying record of another identity. -/
theorem federated_resolve_id_iff (crypto : Crypto) :
    (∀ calls : List Call,
      (Run.EachStep (step crypto) (fun fed call =>
          ∀ rec, fed.answer crypto call = some rec → rec.payload.id = call.id) new calls ∧
        ∀ fed ∈ Run.states (step crypto) new calls, ∀ (id : Id) (rec : SignedRecord)
          (expires : UInt64), fed.cache[id]? = some (rec, expires) → rec.payload.id = id) ↔
      Run.EachStep (step crypto) (fun fed call => ¬fed.Astray crypto call) new calls) ∧
    ∀ (fiberId : Bytes) (now : Int) (clients : List Py.DirectoryClient),
      (∀ rec, Py.resolve crypto fiberId now clients = .ok rec → rec ≠ .none →
        Py.recordId rec = .ok (.bytes fiberId)) ↔ ¬Py.Misdirected crypto fiberId now clients :=
  ⟨run_id_iff, fun _ _ _ => Py.resolve_id_iff⟩

/-! ### A stranger's record

Root 3 is asked for the id of root 1, and answers with its own record. -/

def strangerRecord : SignedRecord := sampleRecord ⟨(3 : UInt8)⟩ ⟨(4 : UInt8)⟩ none 1

def hostilePeer : Peer := { resolve _ _ := some strangerRecord }

def askedId : Id := ⟨checksum (seedPublic 1)⟩

namespace Py

/-- `signing_input` under a key of one byte. -/
def sampleSign (key : UInt8) (domain : String) (payload : Value) : Value :=
  .bytes (Crypto.checked.sign key (valueOr (signingInput domain payload) []))

def strangerEndorsement : List (Value × Value) :=
  [(.str "working_pub", .bytes (seedPublic 4)), (.str "not_before", .int 0),
    (.str "not_after", .int 1000)]

/-- The same record, as `build_record_payload` and `sign_record` make it. -/
def strangerRecord : Value :=
  let endorsement := strangerEndorsement ++
    [(.str "root_sig", sampleSign 3 "thicket-endorsement-v1" (.dict strangerEndorsement))]
  let payload : Value := .dict
    [(.str "schema", .str "thicket/record/1"), (.str "id", .bytes (checksum (seedPublic 3))),
      (.str "root_public_key", .bytes (seedPublic 3)), (.str "keys", .list [.dict endorsement]),
      (.str "kind", .str "memory"), (.str "locators", .list []), (.str "capabilities", .list []),
      (.str "profile", .dict []), (.str "supports", .dict []), (.str "visibility", .str "Public"),
      (.str "version", .int 1), (.str "ext", .dict [])]
  .dict [(.str "payload", payload), (.str "signer_pub", .bytes (seedPublic 4)),
    (.str "signature", sampleSign 4 "thicket-record-v1" payload)]

def hostileDirectory : DirectoryClient := { resolve _ := .ok strangerRecord }

theorem hostileDirectory_accepts :
    Accepts .checked askedId.bytes 5 hostileDirectory strangerRecord :=
  ⟨rfl, nofun, by decide +kernel⟩

end Py

open Federation in
theorem resolve_answers_stranger :
    (new.answer .checked ⟨[hostilePeer], askedId, 5⟩ = some strangerRecord ∧
      (new.step .checked ⟨[hostilePeer], askedId, 5⟩).cache[askedId]? = some (strangerRecord, 305) ∧
      strangerRecord.payload.id ≠ askedId) ∧
    Py.resolve .checked askedId.bytes 5 [Py.hostileDirectory] = .ok Py.strangerRecord ∧
    Py.recordId Py.strangerRecord ≠ .ok (.bytes askedId.bytes) := by
  refine ⟨⟨?_, ?_, ?_⟩, Py.resolve_of_accepts Py.hostileDirectory_accepts [], ?_⟩
  · decide +kernel
  · decide +kernel
  · decide +kernel
  · intro h
    have hid : Py.Value.bytes (checksum (seedPublic 3)) = .bytes askedId.bytes := Except.ok.inj h
    exact absurd (Py.Value.bytes.inj hid) (by decide +kernel)

end Thicket
