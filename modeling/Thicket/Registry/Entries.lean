import Thicket.Registry.Registry
import Thicket.Lib.Run

/-!
# The entry of one identity

Seen from one identity, a registry is at most one record and the revocation set it shares with all
others. Every operation does to that entry one of a few things, listed in `Change`, and whatever
holds of the records a registry keeps or hands out is proved from that list.
-/

namespace Thicket.Registry

open Cbor (Bytes)
open Result

variable {embedder : Embedder} {crypto : Crypto}

def record? (self : Registry embedder) (id : Id) : Option SignedRecord :=
  self.store[id]?.map fun stored => stored.record

/-! ### What an operation makes of one entry -/

variable (crypto) in
/-- The entry a registration leaves, from the entry it finds. -/
def admitted (entry : Option (Stored embedder)) (revocations : RevocationSet)
    (record : SignedRecord) (now : UInt64) : Except RegistryError (Stored embedder) := do
  (record.verify crypto now revocations).mapError .core
  failIf (entry.any fun existing =>
    record.payload.version ≤ existing.record.payload.version) .stale
  return { record, capEmbeddings := record.payload.capabilities.map fun c =>
    embedder.embed c.description }

/-- The entry and the expiry a renewal leaves, from the entry it finds. -/
def renewed (entry : Option (Stored embedder)) (now ttl : UInt64) :
    Except RegistryError (Stored embedder × UInt64) := do
  let stored ← okOr entry .notFound
  let _ ← okOr stored.record.payload.lease .notFound
  let lease : Lease := { issuedAt := now, ttl, expiresAt := now + ttl }
  return ({ stored with record := stored.record.setLease lease }, lease.expiresAt)

def put (r : Registry embedder) (id : Id) (stored : Stored embedder) : Registry embedder :=
  { r with store := r.store.insert id stored }

variable {self next : Registry embedder} {id : Id} {record : SignedRecord} {revocation : Revocation}
  {now ttl : UInt64}

theorem register_eq : self.register crypto record now =
    (admitted crypto self.store[record.id]? self.revocations record now).map (self.put record.id) := by
  unfold register admitted
  cases (record.verify crypto now self.revocations).mapError RegistryError.core with
  | error e => rfl
  | ok u =>
      cases self.store[record.id]?.any fun existing =>
        decide (record.payload.version ≤ existing.record.payload.version) with
      | false => rfl
      | true => rfl

theorem renew_eq : self.renew id now ttl =
    (renewed self.store[id]? now ttl).map fun x => (self.put id x.1, x.2) := by
  unfold renew renewed
  cases self.store[id]? with
  | none => rfl
  | some stored =>
      simp only [okOr]
      cases hlease : stored.record.payload.lease <;> simp [bind, Except.bind, hlease] <;> rfl

theorem revoke_eq : self.revoke crypto id revocation =
    match self.store[id]? with
    | none => .error .notFound
    | some stored =>
        ((verifyRevocation crypto stored.record.payload.rootPublicKey revocation).mapError
          .core).map fun _ =>
            if (self.revocations.revokeKey revocation.workingPub).isRevoked
                stored.record.signerPub then
              { store := self.store.erase id,
                revocations := self.revocations.revokeKey revocation.workingPub }
            else { self with revocations := self.revocations.revokeKey revocation.workingPub } := by
  unfold revoke
  cases self.store[id]? with
  | none => rfl
  | some stored =>
      simp only [okOr, bind, Except.bind]
      cases verifyRevocation crypto stored.record.payload.rootPublicKey revocation with
      | error e => rfl
      | ok u =>
          simp only [Except.mapError, Except.map]
          split <;> rfl

/-! ### What each operation does to the entries -/

theorem leaseExpired_mono {t : UInt64} (h : leaseExpired record t = true) (hle : t ≤ now) :
    leaseExpired record now = true := by
  simp only [leaseExpired, Option.any_eq_true, decide_eq_true_eq] at h ⊢
  obtain ⟨lease, hlease, hlt⟩ := h
  exact ⟨lease, hlease, UInt64.lt_of_lt_of_le hlt hle⟩

@[simp] theorem record?_new (id : Id) : (new embedder).record? id = none := by
  simp [record?, new]

theorem exists_stored (h : self.record? id = some record) :
    ∃ stored, self.store[id]? = some stored ∧ stored.record = record :=
  Option.map_eq_some_iff.mp h

/-- What a registration answers depends on the entry of the record's own identity and on the
revocation set. -/
theorem register_outcome : (self.register crypto record now).map (fun _ => ()) =
    (do (record.verify crypto now self.revocations).mapError .core
        failIf ((self.record? record.id).any fun old =>
          record.payload.version ≤ old.payload.version) RegistryError.stale) := by
  unfold register record?
  rw [Option.any_map]
  cases (record.verify crypto now self.revocations).mapError RegistryError.core with
  | error e => rfl
  | ok u =>
      cases self.store[record.id]?.any fun existing =>
        record.payload.version ≤ existing.record.payload.version with
      | false => rfl
      | true => rfl

theorem register_ok (h : self.register crypto record now = .ok next) :
    record.verify crypto now self.revocations = .ok () ∧
    (∀ old, self.record? record.id = some old → old.payload.version < record.payload.version) ∧
    next.revocations = self.revocations ∧
    ∀ id, next.record? id = if id = record.id then some record else self.record? id := by
  simp only [register, bind_eq_ok, exists_unit, mapError_ok_iff, failIf_eq_ok, pure_eq_ok] at h
  obtain ⟨hverify, hnewer, rfl⟩ := h
  refine ⟨hverify, fun old hold => ?_, rfl, fun id => ?_⟩
  · obtain ⟨stored, hstored, rfl⟩ := exists_stored hold
    simpa [hstored] using hnewer
  · simp only [record?, HashMap.getElem?_insert]
    split <;> rfl

theorem exists_register_ok : (∃ next, self.register crypto record now = .ok next) ↔
    record.verify crypto now self.revocations = .ok () ∧
    ∀ old, self.record? record.id = some old → old.payload.version < record.payload.version := by
  constructor
  · intro ⟨next, h⟩
    obtain ⟨hverify, hnewer, -⟩ := register_ok h
    exact ⟨hverify, hnewer⟩
  · intro ⟨hverify, hnewer⟩
    simp only [register, bind_eq_ok, exists_unit, mapError_ok_iff, failIf_eq_ok, pure_eq_ok]
    refine ⟨_, hverify, ?_, rfl⟩
    intro hstale
    obtain ⟨stored, hstored, hle⟩ := Option.any_eq_true _ _ |>.mp hstale
    have hlt := hnewer stored.record (by rw [record?, hstored]; rfl)
    exact UInt64.not_le.mpr hlt (decide_eq_true_eq.mp hle)

theorem revoke_ok {revocation : Revocation} (h : self.revoke crypto id revocation = .ok next) :
    next.revocations = self.revocations.revokeKey revocation.workingPub ∧
    ∃ old, self.record? id = some old ∧
      verifyRevocation crypto old.payload.rootPublicKey revocation = .ok () ∧
      ∀ id', next.record? id' = if id' = id ∧ next.revocations.isRevoked old.signerPub then none
        else self.record? id' := by
  simp only [revoke, bind_eq_ok, okOr_eq_ok, exists_unit, mapError_ok_iff] at h
  obtain ⟨stored, hstored, hverify, hnext⟩ := h
  have hold : self.record? id = some stored.record := by rw [record?, hstored]; rfl
  split at hnext
  next hrevoked =>
    obtain rfl := pure_eq_ok.mp hnext
    refine ⟨rfl, stored.record, hold, hverify, fun id' => ?_⟩
    simp only [record?, HashMap.getElem?_erase, hrevoked, and_true]
    split <;> rfl
  next htrusted =>
    obtain rfl := pure_eq_ok.mp hnext
    refine ⟨rfl, stored.record, hold, hverify, fun id' => ?_⟩
    rw [if_neg fun hdropped => htrusted hdropped.2]
    rfl

theorem renew_ok {ttl e : UInt64} (h : self.renew id now ttl = .ok (next, e)) :
    next.revocations = self.revocations ∧
    ∃ old, self.record? id = some old ∧ old.payload.lease.isSome ∧
      ∀ id', next.record? id' =
        if id' = id then some (old.setLease { issuedAt := now, ttl, expiresAt := now + ttl })
        else self.record? id' := by
  simp only [renew, bind_eq_ok, okOr_eq_ok, pure_eq_ok, Prod.mk.injEq] at h
  obtain ⟨stored, hstored, lease, hlease, rfl, -⟩ := h
  refine ⟨rfl, stored.record, ?_, ?_, fun id' => ?_⟩
  · rw [record?, hstored]
    rfl
  · rw [hlease]
    rfl
  · simp only [record?, HashMap.getElem?_insert]
    split <;> rfl

theorem record?_deregister (id' : Id) :
    (self.deregister id).1.record? id' = if id' = id then none else self.record? id' := by
  simp only [deregister, record?, HashMap.getElem?_erase]
  split <;> rfl

theorem record?_sweepExpired (id : Id) : (self.sweepExpired now).1.record? id =
    (self.record? id).filter fun record => !leaseExpired record now := by
  simp only [sweepExpired, record?, HashMap.getElem?_retain]
  cases self.store[id]? with
  | none => rfl
  | some stored =>
      rw [Option.map_some, Option.filter_some, Option.filter_some]
      split <;> rfl

/-! ### Runs -/

inductive Op where
  | register (record : SignedRecord) (now : UInt64)
  | renew (id : Id) (now ttl : UInt64)
  | revoke (id : Id) (revocation : Revocation)
  | deregister (id : Id)
  | sweepExpired (now : UInt64)

variable (crypto)

/-- The registry after a call; one that fails leaves it as it was. -/
def step (self : Registry embedder) : Op → Registry embedder
  | .register record now => valueOr (self.register crypto record now) self
  | .renew id now ttl => valueOr ((self.renew id now ttl).map Prod.fst) self
  | .revoke id revocation => valueOr (self.revoke crypto id revocation) self
  | .deregister id => (self.deregister id).1
  | .sweepExpired now => (self.sweepExpired now).1

/-- What an operation can do to the entry of `id`, given the revocations known before it. -/
inductive Change (revocations : RevocationSet) (id : Id) :
    Op → Option SignedRecord → Option SignedRecord → Prop
  | kept (op : Op) (entry : Option SignedRecord) : Change revocations id op entry entry
  | published (record : SignedRecord) (now : UInt64) (entry : Option SignedRecord)
      (hid : record.id = id) (hverify : record.verify crypto now revocations = .ok ())
      (hnewer : ∀ old, entry = some old → old.payload.version < record.payload.version) :
      Change revocations id (.register record now) entry (some record)
  | renewed (now ttl : UInt64) (old : SignedRecord) (hlease : old.payload.lease.isSome) :
      Change revocations id (.renew id now ttl) (some old)
        (some (old.setLease { issuedAt := now, ttl, expiresAt := now + ttl }))
  | revoked (revocation : Revocation) (old : SignedRecord)
      (hverify : verifyRevocation crypto old.payload.rootPublicKey revocation = .ok ())
      (hsigner : (revocations.revokeKey revocation.workingPub).isRevoked old.signerPub) :
      Change revocations id (.revoke id revocation) (some old) none
  | deregistered (entry : Option SignedRecord) : Change revocations id (.deregister id) entry none
  | swept (now : UInt64) (old : SignedRecord) (hexpired : leaseExpired old now) :
      Change revocations id (.sweepExpired now) (some old) none

variable {crypto}

theorem step_change (self : Registry embedder) (op : Op) (id : Id) :
    Change crypto self.revocations id op (self.record? id) ((self.step crypto op).record? id) := by
  cases op with
  | register record now =>
      cases h : self.register crypto record now with
      | error e =>
          rw [step, h]
          exact .kept _ _
      | ok next =>
          obtain ⟨hverify, hnewer, -, hentry⟩ := register_ok h
          rw [step, h, valueOr, hentry]
          split
          next hid =>
            subst hid
            exact .published record now _ rfl hverify hnewer
          next => exact .kept _ _
  | renew target now ttl =>
      cases h : self.renew target now ttl with
      | error e =>
          rw [step, h]
          exact .kept _ _
      | ok result =>
          obtain ⟨-, old, hold, hlease, hentry⟩ := renew_ok h
          rw [step, h, Except.map, valueOr, hentry]
          split
          next hid =>
            subst hid
            rw [hold]
            exact .renewed now ttl old hlease
          next => exact .kept _ _
  | revoke target revocation =>
      cases h : self.revoke crypto target revocation with
      | error e =>
          rw [step, h]
          exact .kept _ _
      | ok next =>
          obtain ⟨hrevocations, old, hold, hverify, hentry⟩ := revoke_ok h
          rw [step, h, valueOr, hentry]
          split
          next hdropped =>
            obtain ⟨rfl, hsigner⟩ := hdropped
            rw [hold]
            exact .revoked revocation old hverify (hrevocations ▸ hsigner)
          next => exact .kept _ _
  | deregister target =>
      rw [step, record?_deregister]
      split
      next hid =>
        subst hid
        exact .deregistered _
      next => exact .kept _ _
  | sweepExpired now =>
      rw [step, record?_sweepExpired]
      cases hold : self.record? id with
      | none => exact .kept _ _
      | some old =>
          rw [Option.filter_some]
          cases hexpired : leaseExpired old now with
          | false => exact .kept _ _
          | true => exact .swept now old hexpired

/-- Where a record that is stored after an operation comes from. -/
theorem change_of_stored {op : Op} (h : (self.step crypto op).record? id = some record) :
    ∃ entry, self.record? id = entry ∧
      Change crypto self.revocations id op entry (some record) :=
  ⟨_, rfl, h ▸ step_change self op id⟩

theorem record?_renew {ttl : UInt64} {lease : Lease} (hrecord : self.record? id = some record)
    (hlease : record.payload.lease = some lease) :
    (self.step crypto (.renew id now ttl)).record? id =
      some (record.setLease { issuedAt := now, ttl, expiresAt := now + ttl }) := by
  obtain ⟨stored, hstored, rfl⟩ := exists_stored hrecord
  cases hcall : self.renew id now ttl with
  | error e => simp [renew, hstored, hlease, okOr, bind, Except.bind, pure, Except.pure] at hcall
  | ok result =>
      obtain ⟨-, old, hold, -, hentry⟩ := renew_ok hcall
      obtain rfl := Option.some.inj (hold.symm.trans hrecord)
      rw [step, hcall, Except.map, valueOr, hentry, if_pos rfl]

theorem isRevoked_step {key : Bytes} (op : Op) (h : self.revocations.isRevoked key) :
    (self.step crypto op).revocations.isRevoked key := by
  cases op with
  | register record now =>
      cases hcall : self.register crypto record now with
      | error e => rwa [step, hcall]
      | ok next => rwa [step, hcall, valueOr, (register_ok hcall).2.2.1]
  | renew target now ttl =>
      cases hcall : self.renew target now ttl with
      | error e => rwa [step, hcall]
      | ok result => rwa [step, hcall, Except.map, valueOr, (renew_ok hcall).1]
  | revoke target revocation =>
      cases hcall : self.revoke crypto target revocation with
      | error e => rwa [step, hcall]
      | ok next =>
          rw [step, hcall, valueOr, (revoke_ok hcall).1, RevocationSet.isRevoked_revokeKey, h]
          exact Bool.or_true _
  | deregister target => exact h
  | sweepExpired now => exact h

/-- Records are stored under their own identity. -/
def Keyed (self : Registry embedder) : Prop :=
  ∀ id record, self.record? id = some record → record.id = id

theorem keyed_new : (new embedder).Keyed := by
  intro id record h
  rw [record?_new] at h
  cases h

theorem Keyed.step {op : Op} (h : self.Keyed) : (self.step crypto op).Keyed := by
  intro id record hrecord
  obtain ⟨entry, hentry, hchange⟩ := change_of_stored hrecord
  cases hchange with
  | kept => exact h id record hentry
  | published _ _ _ hid => exact hid
  | renewed _ _ old => exact h id old hentry

/-! ### What a registry hands out -/

/-- `record` is among what some `resolve`, `search` or `public_records` call returns. -/
inductive Answers (self : Registry embedder) (record : SignedRecord) : Prop
  | resolve {id : Id} {now : UInt64} (h : self.resolve id now = .ok record)
  | search {values : List (Stored embedder)} {need : Need} {now : UInt64}
      (hvalues : self.store.Yields values) (h : record ∈ search values need now)
  | publicRecords {values : List (Stored embedder)} {now : UInt64}
      (hvalues : self.store.Yields values) (h : record ∈ publicRecords values now)

theorem resolve_ok : self.resolve id now = .ok record ↔ self.record? id = some record ∧
    leaseExpired record now = false ∧ record.payload.visibility ≠ .private := by
  simp only [resolve, bind_eq_ok, okOr_eq_ok, exists_unit, failIf_eq_ok, record?,
    Option.map_eq_some_iff, Bool.not_eq_true]
  constructor
  · rintro ⟨stored, hstored, hlive, h⟩
    cases hvisibility : stored.record.payload.visibility with
    | «private» => simp [hvisibility] at h
    | «public» | unlisted =>
        obtain rfl : stored.record = record := by simpa [hvisibility] using h
        exact ⟨⟨stored, hstored, rfl⟩, hlive, by simp [hvisibility]⟩
  · rintro ⟨⟨stored, hstored, rfl⟩, hlive, hvisible⟩
    refine ⟨stored, hstored, hlive, ?_⟩
    cases hvisibility : stored.record.payload.visibility with
    | «private» => exact absurd hvisibility hvisible
    | «public» | unlisted => rfl

theorem mem_search {values : List (Stored embedder)} {need : Need}
    (h : record ∈ search values need now) : ∃ stored ∈ values, stored.record = record := by
  simp only [search, List.mem_map] at h
  obtain ⟨⟨score, stored⟩, htaken, rfl⟩ := h
  have hscored := List.mem_mergeSort.mp (List.mem_of_mem_take htaken)
  simp only [List.mem_map, List.mem_filter, Prod.mk.injEq] at hscored
  obtain ⟨s, ⟨⟨⟨⟨hmem, -⟩, -⟩, -⟩, -⟩, -, rfl⟩ := hscored
  exact ⟨s, hmem, rfl⟩

theorem mem_publicRecords {values : List (Stored embedder)}
    (h : record ∈ publicRecords values now) : ∃ stored ∈ values, stored.record = record := by
  simp only [publicRecords, List.mem_map, List.mem_filter] at h
  obtain ⟨stored, ⟨⟨hmem, -⟩, -⟩, rfl⟩ := h
  exact ⟨stored, hmem, rfl⟩

theorem record?_of_yields {values : List (Stored embedder)} (hvalues : self.store.Yields values)
    (h : ∃ stored ∈ values, stored.record = record) : ∃ id, self.record? id = some record := by
  obtain ⟨stored, hmem, rfl⟩ := h
  obtain ⟨id, hid⟩ := hvalues.mem_iff.mp hmem
  exact ⟨id, by rw [record?, hid]; rfl⟩

/-- Everything a registry hands out is a stored record, exactly as it is stored. -/
theorem Answers.stored (h : self.Answers record) : ∃ id, self.record? id = some record := by
  cases h with
  | resolve h => exact ⟨_, (resolve_ok.mp h).1⟩
  | search hvalues h => exact record?_of_yields hvalues (mem_search h)
  | publicRecords hvalues h => exact record?_of_yields hvalues (mem_publicRecords h)

end Thicket.Registry
