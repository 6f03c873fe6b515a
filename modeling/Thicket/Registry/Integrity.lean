import Thicket.Registry.Entries

/-!
# Stored records and their signatures

A record is verified when it enters the store, and only `renew` edits it there. It overwrites the
lease, which is signed, and keeps the signature, so the stored record still verifies exactly when
the new lease is the old one.
-/

namespace Thicket

open Result

variable {crypto : Crypto}

theorem SignedRecord.setLease_of_lease_eq {record : SignedRecord} {lease : Lease}
    (h : record.payload.lease = some lease) : record.setLease lease = record := by
  obtain ⟨payload, signerPub, signature⟩ := record
  obtain ⟨schema, id, rootPublicKey, keys, kind, locators, capabilities, profile, supports,
    visibility, _, version, ext⟩ := payload
  obtain rfl := h
  rfl

/-- An edited lease is not covered by the signature. -/
theorem SignedRecord.lease_eq_of_verify_setLease (hbind : crypto.SignaturesBind)
    {record : SignedRecord} {lease : Lease} (h : record.verifyPayload crypto = .ok ())
    (hedited : (record.setLease lease).verifyPayload crypto = .ok ()) :
    record.payload.lease = some lease := by
  have hpayload := payload_eq_of_verifyPayload hbind h hedited rfl
  rw [hpayload]
  rfl

namespace Registry

variable {embedder : Embedder} {self : Registry embedder} {ops : List Op}

variable (crypto) in
def Integrity (self : Registry embedder) : Prop :=
  ∀ id record, self.record? id = some record → record.verifyPayload crypto = .ok ()

/-- A renewal writes the lease that the stored record has. -/
def RenewsInPlace (self : Registry embedder) : Op → Prop
  | .renew id now ttl => ∀ record, self.record? id = some record →
      ∀ lease, record.payload.lease = some lease →
        lease = { issuedAt := now, ttl, expiresAt := now + ttl }
  | _ => True

theorem integrity_new : (new embedder).Integrity crypto := by
  intro id record h
  rw [record?_new] at h
  exact absurd h (Option.some_ne_none record).symm

theorem Integrity.step {op : Op} (h : self.Integrity crypto) (hop : self.RenewsInPlace op) :
    (self.step crypto op).Integrity crypto := by
  intro id record hrecord
  obtain ⟨entry, hentry, hchange⟩ := change_of_stored hrecord
  cases hchange with
  | kept => exact h id record hentry
  | published _ _ _ _ hverify => exact (SignedRecord.verify_eq_ok.mp hverify).2
  | renewed now ttl old hlease =>
      obtain ⟨lease, hlease⟩ := Option.isSome_iff_exists.mp hlease
      obtain rfl := hop old hentry lease hlease
      rw [SignedRecord.setLease_of_lease_eq hlease]
      exact h id old hentry

theorem Integrity.renewsInPlace (hbind : crypto.SignaturesBind) {op : Op}
    (h : self.Integrity crypto) (hnext : (self.step crypto op).Integrity crypto) :
    self.RenewsInPlace op := by
  cases op with
  | renew id now ttl =>
      intro record hrecord lease hlease
      have hrenewed : (self.step crypto (.renew id now ttl)).record? id = _ :=
        record?_renew hrecord hlease
      have hsame := SignedRecord.lease_eq_of_verify_setLease hbind (h id record hrecord)
        (hnext id _ hrenewed)
      exact Option.some.inj (hlease.symm.trans hsame)
  | register | revoke | deregister | sweepExpired => trivial

/-- A run that renews leases only to what they are keeps every record verifiable, and so is every
record it hands out. -/
theorem stored_records_verify
    (hops : Run.EachStep (step crypto) RenewsInPlace (new embedder) ops) :
    ∀ state ∈ Run.states (step crypto) (new embedder) ops,
      (∀ id record, state.record? id = some record → record.verifyPayload crypto = .ok ()) ∧
      ∀ record, state.Answers record → record.verifyPayload crypto = .ok () := by
  intro state hstate
  have hintegrity : state.Integrity crypto :=
    Run.states_invariant (fun _ _ hs hop => Integrity.step hs hop) integrity_new hops state hstate
  refine ⟨hintegrity, fun record hanswers => ?_⟩
  obtain ⟨id, hrecord⟩ := hanswers.stored
  exact hintegrity id record hrecord

/-- If a signature is over one payload only, these are the only such runs. -/
theorem integrity_iff_renewsInPlace (hbind : crypto.SignaturesBind) :
    (∀ state ∈ Run.states (step crypto) (new embedder) ops, state.Integrity crypto) ↔
      Run.EachStep (step crypto) RenewsInPlace (new embedder) ops :=
  Run.states_invariant_iff (fun _ _ hs => ⟨Integrity.renewsInPlace hbind hs, Integrity.step hs⟩)
    integrity_new

/-! ### A heartbeat -/

def heartbeatRecord : SignedRecord :=
  sampleRecord ⟨(1 : UInt8)⟩ ⟨(2 : UInt8)⟩ (some { ttl := 100, issuedAt := 10, expiresAt := 110 }) 1

/-- The registry after a registration and a renewal that writes the same lease. -/
def heartbeatRegistry : Registry .exact :=
  Run.exec (step .checked) (new .exact)
    [.register heartbeatRecord 10, .renew heartbeatRecord.id 10 100]

theorem stored_records_verify_heartbeat :
    (∀ id record, heartbeatRegistry.record? id = some record →
      record.verifyPayload .checked = .ok ()) ∧
    ∀ record, heartbeatRegistry.Answers record → record.verifyPayload .checked = .ok () := by
  have hstored : (step .checked (new .exact) (.register heartbeatRecord 10)).record?
      heartbeatRecord.id = some heartbeatRecord := by decide +kernel
  have hops : Run.EachStep (step .checked) RenewsInPlace (new .exact)
      [.register heartbeatRecord 10, .renew heartbeatRecord.id 10 100] := by
    refine ⟨trivial, fun record hrecord lease hlease => ?_, trivial⟩
    obtain rfl := Option.some.inj (hstored.symm.trans hrecord)
    exact (Option.some.inj hlease).symm
  exact stored_records_verify hops heartbeatRegistry Run.exec_mem_states

/-- Renewed at 50, the record is handed out with a lease that its signature does not cover. -/
theorem renewed_record_unverifiable :
    (Run.exec (step .checked) (new .exact)
        [.register heartbeatRecord 10, .renew heartbeatRecord.id 50 100]).resolve
        heartbeatRecord.id 60
      = .ok (heartbeatRecord.setLease { ttl := 100, issuedAt := 50, expiresAt := 150 }) ∧
    (heartbeatRecord.setLease { ttl := 100, issuedAt := 50, expiresAt := 150 }).verifyPayload
      .checked = .error .verifyFailed := by
  decide +kernel

end Registry

end Thicket
