import Thicket.Registry.Entries

/-!
# Revoked keys

A revocation takes a working key out for good: the key stays in the revocation set, every
registration is checked against the set, and nothing else puts a signer into the store.

The set names keys, not identities, while a revocation is only checked under the root of the
identity it is filed for. What it does to the other identities is therefore decided by which keys
they sign with.
-/

namespace Thicket

open Cbor (Bytes)
open Result Serde

variable {crypto : Crypto}

/-! ### One more revoked key -/

/-- The revocation set is looked at last. -/
theorem verifyWorkingKey_eq_bind (rootPub : Bytes) (id : Id) (endorsements : List KeyEndorsement)
    (signerPub : Bytes) (now : UInt64) (revocations : RevocationSet) :
    verifyWorkingKey crypto rootPub id endorsements signerPub now revocations =
      (do verifyWorkingKey crypto rootPub id endorsements signerPub now .new
          failIf (revocations.isRevoked signerPub) .revoked) := by
  simp only [verifyWorkingKey, bind_assoc, RevocationSet.isRevoked_new]
  rfl

namespace SignedRecord

variable {record : SignedRecord} {now : UInt64} {revocations : RevocationSet} {key : Bytes}

variable (crypto) in
/-- All of the key chain holds, revocations aside. -/
def ChainHolds (record : SignedRecord) (now : UInt64) : Prop :=
  verifyWorkingKey crypto record.payload.rootPublicKey record.payload.id record.payload.keys
    record.signerPub now .new = .ok ()

theorem verify_of_chainHolds (h : record.ChainHolds crypto now) :
    record.verify crypto now revocations =
      (do failIf (revocations.isRevoked record.signerPub) .revoked
          record.verifyPayload crypto) := by
  rw [verify, verifyWorkingKey_eq_bind, h]
  rfl

theorem verify_of_not_chainHolds (h : ¬record.ChainHolds crypto now) :
    record.verify crypto now revocations = record.verify crypto now .new := by
  rw [verify, verify, verifyWorkingKey_eq_bind]
  cases hchain : verifyWorkingKey crypto record.payload.rootPublicKey record.payload.id
      record.payload.keys record.signerPub now .new with
  | error e => rfl
  | ok u => exact absurd hchain h

theorem verifyPayload_ne_revoked : record.verifyPayload crypto ≠ .error .revoked := by
  intro h
  rw [verifyPayload, signingBytes] at h
  cases hbody : Cbor.encode (Serde.toCbor record.payload) with
  | none =>
      rw [hbody] at h
      cases h
  | some body =>
      rw [hbody] at h
      change verifyRaw crypto _ _ _ = _ at h
      simp only [verifyRaw, failIf] at h
      split_ifs at h <;> cases h

/-- Revoking one more key changes the verdict on the records that key signs, to `revoked`. -/
theorem verify_revokeKey_of_eq (hchain : record.ChainHolds crypto now)
    (hsigner : record.signerPub = key) :
    record.verify crypto now (revocations.revokeKey key) = .error .revoked := by
  rw [verify_of_chainHolds hchain, RevocationSet.isRevoked_revokeKey, hsigner]
  simp [failIf, bind, Except.bind]

theorem verify_revokeKey_of_ne (hsigner : record.signerPub ≠ key) :
    record.verify crypto now (revocations.revokeKey key) = record.verify crypto now revocations := by
  by_cases hchain : record.ChainHolds crypto now
  · rw [verify_of_chainHolds hchain, verify_of_chainHolds hchain, RevocationSet.isRevoked_revokeKey]
    simp only [hsigner, decide_false, Bool.false_or]
  · rw [verify_of_not_chainHolds hchain]
    exact (verify_of_not_chainHolds hchain).symm

theorem verify_ne_revoked (hchain : record.ChainHolds crypto now)
    (htrusted : revocations.isRevoked record.signerPub = false) :
    record.verify crypto now revocations ≠ .error .revoked := by
  rw [verify_of_chainHolds hchain, htrusted]
  exact verifyPayload_ne_revoked

theorem verify_of_isRevoked (hchain : record.ChainHolds crypto now)
    (hrevoked : revocations.isRevoked record.signerPub = true) :
    record.verify crypto now revocations = .error .revoked := by
  rw [verify_of_chainHolds hchain, hrevoked]
  rfl

end SignedRecord

namespace Registry

variable {embedder : Embedder} {self next : Registry embedder} {a b id : Id}
  {revocation : Revocation} {record : SignedRecord} {now : UInt64}

/-- The stored entries of the other identities are not touched. -/
theorem store_revoke_of_ne (hne : b ≠ a) (h : self.revoke crypto a revocation = .ok next) :
    next.store[b]? = self.store[b]? := by
  simp only [revoke, bind_eq_ok, okOr_eq_ok, exists_unit, mapError_ok_iff] at h
  obtain ⟨stored, -, -, hnext⟩ := h
  split at hnext
  next =>
    obtain rfl := pure_eq_ok.mp hnext
    rw [HashMap.getElem?_erase, if_neg hne]
  next =>
    obtain rfl := pure_eq_ok.mp hnext
    rfl

/-- A registration answers `revoked` exactly when verification does. -/
theorem register_outcome_eq_revoked :
    (self.register crypto record now).map (fun _ => ()) = .error (.core .revoked) ↔
      record.verify crypto now self.revocations = .error .revoked := by
  rw [register_outcome]
  cases record.verify crypto now self.revocations with
  | error e => simp [Except.mapError, bind, Except.bind]
  | ok u =>
      simp only [Except.mapError, bind, Except.bind, failIf, reduceCtorEq, iff_false]
      split_ifs <;> simp

variable (crypto) in
/-- The record is signed with the revoked key, which was good until then. -/
def LosesKey (self : Registry embedder) (revocation : Revocation) (record : SignedRecord)
    (now : UInt64) : Prop :=
  record.signerPub = revocation.workingPub ∧
  self.revocations.isRevoked record.signerPub = false ∧ record.ChainHolds crypto now

/-- A revocation filed for one identity leaves the entry of every other identity as it was, and
leaves a registration there as it was exactly when that is not signed with the revoked key. -/
theorem revoke_confined_iff (hne : a ≠ b) (hid : record.id = b)
    (hrevoke : self.revoke crypto a revocation = .ok next) :
    (next.store[b]? = self.store[b]? ∧
      (next.register crypto record now).map (fun _ => ()) =
        (self.register crypto record now).map (fun _ => ())) ↔
    ¬self.LosesKey crypto revocation record now := by
  have hstore : next.store[b]? = self.store[b]? := store_revoke_of_ne hne.symm hrevoke
  have hentry : next.record? record.id = self.record? record.id := by
    rw [record?, record?, hid, hstore]
  have hset := (revoke_ok hrevoke).1
  rw [and_iff_right hstore]
  by_cases hlost : self.LosesKey crypto revocation record now
  · obtain ⟨hsigner, htrusted, hchain⟩ := hlost
    have hafter : (next.register crypto record now).map (fun _ => ()) = .error (.core .revoked) := by
      rw [register_outcome_eq_revoked, hset]
      exact SignedRecord.verify_revokeKey_of_eq hchain hsigner
    have hbefore := register_outcome_eq_revoked.not.mpr
      (SignedRecord.verify_ne_revoked hchain htrusted)
    rw [hafter]
    exact iff_of_false (Ne.symm hbefore) (not_not_intro ⟨hsigner, htrusted, hchain⟩)
  · refine iff_of_true ?_ hlost
    have hverdict : record.verify crypto now next.revocations
        = record.verify crypto now self.revocations := by
      rw [hset]
      by_cases hsigner : record.signerPub = revocation.workingPub
      · by_cases hchain : record.ChainHolds crypto now
        · have hrevoked : self.revocations.isRevoked record.signerPub = true := by
            by_contra htrusted
            exact hlost ⟨hsigner, Bool.not_eq_true _ ▸ htrusted, hchain⟩
          rw [SignedRecord.verify_revokeKey_of_eq hchain hsigner,
            SignedRecord.verify_of_isRevoked hchain hrevoked]
        · rw [SignedRecord.verify_of_not_chainHolds hchain]
          exact (SignedRecord.verify_of_not_chainHolds hchain).symm
      · exact SignedRecord.verify_revokeKey_of_ne hsigner
    rw [register_outcome, register_outcome, hentry, hverdict]

/-! ### Locking out another identity

Alice is registered with root 1 and key 2; Bob signs with key 4, which root 3 endorses. -/

def aliceRoot : RootKey Crypto.checked := ⟨(1 : UInt8)⟩

def aliceRecord : SignedRecord := sampleRecord aliceRoot ⟨(2 : UInt8)⟩ none 1

def bobRecord : SignedRecord := sampleRecord ⟨(3 : UInt8)⟩ ⟨(4 : UInt8)⟩ none 1

/-- A revocation of any key that Alice's root signs. -/
def aliceRevocation (key : UInt8) : Revocation :=
  valueOr (aliceRoot.revoke (seedPublic key) 0) ⟨[], 0, []⟩

def aliceRegistry : Registry .exact := Run.exec (step .checked) (new .exact) [.register aliceRecord 5]

def afterRevoking (key : UInt8) : Registry .exact :=
  valueOr (aliceRegistry.revoke .checked aliceRecord.id (aliceRevocation key)) aliceRegistry

/-- Alice withdraws a key of her own, and Bob registers as before. -/
theorem revoke_confined_bob :
    (afterRevoking 2).store[bobRecord.id]? = aliceRegistry.store[bobRecord.id]? ∧
      ((afterRevoking 2).register .checked bobRecord 10).map (fun _ => ()) =
        (aliceRegistry.register .checked bobRecord 10).map (fun _ => ()) := by
  have hrevoke : aliceRegistry.revoke .checked aliceRecord.id (aliceRevocation 2)
      = .ok (afterRevoking 2) := eq_ok_valueOr (by decide +kernel)
  have hkept : ¬aliceRegistry.LosesKey .checked (aliceRevocation 2) bobRecord 10 := by
    intro hlost
    exact absurd hlost.1 (by decide +kernel)
  exact (revoke_confined_iff (by decide +kernel) rfl hrevoke).mpr hkept

/-- Alice files a revocation of Bob's key under her own root, and Bob can no longer register. -/
theorem bob_locked_out :
    aliceRecord.id ≠ bobRecord.id ∧
    aliceRegistry.revoke .checked aliceRecord.id (aliceRevocation 4) = .ok (afterRevoking 4) ∧
    (aliceRegistry.register .checked bobRecord 10).map (fun _ => ()) = .ok () ∧
    ((afterRevoking 4).register .checked bobRecord 10).map (fun _ => ())
      = .error (.core .revoked) := by
  refine ⟨by decide +kernel, eq_ok_valueOr (by decide +kernel), ?_, ?_⟩ <;> decide +kernel

/-! ### A revoked key never comes back -/

/-- The key is revoked, and `id` has no record that it signs. -/
structure Shut (registry : Registry embedder) (id : Id) (key : Bytes) : Prop where
  keyed : registry.Keyed
  revoked : registry.revocations.isRevoked key
  absent : ∀ record, registry.record? id = some record → record.signerPub ≠ key

theorem Shut.of_revoke (hkeyed : self.Keyed) (h : self.revoke crypto id revocation = .ok next) :
    next.Shut id revocation.workingPub := by
  obtain ⟨hset, old, hold, -, hentry⟩ := revoke_ok h
  have hrevoked : next.revocations.isRevoked revocation.workingPub := by
    rw [hset, RevocationSet.isRevoked_revokeKey]
    simp
  refine ⟨fun id' record hrecord => ?_, hrevoked, fun record hrecord hsigner => ?_⟩
  · rw [hentry] at hrecord
    split at hrecord
    next => cases hrecord
    next => exact hkeyed id' record hrecord
  · rw [hentry] at hrecord
    split at hrecord
    next => cases hrecord
    next hstays =>
      obtain rfl := Option.some.inj (hold.symm.trans hrecord)
      exact hstays ⟨rfl, hsigner ▸ hrevoked⟩

theorem Shut.step {key : Bytes} {op : Op} (h : self.Shut id key) :
    (self.step crypto op).Shut id key := by
  refine ⟨h.keyed.step, isRevoked_step op h.revoked, fun record hrecord hsigner => ?_⟩
  obtain ⟨entry, hentry, hchange⟩ := change_of_stored hrecord
  cases hchange with
  | kept => exact h.absent record hentry hsigner
  | published _ _ _ _ hverify =>
      have htrusted := SignedRecord.not_revoked_of_verify hverify
      rw [hsigner, h.revoked] at htrusted
      cases htrusted
  | renewed _ _ old => exact h.absent old hentry hsigner

/-- From the revocation of a key on, whatever is called, no state of the run has a record of that
identity signed with the key, and none is handed out. -/
theorem revoked_key_stays_out {before after : List Op}
    (hrevoke : (Run.exec (step crypto) (new embedder) before).revoke crypto id revocation
      = .ok next) :
    ∀ state ∈ Run.states (step crypto) next after,
      (∀ id' record, state.record? id' = some record →
        ¬(record.id = id ∧ record.signerPub = revocation.workingPub)) ∧
      ∀ record, state.Answers record →
        ¬(record.id = id ∧ record.signerPub = revocation.workingPub) := by
  have hkeyed : (Run.exec (step crypto) (new embedder) before).Keyed :=
    Run.exec_preserves Keyed (fun _ _ => Keyed.step) keyed_new before
  have hnext : next.Shut id revocation.workingPub := .of_revoke hkeyed hrevoke
  have hall : ∀ state ∈ Run.states (step crypto) next after, state.Shut id revocation.workingPub :=
    Run.states_preserves (Shut · id revocation.workingPub) (fun _ _ => Shut.step) hnext after
  intro state hstate
  have hshut := hall state hstate
  have hstored : ∀ id' record, state.record? id' = some record →
      ¬(record.id = id ∧ record.signerPub = revocation.workingPub) := by
    rintro id' record hrecord ⟨rfl, hsigner⟩
    obtain rfl := hshut.keyed id' record hrecord
    exact hshut.absent record hrecord hsigner
  refine ⟨hstored, fun record hanswers => ?_⟩
  obtain ⟨id', hrecord⟩ := hanswers.stored
  exact hstored id' record hrecord

def aliceReturns : Registry .exact :=
  Run.exec (step .checked) (afterRevoking 2) [.register aliceRecord 20]

theorem revoked_key_stays_out_alice :
    (∀ id record, aliceReturns.record? id = some record →
      ¬(record.id = aliceRecord.id ∧ record.signerPub = (aliceRevocation 2).workingPub)) ∧
    ∀ record, aliceReturns.Answers record →
      ¬(record.id = aliceRecord.id ∧ record.signerPub = (aliceRevocation 2).workingPub) :=
  revoked_key_stays_out (eq_ok_valueOr (by decide +kernel)) aliceReturns Run.exec_mem_states

end Registry

end Thicket
