import Thicket.Registry.Entries

/-!
# Versions only go up while the entry stays

Staleness is judged against the stored record alone, so what the registry remembers of an identity
is its entry: while that is there, its version never falls and nothing older is accepted. A sweep
after the lease has run out and a revocation of the stored signer take the entry away, and the
version with it.
-/

namespace Thicket.Registry

open Result

variable {embedder : Embedder} {crypto : Crypto} {self later next : Registry embedder} {id : Id}
  {ops : List Op}

variable (crypto) in
/-- The call takes the entry of `id` away. -/
def Removes (self : Registry embedder) (id : Id) : Op → Prop
  | .register _ _ | .renew _ _ _ => False
  | .revoke target revocation => target = id ∧ ∃ record, self.record? id = some record ∧
      verifyRevocation crypto record.payload.rootPublicKey revocation = .ok () ∧
      (self.revocations.revokeKey revocation.workingPub).isRevoked record.signerPub
  | .deregister target => target = id
  | .sweepExpired now => ∃ record, self.record? id = some record ∧ leaseExpired record now

/-- What `self` has for `id`, `later` has in the same or a higher version. -/
def Keeps (id : Id) (self later : Registry embedder) : Prop :=
  ∀ record, self.record? id = some record →
    ∃ record', later.record? id = some record' ∧ record.payload.version ≤ record'.payload.version

theorem Keeps.refl (self : Registry embedder) : Keeps id self self := by
  intro record hrecord
  exact ⟨record, hrecord, UInt64.le_refl _⟩

theorem Keeps.trans (h : Keeps id self later) (h' : Keeps id later next) : Keeps id self next := by
  intro record hrecord
  obtain ⟨record', hrecord', hle⟩ := h record hrecord
  obtain ⟨record'', hrecord'', hle'⟩ := h' record' hrecord'
  exact ⟨record'', hrecord'', UInt64.le_trans hle hle'⟩

theorem Keeps.step {op : Op} (h : ¬self.Removes crypto id op) :
    Keeps id self (self.step crypto op) := by
  intro record hrecord
  have hchange : Change crypto self.revocations id op _ _ := step_change self op id
  generalize hafter : (self.step crypto op).record? id = after at hchange ⊢
  rw [hrecord] at hchange
  cases hchange with
  | kept => exact ⟨record, rfl, UInt64.le_refl _⟩
  | published new _ _ _ _ hnewer => exact ⟨new, rfl, UInt64.le_of_lt (hnewer record rfl)⟩
  | renewed => exact ⟨_, rfl, UInt64.le_refl _⟩
  | revoked revocation _ hverify hsigner => exact absurd ⟨rfl, record, hrecord, hverify, hsigner⟩ h
  | deregistered => exact absurd rfl h
  | swept now _ hexpired => exact absurd ⟨record, hrecord, hexpired⟩ h

theorem Keeps.exec
    (h : Run.EachStep (Registry.step crypto) (fun s op => ¬s.Removes crypto id op) self ops) :
    Keeps id self (Run.exec (Registry.step crypto) self ops) :=
  Run.exec_related Keeps.refl (fun _ _ _ => Keeps.trans) (fun _ _ => Keeps.step) h

variable (crypto) in
/-- Between two states of a registry, the versions of `id` do not go back. -/
structure NoRollback (id : Id) (earlier later : Registry embedder) : Prop where
  /-- If `earlier` has just accepted a record, `later` accepts no version that is not newer. -/
  registered : ∀ (before : Registry embedder) (accepted : SignedRecord) (now : UInt64),
    before.register crypto accepted now = .ok earlier → accepted.id = id →
    ∀ (record : SignedRecord) (now' : UInt64), record.id = id →
      record.payload.version ≤ accepted.payload.version →
      ∀ next, later.register crypto record now' ≠ .ok next
  /-- What `later` resolves is not below what `earlier` resolved. -/
  resolved : ∀ (now now' : UInt64) (shown shown' : SignedRecord),
    earlier.resolve id now = .ok shown → later.resolve id now' = .ok shown' →
    shown.payload.version ≤ shown'.payload.version

theorem Keeps.noRollback (h : Keeps id self later) : NoRollback crypto id self later where
  registered before accepted now haccepted hid record now' hid' hle next hregister := by
    obtain ⟨-, -, -, hentry⟩ := register_ok haccepted
    have hstored : self.record? id = some accepted := by rw [hentry, if_pos hid.symm]
    obtain ⟨current, hcurrent, hge⟩ := h accepted hstored
    obtain ⟨-, hnewer, -⟩ := register_ok hregister
    have hlt := hnewer current (hid'.symm ▸ hcurrent)
    exact absurd (UInt64.le_trans hle hge) (UInt64.not_le.mpr hlt)
  resolved now now' shown shown' hshown hshown' := by
    obtain ⟨current, hcurrent, hge⟩ := h shown (resolve_ok.mp hshown).1
    obtain rfl := Option.some.inj (hcurrent.symm.trans (resolve_ok.mp hshown').1)
    exact hge

/-- While the entry of an identity is not taken away, no registration of a version that is not newer
is accepted, and what is resolved never goes back to a lower version. -/
theorem no_version_rollback
    (hkept : Run.EachStep (step crypto) (fun s op => ¬s.Removes crypto id op) self ops) :
    NoRollback crypto id self (Run.exec (step crypto) self ops) :=
  (Keeps.exec hkept).noRollback

/-! ### Keeping and losing an entry -/

def ownerRoot : RootKey Crypto.checked := ⟨(1 : UInt8)⟩

/-- A version of the owner's record, signed with one of the owner's keys. -/
def versioned (key : UInt8) (expiresAt version : UInt64) : SignedRecord :=
  sampleRecord ownerRoot ⟨key⟩ (some { ttl := 100, issuedAt := 0, expiresAt }) version

def ownerRevocation : Revocation :=
  valueOr (ownerRoot.revoke (seedPublic 2) 0) ⟨[], 0, []⟩

def atFive : Registry .exact :=
  valueOr ((new .exact).register .checked (versioned 2 100 5) 10) (new .exact)

/-- The lease is renewed at 90, so that a sweep at 120 leaves the entry. -/
theorem no_version_rollback_renewed :
    NoRollback .checked ownerRoot.id atFive (Run.exec (step .checked) atFive
      [.renew ownerRoot.id 90 100, .sweepExpired 120]) := by
  have hlive : ¬(atFive.step .checked (.renew ownerRoot.id 90 100)).Removes .checked
      ownerRoot.id (.sweepExpired 120) := by
    rintro ⟨record, hrecord, hexpired⟩
    have hrenewed : (atFive.step .checked (.renew ownerRoot.id 90 100)).record?
        ownerRoot.id
          = some ((versioned 2 100 5).setLease { ttl := 100, issuedAt := 90, expiresAt := 190 }) := by
      decide +kernel
    obtain rfl := Option.some.inj (hrenewed.symm.trans hrecord)
    exact absurd hexpired (by decide +kernel)
  exact no_version_rollback ⟨not_false, hlive, trivial⟩

/-- Version 5 is resolved and then version 1 is accepted and resolved: after a sweep that evicts the
expired entry, and after the revocation of the key that signed version 5. -/
theorem version_rolls_back :
    ((Run.exec (step .checked) (new .exact) [.register (versioned 2 100 5) 10]).resolve
        ownerRoot.id 20 = .ok (versioned 2 100 5) ∧
      (Run.exec (step .checked) (new .exact) [.register (versioned 2 100 5) 10, .sweepExpired 200,
        .register (versioned 2 900 1) 200]).resolve ownerRoot.id 200
          = .ok (versioned 2 900 1)) ∧
    (Run.exec (step .checked) (new .exact) [.register (versioned 2 100 5) 10,
        .revoke ownerRoot.id ownerRevocation, .register (versioned 3 900 1) 20]).resolve
        ownerRoot.id 20
      = .ok (versioned 3 900 1) ∧
    (versioned 2 900 1).payload.version < (versioned 2 100 5).payload.version := by
  refine ⟨⟨?_, ?_⟩, ?_, ?_⟩ <;> decide +kernel

end Thicket.Registry
