import Thicket.Registry.Sweeping

/-!
# Renewing a lease

A renewal adds the `ttl` it is asked for to the time. It looks neither at the expiry it replaces nor
at the size of the sum, and so it moves a lease forward exactly where both are in order.
-/

namespace Thicket.Registry

open Result

variable {embedder : Embedder} {crypto : Crypto} {self next : Registry embedder} {id : Id}
  {now ttl e t : UInt64} {record : SignedRecord} {lease : Lease}

/-- Not a call on `id`, nor a sweep that is later than both `e` and `t`. -/
def Op.Spares (id : Id) (e t : UInt64) : Op → Prop
  | .register record _ => record.id ≠ id
  | .renew target _ _ | .revoke target _ | .deregister target => target ≠ id
  | .sweepExpired now => now ≤ e ∨ now ≤ t

/-- A lookup at `t` treats the record as live. -/
def LiveAt (self : Registry embedder) (id : Id) (t : UInt64) : Prop :=
  self.resolve id t ≠ .error .notFound

variable (crypto) in
/-- A renewal moves the lease forward, or fails and changes nothing. -/
structure MovesForward (r : Registry embedder) (id : Id) (now ttl : UInt64) : Prop where
  /-- The new expiry is the sum of the two numbers. -/
  exact : ∀ next e, r.renew id now ttl = .ok (next, e) → e.toNat = now.toNat + ttl.toNat
  /-- It is not earlier than the expiry it replaces. -/
  forward : ∀ next e record lease, r.renew id now ttl = .ok (next, e) →
    r.record? id = some record → record.payload.lease = some lease → lease.expiresAt ≤ e
  /-- Until the next call on the record it is live at exactly the times that are not after it. -/
  live : ∀ next e, r.renew id now ttl = .ok (next, e) → ∀ (ops : List Op) (t : UInt64),
    (∀ op ∈ ops, op.Spares id e t) → ((Run.exec (step crypto) next ops).LiveAt id t ↔ t ≤ e)
  unchanged : ∀ error, r.renew id now ttl = .error error →
    r.step crypto (.renew id now ttl) = r

/-- A lease that is there to be renewed has the sum of time and `ttl` ahead of it, and the sum fits.
-/
def Ahead (self : Registry embedder) (id : Id) (now ttl : UInt64) : Prop :=
  ∀ record lease, self.record? id = some record → record.payload.lease = some lease →
    now.toNat + ttl.toNat < 2 ^ 64 ∧ lease.expiresAt.toNat ≤ now.toNat + ttl.toNat

/-! ### What is live -/

theorem resolve_eq_notFound : self.resolve id t = .error .notFound ↔
    ∀ record, self.record? id = some record → leaseExpired record t = true := by
  unfold resolve record?
  cases self.store[id]? with
  | none => simp [okOr, bind, Except.bind]
  | some stored =>
      cases hexpired : leaseExpired stored.record t <;>
        cases hvisibility : stored.record.payload.visibility <;>
          simp [okOr, bind, Except.bind, failIf, pure, Except.pure, hexpired, hvisibility]

theorem liveAt_iff : self.LiveAt id t ↔
    ∃ record, self.record? id = some record ∧ leaseExpired record t = false := by
  rw [LiveAt, ne_eq, resolve_eq_notFound]
  simp

theorem leaseExpired_setLease : leaseExpired (record.setLease lease) t = false ↔
    t ≤ lease.expiresAt := by
  rw [leaseExpired_eq_false, SignedRecord.setLease]
  simp

variable (e t) in
/-- The record under `id` is still the renewed one, or it has run out before `t` and was swept. -/
def StillRenewed (record : SignedRecord) (self : Registry embedder) (id : Id) : Prop :=
  self.record? id = some record ∨ self.record? id = none ∧ e < t

theorem StillRenewed.step {op : Op} (hrecord : ∀ now, leaseExpired record now = true → e < now)
    (h : StillRenewed e t record self id) (hop : op.Spares id e t) :
    StillRenewed e t record (self.step crypto op) id := by
  have hchange : Change crypto self.revocations id op _ _ := step_change self op id
  unfold StillRenewed
  generalize (self.step crypto op).record? id = after at hchange ⊢
  generalize hbefore : self.record? id = before at hchange
  rw [StillRenewed, hbefore] at h
  cases hchange with
  | kept => exact h
  | published _ _ _ hid => exact absurd hid hop
  | renewed => exact absurd rfl hop
  | revoked => exact absurd rfl hop
  | deregistered => exact absurd rfl hop
  | swept now old hexpired =>
      obtain rfl := Option.some.inj (h.resolve_right fun hnone => Option.some_ne_none _ hnone.1)
      have hlt := hrecord now hexpired
      apply Or.inr
      refine ⟨rfl, ?_⟩
      rcases hop with hle | hle
      · exact absurd hlt (UInt64.not_lt.mpr hle)
      · exact UInt64.lt_of_lt_of_le hlt hle

/-- A renewal computes its expiry modulo `2 ^ 64`. -/
theorem renew_ok_expiry (h : self.renew id now ttl = .ok (next, e)) : e = now + ttl := by
  simp only [renew, bind_eq_ok, pure_eq_ok, Prod.mk.injEq] at h
  obtain ⟨_, -, _, -, -, rfl⟩ := h
  rfl

theorem liveAt_renewed (h : self.renew id now ttl = .ok (next, e)) (ops : List Op)
    (hops : ∀ op ∈ ops, op.Spares id e t) :
    (Run.exec (step crypto) next ops).LiveAt id t ↔ t ≤ e := by
  obtain rfl := renew_ok_expiry h
  obtain ⟨-, old, -, -, hentry⟩ := renew_ok h
  let renewed := old.setLease { issuedAt := now, ttl, expiresAt := now + ttl }
  have hexpired : ∀ s, leaseExpired renewed s = true → now + ttl < s := by
    intro s hs
    rw [← UInt64.not_le]
    intro hle
    rw [leaseExpired_setLease.mpr hle] at hs
    cases hs
  have hfirst : StillRenewed (now + ttl) t renewed next id := by
    apply Or.inl
    rw [hentry, if_pos rfl]
  have hstep : ∀ (r : Registry embedder) (op : Op), StillRenewed (now + ttl) t renewed r id →
      op.Spares id (now + ttl) t → StillRenewed (now + ttl) t renewed (r.step crypto op) id :=
    fun r op hr hop => hr.step hexpired hop
  have hlast : StillRenewed (now + ttl) t renewed (Run.exec (step crypto) next ops) id :=
    Run.states_of_mem (fun r => StillRenewed (now + ttl) t renewed r id) hstep hfirst hops _
      Run.exec_mem_states
  rw [liveAt_iff]
  rcases hlast with hrecord | ⟨hnone, hlt⟩
  · have hlive : leaseExpired renewed t = false ↔ t ≤ now + ttl := leaseExpired_setLease
    rw [hrecord, ← hlive]
    simp
  · rw [hnone]
    apply iff_of_false
    · simp
    · exact UInt64.not_le.mpr hlt

/-! ### What moves a lease forward -/

theorem exists_renew_ok (hrecord : self.record? id = some record)
    (hlease : record.payload.lease = some lease) :
    ∃ next, self.renew id now ttl = .ok (next, now + ttl) := by
  obtain ⟨stored, hstored, rfl⟩ := exists_stored hrecord
  simp [renew, hstored, hlease, okOr, bind, Except.bind, pure, Except.pure]

theorem toNat_add_eq_iff : (now + ttl).toNat = now.toNat + ttl.toNat ↔
    now.toNat + ttl.toNat < 2 ^ 64 := by
  rw [UInt64.toNat_add]
  constructor
  · intro h
    have hlt := (now + ttl).toNat_lt
    rw [UInt64.toNat_add] at hlt
    omega
  · intro h
    exact Nat.mod_eq_of_lt h

/-- **A renewal moves the lease forward** if and only if the sum fits into 64 bits and is not
earlier than the expiry it replaces. -/
theorem renew_movesForward_iff (self : Registry embedder) (id : Id) (now ttl : UInt64) :
    self.MovesForward crypto id now ttl ↔ self.Ahead id now ttl := by
  constructor
  · intro h record lease hrecord hlease
    obtain ⟨next, hrenew⟩ : ∃ next, self.renew id now ttl = .ok (next, now + ttl) :=
      exists_renew_ok hrecord hlease
    have hexact := h.exact next _ hrenew
    have hforward := h.forward next _ record lease hrenew hrecord hlease
    rw [UInt64.le_iff_toNat_le, hexact] at hforward
    exact ⟨toNat_add_eq_iff.mp hexact, hforward⟩
  · intro h
    constructor
    · intro next e hrenew
      obtain rfl := renew_ok_expiry hrenew
      obtain ⟨-, old, hold, hlease, -⟩ := renew_ok hrenew
      obtain ⟨lease, hlease⟩ := Option.isSome_iff_exists.mp hlease
      exact toNat_add_eq_iff.mpr (h old lease hold hlease).1
    · intro next e record lease hrenew hrecord hlease
      obtain rfl := renew_ok_expiry hrenew
      obtain ⟨hfits, hle⟩ := h record lease hrecord hlease
      rw [UInt64.le_iff_toNat_le, toNat_add_eq_iff.mpr hfits]
      exact hle
    · exact fun next e hrenew ops t hops => liveAt_renewed hrenew ops hops
    · intro error herror
      rw [step, herror]
      rfl

def published : Registry .exact :=
  Run.exec (step .checked) (new .exact) [.register (versioned 2 100 5) 10]

theorem published_record : published.record? ownerRoot.id = some (versioned 2 100 5) := by
  decide +kernel

/-- The record expires at 100. At 10 a renewal for no time takes the expiry back to 10, and one for
the longest time wraps around to 9, so that the record is no longer live. -/
theorem renew_moves_back :
    ¬published.MovesForward .checked ownerRoot.id 10 0 ∧
      ¬published.MovesForward .checked ownerRoot.id 10 0xffffffffffffffff := by
  have hlease : (versioned 2 100 5).payload.lease =
      some { ttl := 100, issuedAt := 0, expiresAt := 100 } := by
    decide +kernel
  rw [renew_movesForward_iff, renew_movesForward_iff]
  refine ⟨fun hahead => ?_, fun hahead => ?_⟩
  · exact absurd (hahead _ _ published_record hlease).2 (by decide +kernel)
  · exact absurd (hahead _ _ published_record hlease).1 (by decide +kernel)

end Thicket.Registry
