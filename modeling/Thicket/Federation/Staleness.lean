import Thicket.Federation.Federation

/-!
# How stale a federated resolve can be

A cached record is returned without another look for as long as its lease's `ttl` says, counted from
the time it was fetched. Nothing ties that to the expiry of the lease or to the window of the signing
key, and nothing keeps the sum below `2 ^ 64`: all three are the word of a peer. What is returned is
current as long as the answers that fill the cache are, until their cache entries run out.
-/

namespace Thicket.Federation

open Result

variable {crypto : Crypto} {self : Federation} {rec : SignedRecord} {now later : UInt64}
  {call : Call} {calls : List Call}

variable (crypto) in
/-- At `now` the record verifies and its lease has not run out. -/
def Current (rec : SignedRecord) (now : UInt64) : Prop :=
  rec.verify crypto now .new = .ok () ∧ leaseExpired rec now = false

def signerEndorsement (rec : SignedRecord) : Option KeyEndorsement :=
  rec.payload.keys.find? fun e => e.workingPub == rec.signerPub

/-- A record fetched at `now` can be cached for its whole `ttl`: the expiry fits, and neither the
lease nor the signing key runs out before the entry does. -/
structure Cacheable (fed : Federation) (rec : SignedRecord) (now : UInt64) : Prop where
  fits : now.toNat + (fed.ttl rec).toNat < 2 ^ 64
  lease : ∀ l, rec.payload.lease = some l →
    now ≤ l.expiresAt ∧ now.toNat + (fed.ttl rec).toNat ≤ l.expiresAt.toNat + 1
  window : ∀ e, signerEndorsement rec = some e →
    now.toNat + (fed.ttl rec).toNat ≤ e.notAfter.toNat + 1

variable (crypto) in
/-- If the call asks the peers, the first answer that verifies is cacheable. -/
def AsksSafely (self : Federation) (call : Call) : Prop :=
  self.isCached call.id call.now = false →
    ∀ rec, accepted crypto call.peers call.id call.now = some rec → self.Cacheable rec call.now

variable (crypto) in
/-- A call returns a current record, and computes the expiry of a record it caches exactly. -/
def AnswersCurrent (self : Federation) (call : Call) : Prop :=
  ∀ rec, self.answer crypto call = some rec → Current crypto rec call.now ∧
    (self.isCached call.id call.now = false →
      ∃ expires, (self.step crypto call).cache[call.id]? = some (rec, expires) ∧
        expires.toNat = call.now.toNat + (self.ttl rec).toNat)

variable (crypto) in
/-- From `clock` on, no entry is served at a time it is not current. -/
def Lasting (self : Federation) (clock : UInt64) : Prop :=
  self.cache.Holds fun _ rec expires => ∀ t, clock ≤ t → t < expires → Current crypto rec t

/-! ### How long a record stays current -/

/-- Once it verifies, a record verifies until the endorsement of its signer runs out. -/
theorem verify_later (h : rec.verify crypto now .new = .ok ()) (hle : now ≤ later) :
    rec.verify crypto later .new = .ok () ↔
      ∀ e, signerEndorsement rec = some e → later ≤ e.notAfter := by
  obtain ⟨hkey, hpayload⟩ := SignedRecord.verify_eq_ok.mp h
  obtain ⟨hid, ⟨e, he, hsig, hbefore, -⟩, hrevoked⟩ := verifyWorkingKey_eq_ok.mp hkey
  rw [SignedRecord.verify_eq_ok, and_iff_left hpayload, verifyWorkingKey_eq_ok]
  constructor
  · rintro ⟨-, ⟨e', he', -, -, hafter⟩, -⟩ e'' he''
    obtain rfl := Option.some.inj (he'.symm.trans he'')
    exact hafter
  · intro hafter
    exact ⟨hid, ⟨e, he, hsig, UInt64.le_trans hbefore hle, hafter e he⟩, hrevoked⟩

theorem not_after_of_verify (h : rec.verify crypto now .new = .ok ()) :
    ∀ e, signerEndorsement rec = some e → now ≤ e.notAfter :=
  (verify_later h (UInt64.le_refl now)).mp h

theorem Current.extend (h : Current crypto rec now) (hle : now ≤ later)
    (hlease : ∀ l, rec.payload.lease = some l → later ≤ l.expiresAt)
    (hwindow : ∀ e, signerEndorsement rec = some e → later ≤ e.notAfter) :
    Current crypto rec later :=
  ⟨(verify_later h.1 hle).mpr hwindow, leaseExpired_eq_false.mpr hlease⟩

theorem toNat_add_of_lt {a b : UInt64} (h : a.toNat + b.toNat < 2 ^ 64) :
    (a + b).toNat = a.toNat + b.toNat := by
  rw [UInt64.toNat_add]
  exact Nat.mod_eq_of_lt h

/-- A time before the expiry of an entry is within a bound that the expiry exceeds by at most one. -/
theorem le_bound_of_lt {ttl t bound : UInt64} (hfits : now.toNat + ttl.toNat < 2 ^ 64)
    (ht : t < now + ttl) (hbound : now.toNat + ttl.toNat ≤ bound.toNat + 1) : t ≤ bound := by
  rw [UInt64.lt_iff_toNat_lt, toNat_add_of_lt hfits] at ht
  rw [UInt64.le_iff_toNat_le]
  omega

/-- The converse: the last time before the expiry is within the bound. -/
theorem add_le_bound {ttl bound : UInt64} (hfits : now.toNat + ttl.toNat < 2 ^ 64)
    (hnow : now ≤ bound) (h : ∀ t, now ≤ t → t < now + ttl → t ≤ bound) :
    now.toNat + ttl.toNat ≤ bound.toNat + 1 := by
  by_cases hzero : ttl.toNat = 0
  · rw [UInt64.le_iff_toNat_le] at hnow
    omega
  · have hlast : (UInt64.ofNat (now.toNat + ttl.toNat - 1)).toNat = now.toNat + ttl.toNat - 1 := by
      rw [UInt64.toNat_ofNat']
      exact Nat.mod_eq_of_lt (by omega)
    have hle := h (UInt64.ofNat (now.toNat + ttl.toNat - 1))
      (by rw [UInt64.le_iff_toNat_le, hlast]; omega)
      (by rw [UInt64.lt_iff_toNat_lt, hlast, toNat_add_of_lt hfits]; omega)
    rw [UInt64.le_iff_toNat_le, hlast] at hle
    omega

theorem Cacheable.current (h : self.Cacheable rec now)
    (hverify : rec.verify crypto now .new = .ok ()) : Current crypto rec now :=
  ⟨hverify, leaseExpired_eq_false.mpr fun l hl => (h.lease l hl).1⟩

theorem Cacheable.lasts (h : self.Cacheable rec now)
    (hverify : rec.verify crypto now .new = .ok ()) (hle : now ≤ later)
    (hlater : later < now + self.ttl rec) : Current crypto rec later := by
  apply (h.current hverify).extend hle
  · intro l hl
    exact le_bound_of_lt h.fits hlater (h.lease l hl).2
  · intro e he
    exact le_bound_of_lt h.fits hlater (h.window e he)

/-! ### Runs -/

theorem lasting_new (clock : UInt64) : new.Lasting crypto clock := TtlCache.holds_empty

theorem Lasting.mono {clock : UInt64} (h : self.Lasting crypto clock) (hle : clock ≤ now) :
    self.Lasting crypto now := by
  intro id rec expires hentry t ht hfresh
  exact h id rec expires hentry t (UInt64.le_trans hle ht) hfresh

theorem Lasting.answersCurrent (h : self.Lasting crypto call.now)
    (hsafe : self.AsksSafely crypto call) : self.AnswersCurrent crypto call := by
  intro rec hanswer
  rcases answer_cases hanswer with ⟨expires, hentry, hfresh⟩ | ⟨hmiss, haccepted⟩
  · refine ⟨h call.id rec expires hentry call.now (UInt64.le_refl _) hfresh, fun hmiss => ?_⟩
    have hhit : self.cache.fresh? call.id call.now = some rec :=
      TtlCache.fresh?_eq_some.mpr ⟨expires, hentry, hfresh⟩
    rw [isCached_eq_false, hhit] at hmiss
    cases hmiss
  · have hcacheable := hsafe hmiss rec haccepted
    refine ⟨hcacheable.current (verify_of_accepted haccepted), fun _ => ?_⟩
    exact ⟨_, (resolve_of_miss hmiss haccepted).2, toNat_add_of_lt hcacheable.fits⟩

theorem Lasting.next (h : self.Lasting crypto call.now) (hsafe : self.AsksSafely crypto call) :
    (self.step crypto call).Lasting crypto call.now := by
  rw [Lasting, step_cache, TtlCache.Holds.serve_iff h]
  intro hmiss rec expires hfetched t ht hfresh
  obtain ⟨haccepted, rfl⟩ := fetched_eq_some.mp hfetched
  have hcacheable := hsafe (isCached_eq_false.mpr hmiss) rec haccepted
  exact hcacheable.lasts (verify_of_accepted haccepted) ht hfresh

/-- A record that is not cacheable shows: by an expiry that overflows, or by some later time at which
its entry is served and it is not current. -/
theorem AnswersCurrent.asksSafely (h : self.AnswersCurrent crypto call)
    (hnext : (self.step crypto call).Lasting crypto call.now) : self.AsksSafely crypto call := by
  intro hmiss rec haccepted
  obtain ⟨hanswer, hentry⟩ := resolve_of_miss hmiss haccepted
  obtain ⟨hcurrent, hexact⟩ := h rec hanswer
  have hfits : call.now.toNat + (self.ttl rec).toNat < 2 ^ 64 := by
    obtain ⟨expires, hentry', hsum⟩ := hexact hmiss
    rw [← hsum]
    exact expires.toNat_lt
  have hserved : ∀ t, call.now ≤ t → t < call.now + self.ttl rec → Current crypto rec t :=
    fun t ht hfresh => hnext call.id rec _ hentry t ht hfresh
  refine ⟨hfits, fun l hl => ?_, fun e he => ?_⟩
  · have hlive := leaseExpired_eq_false.mp hcurrent.2 l hl
    refine ⟨hlive, add_le_bound hfits hlive fun t ht hfresh => ?_⟩
    exact leaseExpired_eq_false.mp (hserved t ht hfresh).2 l hl
  · apply add_le_bound hfits (not_after_of_verify hcurrent.1 e he)
    intro t ht hfresh
    exact not_after_of_verify (hserved t ht hfresh).1 e he

/-- The runs that return only current records, and would at any later time, are the runs that ask
safely. -/
theorem Lasting.run_iff {clock : UInt64} (h : self.Lasting crypto clock)
    (hclock : ∀ call ∈ calls, clock ≤ call.now) (hordered : calls.Pairwise (·.now ≤ ·.now)) :
    Run.EachStep (step crypto) (fun fed call => fed.AnswersCurrent crypto call ∧
        (fed.step crypto call).Lasting crypto call.now) self calls ↔
      Run.EachStep (step crypto) (AsksSafely crypto) self calls := by
  induction calls generalizing self clock with
  | nil => exact Iff.rfl
  | cons call calls ih =>
      obtain ⟨hlater, hordered⟩ := List.pairwise_cons.mp hordered
      have hnow : self.Lasting crypto call.now := h.mono (hclock call List.mem_cons_self)
      constructor
      · rintro ⟨⟨hanswers, hnext⟩, hrest⟩
        exact ⟨hanswers.asksSafely hnext, (ih hnext hlater hordered).mp hrest⟩
      · rintro ⟨hasks, hrest⟩
        have hnext := hnow.next hasks
        exact ⟨⟨hnow.answersCurrent hasks, hnext⟩, (ih hnext hlater hordered).mpr hrest⟩

/-- In a run of calls at nondecreasing times that fills the cache only with records that can be
cached for their whole `ttl`, every record returned is current when it is returned, and no expiry
overflows. -/
theorem resolve_current (hordered : calls.Pairwise (·.now ≤ ·.now))
    (hsafe : Run.EachStep (step crypto) (AsksSafely crypto) new calls) :
    Run.EachStep (step crypto) (AnswersCurrent crypto) new calls := by
  have hrun := ((lasting_new 0).run_iff (fun _ _ => UInt64.zero_le) hordered).mpr hsafe
  exact hrun.imp fun _ _ h => h.1

/-! ### A fresh answer and stale ones -/

def leasedRecord (ttl expiresAt : UInt64) : SignedRecord :=
  sampleRecord ⟨(1 : UInt8)⟩ ⟨(2 : UInt8)⟩ (some { ttl, issuedAt := 0, expiresAt }) 1

def askFor (rec : SignedRecord) (now : UInt64) : Call :=
  { peers := [{ resolve _ _ := some rec }], id := rec.id, now }

theorem resolve_current_leased :
    Run.EachStep (step .checked) (AnswersCurrent .checked) new
      [askFor (leasedRecord 50 200) 100, askFor (leasedRecord 50 200) 140] := by
  have hcached : (new.step .checked (askFor (leasedRecord 50 200) 100)).isCached
      (leasedRecord 50 200).id 140 = true := by decide +kernel
  have haccepted : accepted .checked (askFor (leasedRecord 50 200) 100).peers
      (leasedRecord 50 200).id 100 = some (leasedRecord 50 200) := by decide +kernel
  have hendorsed : (signerEndorsement (leasedRecord 50 200)).map (·.notAfter) = some 1000 := by
    decide +kernel
  refine resolve_current (by decide +kernel) ⟨?_, ?_, trivial⟩
  · intro hmiss rec hrec
    obtain rfl := Option.some.inj (haccepted.symm.trans hrec)
    refine ⟨by decide +kernel, fun l hl => ?_, fun e he => ?_⟩
    · obtain rfl := Option.some.inj hl
      decide +kernel
    · rw [he] at hendorsed
      obtain hafter : e.notAfter = 1000 := Option.some.inj hendorsed
      rw [hafter]
      decide +kernel
  · intro hmiss
    exact absurd (hcached.symm.trans hmiss) Bool.true_eq_false.mp

/-- A cached record is returned after its lease has run out and after its signing key has, and a
`ttl` a peer made up wraps the expiry around. -/
theorem resolve_stale :
    ((new.step .checked (askFor (leasedRecord 300 110) 100)).answer .checked
        (askFor (leasedRecord 300 110) 200) = some (leasedRecord 300 110) ∧
      leaseExpired (leasedRecord 300 110) 200 = true) ∧
    ((new.step .checked (askFor (leasedRecord 300 2000) 900)).answer .checked
        (askFor (leasedRecord 300 2000) 1100) = some (leasedRecord 300 2000) ∧
      (leasedRecord 300 2000).verify .checked 1100 .new = .error .endorsementExpired) ∧
    (new.step .checked (askFor (leasedRecord 18446744073709551615 200) 100)).cache[
        (leasedRecord 18446744073709551615 200).id]?
      = some (leasedRecord 18446744073709551615 200, 99) := by
  refine ⟨⟨?_, ?_⟩, ⟨?_, ?_⟩, ?_⟩ <;> decide +kernel

end Thicket.Federation
