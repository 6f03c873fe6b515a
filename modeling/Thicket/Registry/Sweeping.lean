import Thicket.Registry.Versions
import Mathlib.Data.Set.Defs

/-!
# Sweeping early or late

A registry that was swept at some time and one that was not differ in entries that had expired by
then. Lookups, searches and listings at that time or later pass over such an entry. The calls that
change the registry look for an entry without looking at its lease, and so they can find one that
the sweep would have taken away.
-/

namespace Thicket.Registry

open Result

variable {embedder : Embedder} {crypto : Crypto}

/-- A call other than a sweep. -/
inductive Call where
  | register (record : SignedRecord) (now : UInt64)
  | resolve (id : Id) (now : UInt64)
  | search (need : Need) (now : UInt64)
  | renew (id : Id) (now ttl : UInt64)
  | revoke (id : Id) (revocation : Revocation)
  | deregister (id : Id)
  | publicRecords (now : UInt64)

/-- The time a call is given, if it is given one. -/
def Call.now? : Call → Option UInt64
  | .register _ now | .resolve _ now | .search _ now | .renew _ now _ | .publicRecords now => some now
  | .revoke _ _ | .deregister _ => none

/-- What a call returns. What is collected from an iteration over the store is the set of what can
be collected, over the orders the store's values can come in. -/
inductive Answer where
  | done (result : Except RegistryError Unit)
  | resolved (result : Except RegistryError SignedRecord)
  | renewed (result : Except RegistryError UInt64)
  | deregistered (existed : Bool)
  | found (results : Set (List SignedRecord))

variable (crypto) in
def answer (self : Registry embedder) : Call → Answer
  | .register record now => .done ((self.register crypto record now).map fun _ => ())
  | .resolve id now => .resolved (self.resolve id now)
  | .search need now =>
      .found { records | ∃ values, self.store.Yields values ∧ search values need now = records }
  | .renew id now ttl => .renewed ((self.renew id now ttl).map Prod.snd)
  | .revoke id revocation => .done ((self.revoke crypto id revocation).map fun _ => ())
  | .deregister id => .deregistered (self.deregister id).2
  | .publicRecords now =>
      .found { records | ∃ values, self.store.Yields values ∧ publicRecords values now = records }

variable (crypto) in
/-- The registry after a call. -/
def call (self : Registry embedder) : Call → Registry embedder
  | .register record now => self.step crypto (.register record now)
  | .renew id now ttl => self.step crypto (.renew id now ttl)
  | .revoke id revocation => self.step crypto (.revoke id revocation)
  | .deregister id => self.step crypto (.deregister id)
  | .resolve _ _ | .search _ _ | .publicRecords _ => self

/-- `swept` holds what `late` holds, apart from entries that had expired by `t`. -/
structure SweptAt (t : UInt64) (late swept : Registry embedder) : Prop where
  revocations : swept.revocations = late.revocations
  entries : ∀ id : Id, swept.store[id]? = late.store[id]? ∨
    swept.store[id]? = none ∧
      ∃ stored, late.store[id]? = some stored ∧ leaseExpired stored.record t = true

/-- Only `late` still has an entry for `id`. -/
def Leftover (late swept : Registry embedder) (id : Id) : Prop :=
  swept.store[id]? = none ∧ late.store[id]?.isSome = true

variable (crypto) in
/-- The call does not find an entry that only the unswept registry has: it does not renew, revoke or
deregister one, and does not publish a valid record that is no newer than it. -/
def PassesOver (pair : Registry embedder × Registry embedder) : Call → Prop
  | .register record now => Leftover pair.1 pair.2 record.id →
      record.verify crypto now pair.1.revocations = .ok () →
      ∀ old, pair.1.record? record.id = some old → old.payload.version < record.payload.version
  | .renew id _ _ | .revoke id _ | .deregister id => ¬Leftover pair.1 pair.2 id
  | .resolve _ _ | .search _ _ | .publicRecords _ => True

/-! ### Two registries, one of them swept -/

variable {late swept : Registry embedder} {t now ttl : UInt64} {id : Id} {record : SignedRecord}
  {revocation : Revocation} {stored : Stored embedder}

theorem sweptAt_sweepExpired (self : Registry embedder) (t : UInt64) :
    SweptAt t self (self.sweepExpired t).1 where
  revocations := rfl
  entries id := by
    simp only [sweepExpired, HashMap.getElem?_retain]
    cases hstored : self.store[id]? with
    | none => exact .inl rfl
    | some stored =>
        cases hexpired : leaseExpired stored.record t with
        | false => simp [Option.filter_some, hexpired]
        | true => exact .inr ⟨by simp [Option.filter_some, hexpired], stored, rfl, hexpired⟩

namespace SweptAt

theorem entry_eq (h : SweptAt t late swept) (hid : ¬Leftover late swept id) :
    swept.store[id]? = late.store[id]? := by
  apply (h.entries id).resolve_right
  intro ⟨hnone, stored, hstored, _⟩
  exact hid ⟨hnone, by rw [hstored]; rfl⟩

theorem expired (h : SweptAt t late swept) (hid : Leftover late swept id) :
    ∃ stored, late.store[id]? = some stored ∧ leaseExpired stored.record t = true := by
  rcases h.entries id with heq | ⟨-, hstored⟩
  · have hsome := hid.2
    rw [← heq, hid.1] at hsome
    cases hsome
  · exact hstored

/-- What has not expired by `now` is the same in both. -/
theorem live_eq (h : SweptAt t late swept) (hle : t ≤ now) (id : Id) :
    (late.store[id]?.filter fun s => !leaseExpired s.record now) =
      swept.store[id]?.filter fun s => !leaseExpired s.record now := by
  rcases h.entries id with heq | ⟨hnone, stored, hstored, hexpired⟩
  · rw [heq]
  · rw [hnone, hstored, Option.filter_some, leaseExpired_mono hexpired hle]
    rfl

theorem retain_live_eq (h : SweptAt t late swept) (hle : t ≤ now) :
    (swept.store.retain fun s => !leaseExpired s.record now) =
      late.store.retain fun s => !leaseExpired s.record now :=
  HashMap.retain_eq_retain fun id => (h.live_eq hle id).symm

theorem insert (h : SweptAt t late swept) (id : Id) (stored : Stored embedder) :
    SweptAt t { late with store := late.store.insert id stored }
      { swept with store := swept.store.insert id stored } where
  revocations := h.revocations
  entries id' := by
    simp only [HashMap.getElem?_insert]
    split
    next => exact .inl rfl
    next => exact h.entries id'

theorem erase (h : SweptAt t late swept) (id : Id) :
    SweptAt t { late with store := late.store.erase id }
      { swept with store := swept.store.erase id } where
  revocations := h.revocations
  entries id' := by
    simp only [HashMap.getElem?_erase]
    split
    next => exact .inl rfl
    next => exact h.entries id'

theorem setRevocations (h : SweptAt t late swept) (revocations : RevocationSet) :
    SweptAt t { late with revocations } { swept with revocations } where
  revocations := rfl
  entries := h.entries

end SweptAt

/-! ### Reads -/

theorem resolve_eq (h : SweptAt t late swept) (hle : t ≤ now) (id : Id) :
    late.resolve id now = swept.resolve id now := by
  rcases h.entries id with heq | ⟨hnone, stored, hstored, hexpired⟩
  · rw [resolve, resolve, heq]
  · simp [resolve, hnone, hstored, okOr, failIf, leaseExpired_mono hexpired hle, bind, Except.bind]

/-- Records that have expired take no part in a search. -/
theorem search_live (values : List (Stored embedder)) (need : Need) (now : UInt64) :
    search (values.filter fun s => !leaseExpired s.record now) need now = search values need now := by
  simp only [search, List.filter_filter]
  congr 6
  funext s
  cases leaseExpired s.record now <;> simp

theorem publicRecords_live (values : List (Stored embedder)) (now : UInt64) :
    publicRecords (values.filter fun s => !leaseExpired s.record now) now =
      publicRecords values now := by
  simp only [publicRecords, List.filter_filter]
  congr 2
  funext s
  cases leaseExpired s.record now <;> simp

/-- What a read that only looks at live entries can collect is the same in both. -/
theorem found_eq {collect : List (Stored embedder) → List SignedRecord} (h : SweptAt t late swept)
    (hle : t ≤ now)
    (hlive : ∀ values, collect (values.filter fun s => !leaseExpired s.record now) =
      collect values) :
    { records | ∃ values, late.store.Yields values ∧ collect values = records } =
      { records | ∃ values, swept.store.Yields values ∧ collect values = records } := by
  have hretain := h.retain_live_eq hle
  apply Set.ext
  intro records
  refine ⟨fun ⟨values, hvalues, hcollect⟩ => ?_, fun ⟨values, hvalues, hcollect⟩ => ?_⟩
  · obtain ⟨values', hvalues', hsame⟩ := hvalues.exists_filter_eq hretain.symm
    exact ⟨values', hvalues', by rw [← hlive, hsame, hlive, hcollect]⟩
  · obtain ⟨values', hvalues', hsame⟩ := hvalues.exists_filter_eq hretain
    exact ⟨values', hvalues', by rw [← hlive, hsame, hlive, hcollect]⟩

/-! ### Changes -/

def embedded (embedder : Embedder) (record : SignedRecord) : Stored embedder :=
  { record, capEmbeddings := record.payload.capabilities.map fun c => embedder.embed c.description }

/-- A registration that is admitted enters the same, whatever it finds. -/
theorem step_register (self : Registry embedder) (record : SignedRecord) (now : UInt64) :
    self.step crypto (.register record now) =
      match (self.register crypto record now).map fun _ => () with
      | .error _ => self
      | .ok () => self.put record.id (embedded embedder record) := by
  rw [step, register_eq, admitted]
  cases (record.verify crypto now self.revocations).mapError RegistryError.core with
  | error e => rfl
  | ok u =>
      cases self.store[record.id]?.any fun existing =>
        record.payload.version ≤ existing.record.payload.version <;> rfl

/-- Only a version check can tell a registration whether the sweep was run. -/
theorem register_answer (h : SweptAt t late swept) :
    (late.register crypto record now).map (fun _ => ()) =
        (swept.register crypto record now).map (fun _ => ()) ↔
      PassesOver crypto (late, swept) (.register record now) := by
  rw [register_outcome, register_outcome, h.revocations]
  cases hverify : record.verify crypto now late.revocations with
  | error e =>
      apply iff_of_true rfl
      intro _ hok
      rw [hverify] at hok
      cases hok
  | ok u =>
      by_cases hid : Leftover late swept record.id
      · obtain ⟨stored, hstored, -⟩ := h.expired hid
        have hlate : late.record? record.id = some stored.record := by rw [record?, hstored]; rfl
        have hswept : swept.record? record.id = none := by rw [record?, hid.1]; rfl
        rw [hlate, hswept]
        have hpasses : PassesOver crypto (late, swept) (.register record now) ↔
            stored.record.payload.version < record.payload.version := by
          simp [PassesOver, hid, hverify, hlate]
        rw [hpasses, ← UInt64.not_le]
        by_cases hle : record.payload.version ≤ stored.record.payload.version <;>
          simp [Except.mapError, failIf, hle, bind, Except.bind]
      · have hsame : swept.record? record.id = late.record? record.id := by
          rw [record?, record?, h.entry_eq hid]
        rw [hsame]
        exact iff_of_true rfl fun hleftover => absurd hleftover hid

theorem SweptAt.register (h : SweptAt t late swept)
    (hpasses : PassesOver crypto (late, swept) (.register record now)) :
    SweptAt t (late.step crypto (.register record now))
      (swept.step crypto (.register record now)) := by
  rw [step_register, step_register, (register_answer h).mpr hpasses]
  cases (swept.register crypto record now).map fun _ => () with
  | error e => exact h
  | ok u => exact h.insert record.id (embedded embedder record)

/-- A renewal tells the two apart where only one has the entry: an entry that has expired has a
lease, so that the other renews it. -/
theorem renew_answer (h : SweptAt t late swept) :
    (late.renew id now ttl).map Prod.snd = (swept.renew id now ttl).map Prod.snd ↔
      ¬Leftover late swept id := by
  by_cases hid : Leftover late swept id
  · obtain ⟨stored, hstored, hexpired⟩ := h.expired hid
    obtain ⟨lease, hlease, -⟩ := Option.any_eq_true _ _ |>.mp hexpired
    apply iff_of_false ?_ (not_not_intro hid)
    simp [renew_eq, renewed, hstored, hid.1, hlease, okOr, bind, Except.bind, pure, Except.pure,
      Except.map]
  · apply iff_of_true ?_ hid
    rw [renew_eq, renew_eq, h.entry_eq hid]
    cases renewed late.store[id]? now ttl <;> rfl

theorem SweptAt.renew (h : SweptAt t late swept) (hid : ¬Leftover late swept id) :
    SweptAt t (late.step crypto (.renew id now ttl)) (swept.step crypto (.renew id now ttl)) := by
  rw [step, step, renew_eq, renew_eq, h.entry_eq hid]
  cases renewed late.store[id]? now ttl with
  | error e => exact h
  | ok entry => exact h.insert id entry.1

theorem revoke_answer (h : SweptAt t late swept) :
    (late.revoke crypto id revocation).map (fun _ => ()) =
        (swept.revoke crypto id revocation).map (fun _ => ()) ↔ ¬Leftover late swept id := by
  rw [revoke_eq, revoke_eq]
  by_cases hid : Leftover late swept id
  · obtain ⟨stored, hstored, -⟩ := h.expired hid
    rw [hstored, hid.1]
    apply iff_of_false ?_ (not_not_intro hid)
    simp only
    cases verifyRevocation crypto stored.record.payload.rootPublicKey revocation <;>
      simp [Except.mapError, Except.map]
  · rw [h.entry_eq hid]
    apply iff_of_true ?_ hid
    cases late.store[id]? with
    | none => rfl
    | some stored =>
        simp only
        cases verifyRevocation crypto stored.record.payload.rootPublicKey revocation <;> rfl

theorem SweptAt.revoke (h : SweptAt t late swept) (hid : ¬Leftover late swept id) :
    SweptAt t (late.step crypto (.revoke id revocation))
      (swept.step crypto (.revoke id revocation)) := by
  rw [step, step, revoke_eq, revoke_eq, h.entry_eq hid, h.revocations]
  cases late.store[id]? with
  | none => exact h
  | some stored =>
      simp only
      cases verifyRevocation crypto stored.record.payload.rootPublicKey revocation with
      | error e => exact h
      | ok u =>
          simp only [Except.mapError, Except.map, valueOr]
          split
          next => exact (h.erase id).setRevocations _
          next => exact h.setRevocations _

theorem deregister_answer (h : SweptAt t late swept) :
    (late.deregister id).2 = (swept.deregister id).2 ↔ ¬Leftover late swept id := by
  simp only [Registry.deregister, Std.ExtTreeMap.contains_eq_isSome_getElem?]
  by_cases hid : Leftover late swept id
  · apply iff_of_false ?_ (not_not_intro hid)
    rw [hid.1, hid.2]
    exact Bool.true_eq_false_eq_False
  · rw [h.entry_eq hid]
    exact iff_of_true rfl hid

/-- A version newer than the one on record is accepted in both. -/
theorem passesOver_newer {old : SignedRecord} (hold : late.record? record.id = some old)
    (hversion : old.payload.version < record.payload.version) :
    PassesOver crypto (late, swept) (.register record now) := by
  intro _ _ old' hold'
  obtain rfl := Option.some.inj (hold.symm.trans hold')
  exact hversion

/-! ### Runs -/

/-- The time of the call, if it has one, is not before `t`. -/
def Call.NotBefore (t : UInt64) (call : Call) : Prop :=
  ∀ now, call.now? = some now → t ≤ now

theorem answer_eq_iff (h : SweptAt t late swept) {c : Call} (hc : c.NotBefore t) :
    answer crypto late c = answer crypto swept c ↔ PassesOver crypto (late, swept) c := by
  cases c with
  | register record now =>
      rw [answer, answer, Answer.done.injEq]
      exact register_answer h
  | resolve id now =>
      rw [answer, answer, resolve_eq h (hc now rfl)]
      exact iff_of_true rfl trivial
  | search need now =>
      rw [answer, answer, found_eq h (hc now rfl) fun values => search_live values need now]
      exact iff_of_true rfl trivial
  | renew id now ttl =>
      rw [answer, answer, Answer.renewed.injEq]
      exact renew_answer h
  | revoke id revocation =>
      rw [answer, answer, Answer.done.injEq]
      exact revoke_answer h
  | deregister id =>
      rw [answer, answer, Answer.deregistered.injEq]
      exact deregister_answer h
  | publicRecords now =>
      rw [answer, answer, found_eq h (hc now rfl) fun values => publicRecords_live values now]
      exact iff_of_true rfl trivial

theorem SweptAt.call (h : SweptAt t late swept) {c : Call}
    (hpasses : PassesOver crypto (late, swept) c) :
    SweptAt t (late.call crypto c) (swept.call crypto c) := by
  cases c with
  | register record now => exact h.register hpasses
  | renew id now ttl =>
      show SweptAt t (late.step crypto (.renew id now ttl)) (swept.step crypto (.renew id now ttl))
      exact h.renew hpasses
  | revoke id revocation => exact h.revoke hpasses
  | deregister id => exact h.erase id
  | resolve id now => exact h
  | search need now => exact h
  | publicRecords now => exact h

/-- Calls at `t` or later answer alike with and without a sweep at `t` before them, just when each
of them passes over the entries that only the unswept registry has. -/
theorem sweep_unobservable_iff (self : Registry embedder) (t : UInt64) (calls : List Call)
    (htimes : ∀ c ∈ calls, c.NotBefore t) :
    Run.answers (call crypto) (answer crypto) self calls =
        Run.answers (call crypto) (answer crypto) (self.sweepExpired t).1 calls ↔
      Run.EachStep (fun pair c => (pair.1.call crypto c, pair.2.call crypto c))
        (PassesOver crypto) (self, (self.sweepExpired t).1) calls := by
  apply Run.answers_eq_iff (r := SweptAt t)
  · exact fun late swept c h hc => answer_eq_iff h (htimes c hc)
  · exact fun late swept c h _ hpasses => h.call hpasses
  · exact sweptAt_sweepExpired self t

/-- A lookup and a registration of a newer version do not tell whether the sweep at 120 was run. -/
theorem sweep_unobservable_newer :
    Run.answers (call .checked) (answer .checked) atFive
        [.resolve ownerRoot.id 130, .register (versioned 2 900 6) 130] =
      Run.answers (call .checked) (answer .checked) (atFive.sweepExpired 120).1
        [.resolve ownerRoot.id 130, .register (versioned 2 900 6) 130] := by
  have htimes : ∀ c ∈ [Call.resolve ownerRoot.id 130, .register (versioned 2 900 6) 130],
      c.NotBefore 120 := by
    intro c hc
    simp only [List.mem_cons, List.not_mem_nil, or_false] at hc
    rcases hc with rfl | rfl <;>
    · intro now hnow
      obtain rfl := Option.some.inj hnow
      decide
  apply (sweep_unobservable_iff atFive 120 _ htimes).mpr
  have hstored : atFive.record? (versioned 2 900 6).id = some (versioned 2 100 5) := by
    decide +kernel
  have hversion : (versioned 2 100 5).payload.version < (versioned 2 900 6).payload.version := by
    decide +kernel
  simp only [Run.EachStep, call]
  exact ⟨trivial, passesOver_newer hstored hversion, trivial⟩

/-- The record has expired at 100. At 130 it can still be renewed and withdrawn, its version 5 still
blocks a new registration with that version, and it can be revoked; after a sweep at 120 it is
absent to all four. -/
theorem sweep_observable :
    Run.answers (call .checked) (answer .checked) atFive [.deregister ownerRoot.id] ≠
        Run.answers (call .checked) (answer .checked) (atFive.sweepExpired 120).1
          [.deregister ownerRoot.id] ∧
      Run.answers (call .checked) (answer .checked) atFive [.register (versioned 2 900 5) 130] ≠
        Run.answers (call .checked) (answer .checked) (atFive.sweepExpired 120).1
          [.register (versioned 2 900 5) 130] ∧
      Run.answers (call .checked) (answer .checked) atFive [.renew ownerRoot.id 130 100] ≠
        Run.answers (call .checked) (answer .checked) (atFive.sweepExpired 120).1
          [.renew ownerRoot.id 130 100] ∧
      Run.answers (call .checked) (answer .checked) atFive
          [.revoke ownerRoot.id ownerRevocation] ≠
        Run.answers (call .checked) (answer .checked) (atFive.sweepExpired 120).1
          [.revoke ownerRoot.id ownerRevocation] := by
  simp only [Run.answers, answer, ne_eq, List.cons.injEq, and_true, Answer.done.injEq,
    Answer.renewed.injEq, Answer.deregistered.injEq]
  decide +kernel

end Thicket.Registry
