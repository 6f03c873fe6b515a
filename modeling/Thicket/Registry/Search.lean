import Thicket.Federation.Search
import Thicket.Registry.Versions
import Mathlib.Data.Set.Card

/-!
# What a search answers

A search ranks by embeddings that were computed when a record was registered. Every operation keeps
them in step with the descriptions of the record that is stored, so the answer is the best `topK` of
all stored records that a search may return, as they are described now.
-/

namespace Thicket.Registry

open Result

variable {embedder : Embedder} {crypto : Crypto}

/-- The capabilities are indexed as they are described. -/
def IsIndexed (stored : Stored embedder) : Prop :=
  stored.capEmbeddings =
    stored.record.payload.capabilities.map fun c => embedder.embed c.description

def Indexed (self : Registry embedder) : Prop :=
  ∀ (id : Id) (stored : Stored embedder), self.store[id]? = some stored → IsIndexed stored

variable {self next : Registry embedder} {id : Id} {stored : Stored embedder}

theorem indexed_new : (new embedder).Indexed := by
  intro id stored h
  simp [new] at h

theorem Indexed.insert (h : self.Indexed) (hstored : IsIndexed stored)
    (hnext : next.store = self.store.insert id stored) : next.Indexed := by
  intro id' stored' h'
  rw [hnext, HashMap.getElem?_insert] at h'
  split_ifs at h'
  · rw [← Option.some.inj h']
    exact hstored
  · exact h id' stored' h'

theorem Indexed.erase (h : self.Indexed) (hnext : next.store = self.store.erase id) :
    next.Indexed := by
  intro id' stored' h'
  rw [hnext, HashMap.getElem?_erase] at h'
  split_ifs at h'
  exact h id' stored' h'

theorem Indexed.step (h : self.Indexed) (op : Op) : (self.step crypto op).Indexed := by
  cases op with
  | register record now =>
      cases hcall : self.register crypto record now with
      | error e => rwa [Registry.step, hcall]
      | ok next =>
          rw [Registry.step, hcall, valueOr]
          simp only [register, bind_eq_ok, pure_eq_ok] at hcall
          obtain ⟨_, -, _, -, rfl⟩ := hcall
          let capEmbeddings := record.payload.capabilities.map fun c => embedder.embed c.description
          have hindexed : IsIndexed ⟨record, capEmbeddings⟩ := rfl
          exact h.insert hindexed rfl
  | renew id now ttl =>
      cases hcall : self.renew id now ttl with
      | error e => rwa [Registry.step, hcall]
      | ok result =>
          obtain ⟨next, expires⟩ := result
          rw [Registry.step, hcall, Except.map, valueOr]
          simp only [renew, bind_eq_ok, okOr_eq_ok, pure_eq_ok, Prod.mk.injEq] at hcall
          obtain ⟨stored, hstored, _, -, rfl, -⟩ := hcall
          let lease : Lease := { issuedAt := now, ttl, expiresAt := now + ttl }
          have hindexed : IsIndexed { stored with record := stored.record.setLease lease } :=
            h id stored hstored
          exact h.insert hindexed rfl
  | revoke id revocation =>
      cases hcall : self.revoke crypto id revocation with
      | error e => rwa [Registry.step, hcall]
      | ok next =>
          rw [Registry.step, hcall, valueOr]
          simp only [revoke, bind_eq_ok] at hcall
          obtain ⟨_, -, _, -, hnext⟩ := hcall
          split_ifs at hnext
          · obtain rfl := pure_eq_ok.mp hnext
            exact h.erase rfl
          · obtain rfl := pure_eq_ok.mp hnext
            exact h
  | deregister id => exact h.erase rfl
  | sweepExpired now =>
      intro id stored hstored
      rw [Registry.step, sweepExpired, HashMap.getElem?_retain] at hstored
      exact h id stored (Option.filter_eq_some_iff.mp hstored).1

/-! ### What a registry answers -/

/-- What a search ranks. -/
def matching (values : List (Stored embedder)) (need : Need) (now : UInt64) :
    List (Stored embedder) :=
  values
    |>.filter (fun s => s.record.payload.visibility = .public)
    |>.filter (fun s => !leaseExpired s.record now)
    |>.filter (fun s => kindMatches s need)
    |>.filter (fun s => tagsMatch s need)

variable {values : List (Stored embedder)} {need : Need} {now : UInt64}

theorem matching_sublist : (matching values need now).Sublist values :=
  (((List.filter_sublist.trans List.filter_sublist).trans List.filter_sublist).trans
    List.filter_sublist)

theorem score_of_indexed (h : IsIndexed stored) :
    SearchFederation.score embedder need stored.record =
      bestCapabilityScore (embedder.embed need.intentText) stored := by
  rw [SearchFederation.score, SearchFederation.recordScore, bestCapabilityScore, h, List.map_map]
  rfl

/-- The answer to a search is the best of what matches. -/
theorem selects_search (h : ∀ stored ∈ values, IsIndexed stored) :
    TopK.Selects (SearchFederation.score embedder need)
      ((matching values need now).map fun s => s.record) need.topK (search values need now) := by
  let scored := (matching values need now).map fun s =>
    (bestCapabilityScore (embedder.embed need.intentText) s, s)
  have hscore : ∀ x ∈ scored, SearchFederation.score embedder need x.2.record = x.1 := by
    intro x hx
    obtain ⟨s, hs, rfl⟩ := List.mem_map.mp hx
    exact score_of_indexed (h s (matching_sublist.subset hs))
  have hselects := (TopK.selects_take Prod.fst scored need.topK).map (fun x => x.2.record) hscore
  rw [List.map_map] at hselects
  exact hselects

theorem Indexed.selects (h : self.Indexed) (hvalues : self.store.Yields values) (need : Need)
    (now : UInt64) : TopK.Selects (SearchFederation.score embedder need)
      ((matching values need now).map fun s => s.record) need.topK (search values need now) := by
  apply selects_search
  intro s hs
  obtain ⟨id, hid⟩ := hvalues.mem_iff.mp hs
  exact h id s hid

/-- Values that come best first are answered in this order. -/
theorem search_of_sorted (h : (matching values need now).Pairwise fun a b =>
      bestCapabilityScore (embedder.embed need.intentText) b ≤
        bestCapabilityScore (embedder.embed need.intentText) a) :
    search values need now = ((matching values need now).take need.topK).map fun s => s.record := by
  let scored := (matching values need now).map fun s =>
    (bestCapabilityScore (embedder.embed need.intentText) s, s)
  have hsorted : scored.mergeSort (fun a b => decide (b.1 ≤ a.1)) = scored := by
    apply List.mergeSort_of_pairwise
    rw [List.pairwise_map]
    exact h.imp fun hle => decide_eq_true hle
  change ((scored.mergeSort fun a b => decide (b.1 ≤ a.1)).take need.topK).map
    (fun x => x.2.record) = _
  rw [hsorted, ← List.map_take, List.map_map]
  rfl

/-! ### What a search may return -/

/-- The best of the similarities of the descriptions, and of the score a record starts from. -/
theorem isGreatest_score (need : Need) (record : SignedRecord) :
    IsGreatest (insert embedder.min {s | ∃ c ∈ record.payload.capabilities,
        embedder.cosine (embedder.embed need.intentText) (embedder.embed c.description) = s})
      (SearchFederation.score embedder need record) := by
  have hscores := TopK.isGreatest_foldl_max (record.payload.capabilities.map fun c =>
    embedder.cosine (embedder.embed need.intentText) (embedder.embed c.description)) embedder.min
  simp only [List.mem_map] at hscores
  exact hscores

/-- A record that answers a need: public, unexpired, of the wanted kind itself or in some
capability, and with every wanted tag on some capability. -/
structure Meets (need : Need) (now : UInt64) (record : SignedRecord) : Prop where
  visible : record.payload.visibility = .public
  live : ∀ lease, record.payload.lease = some lease → now ≤ lease.expiresAt
  kind : ∀ k, need.kind = some k →
    record.payload.kind = k ∨ ∃ c ∈ record.payload.capabilities, c.kind = k
  tags : ∀ t ∈ need.tags, ∃ c ∈ record.payload.capabilities, t ∈ c.tags

/-- What a search may return. -/
def candidates (self : Registry embedder) (need : Need) (now : UInt64) : Set SignedRecord :=
  {record | (∃ id, self.record? id = some record) ∧ Meets need now record}

/-- `results` are the best `topK` of all that a search may return, or all of it, best first. -/
structure ExactTopK (self : Registry embedder) (need : Need) (now : UInt64)
    (results : List SignedRecord) : Prop where
  length : results.length = min need.topK (self.candidates need now).ncard
  distinct : (results.map SignedRecord.id).Nodup
  candidates : ∀ record ∈ results, record ∈ self.candidates need now
  sorted : results.Pairwise fun a b =>
    SearchFederation.score embedder need b ≤ SearchFederation.score embedder need a
  best : ∀ a ∈ results, ∀ b ∈ self.candidates need now, b ∉ results →
    SearchFederation.score embedder need b ≤ SearchFederation.score embedder need a
  resolved : ∀ record ∈ results, self.resolve record.id now = .ok record

theorem kindMatches_iff : kindMatches stored need = true ↔ ∀ k, need.kind = some k →
    stored.record.payload.kind = k ∨ ∃ c ∈ stored.record.payload.capabilities, c.kind = k := by
  cases hkind : need.kind <;> simp [kindMatches, hkind]

theorem tagsMatch_iff : tagsMatch stored need = true ↔
    ∀ t ∈ need.tags, ∃ c ∈ stored.record.payload.capabilities, t ∈ c.tags := by
  simp [tagsMatch]

theorem mem_matching :
    stored ∈ matching values need now ↔ stored ∈ values ∧ Meets need now stored.record := by
  simp only [matching, List.mem_filter, decide_eq_true_eq, Bool.not_eq_true', leaseExpired_eq_false,
    kindMatches_iff, tagsMatch_iff]
  constructor
  · intro ⟨⟨⟨⟨hmem, hvisible⟩, hlive⟩, hkind⟩, htags⟩
    exact ⟨hmem, hvisible, hlive, hkind, htags⟩
  · intro ⟨hmem, hvisible, hlive, hkind, htags⟩
    exact ⟨⟨⟨⟨hmem, hvisible⟩, hlive⟩, hkind⟩, htags⟩

variable {record : SignedRecord}

theorem mem_records (hvalues : self.store.Yields values) :
    record ∈ (matching values need now).map (fun s => s.record) ↔
      record ∈ self.candidates need now := by
  rw [List.mem_map]
  constructor
  · intro ⟨s, hs, hrecord⟩
    obtain ⟨hmem, hmeets⟩ := mem_matching.mp hs
    exact ⟨record?_of_yields hvalues ⟨s, hmem, hrecord⟩, hrecord ▸ hmeets⟩
  · intro ⟨⟨id, hid⟩, hmeets⟩
    obtain ⟨s, hs, rfl⟩ := exists_stored hid
    exact ⟨s, mem_matching.mpr ⟨hvalues.mem_iff.mpr ⟨id, hs⟩, hmeets⟩, rfl⟩

/-- A store that is keyed by the identities of its records yields no identity twice. -/
theorem Keyed.nodup_ids (h : self.Keyed) (hvalues : self.store.Yields values) :
    (((matching values need now).map fun s => s.record).map SignedRecord.id).Nodup := by
  have hkeys : (values.map fun s => s.record.id).Nodup := by
    apply hvalues.nodup_map
    intro id s hs
    exact h id s.record (by rw [record?, hs]; rfl)
  rw [List.map_map]
  exact hkeys.sublist (matching_sublist.map _)

theorem resolve_of_meets (h : self.Keyed) (hrecord : record ∈ self.candidates need now) :
    self.resolve record.id now = .ok record := by
  obtain ⟨⟨id, hid⟩, hmeets⟩ := hrecord
  have hkey := h id record hid
  subst hkey
  apply resolve_ok.mpr
  refine ⟨hid, leaseExpired_eq_false.mpr hmeets.live, ?_⟩
  rw [hmeets.visible]
  intro hprivate
  cases hprivate

theorem ncard_candidates (h : self.Keyed) (hvalues : self.store.Yields values) :
    (self.candidates need now).ncard =
      ((matching values need now).map fun s => s.record).length := by
  classical
  have hnodup : ((matching values need now).map fun s => s.record).Nodup :=
    (h.nodup_ids hvalues).of_map
  have hset : self.candidates need now =
      (((matching values need now).map fun s => s.record).toFinset : Set SignedRecord) := by
    apply Set.ext
    intro record
    rw [List.coe_toFinset, Set.mem_ofPred_eq, mem_records hvalues]
  rw [hset, Set.ncard_coe_finset, List.toFinset_card_of_nodup hnodup]

/-- Whatever operations a registry has gone through, and in whatever order its store is visited, a
search answers the best `topK` of the stored records that meet the need, scored by what they
describe now, and each of them is what its id resolves to. -/
theorem search_exact_topK (ops : List Op) (need : Need) (now : UInt64)
    (values : List (Stored embedder))
    (hvalues : (Run.exec (step crypto) (new embedder) ops).store.Yields values) :
    (Run.exec (step crypto) (new embedder) ops).ExactTopK need now (search values need now) := by
  have hkeyed : (Run.exec (step crypto) (new embedder) ops).Keyed :=
    Run.exec_preserves Keyed (fun _ _ => Keyed.step) keyed_new ops
  have hindexed : (Run.exec (step crypto) (new embedder) ops).Indexed :=
    Run.exec_preserves Indexed (fun _ op h => h.step op) indexed_new ops
  have hselects := hindexed.selects hvalues need now
  have hmem : ∀ record ∈ search values need now,
      record ∈ (Run.exec (step crypto) (new embedder) ops).candidates need now :=
    fun record hrecord => (mem_records hvalues).mp (hselects.mem hrecord)
  constructor
  · rw [ncard_candidates hkeyed hvalues]
    exact hselects.length
  · obtain ⟨rest, hrest, -⟩ := hselects.bounds
    have hids := (hrest.map SignedRecord.id).nodup_iff.mpr (hkeyed.nodup_ids hvalues)
    rw [List.map_append] at hids
    exact hids.of_append_left
  · exact hmem
  · exact hselects.sorted
  · intro a ha b hb hout
    exact hselects.le_of_not_mem ha ((mem_records hvalues).mpr hb) hout
  · exact fun record hrecord => resolve_of_meets hkeyed (hmem record hrecord)

/-- Everything is wanted, and one record is asked for. -/
def anything : Need := { intentText := "anything", kind := none, tags := [], topK := 1 }

def publishedOps : List Op := [.register (versioned 2 100 5) 10, .register (versioned 2 100 6) 20]

def publishedValues : List (Stored .exact) :=
  (Run.exec (step .checked) (new .exact) publishedOps).store.toList.map Prod.snd

/-- The newer version has taken the place of the older one. -/
theorem search_exact_topK_published :
    (Run.exec (step .checked) (new .exact) publishedOps).ExactTopK anything 30
        (search publishedValues anything 30) ∧
      search publishedValues anything 30 = [versioned 2 100 6] :=
  ⟨search_exact_topK publishedOps anything 30 publishedValues (List.Perm.refl _),
    by decide +kernel⟩

end Thicket.Registry
