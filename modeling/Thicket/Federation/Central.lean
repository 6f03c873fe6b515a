import Thicket.Registry.Search

/-!
# Federated and central search

What one registry with everything that verifies would answer is the best of the newest records. Each
peer cuts its answer off before the copies of an identity are compared, so an older copy can be
answered, and win, where the newest one is not. The two searches agree exactly as long as what is
lost in this way is outdone by enough of what is not.
-/

namespace Thicket

open Result

variable {embedder : Embedder} {crypto : Crypto}

open Registry

/-- A peer backed by a local in-process registry. `values` is the order its store is visited in. -/
structure RegistryPeer (embedder : Embedder) where
  registry : Registry embedder
  values : List (Stored embedder)
  yields : registry.store.Yields values
  keyed : registry.Keyed
  indexed : registry.Indexed

namespace RegistryPeer

variable (crypto) in
/-- A registry after any operations. -/
def after (ops : List Op) (values : List (Stored embedder))
    (h : (Run.exec (Registry.step crypto) (.new embedder) ops).store.Yields values) :
    RegistryPeer embedder :=
  { registry := Run.exec (Registry.step crypto) (.new embedder) ops
    values
    yields := h
    keyed := Run.exec_preserves Keyed (fun _ _ => Keyed.step) keyed_new ops
    indexed := Run.exec_preserves Indexed (fun _ op h => h.step op) indexed_new ops }

def toPeer (self : RegistryPeer embedder) : SearchPeer :=
  { search := Registry.search self.values, publicRecords := Registry.publicRecords self.values }

variable (crypto) in
/-- The live, public, matching records of the registry that verify. -/
def held (self : RegistryPeer embedder) (need : Need) (now : UInt64) : List SignedRecord :=
  ((matching self.values need now).map fun s => s.record).filter (verifies crypto now)

/-- What a peer answers is the best of what it ranks. -/
theorem selects (self : RegistryPeer embedder) (need : Need) (now : UInt64) :
    TopK.Selects (SearchFederation.score embedder need)
      ((matching self.values need now).map fun s => s.record) need.topK
      (self.toPeer.search need now) :=
  self.indexed.selects self.yields need now

theorem nodup_matching (self : RegistryPeer embedder) (need : Need) (now : UInt64) :
    ((matching self.values need now).map fun s => s.record).Nodup :=
  (self.keyed.nodup_ids self.yields).of_map _

end RegistryPeer

/-- A federation of registry-backed peers that asks them all. -/
structure RegistryFederation (embedder : Embedder) where
  registries : List (RegistryPeer embedder)
  fed : SearchFederation embedder
  peers_eq : fed.peers = registries.map RegistryPeer.toPeer
  all : fed.peers.length ≤ fed.maxPeers

namespace RegistryFederation

open SearchFederation

variable (crypto) in
def held (self : RegistryFederation embedder) (need : Need) (now : UInt64) : List SignedRecord :=
  self.registries.flatMap fun registry => registry.held crypto need now

variable (crypto) in
/-- A result that a central search can have: the best of the newest records that are held. -/
def Central (self : RegistryFederation embedder) (need : Need) (now : UInt64)
    (results : List SignedRecord) : Prop :=
  Newest.SelectsNewest SignedRecord.id version (score embedder need) (self.held crypto need now)
    need.topK results

variable (crypto) in
/-- Those of the peers' verifying answers that are the first of the newest ones of their identity.
-/
def newestAnswers (self : RegistryFederation embedder) (need : Need) (now : UInt64) :
    List SignedRecord :=
  let answers := self.fed.verified crypto need now
  answers.filter fun rec => Newest.first SignedRecord.id version answers rec.id = some rec

variable (crypto) in
/-- Whatever is lost between the peers is outdone by what they answer: for each identity of which no
newest record is among the newest answers, `topK` newest answers that are newest records score at
least as high as a newest record of it, and higher than the newest answer in its place. -/
def Covered (self : RegistryFederation embedder) (need : Need) (now : UInt64) : Prop :=
  Newest.Covers SignedRecord.id version (score embedder need) (self.held crypto need now)
    (self.newestAnswers crypto need now) need.topK

variable {self : RegistryFederation embedder} {need : Need} {now : UInt64} {rec : SignedRecord}

/-- What a peer answers is held. -/
theorem mem_held_of_verified (h : rec ∈ self.fed.verified crypto need now) :
    rec ∈ self.held crypto need now := by
  obtain ⟨⟨peer, hpeer, hrec⟩, hverify⟩ := (mem_verified_of_all self.all).mp h
  rw [self.peers_eq] at hpeer
  obtain ⟨registry, hregistry, rfl⟩ := List.mem_map.mp hpeer
  have hmatching := (registry.selects need now).mem hrec
  exact List.mem_flatMap.mpr ⟨registry, hregistry,
    List.mem_filter.mpr ⟨hmatching, verifies_iff.mpr hverify⟩⟩

/-- The newest answers are what the search merges. -/
theorem mem_newestAnswers : rec ∈ self.newestAnswers crypto need now ↔
    ∃ id : Id, (self.fed.best crypto need now)[id]? = some rec := by
  rw [newestAnswers, List.mem_filter, decide_eq_true_iff, best_eq_merge]
  simp only [Newest.getElem?_merge]
  constructor
  · rintro ⟨-, hfirst⟩
    exact ⟨rec.id, hfirst⟩
  · rintro ⟨id, hfirst⟩
    obtain ⟨rfl, hnewest⟩ := Newest.first_eq_some hfirst
    exact ⟨hnewest.mem, hfirst⟩

theorem covered_iff {values : List SignedRecord}
    (hvalues : (self.fed.best crypto need now).Yields values) :
    self.Covered crypto need now ↔ Newest.Covers SignedRecord.id version (score embedder need)
      (self.held crypto need now) values need.topK :=
  Newest.covers_congr fun _ => mem_newestAnswers.trans hvalues.mem_iff.symm

/-- **Federated search is central search** if and only if what is lost between the peers is outdone.
-/
theorem search_central_iff (self : RegistryFederation embedder) (need : Need) (now : UInt64) :
    (∀ results, self.fed.Returns crypto need now results → self.Central crypto need now results) ↔
      self.Covered crypto need now := by
  let merged := (self.fed.best crypto need now).toList.map Prod.snd
  have hmerged : Newest.Merged _ _ _ (self.fed.best crypto need now) :=
    merged_best self.fed need now
  have hyields : (self.fed.best crypto need now).Yields merged := List.Perm.refl _
  have hkeys := hmerged.nodup hyields
  have hheld : ∀ rec ∈ merged, rec ∈ self.held crypto need now := by
    intro rec hrec
    obtain ⟨id, hid⟩ := hyields.mem_iff.mp hrec
    exact mem_held_of_verified (hmerged.newest id rec hid).mem
  rw [covered_iff hyields]
  constructor
  · intro hcentral
    apply Newest.covers_of_selectsNewest hkeys
    intro values hperm
    exact hcentral _ ⟨values, hperm.trans hyields, rfl⟩
  · intro hcovered results ⟨values, hvalues, hresults⟩
    apply Newest.selectsNewest_of_covers hkeys hheld hcovered
    rw [hresults]
    exact (TopK.selects_take _ values need.topK).of_perm (hvalues.trans hyields.symm)

/-! ### Registries that agree -/

variable (crypto) in
/-- The registries hold nothing that does not verify, and the same record wherever they hold one of
an identity. -/
structure Agreeing (f : RegistryFederation embedder) (need : Need) (now : UInt64) : Prop where
  verify : ∀ registry ∈ f.registries, ∀ stored ∈ matching registry.values need now,
    verifies crypto now stored.record = true
  same : ∀ a ∈ f.held crypto need now, ∀ b ∈ f.held crypto need now, a.id = b.id → a = b

/-- A record that a peer cuts off is outdone by that peer's own answer. -/
theorem covered_of_agreeing (h : self.Agreeing crypto need now) : self.Covered crypto need now := by
  have hmerged : Newest.Merged _ _ _ (self.fed.best crypto need now) :=
    merged_best self.fed need now
  have hnewest : ∀ a ∈ self.held crypto need now,
      Newest.IsNewest SignedRecord.id version (self.held crypto need now) a :=
    fun a ha => ⟨ha, fun b hb hid => by rw [h.same b hb a ha hid]⟩
  have hanswered : ∀ a ∈ self.fed.verified crypto need now,
      a ∈ self.newestAnswers crypto need now := by
    intro a ha
    obtain ⟨kept, hkept⟩ := hmerged.found a ha
    have hheld := mem_held_of_verified (hmerged.newest _ kept hkept).mem
    have hid := hmerged.key_eq _ kept hkept
    rw [h.same a (mem_held_of_verified ha) kept hheld hid.symm]
    exact mem_newestAnswers.mpr ⟨_, hkept⟩
  intro b hb hlost
  constructor
  · obtain ⟨registry, hregistry, hb'⟩ := List.mem_flatMap.mp hb
    obtain ⟨hmatching, hverify⟩ := List.mem_filter.mp hb'
    have hpeer : registry.toPeer ∈ self.fed.peers := by
      rw [self.peers_eq]
      exact List.mem_map_of_mem hregistry
    have hverified : ∀ a ∈ registry.toPeer.search need now,
        a ∈ self.fed.verified crypto need now := by
      intro a ha
      obtain ⟨stored, hstored, rfl⟩ := List.mem_map.mp ((registry.selects need now).mem ha)
      exact (mem_verified_of_all self.all).mpr
        ⟨⟨_, hpeer, ha⟩, verifies_iff.mp (h.verify registry hregistry stored hstored)⟩
    have hout : b ∉ registry.toPeer.search need now :=
      fun hin => hlost b (hanswered b (hverified b hin)) rfl (hnewest b hb)
    have hselects := registry.selects need now
    refine ⟨b, hnewest b hb, rfl, _, hselects.nodup (registry.nodup_matching need now),
      hselects.length_of_not_mem hmatching hout, ?_⟩
    intro c hc
    refine ⟨hanswered c (hverified c hc), ?_, hselects.le_of_not_mem hc hmatching hout⟩
    exact hnewest c (mem_held_of_verified (hverified c hc))
  · intro a ha hid
    obtain ⟨_, hkept⟩ := mem_newestAnswers.mp ha
    exact absurd (hnewest a (mem_held_of_verified (hmerged.newest _ a hkept).mem)) (hlost a ha hid)

/-- Where the registries agree, federated search is central search. -/
theorem central_of_agreeing (h : self.Agreeing crypto need now) {results : List SignedRecord}
    (hresults : self.fed.Returns crypto need now results) : self.Central crypto need now results :=
  (search_central_iff self need now).mpr (covered_of_agreeing h) results hresults

/-! ### A stale copy that wins

One peer holds the second version of a record, which offers nothing, and another record; the other
peer holds the first version, which offers what is wanted. -/

def offering (root : RootKey Crypto.checked) (working : WorkingKey Crypto.checked)
    (descriptions : List String) (version : UInt64) : SignedRecord :=
  let capabilities := descriptions.map fun description : String =>
    { kind := "tool", description, io := none, tags := [], modalities := [], envelope := ∅ }
  let payload := { (sampleRecord root working none version).payload with capabilities }
  valueOr (payload.sign working) ⟨payload, [], []⟩

def wanted : Need := { intentText := "wanted", kind := none, tags := [], topK := 1 }

def firstVersion : SignedRecord := offering ⟨(1 : UInt8)⟩ ⟨(2 : UInt8)⟩ ["wanted"] 1

def secondVersion : SignedRecord := offering ⟨(1 : UInt8)⟩ ⟨(2 : UInt8)⟩ [] 2

def otherRecord : SignedRecord := offering ⟨(3 : UInt8)⟩ ⟨(4 : UInt8)⟩ ["other"] 1

def currentOps : List Op := [.register secondVersion 5, .register otherRecord 5]

def staleOps : List Op := [.register firstVersion 5]

def storeAfter (ops : List Op) : List (Stored Embedder.exact) :=
  (Run.exec (Registry.step .checked) (.new Embedder.exact) ops).store.toList.map Prod.snd

def currentRegistry : RegistryPeer Embedder.exact :=
  .after .checked currentOps (storeAfter currentOps).reverse (List.reverse_perm _)

def staleRegistry : RegistryPeer Embedder.exact :=
  .after .checked staleOps (storeAfter staleOps) (List.Perm.refl _)

def sampleFederation : RegistryFederation Embedder.exact :=
  { registries := [currentRegistry, staleRegistry]
    fed := ((SearchFederation.new Embedder.exact).addPeer (fun _ => "") currentRegistry.toPeer
      5).addPeer (fun _ => "") staleRegistry.toPeer 5
    peers_eq := rfl
    all := by decide }

theorem currentRegistry_search :
    Registry.search currentRegistry.values wanted 5 = [otherRecord] := by
  rw [search_of_sorted (by decide +kernel)]
  decide +kernel

theorem staleRegistry_search :
    Registry.search staleRegistry.values wanted 5 = [firstVersion] := by
  decide +kernel

theorem sampleFederation_selectPeers : sampleFederation.fed.selectPeers "wanted" = [0, 1] := by
  have hsorted : [((0 : Int), 0), (0, 1)].mergeSort (fun a b => decide (b.1 ≤ a.1)) =
      [((0 : Int), 0), (0, 1)] := List.mergeSort_of_pairwise (by decide)
  change (([((0 : Int), 0), (0, 1)].mergeSort fun a b => decide (b.1 ≤ a.1)).take
    sampleFederation.fed.maxPeers).map Prod.snd = [0, 1]
  rw [hsorted]
  rfl

/-- The first version is merged, since the second one is cut off, and ranks first. -/
theorem stale_copy_is_returned : sampleFederation.fed.Returns .checked wanted 5 [firstVersion] := by
  have hcurrent : sampleFederation.fed.ask wanted 5 0 = [otherRecord] := currentRegistry_search
  have hstale : sampleFederation.fed.ask wanted 5 1 = [firstVersion] := staleRegistry_search
  have hbest : sampleFederation.fed.best .checked wanted 5 =
      [otherRecord, firstVersion].foldl (keepNewer .checked 5) ∅ := by
    rw [best, wanted, sampleFederation_selectPeers, List.foldl_cons, List.foldl_cons,
      List.foldl_nil]
    rw [wanted] at hcurrent hstale
    rw [hcurrent, hstale]
    simp only [List.foldl_cons, List.foldl_nil]
  refine ⟨[firstVersion, otherRecord], ?_, ?_⟩
  · rw [hbest]
    have hlist : (([otherRecord, firstVersion].foldl (keepNewer .checked 5)
        (∅ : HashMap Id SignedRecord)).toList.map Prod.snd) = [firstVersion, otherRecord] := by
      decide +kernel
    exact List.Perm.of_eq hlist.symm
  · rw [rank, List.mergeSort_of_pairwise (by decide +kernel)]
    rfl

theorem stale_copy_wins :
    ¬∀ results, sampleFederation.fed.Returns .checked wanted 5 results →
      sampleFederation.Central .checked wanted 5 results := by
  intro hcentral
  obtain ⟨items, hcollects, hselects⟩ := hcentral _ stale_copy_is_returned
  have hnewest := hcollects.newest firstVersion (hselects.mem List.mem_cons_self)
  have hheld : secondVersion ∈ sampleFederation.held .checked wanted 5 := by
    decide +kernel
  exact absurd (hnewest.le secondVersion hheld (by decide +kernel)) (by decide +kernel)

end RegistryFederation

end Thicket
