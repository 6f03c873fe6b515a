import Thicket.Lib.Newest
import Thicket.Registry.Registry

/-!
# Federated search

A node asks the peers whose catalogs match best, keeps the newest of the answers for each identity
that verify, and ranks these. Peers are other parties: they may answer with anything.
`best.into_values()` comes in any order, so a search has one result for each.
-/

namespace Thicket

/-- A peer, as far as a search asks it. -/
structure SearchPeer where
  search : Need → UInt64 → List SignedRecord
  publicRecords : UInt64 → List SignedRecord

/-- The part of a federation that searching uses. Of a catalog's profile only the centroid is used.
-/
structure SearchFederation (embedder : Embedder) where
  peers : List SearchPeer
  profiles : List embedder.Vector
  maxPeers : Nat
  aligned : profiles.length = peers.length

variable (crypto : Crypto) {embedder : Embedder}

/-- `rec.verify(now, &RevocationSet::new()).is_ok()` -/
def verifies (now : UInt64) (rec : SignedRecord) : Bool :=
  decide (rec.verify crypto now .new = .ok ())

def version (rec : SignedRecord) : Nat := rec.payload.version.toNat

namespace SearchFederation

def new (embedder : Embedder) : SearchFederation embedder :=
  { peers := [], profiles := [], maxPeers := 2 ^ 64 - 1, aligned := rfl }

def withMaxPeers (self : SearchFederation embedder) (maxPeers : Nat) : SearchFederation embedder :=
  { self with maxPeers }

/-- `centroid` is the centroid of `CatalogProfile::build`. -/
def addPeer (centroid : List SignedRecord → embedder.Vector) (self : SearchFederation embedder)
    (peer : SearchPeer) (now : UInt64) : SearchFederation embedder :=
  { self with
    peers := self.peers ++ [peer]
    profiles := self.profiles ++ [centroid (peer.publicRecords now)]
    aligned := by rw [List.length_append, List.length_append, self.aligned]; rfl }

/-- Collection selection: peer indices ranked by how well their catalog centroid matches `intent`,
capped at `maxPeers`. -/
def selectPeers (self : SearchFederation embedder) (intent : String) : List Nat :=
  let q := embedder.embed intent
  let scored := self.profiles.zipIdx.map fun (centroid, i) => (embedder.cosine q centroid, i)
  let scored := scored.mergeSort fun a b => decide (b.1 ≤ a.1)
  (scored.take self.maxPeers).map Prod.snd

/-- `self.peers[i].search(need, now)` -/
def ask (self : SearchFederation embedder) (need : Need) (now : UInt64) (i : Nat) :
    List SignedRecord :=
  match self.peers[i]? with
  | some peer => peer.search need now
  | none => []

/-- The loop over the answer of a peer. -/
def keepNewer (now : UInt64) (best : HashMap Id SignedRecord) (rec : SignedRecord) :
    HashMap Id SignedRecord :=
  if rec.verify crypto now .new = .ok () then
    match best[rec.id]? with
    | some existing =>
        if existing.payload.version ≥ rec.payload.version then best else best.insert rec.id rec
    | none => best.insert rec.id rec
  else best

/-- Scatter-gather, verify, dedupe by id (highest version wins). -/
def best (self : SearchFederation embedder) (need : Need) (now : UInt64) :
    HashMap Id SignedRecord :=
  (self.selectPeers need.intentText).foldl
    (fun best i => (self.ask need now i).foldl (keepNewer crypto now) best) ∅

def recordScore (embedder : Embedder) (q : embedder.Vector) (rec : SignedRecord) : embedder.Score :=
  (rec.payload.capabilities.map fun c => embedder.cosine q (embedder.embed c.description)).foldl max
    embedder.min

/-- How well a record matches a need. -/
def score (embedder : Embedder) (need : Need) (rec : SignedRecord) : embedder.Score :=
  recordScore embedder (embedder.embed need.intentText) rec

/-- Rerank globally, take top-k. -/
def rank (embedder : Embedder) (need : Need) (results : List SignedRecord) : List SignedRecord :=
  (results.mergeSort fun a b =>
    decide (score embedder need b ≤ score embedder need a)).take need.topK

/-- Federated search. -/
def Returns (self : SearchFederation embedder) (need : Need) (now : UInt64)
    (results : List SignedRecord) : Prop :=
  ∃ values, (self.best crypto need now).Yields values ∧ results = rank embedder need values

/-! ### The merge -/

/-- All that the selected peers answer, in the order it comes in. -/
def answers (self : SearchFederation embedder) (need : Need) (now : UInt64) : List SignedRecord :=
  (self.selectPeers need.intentText).flatMap (self.ask need now)

/-- What counts of it. -/
def verified (self : SearchFederation embedder) (need : Need) (now : UInt64) : List SignedRecord :=
  (self.answers need now).filter (verifies crypto now)

variable {crypto} {self : SearchFederation embedder} {need : Need} {now : UInt64}
  {rec : SignedRecord}

theorem verifies_iff : verifies crypto now rec = true ↔ rec.verify crypto now .new = .ok () :=
  decide_eq_true_iff

theorem keepNewer_eq : keepNewer crypto now = fun best rec =>
    if verifies crypto now rec then Newest.keep SignedRecord.id version best rec else best := by
  funext best rec
  simp only [keepNewer, verifies_iff, Newest.keep]
  cases best[rec.id]? with
  | none => rfl
  | some existing => exact if_congr Iff.rfl (if_congr UInt64.le_iff_toNat_le rfl rfl) rfl

theorem best_eq_merge (self : SearchFederation embedder) (need : Need) (now : UInt64) :
    self.best crypto need now =
      Newest.merge SignedRecord.id version (self.verified crypto need now) := by
  rw [best, Newest.merge, verified, answers, List.foldl_filter, List.foldl_flatMap, keepNewer_eq]

theorem merged_best (self : SearchFederation embedder) (need : Need) (now : UInt64) :
    Newest.Merged SignedRecord.id version (self.verified crypto need now)
      (self.best crypto need now) := by
  rw [best_eq_merge]
  exact Newest.merged_merge _

theorem mem_verified : rec ∈ self.verified crypto need now ↔
    (∃ i ∈ self.selectPeers need.intentText, rec ∈ self.ask need now i) ∧
      rec.verify crypto now .new = .ok () := by
  rw [verified, List.mem_filter, verifies_iff, answers, List.mem_flatMap]

/-- All peers are selected if no more are reached than may be asked. -/
theorem selectPeers_perm (hall : self.peers.length ≤ self.maxPeers) (intent : String) :
    (self.selectPeers intent).Perm (List.range self.peers.length) := by
  have hindices : (self.profiles.zipIdx.map fun (centroid, i) =>
      (embedder.cosine (embedder.embed intent) centroid, i)).map Prod.snd =
        List.range self.peers.length := by
    rw [List.map_map, List.range_eq_range', ← self.aligned, ← List.zipIdx_map_snd 0 self.profiles]
    rfl
  rw [selectPeers, List.take_of_length_le]
  · rw [← hindices]
    exact (List.mergeSort_perm _ _).map _
  · rw [List.length_mergeSort, List.length_map, List.length_zipIdx, self.aligned]
    exact hall

theorem mem_verified_of_all (hall : self.peers.length ≤ self.maxPeers) :
    rec ∈ self.verified crypto need now ↔
      (∃ peer ∈ self.peers, rec ∈ peer.search need now) ∧ rec.verify crypto now .new = .ok () := by
  rw [mem_verified]
  apply and_congr_left
  intro _
  constructor
  · intro ⟨i, _, hrec⟩
    rw [ask] at hrec
    cases hpeer : self.peers[i]? with
    | none =>
        rw [hpeer] at hrec
        cases hrec
    | some peer =>
        rw [hpeer] at hrec
        exact ⟨peer, List.mem_of_getElem? hpeer, hrec⟩
  · intro ⟨peer, hpeer, hrec⟩
    obtain ⟨i, hi⟩ := List.mem_iff_getElem?.mp hpeer
    refine ⟨i, ?_, ?_⟩
    · rw [(selectPeers_perm hall _).mem_iff, List.mem_range]
      exact (List.getElem?_eq_some_iff.mp hi).1
    · rw [ask, hi]
      exact hrec

/-! ### What a search returns -/

variable (crypto) in
/-- The results are newest verifying answers, at most one of an identity, best first, and as many as
were asked for or all; none that was left out is better. -/
structure Merges (self : SearchFederation embedder) (need : Need) (now : UInt64)
    (results : List SignedRecord) : Prop where
  distinct : (results.map SignedRecord.id).Nodup
  answered : ∀ rec ∈ results, ∃ i ∈ self.selectPeers need.intentText, rec ∈ self.ask need now i
  verify : ∀ rec ∈ results, rec.verify crypto now .new = .ok ()
  newest : ∀ rec ∈ results, ∀ i ∈ self.selectPeers need.intentText, ∀ other ∈ self.ask need now i,
    other.verify crypto now .new = .ok () → other.id = rec.id →
      other.payload.version ≤ rec.payload.version
  ranked : results.Pairwise fun a b => score embedder need b ≤ score embedder need a
  length : results.length =
    min need.topK ((self.verified crypto need now).map SignedRecord.id).dedup.length
  dropped : ∀ (id : Id) (kept : SignedRecord), (self.best crypto need now)[id]? = some kept →
    id ∉ results.map SignedRecord.id →
      ∀ rec ∈ results, score embedder need kept ≤ score embedder need rec

variable {values results : List SignedRecord}

/-- As many records are merged as identities have a verifying answer. -/
theorem length_of_yields (hvalues : (self.best crypto need now).Yields values) :
    values.length = ((self.verified crypto need now).map SignedRecord.id).dedup.length := by
  have hmerged : Newest.Merged _ _ _ (self.best crypto need now) := merged_best self need now
  have hperm : (values.map SignedRecord.id).Perm
      ((self.verified crypto need now).map SignedRecord.id).dedup := by
    apply (List.perm_ext_iff_of_nodup (hmerged.nodup hvalues) (List.nodup_dedup _)).mpr
    intro id
    rw [List.mem_dedup, List.mem_map, List.mem_map]
    constructor
    · intro ⟨rec, hrec, hid⟩
      obtain ⟨key, hkey⟩ := hvalues.mem_iff.mp hrec
      exact ⟨rec, (hmerged.newest key rec hkey).mem, hid⟩
    · intro ⟨rec, hrec, hid⟩
      obtain ⟨kept, hkept⟩ := hmerged.found rec hrec
      exact ⟨kept, hvalues.mem_iff.mpr ⟨_, hkept⟩, (hmerged.key_eq _ kept hkept).trans hid⟩
  rw [← hperm.length_eq, List.length_map]

theorem merges_of_returns (h : self.Returns crypto need now results) :
    self.Merges crypto need now results := by
  obtain ⟨values, hvalues, rfl⟩ := h
  have hmerged : Newest.Merged _ _ _ (self.best crypto need now) := merged_best self need now
  have hnodup := hmerged.nodup hvalues
  have hselects := TopK.selects_take (score embedder need) values need.topK
  have hnewest : ∀ rec ∈ rank embedder need values,
      Newest.IsNewest SignedRecord.id version (self.verified crypto need now) rec := by
    intro rec hrec
    obtain ⟨id, hid⟩ := hvalues.mem_iff.mp (hselects.mem hrec)
    exact hmerged.newest id rec hid
  refine ⟨?_, ?_, ?_, ?_, hselects.sorted, ?_, ?_⟩
  · have hperm : (TopK.sortByScore (score embedder need) values).Perm values :=
      List.mergeSort_perm _ _
    have hsorted := (hperm.map SignedRecord.id).nodup_iff.mpr hnodup
    exact hsorted.sublist ((List.take_sublist _ _).map _)
  · intro rec hrec
    exact (mem_verified.mp (hnewest rec hrec).mem).1
  · intro rec hrec
    exact (mem_verified.mp (hnewest rec hrec).mem).2
  · intro rec hrec i hi other hother hverify hid
    rw [UInt64.le_iff_toNat_le]
    exact (hnewest rec hrec).le other (mem_verified.mpr ⟨⟨i, hi, hother⟩, hverify⟩) hid
  · rw [← length_of_yields hvalues]
    exact hselects.length
  · intro id kept hkept hout rec hrec
    apply hselects.le_of_not_mem hrec (hvalues.mem_iff.mpr ⟨id, hkept⟩)
    intro hin
    apply hout
    rw [← hmerged.key_eq id kept hkept]
    exact List.mem_map_of_mem hin

/-- The merge takes from the peers what they answer, whatever order they are asked in. -/
theorem best_version_perm {other : SearchFederation embedder}
    (hall : self.peers.length ≤ self.maxPeers) (hall' : other.peers.length ≤ other.maxPeers)
    (hperm : self.peers.Perm other.peers) (id : Id) :
    (self.best crypto need now)[id]?.map version =
      (other.best crypto need now)[id]?.map version := by
  apply (merged_best self need now).version_eq (merged_best other need now)
  intro rec
  rw [mem_verified_of_all hall, mem_verified_of_all hall']
  simp only [hperm.mem_iff]

/-- **The federated merge is lossless**, whatever the peers answer, and if all peers are asked, the
order of the peers does not change which versions it keeps. -/
theorem search_merges (fed : SearchFederation embedder) (need : Need) (now : UInt64) :
    (∀ results, fed.Returns crypto need now results → fed.Merges crypto need now results) ∧
    ∀ other : SearchFederation embedder, fed.peers.length ≤ fed.maxPeers →
      other.peers.length ≤ other.maxPeers → fed.peers.Perm other.peers →
        ∀ id : Id, (fed.best crypto need now)[id]?.map (fun rec => rec.payload.version) =
          (other.best crypto need now)[id]?.map fun rec => rec.payload.version := by
  refine ⟨fun results => merges_of_returns, ?_⟩
  intro other hall hall' hperm id
  have hinj : Function.Injective UInt64.toNat := fun _ _ => UInt64.toNat.inj
  apply Option.map_injective hinj
  rw [Option.map_map, Option.map_map]
  exact best_version_perm hall hall' hperm id

/-! ### Two versions of a record -/

def answering (records : List SignedRecord) : SearchPeer :=
  { search _ _ := records, publicRecords _ := records }

def everything : Need := { intentText := "", kind := none, tags := [], topK := 10 }

/-- The first peer answers with the second version of a record and with one that nobody has signed,
the other one with the first version. -/
def twoPeers : SearchFederation Embedder.exact :=
  let unsigned := { sampleRecord ⟨(3 : UInt8)⟩ ⟨(4 : UInt8)⟩ none 1 with signature := [] }
  let newer := answering [sampleRecord ⟨(1 : UInt8)⟩ ⟨(2 : UInt8)⟩ none 2, unsigned]
  let older := answering [sampleRecord ⟨(1 : UInt8)⟩ ⟨(2 : UInt8)⟩ none 1]
  ((new Embedder.exact).addPeer (fun _ => "") newer 5).addPeer (fun _ => "") older 5

/-- Both peers match equally well. -/
theorem twoPeers_selectPeers : twoPeers.selectPeers "" = [0, 1] := by
  have hsorted : [((1 : Int), 0), (1, 1)].mergeSort (fun a b => decide (b.1 ≤ a.1)) =
      [((1 : Int), 0), (1, 1)] := List.mergeSort_of_pairwise (by decide)
  exact congrArg (fun scored : List (Int × Nat) => (scored.take (2 ^ 64 - 1)).map Prod.snd) hsorted

theorem search_merges_conflict : twoPeers.Merges .checked everything 5
    [sampleRecord ⟨(1 : UInt8)⟩ ⟨(2 : UInt8)⟩ none 2] := by
  apply (search_merges twoPeers everything 5).1
  refine ⟨_, List.Perm.refl _, ?_⟩
  rw [best, everything, twoPeers_selectPeers]
  decide +kernel

end SearchFederation

end Thicket
