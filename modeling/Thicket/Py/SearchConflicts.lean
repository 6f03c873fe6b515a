import Thicket.Federation.Search
import Thicket.Py.FederatedSearch
import Thicket.Py.RecordVerdict

/-!
# Which copy of a record a federated search keeps

Of the copies of a record that verify the Rust federation keeps a newest one. The one of the SDK
keeps the first one of a round-robin through the answers. Both keep the same versions exactly where
no newer copy of a record comes after the first one.
-/

namespace Thicket.Py

open Cbor (Bytes)
open Result Serde

/-- A record as both sides have it: what the SDK decodes has the fields that the core decodes, and
the payload has a wire form. -/
structure SharedRecord where
  signed : Value
  record : SignedRecord
  payload : signed.getItem "payload" = .ok (.of record.payload)
  signerPub : signed.getItem "signer_pub" = .ok (.bytes record.signerPub)
  signature : signed.getItem "signature" = .ok (.bytes record.signature)
  encodes : (Cbor.encode (toCbor record.payload)).isSome = true

/-- `rec["payload"]["version"]` -/
def recordVersion (rec : Value) : Except Exc Value := do
  (← rec.getItem "payload").getItem "version"

section

variable (crypto : Crypto) (now : UInt64)

/-- The merge of `Federation::search`, over what the peers answer. -/
def gather (lists : List (List SignedRecord)) : HashMap Id SignedRecord :=
  lists.foldl (fun best list => list.foldl (SearchFederation.keepNewer crypto now) best) ∅

/-- `Federation::search` keeps a record of the id in this version. -/
def CoreKeeps (lists : List (List SignedRecord)) (id : Id) (version : UInt64) : Prop :=
  ∃ rec, (gather crypto now lists)[id]? = some rec ∧ rec.payload.version = version

/-- `FederatedDirectory.search` keeps a record of the id in this version. -/
def SdkKeeps (lists : List (List Value)) (id : Id) (version : UInt64) : Prop :=
  ∃ merged, mergeLists crypto now.toNat lists = .ok merged ∧ ∃ kept ∈ merged,
    recordId kept = .ok (.bytes id.bytes) ∧ recordVersion kept = .ok (.int version.toNat)

/-- The highest version of the copies that verify. -/
def IsHighest (lists : List (List SignedRecord)) (id : Id) (version : UInt64) : Prop :=
  (∃ list ∈ lists, ∃ rec ∈ list, rec.verify crypto now .new = .ok () ∧ rec.id = id ∧
    rec.payload.version = version) ∧
  ∀ list ∈ lists, ∀ rec ∈ list, rec.verify crypto now .new = .ok () → rec.id = id →
    rec.payload.version ≤ version

/-- The first copy of the record that verifies, in the order of a round-robin. -/
def firstCopy (lists : List (List SignedRecord)) (id : Id) : Option SignedRecord :=
  (roundRobin lists).find? fun rec => verifies crypto now rec && decide (rec.id = id)

/-- No copy of a record that verifies is newer than the first one. -/
def NewestFirst (lists : List (List SignedRecord)) : Prop :=
  ∀ id first, firstCopy crypto now lists id = some first →
    ∀ list ∈ lists, ∀ rec ∈ list, rec.verify crypto now .new = .ok () → rec.id = id →
      rec.payload.version ≤ first.payload.version

end

/-! ### What the core keeps -/

section Core

variable {crypto : Crypto} {now : UInt64} {lists : List (List SignedRecord)} {id : Id}
  {version : UInt64} {rec : SignedRecord}

theorem best_eq_gather {embedder : Embedder} (fed : SearchFederation embedder) (need : Need) :
    fed.best crypto need now =
      gather crypto now ((fed.selectPeers need.intentText).map (fed.ask need now)) := by
  rw [SearchFederation.best, gather, List.foldl_map]

theorem gather_eq_merge (lists : List (List SignedRecord)) : gather crypto now lists =
    Newest.merge SignedRecord.id Thicket.version (lists.flatten.filter (verifies crypto now)) := by
  rw [gather, Newest.merge, List.foldl_filter, List.foldl_flatten, SearchFederation.keepNewer_eq]

theorem mem_verifying : rec ∈ lists.flatten.filter (verifies crypto now) ↔
    (∃ list ∈ lists, rec ∈ list) ∧ rec.verify crypto now .new = .ok () := by
  rw [List.mem_filter, List.mem_flatten, SearchFederation.verifies_iff]

/-- The core keeps the highest versions. -/
theorem coreKeeps_iff : CoreKeeps crypto now lists id version ↔
    IsHighest crypto now lists id version := by
  have hmerged : Newest.Merged SignedRecord.id Thicket.version
      (lists.flatten.filter (verifies crypto now)) (gather crypto now lists) := by
    rw [gather_eq_merge]
    exact Newest.merged_merge _
  constructor
  · intro ⟨rec, hrec, hversion⟩
    have hid : rec.id = id := hmerged.key_eq id rec hrec
    have hnewest := hmerged.newest id rec hrec
    obtain ⟨⟨list, hlist, hmem⟩, hverify⟩ := mem_verifying.mp hnewest.mem
    refine ⟨⟨list, hlist, rec, hmem, hverify, hid, hversion⟩, ?_⟩
    intro list hlist other hother hverify hsame
    rw [← hversion, UInt64.le_iff_toNat_le]
    have hmem := mem_verifying.mpr ⟨⟨list, hlist, hother⟩, hverify⟩
    exact hnewest.le other hmem (hsame.trans hid.symm)
  · intro ⟨⟨list, hlist, rec, hmem, hverify, hid, hversion⟩, hle⟩
    have hrec := mem_verifying.mpr ⟨⟨list, hlist, hmem⟩, hverify⟩
    obtain ⟨kept, hkept⟩ := hmerged.found rec hrec
    rw [hid] at hkept
    have hkeptid : kept.id = id := hmerged.key_eq id kept hkept
    have hnewest := hmerged.newest id kept hkept
    obtain ⟨⟨list', hlist', hmem'⟩, hverify'⟩ := mem_verifying.mp hnewest.mem
    refine ⟨kept, hkept, UInt64.le_antisymm (hle list' hlist' kept hmem' hverify' hkeptid) ?_⟩
    rw [← hversion, UInt64.le_iff_toNat_le]
    exact hnewest.le rec hrec (hid.trans hkeptid.symm)

theorem firstCopy_spec {first : SignedRecord} (h : firstCopy crypto now lists id = some first) :
    ∃ list ∈ lists, first ∈ list ∧ first.verify crypto now .new = .ok () ∧ first.id = id := by
  have hcopy := List.find?_some h
  obtain ⟨list, hlist, hmem⟩ := mem_roundRobin.mp (List.mem_of_find?_eq_some h)
  rw [Bool.and_eq_true, SearchFederation.verifies_iff, decide_eq_true_iff] at hcopy
  exact ⟨list, hlist, hmem, hcopy⟩

theorem exists_firstCopy {list : List SignedRecord} (hlist : list ∈ lists) (hrec : rec ∈ list)
    (hverify : rec.verify crypto now .new = .ok ()) :
    ∃ first, firstCopy crypto now lists rec.id = some first := by
  apply Option.isSome_iff_exists.mp
  rw [firstCopy, List.find?_isSome]
  refine ⟨rec, mem_roundRobin.mpr ⟨list, hlist, hrec⟩, ?_⟩
  rw [Bool.and_eq_true, SearchFederation.verifies_iff, decide_eq_true_iff]
  exact ⟨hverify, rfl⟩

/-- The first copies are newest ones exactly if theirs are the highest versions. -/
theorem newestFirst_iff : NewestFirst crypto now lists ↔ ∀ id version,
    (∃ first, firstCopy crypto now lists id = some first ∧ first.payload.version = version) ↔
      IsHighest crypto now lists id version := by
  constructor
  · intro hnewest id version
    constructor
    · intro ⟨first, hfirst, hversion⟩
      obtain ⟨list, hlist, hmem, hverify, hid⟩ := firstCopy_spec hfirst
      refine ⟨⟨list, hlist, first, hmem, hverify, hid, hversion⟩, ?_⟩
      rw [← hversion]
      exact hnewest id first hfirst
    · intro ⟨⟨list, hlist, rec, hmem, hverify, hid, hversion⟩, hle⟩
      obtain ⟨first, hfirst⟩ := exists_firstCopy hlist hmem hverify
      rw [hid] at hfirst
      obtain ⟨list', hlist', hmem', hverify', hid'⟩ := firstCopy_spec hfirst
      refine ⟨first, hfirst, UInt64.le_antisymm (hle list' hlist' first hmem' hverify' hid') ?_⟩
      rw [← hversion]
      exact hnewest id first hfirst list hlist rec hmem hverify hid
  · intro hall id first hfirst
    exact ((hall id _).mp ⟨first, hfirst, rfl⟩).2

end Core

/-! ### What the SDK keeps -/

section Encodes

variable {fs : List (String × Cbor.Value)} {name : String} {v : Cbor.Value}
  {payload : RecordPayload} {e : KeyEndorsement}

theorem encodes_of_named (h : (Cbor.encode (struct fs)).isSome = true) (hv : v ∈ named name fs) :
    (Cbor.encode v).isSome = true := by
  obtain ⟨f, hf, rfl⟩ := List.mem_map.mp hv
  exact ((Cbor.isSome_encode_map.mp h).2 _ (List.mem_map_of_mem (List.mem_filter.mp hf).1)).2

theorem encodes_view (h : (Cbor.encode (toCbor payload)).isSome = true) (he : e ∈ payload.keys) :
    (Cbor.encode (toCbor e.view)).isSome = true := by
  have hkeys : (Cbor.encode (toCbor payload.keys)).isSome = true :=
    encodes_of_named h (show _ ∈ named "keys" _ by simp)
  have hendorsement := (Cbor.isSome_encode_array.mp hkeys).2 _ (List.mem_map_of_mem he)
  obtain ⟨-, hfields⟩ := Cbor.isSome_encode_map.mp hendorsement
  refine Cbor.isSome_encode_map.mpr ⟨show 3 < 256 ^ 8 by norm_num, ?_⟩
  intro f hf
  apply hfields
  -- the view has the fields of the endorsement, except for the last one
  exact List.mem_append_left [(.text "root_sig", toCbor e.rootSig)] hf

theorem exists_signingInput {α : Type} [Serialize α] {a : α} (domain : String)
    (h : (Cbor.encode (toCbor a)).isSome = true) :
    ∃ msg, signingInput domain (.of a) = .ok msg := by
  obtain ⟨body, hbody⟩ := Option.isSome_iff_exists.mp h
  refine ⟨Cbor.utf8 domain ++ 0 :: body, signingInput_of.mpr ?_⟩
  rw [signingBytes, hbody]
  rfl

end Encodes

variable {crypto : Crypto} {now : UInt64} {lists : List (List SharedRecord)} {id : Id}
  {version : UInt64}

namespace SharedRecord

variable (shared : SharedRecord)

theorem recordId_eq : recordId shared.signed = .ok (.bytes shared.record.id.bytes) := by
  rw [recordId, shared.payload]
  exact payload_id

theorem recordVersion_eq :
    recordVersion shared.signed = .ok (.int shared.record.payload.version.toNat) := by
  rw [recordVersion, shared.payload]
  simp [bind, Except.bind, Value.of, Value.getItem_struct, Value.ofItem]

/-- What is signed has a wire form, so the verification returns. -/
theorem exists_verdict : ∃ verdict, verifyRecord crypto shared.signed now.toNat = .ok verdict := by
  simp only [verifyRecord, shared.payload, shared.signerPub, shared.signature, payload_id,
    payload_rootPublicKey, payload_keys, sha256, Value.iter, nextEndorsement_of, bind, Except.bind]
  split
  · exact ⟨_, rfl⟩
  cases hfind : shared.record.payload.keys.find? fun e =>
      e.workingPub == shared.record.signerPub with
  | none => exact ⟨_, rfl⟩
  | some e =>
      have hview := encodes_view shared.encodes (List.mem_of_find?_eq_some hfind)
      obtain ⟨viewMsg, hviewMsg⟩ := exists_signingInput "thicket-endorsement-v1" hview
      obtain ⟨msg, hmsg⟩ := exists_signingInput "thicket-record-v1" shared.encodes
      rw [of_endorsementView] at hviewMsg
      simp only [Option.map_some, endorsement_workingPub, endorsement_notBefore,
        endorsement_notAfter, endorsement_rootSig, intLt_u64, intGt_u64, hviewMsg, hmsg]
      split_ifs <;> exact ⟨_, rfl⟩

theorem verified_iff : Verified crypto now.toNat shared.signed ↔
    shared.record.verify crypto now .new = .ok () :=
  verifyRecord_iff shared.payload shared.signerPub shared.signature

theorem legible (before : List Value) : Legible crypto now.toNat before shared.signed :=
  .inr ⟨_, shared.recordId_eq, rfl, .inr shared.exists_verdict⟩

end SharedRecord

/-- What both sides are given. -/
def signedLists (lists : List (List SharedRecord)) : List (List Value) :=
  lists.map fun list => list.map SharedRecord.signed

def recordLists (lists : List (List SharedRecord)) : List (List SignedRecord) :=
  lists.map fun list => list.map SharedRecord.record

/-- A merge never raises on shared records. -/
theorem exists_merge (crypto : Crypto) (now : UInt64) (lists : List (List SharedRecord)) :
    ∃ merge, mergeLists crypto now.toNat (signedLists lists) = .ok merge.merged ∧
      Merging crypto now.toNat (roundRobin (signedLists lists)) merge := by
  rcases mergeLists_cases (signedLists lists) with ⟨merge, hmerge, hmerging, -⟩ | ⟨-, hunreadable⟩
  · exact ⟨merge, hmerge, hmerging⟩
  · refine absurd ?_ hunreadable
    intro before rec after hsplit
    have hrec : rec ∈ (roundRobin lists).map SharedRecord.signed := by
      rw [← roundRobin_map]
      exact hsplit ▸ List.mem_append_right _ List.mem_cons_self
    obtain ⟨shared, -, rfl⟩ := List.mem_map.mp hrec
    exact shared.legible before

/-- Whatever is merged is the first copy of its record. -/
theorem first_of_kept {merge : Merge} {kept : Value}
    (hmerging : Merging crypto now.toNat (roundRobin (signedLists lists)) merge)
    (hkept : kept ∈ merge.merged) : ∃ shared : SharedRecord, shared.signed = kept ∧
      firstCopy crypto now (recordLists lists) shared.record.id = some shared.record := by
  obtain ⟨front, rear, hsplit, hverified, hfirst⟩ := hmerging.first kept hkept
  rw [signedLists, roundRobin_map] at hsplit
  obtain ⟨front', rest, hitems, rfl, hrest⟩ := List.map_eq_append_iff.mp hsplit
  obtain ⟨shared, rear', rfl, rfl, -⟩ := List.map_eq_cons_iff.mp hrest
  refine ⟨shared, rfl, ?_⟩
  have hverify := shared.verified_iff.mp hverified
  rw [firstCopy, recordLists, roundRobin_map, hitems, List.map_append, List.map_cons]
  refine List.find?_eq_some_iff_append.mpr ⟨?_, _, _, rfl, ?_⟩
  · simp [SearchFederation.verifies_iff, hverify]
  · intro rec hrec
    obtain ⟨earlier, hearlier, rfl⟩ := List.mem_map.mp hrec
    by_contra hcopy
    obtain ⟨hverify', hid⟩ : earlier.record.verify crypto now .new = .ok () ∧
        earlier.record.id = shared.record.id := by
      simpa [SearchFederation.verifies_iff] using hcopy
    apply hfirst earlier.signed (List.mem_map_of_mem hearlier) (earlier.verified_iff.mpr hverify')
    rw [earlier.recordId_eq, shared.recordId_eq, hid]

/-- The SDK keeps the versions of the first copies. -/
theorem sdkKeeps_iff : SdkKeeps crypto now (signedLists lists) id version ↔
    ∃ first, firstCopy crypto now (recordLists lists) id = some first ∧
      first.payload.version = version := by
  obtain ⟨merge, hmerge, hmerging⟩ := exists_merge crypto now lists
  constructor
  · intro ⟨merged, hmerged, kept, hkept, hid, hversion⟩
    obtain rfl := Except.ok.inj (hmerge.symm.trans hmerged)
    obtain ⟨shared, rfl, hfirst⟩ := first_of_kept hmerging hkept
    rw [shared.recordId_eq] at hid
    rw [shared.recordVersion_eq] at hversion
    have hbytes := Value.bytes.inj (Except.ok.inj hid)
    have hnat := Int.ofNat.inj (Value.int.inj (Except.ok.inj hversion))
    obtain rfl : shared.record.id = id := congrArg Id.mk hbytes
    exact ⟨shared.record, hfirst, UInt64.toNat.inj hnat⟩
  · intro ⟨first, hfirst, hversion⟩
    obtain ⟨-, -, -, hverify, hid⟩ := firstCopy_spec hfirst
    have hmem := List.mem_of_find?_eq_some hfirst
    rw [recordLists, roundRobin_map] at hmem
    obtain ⟨shared, hshared, rfl⟩ := List.mem_map.mp hmem
    have hsigned : shared.signed ∈ roundRobin (signedLists lists) := by
      rw [signedLists, roundRobin_map]
      exact List.mem_map_of_mem hshared
    obtain ⟨kept, hkept, hsame⟩ := hmerging.found _ hsigned (shared.verified_iff.mpr hverify)
    obtain ⟨shared', rfl, hfirst'⟩ := first_of_kept hmerging hkept
    rw [shared.recordId_eq, hid] at hsame
    have hbytes := Value.bytes.inj (Except.ok.inj (shared'.recordId_eq.symm.trans hsame))
    have hid' : shared'.record.id = id := congrArg Id.mk hbytes
    rw [hid', hfirst] at hfirst'
    refine ⟨merge.merged, hmerge, shared'.signed, hkept, hsame, ?_⟩
    rw [shared'.recordVersion_eq, ← Option.some.inj hfirst', hversion]

/-- A signed record in the bytes that come over the wire is one. -/
theorem WireRecord.exists_shared {b : Bytes} (wire : WireRecord b) :
    ∃ shared : SharedRecord, decode b = .ok shared.signed ∧ shared.record = wire.record := by
  obtain ⟨signed, hdecode, hpayload, hsigner, hsignature⟩ := wire.exists_decode_eq
  have hencodes : (Cbor.encode (toCbor wire.record.payload)).isSome = true :=
    encodes_of_named (Cbor.isSome_encode_of_decode wire.read) (wire.payload ▸ List.mem_cons_self)
  exact ⟨⟨signed, wire.record, hpayload, hsigner, hsignature, hencodes⟩, hdecode, rfl⟩

/-- **Whose conflicts are resolved alike.** The core keeps the highest version of each record, and
the SDK keeps the same ones exactly if no copy that verifies is newer than the first of its record.
-/
theorem searches_keep_alike_iff (crypto : Crypto) (lists : List (List SharedRecord))
    (now : UInt64) :
    (∀ id version,
      (SdkKeeps crypto now (signedLists lists) id version ↔
        CoreKeeps crypto now (recordLists lists) id version) ∧
      (CoreKeeps crypto now (recordLists lists) id version ↔
        IsHighest crypto now (recordLists lists) id version)) ↔
      NewestFirst crypto now (recordLists lists) := by
  rw [newestFirst_iff]
  simp only [sdkKeeps_iff, coreKeeps_iff, iff_self, and_true]

/-! ### An older copy that comes first -/

/-- A record as the core writes it. -/
def SharedRecord.of (record : SignedRecord)
    (encodes : (Cbor.encode (toCbor record.payload)).isSome = true) : SharedRecord where
  signed := .of record
  record
  payload := by simp [Value.of, Value.getItem_struct]
  signerPub := by simp [Value.of, Value.getItem_struct, Value.ofItem]
  signature := by simp [Value.of, Value.getItem_struct, Value.ofItem]
  encodes

/-- Two peers answer with one version each. -/
def olderFirst : List (List SharedRecord) :=
  [[.of (sampleRecord ⟨(1 : UInt8)⟩ ⟨(2 : UInt8)⟩ none 1) (by decide +kernel)],
    [.of (sampleRecord ⟨(1 : UInt8)⟩ ⟨(2 : UInt8)⟩ none 2) (by decide +kernel)]]

theorem searches_keep_different :
    SdkKeeps .checked 5 (signedLists olderFirst) sampleSigned.id 1 ∧
    CoreKeeps .checked 5 (recordLists olderFirst) sampleSigned.id 2 ∧
    ¬CoreKeeps .checked 5 (recordLists olderFirst) sampleSigned.id 1 := by
  have hgather : (gather .checked 5 (recordLists olderFirst))[sampleSigned.id]? =
      some (sampleRecord ⟨(1 : UInt8)⟩ ⟨(2 : UInt8)⟩ none 2) := by
    decide +kernel
  refine ⟨sdkKeeps_iff.mpr ⟨sampleSigned, by decide +kernel, rfl⟩, ⟨_, hgather, rfl⟩, ?_⟩
  intro ⟨rec, hrec, hversion⟩
  rw [hgather] at hrec
  rw [← Option.some.inj hrec] at hversion
  exact absurd hversion (by decide +kernel)

end Thicket.Py
