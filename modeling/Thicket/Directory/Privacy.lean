import Thicket.Directory.Server
import Thicket.Lib.TopK

/-!
# Private records

The registry has an error of its own for a private record, and the handler answers it as it answers
an absent one. A search keeps public records only, before it scores and cuts off, so private ones
take no place in a result. What remains visible of the store is the order a search visits it in.
-/

namespace Thicket

open Cbor (Bytes)
open Result Serde

variable {crypto : Crypto} {embedder : Embedder}

/-- A record that is not private. -/
def isListed (stored : Stored embedder) : Bool :=
  decide (stored.record.payload.visibility ≠ .private)

namespace Registry

/-- The two registries hold the same records, apart from private ones. -/
def SameListed (r r' : Registry embedder) : Prop :=
  ∀ id : Id, r.store[id]?.filter isListed = r'.store[id]?.filter isListed

/-- The records a search ranks, with their scores. -/
def scored (values : List (Stored embedder)) (need : Need) (now : UInt64) :
    List (embedder.Score × Stored embedder) :=
  values
    |>.filter (fun s => s.record.payload.visibility = .public)
    |>.filter (fun s => !leaseExpired s.record now)
    |>.filter (fun s => kindMatches s need)
    |>.filter (fun s => tagsMatch s need)
    |>.map fun s => (bestCapabilityScore (embedder.embed need.intentText) s, s)

def recordsOf (best : List (embedder.Score × Stored embedder)) : List SignedRecord :=
  best.map fun x => x.2.record

variable {r r' : Registry embedder} {values values' : List (Stored embedder)} {need : Need}
  {id : Id} {now : UInt64}

theorem search_eq : search values need now =
    recordsOf ((TopK.sortByScore Prod.fst (scored values need now)).take need.topK) := by
  rfl

theorem scored_filter_isListed : scored (values.filter isListed) need now =
    scored values need now := by
  have hpublic : (values.filter isListed).filter (fun s => s.record.payload.visibility = .public) =
      values.filter fun s => s.record.payload.visibility = .public := by
    rw [List.filter_filter]
    apply List.filter_congr
    intro s _
    cases hvisibility : s.record.payload.visibility <;> simp [isListed, hvisibility]
  unfold scored
  rw [hpublic]

theorem scored_perm (h : values.Perm values') :
    (scored values need now).Perm (scored values' need now) := by
  unfold scored
  exact ((((h.filter _).filter _).filter _).filter _).map _

/-- What a lookup shows is the record, if it is listed and live. -/
theorem resolve_ok_iff {record : SignedRecord} : r.resolve id now = .ok record ↔
    ∃ stored, r.store[id]?.filter isListed = some stored ∧
      leaseExpired stored.record now = false ∧ stored.record = record := by
  unfold resolve
  cases r.store[id]? with
  | none => simp [okOr, bind, Except.bind]
  | some stored =>
      cases hlease : leaseExpired stored.record now <;>
        cases hvisibility : stored.record.payload.visibility <;>
        simp [okOr, failIf, bind, Except.bind, pure, Except.pure, isListed, hlease, hvisibility]

end Registry

namespace Directory

open Registry

variable {fromCbor : (α : Type) → [Deserialize α] → Bytes → Option α} {r r' : Registry embedder}
  {req : Net.Request} {now : UInt64} {reply reply' : Net.Reply}

variable (crypto fromCbor) in
/-- A reply the handler can give, in some order the store's values can be visited in. -/
def Answers (r : Registry embedder) (req : Net.Request) (now : UInt64) (reply : Net.Reply) : Prop :=
  ∃ values, r.store.Yields values ∧ (handle crypto fromCbor r values req now).2 = reply

variable (fromCbor) in
/-- Two replies to one search that differ at most in which of equally scored records they hold and
in the order of these: both hold the best `topK` of the records the search ranks. -/
def SameUpToTies (r : Registry embedder) (req : Net.Request) (now : UInt64)
    (reply reply' : Net.Reply) : Prop :=
  match fromCbor Need req.body with
  | none => reply = reply'
  | some need => ∀ values, r.store.Yields values → ∃ best best',
      TopK.Selects Prod.fst (scored values need now) need.topK best ∧
      TopK.Selects Prod.fst (scored values need now) need.topK best' ∧
      best.map Prod.fst = best'.map Prod.fst ∧
      reply = encodeReply (recordsOf best) ∧ reply' = encodeReply (recordsOf best')

/-! ### Lookups -/

theorem handleResolve_eq (h : SameListed r r') :
    (handleResolve fromCbor r req now).2 = (handleResolve fromCbor r' req now).2 := by
  unfold handleResolve
  cases fromCbor Id req.body with
  | none => rfl
  | some id =>
      have hok (record : SignedRecord) :
          r.resolve id now = .ok record ↔ r'.resolve id now = .ok record := by
        rw [resolve_ok_iff, resolve_ok_iff, h id]
      simp only
      cases hresolve : r.resolve id now with
      | ok record => rw [(hok record).mp hresolve]
      | error e =>
          cases hresolve' : r'.resolve id now with
          | ok record =>
              rw [(hok record).mpr hresolve'] at hresolve
              cases hresolve
          | error e' => rfl

/-! ### Searches -/

/-- What a search answers, in two orders that agree on what is listed. -/
theorem handleSearch_eq {values values' : List (Stored embedder)}
    (h : values'.filter isListed = values.filter isListed) :
    (handleSearch fromCbor r values req now).2 = (handleSearch fromCbor r' values' req now).2 := by
  unfold handleSearch
  cases fromCbor Need req.body with
  | none => rfl
  | some need =>
      simp only
      have hscored : scored values need now = scored values' need now := by
        rw [← scored_filter_isListed, ← h, scored_filter_isListed]
      rw [search_eq, search_eq, hscored]

theorem answers_search (hsearch : req.capability = capabilitySearch) :
    Answers crypto fromCbor r req now reply ↔
      ∃ values, r.store.Yields values ∧ (handleSearch fromCbor r values req now).2 = reply := by
  have hhandle (values : List (Stored embedder)) :
      handle crypto fromCbor r values req now = handleSearch fromCbor r values req now := by
    unfold handle
    rw [hsearch]
    rfl
  simp only [Answers, hhandle]

/-- Whatever order one store is visited in, the other can be visited in one that answers alike. -/
theorem Answers.of_sameListed (h : SameListed r r') (hsearch : req.capability = capabilitySearch)
    (hanswer : Answers crypto fromCbor r req now reply) :
    Answers crypto fromCbor r' req now reply := by
  rw [answers_search hsearch] at hanswer ⊢
  obtain ⟨values, hvalues, rfl⟩ := hanswer
  obtain ⟨values', hvalues', heq⟩ :=
    HashMap.Yields.exists_filter_eq hvalues (HashMap.retain_eq_retain h)
  exact ⟨values', hvalues', (handleSearch_eq heq).symm⟩

theorem sameUpToTies_of_answers (hsearch : req.capability = capabilitySearch)
    (hanswer : Answers crypto fromCbor r req now reply)
    (hanswer' : Answers crypto fromCbor r req now reply') :
    SameUpToTies fromCbor r req now reply reply' := by
  rw [answers_search hsearch] at hanswer hanswer'
  obtain ⟨values, hvalues, rfl⟩ := hanswer
  obtain ⟨values', hvalues', rfl⟩ := hanswer'
  unfold SameUpToTies handleSearch
  cases fromCbor Need req.body with
  | none => rfl
  | some need =>
      intro others hothers
      have hbest := (TopK.selects_take Prod.fst (scored values need now) need.topK).of_perm
        (scored_perm (hvalues.trans hothers.symm))
      have hbest' := (TopK.selects_take Prod.fst (scored values' need now) need.topK).of_perm
        (scored_perm (hvalues'.trans hothers.symm))
      refine ⟨_, _, hbest, hbest', hbest.scores_eq hbest', ?_, ?_⟩
      · rw [← search_eq]
      · rw [← search_eq]

/-! ### Both -/

/-- **Private records are invisible.** Where two registries differ only in private records, a lookup
is answered the same in both, and a search in one registry can have exactly the answers it can have
in the other; whatever order each store is visited in, its two answers are the same up to the choice
and the order of equally scored records. -/
theorem private_records_are_invisible (r r' : Registry embedder) (h : SameListed r r')
    (req : Net.Request) (now : UInt64) (reply reply' : Net.Reply) :
    (req.capability = capabilityResolve → Answers crypto fromCbor r req now reply →
      Answers crypto fromCbor r' req now reply' → reply = reply') ∧
    (req.capability = capabilitySearch →
      (Answers crypto fromCbor r req now reply ↔ Answers crypto fromCbor r' req now reply) ∧
      (Answers crypto fromCbor r req now reply → Answers crypto fromCbor r' req now reply' →
        SameUpToTies fromCbor r req now reply reply')) := by
  constructor
  · intro hresolve
    have hhandle (r : Registry embedder) (values : List (Stored embedder)) :
        handle crypto fromCbor r values req now = handleResolve fromCbor r req now := by
      unfold handle
      rw [hresolve]
      rfl
    rintro ⟨values, -, rfl⟩ ⟨values', -, rfl⟩
    rw [hhandle, hhandle]
    exact handleResolve_eq h
  · intro hsearch
    have hsymm : SameListed r' r := fun id => (h id).symm
    refine ⟨⟨Answers.of_sameListed h hsearch, Answers.of_sameListed hsymm hsearch⟩, ?_⟩
    intro hanswer hanswer'
    exact sameUpToTies_of_answers hsearch hanswer (Answers.of_sameListed hsymm hsearch hanswer')

/-! ### A hidden record -/

def hiddenRecord : SignedRecord :=
  let working : WorkingKey Crypto.checked := ⟨(2 : UInt8)⟩
  let record := sampleRecord ⟨(1 : UInt8)⟩ working none 1
  valueOr ({ record.payload with visibility := .private }.sign working) record

def hiddenStored : Stored .exact := { record := hiddenRecord, capEmbeddings := [] }

/-- A registry that holds the hidden record and nothing else. -/
def secretive : Registry .exact :=
  { store := (∅ : HashMap Id (Stored .exact)).insert hiddenRecord.id hiddenStored,
    revocations := .new }

/-- Another identity looks the hidden record up. -/
def lookup : Net.Request :=
  { capability := capabilityResolve, body := (intoWriter hiddenRecord.id).getD [], auth := none,
    peer := { id := ⟨[9]⟩, workingPub := [8], keyNotAfter := 1000 },
    envelope :=
      { payload :=
          { v := 1, fromId := ⟨[9]⟩, toId := ⟨[7]⟩, typ := .request,
            capability := some capabilityResolve, correlation := [3], contentType := none,
            context := Context.empty, auth := none, streamSeq := none, streamEnd := false,
            error := none, body := (intoWriter hiddenRecord.id).getD [], ext := ∅ },
        signerPub := [8], signature := [5] } }

theorem sameListed_hidden : SameListed secretive (Registry.new .exact) := by
  intro id
  have hlisted : isListed hiddenStored = false := by decide +kernel
  simp only [secretive, Registry.new, HashMap.getElem?_insert]
  split
  · rw [Option.filter_some, if_neg (by rw [hlisted]; exact Bool.false_ne_true)]
    simp
  · rfl

theorem private_records_are_invisible_hidden :
    SameListed secretive (Registry.new .exact) ∧
    (handle .checked (fun _ _ bytes => fromReader bytes) secretive [hiddenStored] lookup 5).2 =
      (handle .checked (fun _ _ bytes => fromReader bytes) (Registry.new .exact) [] lookup 5).2 ∧
    (handle .checked (fun _ _ bytes => fromReader bytes) (Registry.new .exact) [] lookup 5).2 =
      .error .notFound "no such record" := by
  refine ⟨sameListed_hidden, ?_, by decide +kernel⟩
  apply (private_records_are_invisible secretive (Registry.new .exact) sameListed_hidden lookup 5
    _ _).1 rfl
  · exact ⟨[hiddenStored], List.Perm.refl _, rfl⟩
  · exact ⟨[], List.Perm.refl _, rfl⟩

end Directory

end Thicket
