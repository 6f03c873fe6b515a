import Thicket.Federation.Misdirection
import Thicket.Py.FederatedSearch
import Thicket.Py.RecordVerdict

/-!
# Faulty directories

A search leaves out the directories that raise while they are asked, but looks at what the others
answer without a `try`; a resolve catches nothing but a remote error. So one directory hides the
others exactly where its answer cannot be looked at, or where it raises before another one is
reached.
-/

namespace Thicket.Py

open Cbor (Bytes)
open Result

/-- A peer directory: what comes of a search and of resolving an id. -/
structure Directory where
  searchReply : DirectoryReply
  resolveReply : Bytes → DirectoryReply

section

variable (crypto : Crypto) (foreign : Value → Except Exc Value) (directories : List Directory)
  (now : Int)

def client (directory : Directory) : DirectoryClient :=
  { resolve id := (directory.resolveReply id).resolved foreign }

/-- The search does not raise, and each verifying record that a directory lists is in the results,
in one copy or another, unless these are full. -/
def SearchFinds (topK : Nat) : Prop :=
  ∃ results,
    federatedSearch crypto foreign (directories.map Directory.searchReply) now topK = .ok results ∧
    ∀ directory ∈ directories, ∀ items,
      directory.searchReply.searched foreign = some (.list items) →
        ∀ rec ∈ items, Verified crypto now rec →
          (∃ kept ∈ results, recordId kept = recordId rec) ∨ results.length = topK

/-- What arrives, as lists. -/
def arrived : List (List Value) :=
  (directories.filterMap fun directory => directory.searchReply.searched foreign).map fun value =>
    valueOr value.iter []

/-- Whatever arrives can be iterated over, and its items can be looked at one after the other. -/
def SearchHarmless : Prop :=
  (∀ directory ∈ directories, ∀ value, directory.searchReply.searched foreign = some value →
    ∃ items, value.iter = .ok items) ∧
  Readable crypto now (roundRobin (arrived foreign directories))

/-- The directory answers with a record of the id, and that verifies. -/
def Knows (fiberId : Bytes) (directory : Directory) : Prop :=
  ∃ rec, Accepts crypto fiberId now (client foreign directory) rec ∧
    recordId rec = .ok (.bytes fiberId)

/-- If a directory knows the id, a record is returned. -/
def ResolveFinds (fiberId : Bytes) : Prop :=
  (∃ directory ∈ directories, Knows crypto foreign now fiberId directory) →
    ∃ rec, rec ≠ .none ∧ resolve crypto fiberId now (directories.map (client foreign)) = .ok rec

/-- The directory answers, and the verification of a record that it answers with returns. -/
def Answers (fiberId : Bytes) (directory : Directory) : Prop :=
  ∃ rec, (directory.resolveReply fiberId).resolved foreign = .ok rec ∧
    (rec = .none ∨ ∃ verdict, verifyRecord crypto rec now = .ok verdict)

/-- Whatever is asked before a directory that knows the id answers, up to the first record that
verifies. -/
def ResolveHarmless (fiberId : Bytes) : Prop :=
  ∀ before directory after, directories = before ++ directory :: after →
    (∀ b ∈ before, ∀ rec, ¬Accepts crypto fiberId now (client foreign b) rec) →
    (∃ a ∈ after, Knows crypto foreign now fiberId a) → Answers crypto foreign now fiberId directory

end

variable {crypto : Crypto} {foreign : Value → Except Exc Value} {directories : List Directory}
  {now : Int} {fiberId : Bytes} {topK : Nat}

/-! ### Searching -/

theorem perPeer_eq : (directories.map Directory.searchReply).filterMap
    (DirectoryReply.searched foreign) =
      directories.filterMap fun directory => directory.searchReply.searched foreign := by
  rw [List.filterMap_map]
  rfl

/-- A search returns exactly on what is harmless, and then it has merged all of it. -/
theorem federatedSearch_cases (crypto : Crypto) (topK : Nat) :
    (∃ merge, federatedSearch crypto foreign (directories.map Directory.searchReply) now topK =
        .ok (merge.merged.take topK) ∧
      Merging crypto now (roundRobin (arrived foreign directories)) merge ∧
      SearchHarmless crypto foreign directories now) ∨
    (∃ e,
      federatedSearch crypto foreign (directories.map Directory.searchReply) now topK = .error e) ∧
      ¬SearchHarmless crypto foreign directories now := by
  rw [federatedSearch, perPeer_eq]
  by_cases hiter : ∀ directory ∈ directories, ∀ value,
      directory.searchReply.searched foreign = some value → ∃ items, value.iter = .ok items
  · have hvalues : ∀ value ∈ directories.filterMap fun directory =>
        directory.searchReply.searched foreign, value.iter = .ok (valueOr value.iter []) := by
      intro value hvalue
      obtain ⟨directory, hdirectory, hsearched⟩ := List.mem_filterMap.mp hvalue
      obtain ⟨items, hitems⟩ := hiter directory hdirectory value hsearched
      rw [hitems]
      rfl
    rw [mapM_eq_ok hvalues]
    rcases mergeLists_cases (arrived foreign directories) with
      ⟨merge, hmerge, hmerging, hreadable⟩ | ⟨⟨e, hmerge⟩, hunreadable⟩
    · refine .inl ⟨merge, ?_, hmerging, hiter, hreadable⟩
      change (mergeLists crypto now (arrived foreign directories) >>= _) = _
      rw [hmerge]
      rfl
    · refine .inr ⟨⟨e, ?_⟩, fun h => hunreadable h.2⟩
      change (mergeLists crypto now (arrived foreign directories) >>= _) = _
      rw [hmerge]
      rfl
  · refine .inr ⟨?_, fun h => hiter h.1⟩
    cases hmapM : (directories.filterMap fun directory =>
        directory.searchReply.searched foreign).mapM Value.iter with
    | error e => exact ⟨e, rfl⟩
    | ok lists =>
        refine absurd (fun directory hdirectory value hsearched => ?_) hiter
        exact ok_of_mapM hmapM value (List.mem_filterMap.mpr ⟨directory, hdirectory, hsearched⟩)

theorem searchFinds_iff :
    SearchFinds crypto foreign directories now topK ↔
      SearchHarmless crypto foreign directories now := by
  rcases federatedSearch_cases crypto topK with
    ⟨merge, hsearch, hmerging, hharmless⟩ | ⟨⟨e, hsearch⟩, hharmful⟩
  · refine iff_of_true ⟨_, hsearch, ?_⟩ hharmless
    intro directory hdirectory items hsearched rec hrec hverified
    have hanswered : rec ∈ roundRobin (arrived foreign directories) := by
      refine mem_roundRobin.mpr ⟨items, List.mem_map.mpr ⟨.list items, ?_, rfl⟩, hrec⟩
      exact List.mem_filterMap.mpr ⟨directory, hdirectory, hsearched⟩
    obtain ⟨kept, hkept, hsame⟩ := hmerging.found rec hanswered hverified
    rw [← List.take_append_drop topK merge.merged] at hkept
    rcases List.mem_append.mp hkept with hin | hout
    · exact .inl ⟨kept, hin, hsame⟩
    · have hpos := List.length_pos_of_mem hout
      rw [List.length_drop] at hpos
      rw [List.length_take]
      omega
  · refine iff_of_false ?_ hharmful
    intro ⟨results, hresults, _⟩
    rw [hsearch] at hresults
    cases hresults

/-! ### Resolving -/

theorem Accepts.answers {directory : Directory} {rec : Value}
    (h : Accepts crypto fiberId now (client foreign directory) rec) :
    Answers crypto foreign now fiberId directory :=
  ⟨rec, h.1, .inr ⟨true, h.2.2⟩⟩

theorem Passes.answers {directory : Directory}
    (h : Passes crypto fiberId now (client foreign directory)) :
    Answers crypto foreign now fiberId directory := by
  rcases h with hnone | ⟨rec, hanswer, hverify⟩
  · exact ⟨.none, hnone, .inl rfl⟩
  · exact ⟨rec, hanswer, .inr ⟨false, hverify⟩⟩

theorem Passes.not_accepts {c : DirectoryClient} (h : Passes crypto fiberId now c) (rec : Value) :
    ¬Accepts crypto fiberId now c rec := by
  intro ⟨hanswer, hrec, hverify⟩
  rcases h with hnone | ⟨rec', hanswer', hverify'⟩
  · exact hrec (Except.ok.inj (hanswer.symm.trans hnone))
  · obtain rfl := Except.ok.inj (hanswer.symm.trans hanswer')
    cases hverify.symm.trans hverify'

/-- A directory that answers is passed over or believed. -/
theorem Answers.passes_or_accepts {directory : Directory}
    (h : Answers crypto foreign now fiberId directory) :
    Passes crypto fiberId now (client foreign directory) ∨
      ∃ rec, Accepts crypto fiberId now (client foreign directory) rec := by
  obtain ⟨rec, hanswer, hnone | ⟨verdict, hverify⟩⟩ := h
  · rw [hnone] at hanswer
    exact .inl (.inl hanswer)
  · cases verdict with
    | false => exact .inl (.inr ⟨rec, hanswer, hverify⟩)
    | true =>
        refine .inr ⟨rec, hanswer, ?_, hverify⟩
        intro hrec
        rw [hrec] at hverify
        cases hverify

/-- What a resolve that returns a record has asked are directories that answer. -/
theorem harmless_of_resolve {rec : Value} (hrec : rec ≠ .none)
    (hresolve : resolve crypto fiberId now (directories.map (client foreign)) = .ok rec) :
    ResolveHarmless crypto foreign directories now fiberId := by
  obtain ⟨passed, c, rest, hclients, hpassed, haccepts⟩ := (resolve_eq_ok hrec).mp hresolve
  intro before directory after hsplit hbefore _
  rw [hsplit, List.map_append, List.map_cons] at hclients
  rcases List.append_eq_append_iff.mp hclients with ⟨mid, hmid, hrest⟩ | ⟨mid, hmid, hrest⟩
  · cases mid with
    | nil =>
        obtain ⟨rfl, -⟩ := List.cons.inj hrest
        exact haccepts.answers
    | cons m mid =>
        obtain ⟨rfl, -⟩ := List.cons.inj hrest
        apply Passes.answers
        exact hpassed _ (hmid ▸ List.mem_append_right _ List.mem_cons_self)
  · cases mid with
    | nil =>
        obtain ⟨rfl, -⟩ := List.cons.inj hrest
        exact haccepts.answers
    | cons m mid =>
        -- the directory that was believed is among those before
        obtain ⟨rfl, -⟩ := List.cons.inj hrest
        have hmem : c ∈ before.map (client foreign) :=
          hmid ▸ List.mem_append_right _ List.mem_cons_self
        obtain ⟨b, hb, rfl⟩ := List.mem_map.mp hmem
        exact absurd haccepts (hbefore b hb rec)

/-- Passing over a directory leaves the rest to be asked. -/
theorem ResolveHarmless.tail {directory : Directory}
    (h : ResolveHarmless crypto foreign (directory :: directories) now fiberId)
    (hpasses : Passes crypto fiberId now (client foreign directory)) :
    ResolveHarmless crypto foreign directories now fiberId := by
  intro before next after hsplit hbefore
  apply h (directory :: before) next after (by rw [hsplit, List.cons_append])
  exact List.forall_mem_cons.mpr ⟨hpasses.not_accepts, hbefore⟩

theorem resolveFinds_of_harmless (h : ResolveHarmless crypto foreign directories now fiberId) :
    ResolveFinds crypto foreign directories now fiberId := by
  intro hknows
  induction directories with
  | nil =>
      obtain ⟨_, hmem, _⟩ := hknows
      cases hmem
  | cons directory directories ih =>
      have hanswers : Answers crypto foreign now fiberId directory := by
        obtain ⟨known, hknown, rec, haccepts, hid⟩ := hknows
        rcases List.mem_cons.mp hknown with rfl | hrest
        · exact haccepts.answers
        · exact h [] directory directories rfl (List.forall_mem_nil _)
            ⟨known, hrest, rec, haccepts, hid⟩
      rw [List.map_cons]
      rcases hanswers.passes_or_accepts with hpasses | ⟨rec, haccepts⟩
      · rw [resolve_of_passes hpasses]
        apply ih (h.tail hpasses)
        obtain ⟨known, hknown, rec, haccepts, hid⟩ := hknows
        rcases List.mem_cons.mp hknown with rfl | hrest
        · exact absurd haccepts (hpasses.not_accepts rec)
        · exact ⟨known, hrest, rec, haccepts, hid⟩
      · exact ⟨rec, haccepts.2.1, resolve_of_accepts haccepts _⟩

theorem resolveFinds_iff : ResolveFinds crypto foreign directories now fiberId ↔
    ResolveHarmless crypto foreign directories now fiberId := by
  constructor
  · intro hfinds before directory after hsplit hbefore hknows
    obtain ⟨known, hknown, hid⟩ := hknows
    have hmem : known ∈ directories :=
      hsplit ▸ List.mem_append_right _ (List.mem_cons_of_mem _ hknown)
    obtain ⟨rec, hrec, hresolve⟩ := hfinds ⟨known, hmem, hid⟩
    exact harmless_of_resolve hrec hresolve before directory after hsplit hbefore
      ⟨known, hknown, hid⟩
  · exact resolveFinds_of_harmless

/-- **What a faulty directory hides.** A search finds what the directories list exactly where
whatever arrives can be looked at, and a resolve finds a record that a directory knows exactly where
nothing raises before the first one that verifies. -/
theorem faults_are_confined_iff (crypto : Crypto) (foreign : Value → Except Exc Value)
    (directories : List Directory) (now : Int) :
    (∀ topK, SearchFinds crypto foreign directories now topK ↔
      SearchHarmless crypto foreign directories now) ∧
    ∀ fiberId, ResolveFinds crypto foreign directories now fiberId ↔
      ResolveHarmless crypto foreign directories now fiberId :=
  ⟨fun _ => searchFinds_iff, fun _ => resolveFinds_iff⟩

/-! ### A directory that answers with a number

It answers a search with a number, and loses the connection during a resolve. The other one knows
the record. -/

def responseWith (body : Bytes) : DirectoryReply :=
  .answers [(.str "typ", .str "Response"), (.str "body", .bytes body)]

def faultyDirectory : Directory :=
  { searchReply := responseWith [0], resolveReply _ := .raises .raised }

def honestDirectory : Directory :=
  { searchReply := responseWith (bytesOf (Serde.toCbor [sampleSigned]))
    resolveReply _ := responseWith (bytesOf (Serde.toCbor sampleSigned)) }

/-- `cbor.decode` of what is not a byte string. -/
def notBytes (_ : Value) : Except Exc Value := .error .typeError

theorem sampleSigned_verified : Verified .checked 5 (.of sampleSigned) := by
  rw [Verified]
  decide +kernel

theorem honestDirectory_lists :
    honestDirectory.searchReply.searched notBytes = some (.list [.of sampleSigned]) := by
  have hdecode : decode (bytesOf (Serde.toCbor [sampleSigned])) = .ok (.of [sampleSigned]) :=
    decode_eq_ok.mpr ⟨_, decode_bytesOf (by decide +kernel), built_of _⟩
  change (decode (bytesOf (Serde.toCbor [sampleSigned]))).toOption = _
  rw [hdecode, of_list]
  rfl

theorem honestDirectory_knows :
    Knows .checked notBytes 5 sampleSigned.id.bytes honestDirectory := by
  refine ⟨.of sampleSigned, ⟨?_, nofun, sampleSigned_verified⟩, rfl⟩
  exact decode_eq_ok.mpr ⟨_, decode_bytesOf (by decide +kernel), built_of sampleSigned⟩

theorem faulty_directory_hides_the_other :
    -- the honest directory lists a record that verifies, and knows it
    (honestDirectory.searchReply.searched notBytes = some (.list [.of sampleSigned]) ∧
      Verified .checked 5 (.of sampleSigned) ∧
      Knows .checked notBytes 5 sampleSigned.id.bytes honestDirectory) ∧
    -- and is not heard after the faulty one
    federatedSearch .checked notBytes
      ([faultyDirectory, honestDirectory].map Directory.searchReply) 5 5 = .error .typeError ∧
    resolve .checked sampleSigned.id.bytes 5
      ([faultyDirectory, honestDirectory].map (client notBytes)) = .error .raised ∧
    ¬SearchFinds .checked notBytes [faultyDirectory, honestDirectory] 5 5 ∧
    ¬ResolveFinds .checked notBytes [faultyDirectory, honestDirectory] 5 sampleSigned.id.bytes := by
  have hsearch : federatedSearch .checked notBytes
      ([faultyDirectory, honestDirectory].map Directory.searchReply) 5 5 = .error .typeError := by
    rfl
  have hresolve : resolve .checked sampleSigned.id.bytes 5
      ([faultyDirectory, honestDirectory].map (client notBytes)) = .error .raised := by
    rfl
  refine ⟨⟨honestDirectory_lists, sampleSigned_verified, honestDirectory_knows⟩, hsearch, hresolve,
    ?_, ?_⟩
  · intro ⟨results, hresults, _⟩
    rw [hsearch] at hresults
    cases hresults
  · intro hfinds
    obtain ⟨rec, -, hfound⟩ := hfinds ⟨honestDirectory, by simp, honestDirectory_knows⟩
    rw [hresolve] at hfound
    cases hfound

end Thicket.Py
