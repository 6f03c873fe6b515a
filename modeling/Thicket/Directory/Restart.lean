import Thicket.Directory.Ownership
import Thicket.Lib.Run
import Thicket.Py.Builders

/-!
# Restarting a fiber

`thicket/fiber.py` publishes a fiber when it starts, with a record that `self_record` builds for the
identity and that always has version 1. The directory takes a version only if it is newer than the
one it holds, whether or not that one has expired, so that a start is published when nothing is left
of the starts before it.
-/

namespace Thicket.Restart

open Cbor (Bytes)
open Directory Registry Result Serde

variable {crypto : Crypto} {embedder : Embedder} {root : RootKey crypto}

/-- `LocalIdentity`, as far as a record is built from it. -/
structure LocalIdentity (crypto : Crypto) where
  root : RootKey crypto
  working : WorkingKey crypto
  endorsements : List Py.Value

/-- The keyword arguments of `self_record`. -/
structure SelfRecordArgs where
  kind : String
  capabilities : List Py.Value
  locators : List Py.Value
  schema : String := "thicket/record/1"
  visibility : String := "Public"
  leaseTtl : Int := 3600
  version : Int := 1
  profile : Option Py.StrMap := none
  supports : Option Py.StrMap := none
  ext : Option Py.StrMap := none

/-- `now` is what `unix_now()` gives. -/
def selfRecord (ident : LocalIdentity crypto) (args : SelfRecordArgs) (now : Int) :
    Except Py.Exc Py.Value := do
  let endorsement ← okOr ident.endorsements[0]? .indexError
  let payload := Py.Record.buildPayload
    { schema := args.schema, root := ident.root, endorsement, kind := args.kind,
      locators := some args.locators, capabilities := some args.capabilities,
      profile := args.profile, supports := args.supports, visibility := args.visibility,
      lease := Py.Record.lease args.leaseTtl now (now + args.leaseTtl), version := args.version,
      ext := args.ext }
  Py.Record.sign payload ident.working

/-- The body of the request by which `run_fiber` registers the fiber it serves at `endpoint`. -/
def registration (ident : LocalIdentity crypto) (kind : String) (capabilities : List Py.Value)
    (profile : Option Py.StrMap) (endpoint : String) (now : Int) : Except Py.Exc Bytes := do
  let signed ← selfRecord ident
    { kind, capabilities, locators := [Py.Record.locator "tcp" endpoint], profile } now
  Py.encode signed

/-- One start of the fiber: a process with a working key that the root key has endorsed, served at
an endpoint of its own. Its request is authenticated as the identity. -/
structure Start (root : RootKey crypto) where
  working : WorkingKey crypto
  endorsement : KeyEndorsement
  hendorsement : root.endorse working.public endorsement.notBefore endorsement.notAfter =
    .ok endorsement
  kind : String
  capabilities : List Py.CapabilityArgs
  profile : Option Py.StrMap
  endpoint : String
  /-- The clock of the fiber when it builds the record. -/
  builtAt : UInt64
  hbuiltAt : builtAt.toNat + 3600 < 2 ^ 64
  req : Net.Request
  hcapability : req.capability = capabilityRegister
  hpeer : req.peer.id = root.id
  hbody : registration { root, working, endorsements := [.of endorsement] } kind
    (capabilities.map Py.CapabilityArgs.build) profile endpoint builtAt.toNat = .ok req.body
  /-- The clock of the directory when it serves the request. -/
  now : UInt64

namespace Start

def args (s : Start root) : Py.RecordArgs crypto :=
  { schema := "thicket/record/1", root, endorsement := s.endorsement, kind := s.kind,
    locators := some [{ protocol := "tcp", endpoint := s.endpoint }],
    capabilities := some s.capabilities, profile := s.profile, supports := none,
    visibility := .public,
    lease := some { ttl := 3600, issuedAt := s.builtAt, expiresAt := s.builtAt + 3600 },
    version := 1, ext := none }

/-- The record a start publishes. -/
def record (s : Start root) : SignedRecord :=
  valueOr (s.args.payload.sign s.working) ⟨s.args.payload, [], []⟩

theorem expiresAt_toNat (s : Start root) : (s.builtAt + 3600).toNat = s.builtAt.toNat + 3600 := by
  rw [UInt64.toNat_add]
  exact Nat.mod_eq_of_lt s.hbuiltAt

theorem build_eq (s : Start root) : s.args.build = Py.Record.buildPayload
    { schema := "thicket/record/1", root, endorsement := .of s.endorsement, kind := s.kind,
      locators := some [Py.Record.locator "tcp" s.endpoint],
      capabilities := some (s.capabilities.map Py.CapabilityArgs.build),
      profile := s.profile, supports := none, visibility := "Public",
      lease := Py.Record.lease 3600 s.builtAt.toNat (s.builtAt.toNat + 3600), version := 1,
      ext := none } := by
  have hexpires : (((s.builtAt + 3600).toNat : Nat) : Int) = s.builtAt.toNat + 3600 := by
    rw [s.expiresAt_toNat]
    rfl
  simp only [Py.RecordArgs.build, args, Option.map_some, Option.elim_some, hexpires, List.map_cons,
    List.map_nil]
  rfl

/-- What the process signs and sends is what the directory reads. -/
theorem sign_eq (s : Start root) : s.args.payload.sign s.working = .ok s.record ∧
    fromReader s.req.body = some s.record := by
  have hbody := s.hbody
  simp only [registration, selfRecord, bind_eq_ok, okOr_eq_ok, List.getElem?_cons_zero,
    Option.some.injEq, exists_eq_left'] at hbody
  rw [← s.build_eq, s.args.build_eq] at hbody
  obtain ⟨v, hv, hencode⟩ := hbody
  obtain ⟨signed, hsigned, rfl⟩ := Py.signRecord_of.mp hv
  have hrecord : s.record = signed := by rw [record, hsigned, valueOr]
  rw [hrecord]
  exact ⟨hsigned, fromReader_intoWriter (Py.encode_ofItem.mp hencode)⟩

@[simp] theorem record_payload (s : Start root) : s.record.payload = s.args.payload := by
  obtain ⟨hsign, -⟩ := s.sign_eq
  simp only [RecordPayload.sign, bind_eq_ok, pure_eq_ok] at hsign
  obtain ⟨msg, -, hrecord⟩ := hsign
  rw [← hrecord]

theorem record_id (s : Start root) : s.record.id = root.id := by
  rw [SignedRecord.id, s.record_payload]
  rfl

theorem record_version (s : Start root) : s.record.payload.version = 1 := by
  rw [s.record_payload]
  rfl

/-- The key is inside the window it is endorsed for and not revoked. -/
def Endorsed (s : Start root) (revocations : RevocationSet) : Prop :=
  s.endorsement.notBefore ≤ s.now ∧ s.now ≤ s.endorsement.notAfter ∧
    revocations.isRevoked s.working.public = false

theorem endorsement_workingPub (s : Start root) : s.endorsement.workingPub = s.working.public := by
  have h := s.hendorsement
  simp only [Thicket.RootKey.endorse, bind_eq_ok, pure_eq_ok] at h
  obtain ⟨msg, -, hendorsement⟩ := h
  rw [← hendorsement]

theorem verifyEndorsement (hsign : crypto.SignVerifies) (s : Start root) :
    Thicket.verifyEndorsement crypto root.public s.endorsement = .ok () := by
  have h := s.hendorsement
  simp only [Thicket.RootKey.endorse, bind_eq_ok, pure_eq_ok] at h
  obtain ⟨msg, hmsg, hendorsement⟩ := h
  apply verifyEndorsement_eq_ok.mpr
  refine ⟨msg, ?_, ?_⟩
  · rw [← hmsg, KeyEndorsement.view, s.endorsement_workingPub]
  · rw [← hendorsement]
    exact WorkingKey.verify_sign hsign ⟨root.signing⟩ msg

theorem verify_iff (hsign : crypto.SignVerifies) (s : Start root) (revocations : RevocationSet) :
    s.record.verify crypto s.now revocations = .ok () ↔ s.Endorsed revocations := by
  obtain ⟨hrecord, -⟩ := s.sign_eq
  simp only [RecordPayload.sign, bind_eq_ok, pure_eq_ok] at hrecord
  obtain ⟨msg, hmsg, hrecord⟩ := hrecord
  have hsigner : s.record.signerPub = s.working.public := by rw [← hrecord]
  have hpayload : s.record.verifyPayload crypto = .ok () := by
    rw [← hrecord]
    exact SignedRecord.verifyPayload_eq_ok.mpr ⟨msg, hmsg, s.working.verify_sign hsign msg⟩
  have hfind : s.record.payload.keys.find? (fun e => e.workingPub == s.record.signerPub) =
      some s.endorsement := by
    rw [record_payload, hsigner]
    show [s.endorsement].find? _ = _
    rw [List.find?_cons_of_pos]
    rw [s.endorsement_workingPub]
    exact beq_self_eq_true _
  rw [SignedRecord.verify_eq_ok, verifyWorkingKey_eq_ok, hfind, hsigner, record_payload]
  constructor
  · intro h
    obtain ⟨⟨_, ⟨e, he, _, hbefore, hafter⟩, hrevoked⟩, _⟩ := h
    obtain rfl := Option.some.inj he
    exact ⟨hbefore, hafter, hrevoked⟩
  · intro h
    obtain ⟨hbefore, hafter, hrevoked⟩ := h
    have hid : Id.fromRootPublic crypto root.public = .ok root.id := root.fromRootPublic
    exact ⟨⟨hid, ⟨s.endorsement, rfl, s.verifyEndorsement hsign, hbefore, hafter⟩, hrevoked⟩,
      hpayload⟩

end Start

/-! ### Runs -/

/-- What happens at the directory: a start of the fiber, a request of another identity, or a sweep
of the registry. -/
inductive Event (embedder : Embedder) (root : RootKey crypto) where
  | start (s : Start root)
  | request (arrival : Arrival embedder) (hother : arrival.req.peer.id ≠ root.id)
  | sweep (now : UInt64)

/-- The registry, the latest time it was used at, and the latest start with the reply to it. -/
structure State (embedder : Embedder) (root : RootKey crypto) where
  registry : Registry embedder
  clock : Nat
  latest : Option (Start root × Net.Reply)

def State.initial (root : RootKey crypto) (registry : Registry embedder) :
    State embedder root :=
  { registry, clock := 0, latest := none }

/-- The reader of request bodies. -/
abbrev read (α : Type) [Deserialize α] (bytes : Bytes) : Option α := fromReader bytes

def step (state : State embedder root) : Event embedder root → State embedder root
  | .start s =>
      let (registry, reply) := handle crypto read state.registry [] s.req s.now
      { registry, clock := max state.clock s.now.toNat, latest := some (s, reply) }
  | .request arrival _ =>
      { state with registry := serve crypto read state.registry arrival,
                   clock := max state.clock arrival.now.toNat }
  | .sweep now =>
      { state with registry := (state.registry.sweepExpired now).1,
                   clock := max state.clock now.toNat }

/-- The latest start was accepted, and until its lease runs out every lookup of the identity is
answered with the record of that start. -/
def Restarted (state : State embedder root) : Prop :=
  ∀ s reply, state.latest = some (s, reply) → reply = .ok [] ∧
    ∀ (arrival : Arrival embedder), arrival.req.capability = capabilityResolve →
      fromReader arrival.req.body = some root.id → state.clock ≤ arrival.now.toNat →
      leaseExpired s.record arrival.now = false →
      (handle crypto read state.registry arrival.values arrival.req arrival.now).2 =
        encodeReply s.record

/-- Nothing is left of an earlier start, and the key is good. -/
def Vacant (state : State embedder root) : Event embedder root → Prop
  | .start s => s.Endorsed state.registry.revocations ∧
      ∀ old, state.registry.record? root.id = some old → old.payload.version < 1
  | .request _ _ | .sweep _ => True

/-- The registry has the record of the latest start, or the time at which it could evict that has
passed. -/
def Published (state : State embedder root) : Prop :=
  ∀ s reply, state.latest = some (s, reply) → reply = .ok [] ∧
    (state.registry.record? root.id = some s.record ∨
      ∃ t : UInt64, t.toNat ≤ state.clock ∧ leaseExpired s.record t = true)

variable {state : State embedder root}

theorem published_initial (registry : Registry embedder) :
    Published (State.initial root registry) := by
  intro s reply h
  cases h

theorem handle_start (registry : Registry embedder) (s : Start root) :
    handle crypto read registry [] s.req s.now =
      match registry.register crypto s.record s.now with
      | .ok next => (next, .ok [])
      | .error e => (registry, .error .conflict e.toString) := by
  have hid : s.record.payload.id = s.req.peer.id := by
    rw [s.hpeer]
    exact s.record_id
  rw [handle, if_pos s.hcapability, handleRegister, read, s.sign_eq.2]
  exact if_neg (not_not_intro hid)

/-- A start is accepted where there is a place for it. -/
theorem exists_register_start (hsign : crypto.SignVerifies) (s : Start root) :
    (∃ next, state.registry.register crypto s.record s.now = .ok next) ↔
      Vacant state (.start s) := by
  rw [exists_register_ok, s.verify_iff hsign, s.record_id, s.record_version]
  rfl

theorem resolve_of_published {s : Start root} {registry : Registry embedder} {now : UInt64}
    (hrecord : registry.record? root.id = some s.record)
    (hlive : leaseExpired s.record now = false) : registry.resolve root.id now = .ok s.record := by
  refine resolve_ok.mpr ⟨hrecord, hlive, ?_⟩
  rw [s.record_payload]
  exact Visibility.noConfusion

theorem Published.restarted (h : Published state) : Restarted state := by
  intro s reply hlatest
  obtain ⟨hreply, hentry⟩ := h s reply hlatest
  refine ⟨hreply, fun arrival hcapability hbody hclock hlive => ?_⟩
  have hhandle : handle crypto read state.registry arrival.values arrival.req arrival.now =
      handleResolve read state.registry arrival.req arrival.now := by
    rw [handle, if_neg, if_pos hcapability]
    rw [hcapability]
    decide
  rcases hentry with hrecord | ⟨t, ht, hexpired⟩
  · rw [hhandle, handleResolve, read, hbody]
    simp only [resolve_of_published hrecord hlive]
  · have hle : t ≤ arrival.now := UInt64.le_iff_toNat_le.mpr (Nat.le_trans ht hclock)
    rw [leaseExpired_mono hexpired hle] at hlive
    cases hlive

/-! ### Steps -/

theorem published_start (hsign : crypto.SignVerifies) {s : Start root}
    (hvacant : Vacant state (.start s)) : Published (step state (.start s)) := by
  obtain ⟨next, hregister⟩ := (exists_register_start hsign s).mpr hvacant
  obtain ⟨-, -, -, hentry⟩ := register_ok hregister
  intro s' reply hlatest
  simp only [step, handle_start, hregister, Option.some.injEq, Prod.mk.injEq] at hlatest
  obtain ⟨rfl, rfl⟩ := hlatest
  refine ⟨rfl, .inl ?_⟩
  simp only [step, handle_start, hregister]
  rw [hentry, if_pos s.record_id.symm]

theorem vacant_of_restarted (hsign : crypto.SignVerifies) {s : Start root}
    (h : Restarted (step state (.start s))) : Vacant state (.start s) := by
  cases hregister : state.registry.register crypto s.record s.now with
  | ok next => exact (exists_register_start hsign s).mp ⟨next, hregister⟩
  | error e =>
      have hlatest : (step state (.start s)).latest =
          some (s, .error .conflict e.toString) := by
        simp only [step, handle_start, hregister]
      exact absurd (h s _ hlatest).1 Net.Reply.noConfusion

theorem record?_serve {arrival : Arrival embedder} (registry : Registry embedder)
    (hother : arrival.req.peer.id ≠ root.id) :
    (serve crypto read registry arrival).record? root.id = registry.record? root.id := by
  have hsame : SameFor root.id (serve crypto read registry arrival) registry := by
    rw [serve, served_handle.1]
    exact Effect.sameFor_of_ne _ hother.symm
  rw [record?, record?, hsame.1]

theorem Published.other {event : Event embedder root} (h : Published state)
    (hevent : ∀ s, event ≠ .start s) : Published (step state event) := by
  cases event with
  | start s => exact absurd rfl (hevent s)
  | request arrival hother =>
      intro s reply hlatest
      obtain ⟨hreply, hentry⟩ := h s reply hlatest
      refine ⟨hreply, ?_⟩
      simp only [step, record?_serve _ hother]
      rcases hentry with hrecord | ⟨t, ht, hexpired⟩
      · exact .inl hrecord
      · exact .inr ⟨t, Nat.le_trans ht (Nat.le_max_left _ _), hexpired⟩
  | sweep now =>
      intro s reply hlatest
      obtain ⟨hreply, hentry⟩ := h s reply hlatest
      refine ⟨hreply, ?_⟩
      rcases hentry with hrecord | ⟨t, ht, hexpired⟩
      · cases hexpired : leaseExpired s.record now with
        | true => exact .inr ⟨now, Nat.le_max_right _ _, hexpired⟩
        | false =>
            left
            simp only [step, record?_sweepExpired, hrecord, Option.filter_some, hexpired]
            rfl
      · exact .inr ⟨t, Nat.le_trans ht (Nat.le_max_left _ _), hexpired⟩

/-- Every start of an identity is accepted, and its record is what the directory answers with until
the next one, just when each start finds nothing of the earlier ones in the registry. -/
theorem restart_iff (hsign : crypto.SignVerifies) (registry : Registry embedder)
    (events : List (Event embedder root)) :
    (∀ state ∈ Run.states step (State.initial root registry) events, Restarted state) ↔
      Run.EachStep step Vacant (State.initial root registry) events := by
  refine Run.states_property_iff (fun _ (h : Published _) => h.restarted) ?_ ?_
    (published_initial registry)
  · intro state event h
    cases event with
    | start s =>
        refine ⟨vacant_of_restarted hsign, fun hvacant => ?_⟩
        exact (published_start hsign hvacant).restarted
    | request arrival hother => exact iff_of_true (h.other (by simp)).restarted trivial
    | sweep now => exact iff_of_true (h.other (by simp)).restarted trivial
  · intro state event h hvacant
    cases event with
    | start s => exact published_start hsign hvacant
    | request arrival hother => exact h.other (by simp)
    | sweep now => exact h.other (by simp)

/-! ### Two starts -/

def sampleRoot : RootKey Crypto.checked := ⟨(1 : UInt8)⟩

def sampleEndorsement : KeyEndorsement :=
  valueOr (sampleRoot.endorse (seedPublic 2) 0 1000000) ⟨[], 0, 0, []⟩

def sampleIdentity : LocalIdentity .checked :=
  { root := sampleRoot, working := ⟨(2 : UInt8)⟩, endorsements := [.of sampleEndorsement] }

def sampleBody (endpoint : String) (time : UInt64) : Except Py.Exc Bytes :=
  registration sampleIdentity "memory" [] none endpoint time.toNat

def sampleRequest (capability : String) (body : Bytes) : Net.Request :=
  { capability, body, auth := none,
    peer := { id := sampleRoot.id, workingPub := seedPublic 2, keyNotAfter := 1000000 },
    envelope :=
      { payload := .response sampleRoot.id sampleRoot.id [], signerPub := [], signature := [] } }

/-- A start of one identity at a time, on an endpoint. -/
def sampleStart (endpoint : String) (time : UInt64) (htime : time.toNat + 3600 < 2 ^ 64)
    (body : Bytes) (hbody : sampleBody endpoint time = .ok body) : Start sampleRoot where
  working := ⟨(2 : UInt8)⟩
  endorsement := sampleEndorsement
  hendorsement := by decide +kernel
  kind := "memory"
  capabilities := []
  profile := none
  endpoint := endpoint
  builtAt := time
  hbuiltAt := htime
  req := sampleRequest capabilityRegister body
  hcapability := rfl
  hpeer := rfl
  hbody := hbody
  now := time

def firstStart : Start sampleRoot :=
  sampleStart "127.0.0.1:4001" 10 (by decide) (valueOr (sampleBody "127.0.0.1:4001" 10) [])
    (eq_ok_valueOr (by decide +kernel))

/-- The lease of the first start runs out at 3610. -/
def secondStart : Start sampleRoot :=
  sampleStart "127.0.0.1:4002" 10000 (by decide) (valueOr (sampleBody "127.0.0.1:4002" 10000) [])
    (eq_ok_valueOr (by decide +kernel))

def emptyDirectory : State .exact sampleRoot := State.initial sampleRoot (Registry.new .exact)

/-- With a sweep between the two starts, both are accepted. -/
theorem restart_after_sweep :
    Run.EachStep step Vacant emptyDirectory [.start firstStart, .sweep 5000, .start secondStart] ∧
    ∀ state ∈ Run.states step emptyDirectory [.start firstStart, .sweep 5000, .start secondStart],
      Restarted state := by
  have hfirst : emptyDirectory.registry.record? sampleRoot.id = none := by decide +kernel
  have hswept : (step (step emptyDirectory (.start firstStart)) (.sweep 5000)).registry.record?
      sampleRoot.id = none := by decide +kernel
  have hvacant {state : State .exact sampleRoot} {s : Start sampleRoot}
      (hnone : state.registry.record? sampleRoot.id = none)
      (hgood : s.Endorsed state.registry.revocations) : Vacant state (.start s) := by
    refine ⟨hgood, fun old hold => ?_⟩
    rw [hnone] at hold
    cases hold
  have heach : Run.EachStep step Vacant emptyDirectory
      [.start firstStart, .sweep 5000, .start secondStart] := by
    refine ⟨hvacant hfirst ?_, trivial, hvacant hswept ?_, trivial⟩
    · refine ⟨?_, ?_, ?_⟩ <;> decide +kernel
    · refine ⟨?_, ?_, ?_⟩ <;> decide +kernel
  exact ⟨heach, (restart_iff Crypto.checked_signVerifies _ _).mpr heach⟩

/-- Without a sweep the second start is refused as stale, though the first lease has run out. -/
theorem second_start_is_stale :
    ¬∀ state ∈ Run.states step emptyDirectory [.start firstStart, .start secondStart],
      Restarted state := by
  intro hall
  have hreply : (step (step emptyDirectory (.start firstStart)) (.start secondStart)).latest.map
      Prod.snd = some (.error .conflict "stale: version is not newer than the current record") := by
    decide +kernel
  obtain ⟨⟨s, reply⟩, hlatest, rfl⟩ := Option.map_eq_some_iff.mp hreply
  have hok := (hall _ Run.exec_mem_states s _ hlatest).1
  cases hok

end Thicket.Restart
