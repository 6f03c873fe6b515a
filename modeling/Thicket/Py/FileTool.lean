import Thicket.Lib.Run
import Thicket.Py.Confinement
import Thicket.Py.FileStore
import Thicket.Py.Terminal

/-!
# The filesystem tool

`fibers/py/tool_fs/fs.py`: a fiber whose files are a dictionary, and whose three capabilities each
require a grant that the path satisfies. A file is changed only by a request with a grant for it, so
a group of agents changes no more than what was handed to the group, in any number of requests,
whatever grants its members make for each other. How values are shown by `repr` and `str`,
exceptions by `excText`, and what `_decode` makes of a body that is no byte string are arguments.
-/

namespace Thicket.Py

open Cbor (Bytes)
open Result

/-- The arguments of `fs.run` that the handler reads. -/
structure FileTool (crypto : Crypto) where
  localId : LocalIdentity crypto
  sink : Value
  requireGrant : Bool
  revocations : Finset Bytes
  checkpoints : Option (Value → Except Exc Unit)

/-! ### Requests that are let in -/

namespace Fiber

variable {crypto : Crypto} {self : Fiber crypto} {repr str : Value → String} {peerPub : Bytes}
  {payload env ctx : Value} {now unixNow : Int} {name name' : String} {entry entry' : Cap}

theorem grantOk_of_openGate
    (h : self.openGate name entry peerPub payload env unixNow = .ok (.letIn name' entry' ctx))
    (hrequire : entry.requireGrant = true) :
    self.grantOk payload name peerPub unixNow = .ok true := by
  rw [openGate, hrequire, Bool.true_or, if_pos rfl] at h
  obtain ⟨granted, hgranted, h⟩ := bind_eq_ok.mp h
  cases granted with
  | true => exact hgranted
  | false => cases h

/-- A request is let in to a capability that requires a grant only with one. -/
theorem granted_of_decision
    (h : self.decision repr str peerPub payload now unixNow = .ok (.letIn name entry ctx)) :
    (name, entry) ∈ self.caps ∧
      (entry.requireGrant = true → self.grantOk payload name peerPub unixNow = .ok true) := by
  obtain ⟨cap, -, h⟩ := bind_eq_ok.mp h
  obtain ⟨found, hfound, h⟩ := bind_eq_ok.mp h
  cases found with
  | none => cases h
  | some found =>
      obtain ⟨context, -, h⟩ := bind_eq_ok.mp h
      obtain ⟨late, -, h⟩ := bind_eq_ok.mp h
      split_ifs at h
      · cases h
      obtain ⟨spent, -, h⟩ := bind_eq_ok.mp h
      split_ifs at h
      · cases h
      obtain ⟨short, -, h⟩ := bind_eq_ok.mp h
      split_ifs at h
      · obtain ⟨_, -, h⟩ := bind_eq_ok.mp h
        cases h
      obtain ⟨rfl, rfl⟩ := openGate_letIn h
      refine ⟨?_, grantOk_of_openGate h⟩
      rw [getCap] at hfound
      split_ifs at hfound
      exact List.mem_of_find?_eq_some (Except.ok.inj hfound)

/-- The grant that was verified. -/
theorem accepts_of_grantOk (h : self.grantOk payload name peerPub unixNow = .ok true) :
    ∃ auth, payload.get (.str "auth") .none = .ok auth ∧
      (Resource.mk self.localId.rootPublicKey self.localId.endorsements self.revocations).Accepts
        crypto auth peerPub name unixNow := by
  obtain ⟨auth, hauth, h⟩ := bind_eq_ok.mp h
  refine ⟨auth, hauth, ?_⟩
  split at h
  · cases h
  · exact h

end Fiber

/-! ### The capabilities -/

namespace FileTool

/-- The capabilities. -/
inductive Access where
  | read
  | write
  | delete
  deriving DecidableEq

def Access.capability : Access → String
  | read => "fs.read"
  | write => "fs.write"
  | delete => "fs.delete"

def accesses : List Access := [.read, .write, .delete]

section Handlers

variable (repr : Value → String) (excText : Exc → String) (other : Value → Value)

/-- `_decode` -/
def decodeAny (body : Value) : Value :=
  if !body.truthy then .none
  else
    match body with
    | .bytes bs => decodeBody bs
    | body => other body

/-- What a handler raises. -/
def raising {α : Type} (x : Except Exc α) : Except Raised α :=
  x.mapError fun e => .exception (excText e)

/-- `_enforce_path` -/
def enforcePath (grant path : Value) : Except Raised Unit := do
  if ← raising excText (Grant.satisfies repr grant (.dict [(.str "path", path)])) then return ()
  else .error (.thicketError "Unauthorized" "path not permitted by grant")

/-- `d.pop(k, None)`, as it leaves the dictionary; an empty one is left before the key is hashed. -/
def popItem (d : Entries) (k : Value) : Except Exc Entries :=
  if d.isEmpty then .ok d
  else if k.isHashable then .ok (d.filter fun e => !e.1.eq k)
  else .error .typeError

/-- The path of a request, if the grant permits it. -/
def permitted (grant req : Value) : Except Raised Value := do
  let path ← raising excText (req.getItem "path")
  enforcePath repr excText grant path
  return path

def read (files : Entries) (grant req : Value) : Except Raised Value := do
  let path ← permitted repr excText grant req
  return .dict [(.str "content", ← raising excText ((Value.dict files).get path (.str "")))]

def write (files : Entries) (grant req : Value) : Except Raised Entries := do
  let path ← permitted repr excText grant req
  let content ← raising excText (req.getItem "content")
  raising excText (setItem files path content)

def delete (files : Entries) (grant req : Value) : Except Raised Entries := do
  let path ← permitted repr excText grant req
  raising excText (popItem files path)

/-- The files after a handler that changes them, and what it returns. -/
def changing (files : Entries) (x : Except Raised Entries) : Entries × Except Raised Value :=
  match x with
  | .ok files => (files, .ok (.dict [(.str "ok", .bool true)]))
  | .error e => (files, .error e)

/-- `ctx.grant`, which was verified. -/
def grantOf (payload : Value) : Value := valueOr (payload.get (.str "auth") .none) .none

def requestOf (payload : Value) : Value :=
  decodeAny other (valueOr (payload.get (.str "body") .none) .none)

/-- What the capability's function does with a request, and what it returns. -/
def access (files : Entries) (payload : Value) : Access → Entries × Except Raised Value
  | .read => (files, read repr excText files (grantOf payload) (requestOf other payload))
  | .write =>
      changing files (write repr excText files (grantOf payload) (requestOf other payload))
  | .delete =>
      changing files (delete repr excText files (grantOf payload) (requestOf other payload))

variable {crypto : Crypto} (self : FileTool crypto)

def capOf (files : Entries) (a : Access) : Cap where
  fn := .coroutine fun payload _ => do
    raising excText (encodeBody (← (access repr excText other files payload a).2))
  requireGrant := true
  cost := 0
  durable := false

/-- The fiber, while the files are these. -/
def fiber (files : Entries) : Fiber crypto where
  caps := accesses.map fun a => (a.capability, capOf repr excText other files a)
  localId := self.localId
  sink := self.sink
  requireGrant := self.requireGrant
  revocations := self.revocations
  checkpoints := self.checkpoints

/-- A request, the peer that sent it, and when its checks are made. -/
structure Call where
  peerPub : Bytes
  payload : Value
  now : Int
  unixNow : Int

variable (str : Value → String)

/-- The files after a request, and what is sent. -/
def handle (files : Entries) (call : Call) : Entries × Except Exc (List Frame) :=
  let fiber := self.fiber repr excText other files
  let after :=
    match fiber.decision repr str call.peerPub call.payload call.now call.unixNow with
    | .ok (.letIn name _ _) =>
        match accesses.find? fun a => a.capability = name with
        | some a => (access repr excText other files call.payload a).1
        | none => files
    | _ => files
  (after, fiber.handler repr str call.peerPub call.payload call.now call.unixNow)

/-- The files after some requests. -/
def exec (files : Entries) (calls : List Call) : Entries :=
  Run.exec (fun files call => (self.handle repr excText other str files call).1) files calls

end Handlers

/-! ### What a request changes -/

variable {crypto : Crypto} {self : FileTool crypto} {repr str : Value → String}
  {excText : Exc → String} {other : Value → Value} {files files' : Entries} {call : Call}
  {grant req path : Value} {key : Key}

theorem raising_eq_ok {α : Type} {x : Except Exc α} {a : α} :
    raising excText x = .ok a ↔ x = .ok a := mapError_ok_iff _ x a

theorem permitted_eq_ok (h : permitted repr excText grant req = .ok path) :
    req.getItem "path" = .ok path ∧
      Grant.satisfies repr grant (.dict [(.str "path", path)]) = .ok true := by
  obtain ⟨path', hpath, h⟩ := bind_eq_ok.mp h
  obtain ⟨u, henforced, h⟩ := bind_eq_ok.mp h
  obtain rfl := pure_eq_ok.mp h
  obtain ⟨satisfied, hsatisfied, h⟩ := bind_eq_ok.mp henforced
  cases satisfied with
  | true => exact ⟨raising_eq_ok.mp hpath, raising_eq_ok.mp hsatisfied⟩
  | false => cases h

theorem at?_filter (h : ∀ e ∈ files, e.1.isHashable = true) (hkey : path.key = .ok key)
    (key' : Key) : Entries.at? (files.filter fun e => !e.1.eq path) key' =
      if key' = key then none else files.at? key' := by
  induction files with
  | nil =>
      rw [List.filter_nil]
      split_ifs <;> rfl
  | cons e files ih =>
      obtain ⟨he, h⟩ := List.forall_mem_cons.mp h
      obtain ⟨ke, hke⟩ := Entries.exists_key he
      have hsame : e.1.eq path = true ↔ ke = key := (key_eq_iff hke hkey).symm
      rw [Entries.at?_cons, hke]
      by_cases hk : ke = key
      · rw [List.filter_cons_of_neg (by simpa using hsame.mpr hk), ih h]
        by_cases hkk : key' = key
        · simp [hkk]
        · simp [hkk, hk, Ne.symm hkk]
      · rw [List.filter_cons_of_pos (by simpa using hsame.not.mpr hk), Entries.at?_cons, hke, ih h]
        by_cases hkk : key' = key
        · subst hkk
          simp [hk]
        · simp [hkk]

theorem popItem_eq_ok (h : popItem files path = .ok files') (hfiles : files.Distinct) :
    files'.Distinct ∧ ∀ key, files'.at? key ≠ files.at? key → path.key = .ok key := by
  rw [popItem] at h
  split_ifs at h with hempty hhash
  · obtain rfl := Except.ok.inj h
    exact ⟨hfiles, fun key hne => absurd rfl hne⟩
  · obtain rfl := Except.ok.inj h
    obtain ⟨pathKey, hkey⟩ := Entries.exists_key hhash
    refine ⟨⟨fun e he => hfiles.hashable e (List.mem_of_mem_filter he),
      hfiles.distinct.filter _⟩, fun key hne => ?_⟩
    rw [at?_filter hfiles.hashable hkey] at hne
    by_cases hk : key = pathKey
    · rw [hk]
      exact hkey
    · rw [if_neg hk] at hne
      exact absurd rfl hne

theorem setItem_changes {content : Value} (h : setItem files path content = .ok files')
    (hfiles : files.Distinct) :
    files'.Distinct ∧ ∀ key, files'.at? key ≠ files.at? key → path.key = .ok key := by
  refine ⟨hfiles.setItem h, fun key hne => ?_⟩
  have hhash : path.isHashable = true := by
    rw [setItem] at h
    split_ifs at h with hhash
    · exact hhash
    · exact hhash
  obtain ⟨pathKey, hkey⟩ := Entries.exists_key hhash
  rw [Entries.at?_setItem hfiles hkey h] at hne
  by_cases hk : key = pathKey
  · rw [hk]
    exact hkey
  · rw [if_neg hk] at hne
    exact absurd rfl hne

/-- A function that changes a file was permitted its path. -/
structure Changes (repr : Value → String) (grant : Value) (files files' : Entries) : Prop where
  distinct : files'.Distinct
  permitted : ∀ key, files'.at? key ≠ files.at? key → ∃ path, path.key = .ok key ∧
    Grant.satisfies repr grant (.dict [(.str "path", path)]) = .ok true

theorem Changes.refl (grant : Value) (hfiles : files.Distinct) : Changes repr grant files files :=
  ⟨hfiles, fun _ hne => absurd rfl hne⟩

theorem changes_changing {x : Except Raised Entries} (hfiles : files.Distinct)
    (h : ∀ files', x = .ok files' → Changes repr grant files files') :
    Changes repr grant files (changing files x).1 := by
  cases x with
  | ok files' => exact h files' rfl
  | error e => exact Changes.refl grant hfiles

theorem changes_access (a : Access) (payload : Value) (hfiles : files.Distinct) :
    Changes repr (grantOf payload) files (access repr excText other files payload a).1 := by
  cases a with
  | read => exact Changes.refl _ hfiles
  | write =>
      apply changes_changing hfiles
      intro files' h
      obtain ⟨path, hpath, h⟩ := bind_eq_ok.mp h
      obtain ⟨content, -, h⟩ := bind_eq_ok.mp h
      obtain ⟨hdistinct, hchanges⟩ := setItem_changes (raising_eq_ok.mp h) hfiles
      exact ⟨hdistinct, fun key hne => ⟨path, hchanges key hne, (permitted_eq_ok hpath).2⟩⟩
  | delete =>
      apply changes_changing hfiles
      intro files' h
      obtain ⟨path, hpath, h⟩ := bind_eq_ok.mp h
      obtain ⟨hdistinct, hchanges⟩ := popItem_eq_ok (raising_eq_ok.mp h) hfiles
      exact ⟨hdistinct, fun key hne => ⟨path, hchanges key hne, (permitted_eq_ok hpath).2⟩⟩

def resource (self : FileTool crypto) : Resource where
  rootPub := self.localId.rootPublicKey
  endorsements := self.localId.endorsements
  revocations := self.revocations

/-- The request carried a grant that was accepted for a capability that writes. -/
structure Authorised (self : FileTool crypto) (repr : Value → String) (call : Call) (a : Access)
    (key : Key) : Prop where
  writes : a ≠ .read
  accepted : self.resource.Accepts crypto (grantOf call.payload) call.peerPub a.capability
    call.unixNow
  permitted : ∃ path, path.key = .ok key ∧
    Grant.satisfies repr (grantOf call.payload) (.dict [(.str "path", path)]) = .ok true

theorem find?_capability (a : Access) :
    (accesses.find? fun b => b.capability = a.capability) = some a := by
  cases a <;> decide

/-- One request changes a file only if it is authorised to. -/
theorem handle_changes (self : FileTool crypto) (call : Call) (hfiles : files.Distinct) :
    (self.handle repr excText other str files call).1.Distinct ∧
      ∀ key, (self.handle repr excText other str files call).1.at? key ≠ files.at? key →
        ∃ a, Authorised self repr call a key := by
  have hsame : files.Distinct ∧ ∀ key, files.at? key ≠ files.at? key →
      ∃ a, Authorised self repr call a key := ⟨hfiles, fun _ hne => absurd rfl hne⟩
  rw [handle]
  dsimp only
  cases hdecision : (self.fiber repr excText other files).decision repr str call.peerPub
      call.payload call.now call.unixNow with
  | error e => exact hsame
  | ok decision =>
      cases decision with
      | reject frame => exact hsame
      | letIn name entry ctx =>
          obtain ⟨hmem, hgranted⟩ := Fiber.granted_of_decision hdecision
          obtain ⟨a, -, ha⟩ := List.mem_map.mp hmem
          obtain ⟨rfl, rfl⟩ := Prod.mk.inj ha
          obtain ⟨auth, hauth, haccepts⟩ := Fiber.accepts_of_grantOk (hgranted rfl)
          have hgrant : grantOf call.payload = auth := by
            rw [grantOf, hauth]
            rfl
          dsimp only
          rw [find?_capability]
          obtain ⟨hdistinct, hpermitted⟩ : Changes repr (grantOf call.payload) files
              (access repr excText other files call.payload a).1 :=
            changes_access a call.payload hfiles
          refine ⟨hdistinct, fun key hne => ⟨a, ?_, hgrant ▸ haccepts, hpermitted key hne⟩⟩
          intro hread
          subst hread
          exact hne rfl

/-- A file that is changed in a run was changed by a request that is authorised to. -/
theorem exec_changes (self : FileTool crypto) {calls : List Call} (hfiles : files.Distinct)
    (hchanged : (self.exec repr excText other str files calls).at? key ≠ files.at? key) :
    ∃ call ∈ calls, ∃ a, Authorised self repr call a key := by
  induction calls generalizing files with
  | nil => exact absurd rfl hchanged
  | cons call calls ih =>
      obtain ⟨hdistinct, hauthorised⟩ := handle_changes self call hfiles
      by_cases hfirst : (self.handle repr excText other str files call).1.at? key = files.at? key
      · obtain ⟨call', hcall', ha⟩ := ih hdistinct (by rwa [hfirst])
        exact ⟨call', List.mem_cons_of_mem _ hcall', ha⟩
      · exact ⟨call, List.mem_cons_self, hauthorised key hfirst⟩

/-- The links of a grant. -/
def linksOf (grant : Value) : List Value :=
  match grant.getItem "links" with
  | .ok (.list links) => links
  | _ => []

/-- The links of the grants that are presented with the calls. -/
def presented (calls : List Call) : List Value :=
  calls.flatMap fun call => linksOf (grantOf call.payload)

/-- **Agents change no more than was handed to them.** Whatever a group of agents asks of the tool,
in any number of requests, with whatever grants they make for each other: a file that is changed is
one that the scope they were given permits to write or to delete. -/
theorem agents_confined (self : FileTool crypto) (repr str : Value → String)
    (excText : Exc → String) (other : Value → Value) {group : Finset Bytes} {scope : Scope}
    {calls : List Call}
    (hhandover : Handover crypto self.resource group scope (presented calls))
    (hfiles : files.Distinct) (hcalls : ∀ call ∈ calls, call.peerPub ∈ group)
    (hchanged : (self.exec repr excText other str files calls).at? key ≠ files.at? key) :
    (∃ a : Access, a ≠ .read ∧ a.capability ∈ scope.capabilities) ∧
      ∃ path, path.key = .ok key ∧ ∀ p, ("path", p) ∈ scope.constraints → strOf repr path = p := by
  obtain ⟨call, hcall, a, hwrites, haccepted, path, hkey, hsatisfies⟩ :=
    exec_changes self hfiles hchanged
  obtain ⟨links, last, hlinks, hlast, -, hwalks, haudience⟩ := Resource.accepts_iff.mp haccepted
  have hpresented : links ⊆ presented calls := by
    intro link hlink
    refine List.mem_flatMap.mpr ⟨call, hcall, ?_⟩
    rw [linksOf, hlinks]
    exact hlink
  obtain ⟨hcapability, hconstraints⟩ :=
    walks_confined hhandover hpresented hwalks nofun hlast haudience (hcalls call hcall)
  refine ⟨⟨a, hwrites, hcapability⟩, path, hkey, fun p hp => ?_⟩
  obtain ⟨cav, hcav, hcarries⟩ := hconstraints ("path", p) hp
  obtain ⟨found, hfound, hsame⟩ := satisfied_of_carries hlinks hlast hcav hcarries hsatisfies
  obtain rfl := Except.ok.inj hfound
  exact hsame

/-! ### Two agents

Key 2, endorsed by root 1, lets agent 3 read and write notes, and agent 3 lets agent 4 write. -/

def teamView (issuer audience : UInt8) (cav prev : Value) : Value := .dict [
  (.str "target", .bytes (checksum (seedPublic 1))),
  (.str "issuer_pub", .bytes (seedPublic issuer)),
  (.str "audience_pub", .bytes (seedPublic audience)), (.str "caveats", cav), (.str "prev", prev)]

def noteCaveats (capabilities : List Value) : Value := .dict [
  (.str "capabilities", .list capabilities), (.str "not_after", .int 100),
  (.str "constraints", .dict [(.str "path", .str "notes")])]

def teamLink (issuer audience : UInt8) (cav : Value) (sig : Bytes) : Value := .dict [
  (.str "issuer_pub", .bytes (seedPublic issuer)),
  (.str "audience_pub", .bytes (seedPublic audience)),
  (.str "caveats", cav), (.str "sig", .bytes sig)]

def handedOver : Value := noteCaveats [.str "fs.read", .str "fs.write"]

def handoverMessage : Bytes :=
  valueOr (signingInput "thicket-grant-v1" (teamView 2 3 handedOver (.bytes []))) []

def endorsementMessage : Bytes :=
  valueOr (signingInput "thicket-endorsement-v1" (.dict [
    (.str "working_pub", .bytes (seedPublic 2)), (.str "not_before", .int 0),
    (.str "not_after", .int 1000)])) []

def teamSignatures : List Signature := [
  (seedPublic 1, endorsementMessage, List.replicate 64 10),
  (seedPublic 2, handoverMessage, List.replicate 64 11),
  (seedPublic 3, valueOr (signingInput "thicket-grant-v1" (teamView 3 4
    (noteCaveats [.str "fs.write"]) (.bytes (List.replicate 64 11)))) [], List.replicate 64 12)]

def teamTool : FileTool (Crypto.recorded teamSignatures) where
  localId :=
    { id := checksum (seedPublic 1), rootPublicKey := seedPublic 1,
      endorsements := [.dict [(.str "working_pub", .bytes (seedPublic 2)),
        (.str "not_before", .int 0), (.str "not_after", .int 1000),
        (.str "root_sig", .bytes (List.replicate 64 10))]],
      working := ⟨(2 : UInt8)⟩ }
  sink := .none
  requireGrant := false
  revocations := ∅
  checkpoints := none

/-- Agent 4 writes the notes. -/
def teamCall : Call where
  peerPub := seedPublic 4
  payload := .dict [(.str "capability", .str "fs.write"),
    (.str "auth", .dict [(.str "target", .bytes (checksum (seedPublic 1))), (.str "links", .list [
      teamLink 2 3 handedOver (List.replicate 64 11),
      teamLink 3 4 (noteCaveats [.str "fs.write"]) (List.replicate 64 12)])]),
    (.str "body", .bytes [0xA2, 0x64, 0x70, 0x61, 0x74, 0x68, 0x65, 0x6E, 0x6F, 0x74, 0x65, 0x73,
      0x67, 0x63, 0x6F, 0x6E, 0x74, 0x65, 0x6E, 0x74, 0x61, 0x78])]
  now := 10
  unixNow := 10

def teamScope : Scope :=
  { capabilities := ["fs.read", "fs.write"], constraints := [("path", "notes")] }

def teamGroup : Finset Bytes := {seedPublic 3, seedPublic 4}

theorem signingInput_injective {domain : String} {v w : Value} {msg : Bytes}
    (hv : signingInput domain v = .ok msg) (hw : signingInput domain w = .ok msg) : v = w := by
  simp only [signingInput, bind_eq_ok, pure_eq_ok] at hv hw
  obtain ⟨body, hbody, rfl⟩ := hv
  obtain ⟨body', hbody', hmsg⟩ := hw
  obtain rfl : body' = body := (List.cons.inj (List.append_cancel_left hmsg)).2
  obtain ⟨item, rfl, hitem⟩ := encode_eq_ok.mp hbody
  obtain ⟨item', rfl, hitem'⟩ := encode_eq_ok.mp hbody'
  rw [Cbor.encode_injective hitem hitem']

theorem bounds_handedOver : teamScope.Bounds handedOver := by
  constructor
  · intro capability hallows
    have hpermits : Allows ["fs.read", "fs.write"] capability :=
      (allows_iff rfl rfl).mp hallows
    exact hpermits.resolve_left (by decide)
  · intro e he
    rw [List.mem_singleton.mp he]
    exact ⟨_, _, rfl, rfl, rfl⟩

theorem linkMessage_ne_endorsement {target issuer audience cav prev : Value} :
    Grant.linkMessage target issuer audience cav prev ≠ .ok endorsementMessage := by
  intro h
  obtain ⟨body, -, h⟩ := bind_eq_ok.mp h
  have hfirst : (Cbor.utf8 "thicket-grant-v1" ++ 0 :: body).take 9 = endorsementMessage.take 9 :=
    congrArg (List.take 9) (Except.ok.inj h)
  have hgrant : (Cbor.utf8 "thicket-grant-v1" ++ 0 :: body).take 9 =
      (Cbor.utf8 "thicket-grant-v1").take 9 := List.take_append_of_le_length (by decide)
  rw [hgrant] at hfirst
  revert hfirst
  decide +kernel

theorem team_handover : Handover (Crypto.recorded teamSignatures) teamTool.resource teamGroup
    teamScope (presented [teamCall]) := by
  constructor
  · rintro link - issuer audience cav hissuer - ⟨-, -, -, prev, msg, sig, hmsg, -, hverify⟩
    obtain ⟨bs, rfl, -⟩ := bytes_of_verifySig hverify
    have hrecorded : (issuer, msg, bs) ∈ teamSignatures := by
      apply Crypto.recorded_verifyRaw
      exact eq_ok_valueOr (d := ()) hverify
    simp only [teamSignatures, List.mem_cons, List.not_mem_nil, or_false,
      Prod.mk.injEq] at hrecorded
    rcases hrecorded with ⟨-, rfl, -⟩ | ⟨-, rfl, -⟩ | ⟨rfl, -⟩
    · exact absurd hmsg linkMessage_ne_endorsement
    · have hhandover : signingInput "thicket-grant-v1" (teamView 2 3 handedOver (.bytes [])) =
          .ok handoverMessage := rfl
      have hsame := signingInput_injective hmsg hhandover
      simp only [teamView, Value.dict.injEq, List.cons.injEq, Prod.mk.injEq] at hsame
      obtain rfl := hsame.2.2.2.1.2
      exact bounds_handedOver
    · exact absurd (by decide +kernel) hissuer
  · intro e he pub hpub
    rw [List.mem_singleton.mp he] at hpub
    obtain rfl := Value.bytes.inj (Except.ok.inj hpub)
    decide +kernel

theorem agents_confined_team :
    ((teamTool.exec (fun _ => "") (fun _ => "") id (fun _ => "") [] [teamCall]).at? (.str "notes") ≠
        Entries.at? [] (.str "notes")) ∧
      (∃ a : Access, a ≠ .read ∧ a.capability ∈ teamScope.capabilities) ∧
        ∃ path : Value, path.key = .ok (.str "notes") ∧
          ∀ p, ("path", p) ∈ teamScope.constraints → strOf (fun _ => "") path = p := by
  have hchanged : (teamTool.exec (fun _ => "") (fun _ => "") id (fun _ => "") [] [teamCall]).at?
      (.str "notes") ≠ Entries.at? [] (.str "notes") := by
    have hsome : ((teamTool.exec (fun _ => "") (fun _ => "") id (fun _ => "") [] [teamCall]).at?
      (.str "notes")).isSome = true := by decide +kernel
    intro hnone
    rw [hnone] at hsome
    cases hsome
  have hcalls : ∀ call ∈ [teamCall], call.peerPub ∈ teamGroup := by
    intro call hcall
    rw [List.mem_singleton.mp hcall]
    decide +kernel
  exact ⟨hchanged, agents_confined teamTool _ _ _ _ team_handover Entries.distinct_nil hcalls
    hchanged⟩

end FileTool

end Thicket.Py
