import Thicket.Lib.Run
import Thicket.Net.SigningInputs

/-!
# Handshake authentication

Sessions of honest nodes run side by side over a network that the attacker controls: the attacker
chooses the payload that each session decrypts and the static key that its handshake negotiates,
owns any keys but those of the honest owners, and may sign anything with its own. What it cannot do
is present a signature that verifies under an owner's key and that this key did not make.

Nothing more is needed: the static key that a session accepts for an uncompromised identity is one
that a node of that identity generated and signed. The private half of that key is what Noise XX
proves the remote side to hold.
-/

namespace Thicket.Net.Secure

open Cbor (Bytes)
open Result Serde

variable (crypto : Crypto) (fromCbor : Bytes → Option IdentityProof)

/-! ### A session -/

/-- A handshake that `secure::establish` runs for a node, with the static key generated for it and
the proof made for this key. -/
structure Session where
  localId : LocalIdentity crypto
  noiseStatic : Bytes
  proof : IdentityProof
  made : makeProof localId noiseStatic = .ok proof
  proofBytes : Bytes

variable {crypto} in
/-- The part of `secure::establish` before the first message, once a keypair is generated. -/
def Session.begin (localId : LocalIdentity crypto) (noiseStatic : Bytes) :
    Except NetError (Session crypto) :=
  match made : makeProof localId noiseStatic with
  | .error e => .error e
  | .ok proof => do
      let proofBytes ← okOr (intoWriter proof) .codec
      return { localId, noiseStatic, proof, made, proofBytes }

/-- What a session accepted: the peer, and the static key that it negotiated with. -/
structure Channel where
  peer : VerifiedPeer
  remoteStatic : Bytes
  deriving DecidableEq

/-- The part of `secure::establish` from the peer's payload on. The initiator reads the payload
before it sends its own proof, and both check it after the last message. -/
def Session.finish (payload : Bytes) (remoteStatic : Option Bytes) (now : UInt64) :
    Except NetError Channel := do
  let peerProof ← okOr (fromCbor payload) .codec
  let remoteStatic ← okOr remoteStatic .handshake
  let peer ← peerProof.verify crypto remoteStatic now
  return { peer, remoteStatic }

/-! ### The network -/

structure State where
  sessions : List (Session crypto)
  signed : List (Bytes × Signable)
  compromised : List Bytes
  channels : List Channel

def State.initial : State crypto :=
  { sessions := [], signed := [], compromised := [], channels := [] }

inductive Event where
  | start (localId : LocalIdentity crypto) (noiseStatic : Bytes)
  | sign (pub : Bytes) (object : Signable)
  | compromise (pub : Bytes)
  | finish (session : Nat) (payload : Bytes) (remoteStatic : Option Bytes) (now : UInt64)

variable {crypto}

def step (s : State crypto) : Event crypto → State crypto
  | .start localId noiseStatic =>
      match Session.begin localId noiseStatic with
      | .ok session =>
          { s with sessions := session :: s.sessions,
                   signed := (localId.working.public, .noiseStatic noiseStatic) :: s.signed }
      | .error _ => s
  | .sign pub object => { s with signed := (pub, object) :: s.signed }
  | .compromise pub => { s with compromised := pub :: s.compromised }
  | .finish session payload remoteStatic now =>
      match s.sessions[session]?, Session.finish crypto fromCbor payload remoteStatic now with
      | some _, .ok channel => { s with channels := channel :: s.channels }
      | _, _ => s

/-! ### What honest owners do, and what the attacker cannot

`owner` tells whose key a public key is; the attacker's have no owner. -/

variable (owner : Bytes → Option Id)

/-- An owner holds the key, alone. -/
def Held (s : State crypto) (pub : Bytes) : Prop := (owner pub).isSome ∧ pub ∉ s.compromised

/-- Apart from sessions, an owner's keys sign everything but static keys, and endorse only keys of
the same owner. -/
def Proper (pub : Bytes) : Signable → Prop
  | .noiseStatic _ => False
  | .endorsement view => owner view.workingPub = owner pub
  | _ => True

def signatures (proof : IdentityProof) : List Bytes :=
  proof.staticSig :: proof.endorsements.map KeyEndorsement.rootSig

/-- No signature in the proof is a forgery: one that verifies under a held key was made by it. -/
def Unforged (s : State crypto) (proof : IdentityProof) : Prop :=
  ∀ sig ∈ signatures proof, ∀ pub msg, Held owner s pub → verifyRaw crypto pub msg sig = .ok () →
    ∃ object, (pub, object) ∈ s.signed ∧ object.signingBytes = .ok msg

def Allowed (s : State crypto) : Event crypto → Prop
  | .start localId _ => owner localId.working.public = some localId.id
  | .sign pub object => Held owner s pub → Proper owner pub object
  | .compromise _ => True
  | .finish _ payload _ _ => ∀ proof, fromCbor payload = some proof → Unforged owner s proof

/-- The peer's root key, which is any key that its id is the hash of, and its working key are
uncompromised. -/
def Trusted (s : State crypto) (peer : VerifiedPeer) : Prop :=
  (∀ rootPub, Id.fromRootPublic crypto rootPub = .ok peer.id →
    owner rootPub = some peer.id ∧ rootPub ∉ s.compromised) ∧ peer.workingPub ∉ s.compromised

/-- A session of the peer's own node generated the static key and made its proof for it. -/
def Presented (s : State crypto) (channel : Channel) : Prop :=
  ∃ session ∈ s.sessions, session.localId.id = channel.peer.id ∧
    session.localId.working.public = channel.peer.workingPub ∧
    session.noiseStatic = channel.remoteStatic

/-! ### Later states -/

variable {fromCbor owner} {s s' : State crypto} {pub : Bytes} {object : Signable}

/-- A later state has more sessions and more compromised keys. -/
structure Extends (s s' : State crypto) : Prop where
  sessions : s.sessions ⊆ s'.sessions
  compromised : s.compromised ⊆ s'.compromised

theorem Held.of_extends (hext : Extends s s') (h : Held owner s' pub) : Held owner s pub :=
  ⟨h.1, fun hmem => h.2 (hext.compromised hmem)⟩

theorem Trusted.of_extends {peer : VerifiedPeer} (hext : Extends s s')
    (h : Trusted owner s' peer) : Trusted owner s peer := by
  obtain ⟨hroot, hworking⟩ := h
  refine ⟨?_, fun hmem => hworking (hext.compromised hmem)⟩
  intro rootPub hid
  obtain ⟨howner, hsafe⟩ := hroot rootPub hid
  exact ⟨howner, fun hmem => hsafe (hext.compromised hmem)⟩

theorem Presented.extends {channel : Channel} (hext : Extends s s') (h : Presented s channel) :
    Presented s' channel := by
  obtain ⟨session, hsession, hpresented⟩ := h
  exact ⟨session, hext.sessions hsession, hpresented⟩

/-- How an owner's key came to sign something: properly, or in a session. -/
def Accounted (owner : Bytes → Option Id) (s : State crypto) (pub : Bytes) (object : Signable) :
    Prop :=
  Proper owner pub object ∨ ∃ session ∈ s.sessions, object = .noiseStatic session.noiseStatic ∧
    session.localId.working.public = pub ∧ owner pub = some session.localId.id

theorem Accounted.extends (hext : Extends s s') (h : Accounted owner s pub object) :
    Accounted owner s' pub object := by
  rcases h with hproper | ⟨session, hsession, hstatic⟩
  · exact Or.inl hproper
  · exact Or.inr ⟨session, hext.sessions hsession, hstatic⟩

/-! ### What a session accepts -/

structure Inv (owner : Bytes → Option Id) (s : State crypto) : Prop where
  accounted : ∀ pub object, (pub, object) ∈ s.signed → Held owner s pub →
    Accounted owner s pub object
  presented : ∀ channel ∈ s.channels, Trusted owner s channel.peer → Presented s channel

/-- Under a held key, the signature over signing bytes in an unforged proof accounts for the object
with these bytes: no other object has them. -/
theorem Unforged.accounted {proof : IdentityProof} {sig msg : Bytes} (hinv : Inv owner s)
    (h : Unforged owner s proof) (hsig : sig ∈ signatures proof) (hheld : Held owner s pub)
    (hmsg : object.signingBytes = .ok msg) (hverify : verifyRaw crypto pub msg sig = .ok ()) :
    Accounted owner s pub object := by
  obtain ⟨object', hsigned, hmsg'⟩ := h sig hsig pub msg hheld hverify
  obtain ⟨hkind, hitem⟩ := Signable.kind_and_item_eq hmsg' hmsg
  obtain rfl := Signable.eq_of_kind_of_item hkind hitem
  exact hinv.accounted pub object' hsigned hheld

theorem presented_of_verify {proof : IdentityProof} {remoteStatic : Bytes} {now : UInt64}
    {peer : VerifiedPeer} (hinv : Inv owner s) (hunforged : Unforged owner s proof)
    (hverify : proof.verify crypto remoteStatic now = .ok peer) (htrusted : Trusted owner s peer) :
    Presented s { peer, remoteStatic } := by
  obtain ⟨hkey, ⟨msg, hmsg, hsig⟩, hid, hworking⟩ := IdentityProof.verify_eq_ok hverify
  obtain ⟨hroot, hsafe⟩ := htrusted
  obtain ⟨hfromRoot, ⟨e, he, hendorsed, -⟩, -⟩ := verifyWorkingKey_eq_ok.mp hkey
  have hemem := List.mem_of_find?_eq_some he
  have heq : e.workingPub = proof.workingPub := by simpa using List.find?_some he
  -- The root endorses keys of its own owner only.
  obtain ⟨hrootOwner, hrootSafe⟩ := hroot proof.rootPublicKey (hid ▸ hfromRoot)
  have howner : owner proof.workingPub = some peer.id := by
    obtain ⟨msg', hmsg', hsig'⟩ := verifyEndorsement_eq_ok.mp hendorsed
    have hheld : Held owner s proof.rootPublicKey := ⟨by rw [hrootOwner]; rfl, hrootSafe⟩
    have hmem : e.rootSig ∈ signatures proof := by
      exact List.mem_cons_of_mem _ (List.mem_map_of_mem hemem)
    have haccounted : Accounted owner s proof.rootPublicKey (.endorsement e.view) :=
      hunforged.accounted hinv hmem hheld hmsg' hsig'
    rcases haccounted with hproper | ⟨session, -, hstatic, -⟩
    · rw [← heq, ← hrootOwner]
      exact hproper
    · cases hstatic
  -- So the working key is the owner's, and signs static keys in sessions only.
  have hheld : Held owner s proof.workingPub := ⟨by rw [howner]; rfl, hworking ▸ hsafe⟩
  have haccounted : Accounted owner s proof.workingPub (.noiseStatic remoteStatic) :=
    hunforged.accounted hinv List.mem_cons_self hheld hmsg hsig
  rcases haccounted with hproper | ⟨session, hsession, hstatic, hpublic, howner'⟩
  · exact hproper.elim
  · refine ⟨session, hsession, ?_, hpublic.trans hworking.symm, ?_⟩
    · exact Option.some.inj (howner'.symm.trans howner)
    · exact (Signable.noiseStatic.inj hstatic).symm

/-! ### Runs -/

variable {localId : LocalIdentity crypto} {noiseStatic payload : Bytes} {event : Event crypto}

theorem begin_ok {session : Session crypto} (h : Session.begin localId noiseStatic = .ok session) :
    session.localId = localId ∧ session.noiseStatic = noiseStatic := by
  unfold Session.begin at h
  split at h
  · cases h
  · simp only [bind_eq_ok, okOr_eq_ok, pure_eq_ok] at h
    obtain ⟨proofBytes, -, rfl⟩ := h
    exact ⟨rfl, rfl⟩

theorem finish_ok {remoteStatic : Option Bytes} {now : UInt64} {channel : Channel}
    (h : Session.finish crypto fromCbor payload remoteStatic now = .ok channel) :
    ∃ proof, fromCbor payload = some proof ∧
      proof.verify crypto channel.remoteStatic now = .ok channel.peer := by
  simp only [Session.finish, bind_eq_ok, okOr_eq_ok, pure_eq_ok] at h
  obtain ⟨proof, hproof, static, -, peer, hverify, rfl⟩ := h
  exact ⟨proof, hproof, hverify⟩

/-- All that a step can do: add a session and its signature, a signature, a compromised key, or a
channel that a payload was accepted for. -/
inductive Change (fromCbor : Bytes → Option IdentityProof) (s : State crypto) :
    Event crypto → State crypto → Prop
  | kept (event : Event crypto) : Change fromCbor s event s
  | started (session : Session crypto) :
      Change fromCbor s (.start session.localId session.noiseStatic)
        { s with sessions := session :: s.sessions,
                 signed := (session.localId.working.public, .noiseStatic session.noiseStatic) ::
                   s.signed }
  | signed (pub : Bytes) (object : Signable) :
      Change fromCbor s (.sign pub object) { s with signed := (pub, object) :: s.signed }
  | compromised (pub : Bytes) :
      Change fromCbor s (.compromise pub) { s with compromised := pub :: s.compromised }
  | accepted (session : Nat) (payload : Bytes) (remoteStatic : Option Bytes) (now : UInt64)
      (proof : IdentityProof) (channel : Channel) (hproof : fromCbor payload = some proof)
      (hverify : proof.verify crypto channel.remoteStatic now = .ok channel.peer) :
      Change fromCbor s (.finish session payload remoteStatic now)
        { s with channels := channel :: s.channels }

theorem change_step (s : State crypto) (event : Event crypto) :
    Change fromCbor s event (step fromCbor s event) := by
  cases event with
  | start localId noiseStatic =>
      simp only [step]
      cases hbegin : Session.begin localId noiseStatic with
      | error e => exact .kept _
      | ok session =>
          obtain ⟨rfl, rfl⟩ := begin_ok hbegin
          exact .started session
  | sign pub object => exact .signed pub object
  | compromise pub => exact .compromised pub
  | finish session payload remoteStatic now =>
      simp only [step]
      split
      · next hsession hfinish =>
          obtain ⟨proof, hproof, hverify⟩ := finish_ok hfinish
          exact .accepted _ _ _ _ proof _ hproof hverify
      · exact .kept _

theorem Change.extends {next : State crypto} (h : Change fromCbor s event next) :
    Extends s next := by
  cases h with
  | kept => exact ⟨List.Subset.refl _, List.Subset.refl _⟩
  | started => exact ⟨List.subset_cons_self _ _, List.Subset.refl _⟩
  | signed => exact ⟨List.Subset.refl _, List.Subset.refl _⟩
  | compromised => exact ⟨List.Subset.refl _, List.subset_cons_self _ _⟩
  | accepted => exact ⟨List.Subset.refl _, List.Subset.refl _⟩

/-- Whatever the step adds is accounted for by the rule it was allowed under. -/
theorem Change.inv {next : State crypto} (h : Change fromCbor s event next) (hinv : Inv owner s)
    (hallowed : Allowed fromCbor owner s event) : Inv owner next := by
  have hext := h.extends
  have hold (pub : Bytes) (object : Signable) (hsigned : (pub, object) ∈ s.signed)
      (hheld : Held owner next pub) : Accounted owner next pub object :=
    (hinv.accounted pub object hsigned (hheld.of_extends hext)).extends hext
  have hkept (channel : Channel) (hchannel : channel ∈ s.channels)
      (htrusted : Trusted owner next channel.peer) : Presented next channel :=
    (hinv.presented channel hchannel (htrusted.of_extends hext)).extends hext
  cases h with
  | kept => exact hinv
  | started session =>
      refine ⟨?_, hkept⟩
      intro pub object hsigned hheld
      rcases List.mem_cons.mp hsigned with heq | hsigned
      · obtain ⟨rfl, rfl⟩ := Prod.mk.inj heq
        exact Or.inr ⟨session, List.mem_cons_self, rfl, rfl, hallowed⟩
      · exact hold pub object hsigned hheld
  | signed pub object =>
      refine ⟨?_, hkept⟩
      intro pub' object' hsigned hheld
      rcases List.mem_cons.mp hsigned with heq | hsigned
      · obtain ⟨rfl, rfl⟩ := Prod.mk.inj heq
        exact Or.inl (hallowed (hheld.of_extends hext))
      · exact hold pub' object' hsigned hheld
  | compromised pub => exact ⟨hold, hkept⟩
  | accepted session payload remoteStatic now proof channel hproof hverify =>
      refine ⟨hold, ?_⟩
      intro channel' hchannel htrusted
      rcases List.mem_cons.mp hchannel with rfl | hchannel
      · have hpresented := presented_of_verify hinv (hallowed proof hproof) hverify
          (htrusted.of_extends hext)
        exact hpresented.extends hext
      · exact hkept channel' hchannel htrusted

theorem inv_initial : Inv owner (State.initial crypto) := by
  constructor
  · intro pub object hsigned
    cases hsigned
  · intro channel hchannel
    cases hchannel

/-- **Handshake authentication.** In any interleaving of sessions, signatures, key compromises and
whatever the attacker sends, when a session accepts an identity whose keys are uncompromised, the
static key of its channel was generated in a session of that identity's own node, which made a proof
for it. -/
theorem handshake_authentication (events : List (Event crypto))
    (hallowed : Run.EachStep (step fromCbor) (Allowed fromCbor owner) (State.initial crypto) events) :
    ∀ s ∈ Run.states (step fromCbor) (State.initial crypto) events, ∀ channel ∈ s.channels,
      Trusted owner s channel.peer → Presented s channel := by
  intro s hs
  have hinv : Inv owner s := by
    refine Run.states_invariant ?_ inv_initial hallowed s hs
    intro s event hinv hstep
    exact (change_step s event).inv hinv hstep
  exact hinv.presented

/-! ### An accepted proof

Keys 1 and 2 are the root and the working key of one identity, key 4 is the working key of another.
A session of the second identity accepts the first one. -/

def sampleEndorsed : EndorsementView :=
  { workingPub := seedPublic 2, notBefore := 0, notAfter := 1000 }

def sampleStatic : Bytes := [5]

/-- The two signatures of the first identity. -/
def sampleSignatures : List Signature :=
  [(seedPublic 1, valueOr (signingBytes endorseDomain sampleEndorsed) [], List.replicate 64 1),
   (seedPublic 2, valueOr (signingBytes staticBindingDomain sampleStatic) [], List.replicate 64 2)]

/-- A scheme whose hash is injective on keys. -/
def sampleCrypto : Crypto :=
  { Crypto.recorded sampleSignatures with
    sha256 := fun bytes => (bytes.take 32).rightpad 32 0
    sha256_length := by
      intro bytes
      rw [List.length_rightpad, List.length_take]
      omega }

def sampleNode (id : UInt8) (working : WorkingKey sampleCrypto)
    (endorsements : List KeyEndorsement) : LocalIdentity sampleCrypto :=
  { id := ⟨seedPublic id⟩, rootPublicKey := seedPublic id, endorsements, working }

def samplePeer : LocalIdentity sampleCrypto :=
  sampleNode 1 ⟨(2 : UInt8)⟩
    [{ workingPub := seedPublic 2, notBefore := 0, notAfter := 1000,
       rootSig := List.replicate 64 1 }]

def sampleOwner (pub : Bytes) : Option Id :=
  if pub = seedPublic 1 ∨ pub = seedPublic 2 then some ⟨seedPublic 1⟩
  else if pub = seedPublic 4 then some ⟨seedPublic 3⟩
  else none

def sampleProof : IdentityProof :=
  { id := ⟨seedPublic 1⟩, rootPublicKey := seedPublic 1, endorsements := samplePeer.endorsements,
    workingPub := seedPublic 2, staticSig := List.replicate 64 2 }

def sampleEvents : List (Event sampleCrypto) :=
  [.sign (seedPublic 1) (.endorsement sampleEndorsed), .start samplePeer sampleStatic,
   .start (sampleNode 3 ⟨(4 : UInt8)⟩ []) [6],
   .finish 0 ((intoWriter sampleProof).getD []) (some sampleStatic) 10]

def sampleState : State sampleCrypto :=
  Run.exec (step fromReader) (State.initial sampleCrypto) sampleEvents

def sampleChannel : Channel :=
  { peer := { id := ⟨seedPublic 1⟩, workingPub := seedPublic 2, keyNotAfter := 1000 },
    remoteStatic := sampleStatic }

theorem sample_verifyRaw {pub msg sig : Bytes} (h : verifyRaw sampleCrypto pub msg sig = .ok ()) :
    (pub = seedPublic 1 ∧ (Signable.endorsement sampleEndorsed).signingBytes = .ok msg) ∨
      (pub = seedPublic 2 ∧ (Signable.noiseStatic sampleStatic).signingBytes = .ok msg) := by
  have hverify : sampleSignatures.contains (pub, msg, sig) = true := (verifyRaw_eq_ok.mp h).2.2.2
  have hrecorded := List.contains_iff_mem.mp hverify
  simp only [sampleSignatures, List.mem_cons, Prod.mk.injEq, List.not_mem_nil, or_false] at hrecorded
  rcases hrecorded with ⟨rfl, rfl, -⟩ | ⟨rfl, rfl, -⟩
  · exact Or.inl ⟨rfl, eq_ok_valueOr (by decide +kernel)⟩
  · exact Or.inr ⟨rfl, eq_ok_valueOr (by decide +kernel)⟩

theorem handshake_authentication_sample :
    sampleChannel ∈ sampleState.channels ∧ Presented sampleState sampleChannel := by
  have hchannel : sampleChannel ∈ sampleState.channels := by decide +kernel
  refine ⟨hchannel, ?_⟩
  refine @handshake_authentication sampleCrypto fromReader sampleOwner sampleEvents ?_ sampleState
    Run.exec_mem_states sampleChannel hchannel ?_
  · refine ⟨fun _ => rfl, rfl, rfl, ?_, trivial⟩
    intro proof hproof
    have hread : fromReader ((intoWriter sampleProof).getD []) = some sampleProof := by
      decide +kernel
    obtain rfl := Option.some.inj (hproof.symm.trans hread)
    intro sig _ pub msg _ hverify
    rcases sample_verifyRaw hverify with ⟨rfl, hmsg⟩ | ⟨rfl, hmsg⟩
    · exact ⟨_, List.mem_cons_of_mem _ (List.mem_cons_of_mem _ List.mem_cons_self), hmsg⟩
    · exact ⟨_, List.mem_cons_of_mem _ List.mem_cons_self, hmsg⟩
  · refine ⟨?_, by decide +kernel⟩
    intro rootPub hid
    obtain ⟨hlen, hhash⟩ := Id.fromRootPublic_eq_ok.mp hid
    have hroot : rootPub = seedPublic 1 := by
      have hbytes : (rootPub.take 32).rightpad 32 0 = seedPublic 1 := congrArg Id.bytes hhash
      rw [List.take_of_length_le (by omega)] at hbytes
      simpa [List.rightpad, hlen] using hbytes
    rw [hroot]
    decide +kernel

end Thicket.Net.Secure
