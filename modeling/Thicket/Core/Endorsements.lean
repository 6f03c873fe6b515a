import Thicket.Core.Identity
import Thicket.Lib.FirstMatch

/-!
# Which endorsement counts

`verify_working_key` looks for "a matching root endorsement valid at `now`". It takes the first that
names the signer and checks that one. A key that was endorsed again is rejected while its old
endorsement comes first.
-/

namespace Thicket

open Cbor (Bytes)
open Result FirstMatch

variable {crypto : Crypto}

/-- The endorsement is signed by the root key, and the time is in its window. -/
def KeyEndorsement.ValidAt (crypto : Crypto) (rootPub : Bytes) (now : UInt64) (e : KeyEndorsement) :
    Prop :=
  verifyEndorsement crypto rootPub e = .ok () ∧ e.notBefore ≤ now ∧ now ≤ e.notAfter

/-- What `verify_working_key` is asked. -/
structure KeyCheck where
  rootPub : Bytes
  id : Id
  signerPub : Bytes
  now : UInt64
  revocations : RevocationSet

namespace KeyCheck

variable (crypto) (check : KeyCheck) (endorsements : List KeyEndorsement)

def Accepts : Prop :=
  verifyWorkingKey crypto check.rootPub check.id endorsements check.signerPub check.now
    check.revocations = .ok ()

/-- The id is the hash of the root key. -/
def Binds : Prop := Id.fromRootPublic crypto check.rootPub = .ok check.id

/-- Some endorsement of the signer is valid. -/
def Endorsed : Prop :=
  ∃ e ∈ endorsements, e.workingPub = check.signerPub ∧ e.ValidAt crypto check.rootPub check.now

/-- The first endorsement of the signer is not valid, and a later one is. -/
def Shadowed : Prop :=
  FirstMatch.Shadowed (fun e : KeyEndorsement => e.workingPub == check.signerPub)
    (KeyEndorsement.ValidAt crypto check.rootPub check.now) endorsements

variable {crypto} {check} {endorsements}

theorem accepts_iff : check.Accepts crypto endorsements ↔
    check.Binds crypto ∧ check.revocations.isRevoked check.signerPub = false ∧
      check.Endorsed crypto endorsements ∧ ¬check.Shadowed crypto endorsements := by
  have hfirst : (∃ e, (endorsements.find? fun e => e.workingPub == check.signerPub) = some e ∧
      e.ValidAt crypto check.rootPub check.now) ↔
        check.Endorsed crypto endorsements ∧ ¬check.Shadowed crypto endorsements := by
    rw [first_good_iff]
    simp only [beq_iff_eq]
    rfl
  rw [Accepts, verifyWorkingKey_eq_ok, and_comm (b := check.revocations.isRevoked _ = false),
    ← hfirst]
  rfl

theorem endorsed_of_shadowed (h : check.Shadowed crypto endorsements) :
    check.Endorsed crypto endorsements := by
  obtain ⟨front, item, rear, rfl, _, _, _, e, he, hkey, hvalid⟩ := h
  exact ⟨e, List.mem_append_right front (List.mem_cons_of_mem item he), by simpa using hkey, hvalid⟩

/-- **Which list is judged by any of its endorsements.** Acceptance is that the id binds, the key is
not revoked and some endorsement of it is valid, except for a list where a valid endorsement of the
key comes after one that is not. With it, acceptance of a list carries over to any list that has its
endorsements, in another order or among others, if and only if that list is no exception. -/
theorem accepts_any_iff (check : KeyCheck) (endorsements : List KeyEndorsement) :
    ((check.Accepts crypto endorsements ↔
        check.Binds crypto ∧ check.revocations.isRevoked check.signerPub = false ∧
          check.Endorsed crypto endorsements) ↔
      ¬(check.Binds crypto ∧ check.revocations.isRevoked check.signerPub = false ∧
        check.Shadowed crypto endorsements)) ∧
    ∀ others, endorsements ⊆ others → check.Accepts crypto endorsements →
      (check.Accepts crypto others ↔ ¬check.Shadowed crypto others) := by
  constructor
  · rw [accepts_iff]
    constructor
    · intro h ⟨hbinds, hrevoked, hshadowed⟩
      exact (h.mpr ⟨hbinds, hrevoked, endorsed_of_shadowed hshadowed⟩).2.2.2 hshadowed
    · intro h
      constructor
      · intro ⟨hbinds, hrevoked, hendorsed, _⟩
        exact ⟨hbinds, hrevoked, hendorsed⟩
      · intro ⟨hbinds, hrevoked, hendorsed⟩
        exact ⟨hbinds, hrevoked, hendorsed, fun hshadowed => h ⟨hbinds, hrevoked, hshadowed⟩⟩
  · intro others hsub haccepts
    obtain ⟨hbinds, hrevoked, ⟨e, he, hkey, hvalid⟩, -⟩ := accepts_iff.mp haccepts
    rw [accepts_iff]
    exact ⟨fun h => h.2.2.2, fun h => ⟨hbinds, hrevoked, ⟨e, hsub he, hkey, hvalid⟩, h⟩⟩

/-! ### A key that was endorsed again

Key 2 of root 1, endorsed until 10 and once more until 1000. -/

def renewedRoot : RootKey Crypto.checked := ⟨(1 : UInt8)⟩

def oldEndorsement : KeyEndorsement :=
  valueOr (renewedRoot.endorse (seedPublic 2) 0 10) ⟨[], 0, 0, []⟩

def newEndorsement : KeyEndorsement :=
  valueOr (renewedRoot.endorse (seedPublic 2) 0 1000) ⟨[], 0, 0, []⟩

def renewedCheck : KeyCheck where
  rootPub := renewedRoot.public
  id := renewedRoot.id
  signerPub := seedPublic 2
  now := 500
  revocations := .new

theorem newEndorsement_validAt :
    newEndorsement.ValidAt Crypto.checked renewedRoot.public 500 := by
  refine ⟨?_, by decide +kernel, by decide +kernel⟩
  decide +kernel

/-- What is accepted with the new endorsement alone is accepted with both of them unless the new one
is shadowed. -/
theorem accepts_any_iff_renewed :
    renewedCheck.Accepts Crypto.checked [oldEndorsement, newEndorsement] ↔
      ¬renewedCheck.Shadowed Crypto.checked [oldEndorsement, newEndorsement] := by
  have haccepts : renewedCheck.Accepts Crypto.checked [newEndorsement] := by
    unfold Accepts
    decide +kernel
  exact (accepts_any_iff renewedCheck [newEndorsement]).2 _ (by simp) haccepts

/-- The old endorsement first, the key is rejected; the new one first, it is accepted. -/
theorem renewed_key_rejected :
    ¬(renewedCheck.Accepts Crypto.checked [oldEndorsement, newEndorsement] ↔
      renewedCheck.Binds Crypto.checked ∧
        renewedCheck.revocations.isRevoked renewedCheck.signerPub = false ∧
        renewedCheck.Endorsed Crypto.checked [oldEndorsement, newEndorsement]) ∧
    renewedCheck.Accepts Crypto.checked [newEndorsement, oldEndorsement] ∧
    ¬renewedCheck.Accepts Crypto.checked [oldEndorsement, newEndorsement] := by
  have hrejects : ¬renewedCheck.Accepts Crypto.checked [oldEndorsement, newEndorsement] := by
    unfold Accepts
    decide +kernel
  refine ⟨?_, ?_, hrejects⟩
  · intro h
    refine hrejects (h.mpr ⟨?_, rfl, newEndorsement, ?_, ?_, newEndorsement_validAt⟩)
    · exact renewedRoot.fromRootPublic
    · decide +kernel
    · decide +kernel
  · unfold Accepts
    decide +kernel

end KeyCheck

end Thicket
