import Thicket.Interconnect.Grant
import Thicket.Py.CoreValues
import Thicket.Py.Grant

/-!
# The two grant verifiers agree

On the dictionaries that grants of the core decode to, each check of `grant.verify` comes out as the
core's check of the same name does, whatever the order they are made in.
-/

namespace Thicket.Py

open Cbor (Bytes)
open Result Serde

variable {crypto : Crypto}

/-! ### Narrowing -/

namespace Grant

open Thicket (Caveats KeyEndorsement GrantLink Id)

variable {c p : Caveats}

theorem isIn_strs (key : String) (pc : List String) :
    (Value.str key).isIn (pc.map .str) = .ok (decide (key ∈ pc)) := by
  rw [Value.isIn, if_pos (by rfl), List.any_map]
  congr 1
  rw [Bool.eq_iff_iff]
  simp

theorem anyOutside_strs (pc items : List String) : anyOutside (pc.map .str) (items.map .str) =
    .ok (items.any fun c => decide (c = "*") || !decide (c ∈ pc)) := by
  induction items with
  | nil => rfl
  | cons c items ih =>
      rw [List.map_cons, anyOutside, eq_str, isIn_strs, ih]
      by_cases hstar : c = "*" <;> by_cases hmem : c ∈ pc <;>
        simp [hstar, hmem, bind, Except.bind, pure, Except.pure]

theorem caveats_capabilities : (Value.of c).getItem "capabilities" = .ok (.of c.capabilities) := by
  simp [Value.of, Value.getItem_struct]

theorem caveats_notAfter : (Value.of c).getItem "not_after" = .ok (.int c.notAfter.toNat) := by
  simp [Value.of, Value.getItem_struct, Value.ofItem]

theorem caveats_constraints :
    (Value.of c).get (.str "constraints") .none = .ok (.of c.constraints) := by
  simp [Value.of, Value.get_struct]

theorem toSet_strs (items : List String) :
    (Value.list (items.map .str)).toSet = .ok (items.map .str) := by
  have hall : (items.map Value.str).all Value.isHashable = true := by
    simp [List.all_map, Value.isHashable]
  simp only [Value.toSet, Value.iter, bind, Except.bind, hall, if_true, pure, Except.pure]

theorem widens_of : widens (.of c) (.of p) = .ok (!decide ("*" ∈ p.capabilities) &&
    c.capabilities.toList.any fun cap => decide (cap = "*") || !decide (cap ∈ p.capabilities)) := by
  have houtside := anyOutside_strs p.capabilities.toList c.capabilities.toList
  simp only [Std.ExtTreeSet.mem_toList] at houtside
  rw [widens, caveats_capabilities, caveats_capabilities, of_set, of_set]
  simp only [bind, Except.bind, toSet_strs, isIn_strs, Value.iter, houtside,
    Std.ExtTreeSet.mem_toList]
  by_cases hstar : "*" ∈ p.capabilities <;> simp [hstar, pure, Except.pure]

theorem loosens_of (items : List (String × String)) :
    loosens (.of c) (items.map fun (k, v) => (.str k, .str v)) =
      .ok (items.any fun (k, v) => c.constraints[k]? != some v) := by
  induction items with
  | nil => rfl
  | cons item items ih =>
      obtain ⟨k, v⟩ := item
      have hsame : (((c.constraints[k]?.map Value.str).getD .none).eq (.str v)) =
          (c.constraints[k]? == some v) := by
        cases c.constraints[k]? with
        | none => rfl
        | some own => simp [beq_eq_decide]
      rw [List.map_cons, loosens, caveats_constraints]
      simp only [bind, Except.bind, orElse_map, get_map, hsame, ih, List.any_cons]
      cases hown : c.constraints[k]? == some v <;> simp [bne, hown, pure, Except.pure]

theorem narrows_iff : narrows (.of c) (.of p) = .ok true ↔ c.ensureNarrows p = .ok () := by
  have hlt : Value.lt (.int p.notAfter.toNat) (.int c.notAfter.toNat) =
      .ok (decide (p.notAfter < c.notAfter)) := by
    simp [Value.lt, Value.asInt, UInt64.lt_iff_toNat_lt]
  rw [narrows, widens_of, caveats_notAfter, caveats_notAfter, caveats_constraints]
  simp only [bind, Except.bind, hlt, orElse_map]
  rw [of_map]
  simp only [Value.items, loosens_of, returnFalse_iff]
  simp only [Caveats.ensureNarrows, bind_eq_ok, exists_unit, failIf_eq_ok, gt_iff_lt, pure_eq_ok]
  simp

/-! ### The issuing key -/

/-- A root key of another length than Ed25519's passes the comparison of hashes and fails at the
signature. -/
theorem endorsed_iff {rootPub working : Bytes} {target : Id} {endorsements : List KeyEndorsement}
    {now : UInt64} : endorsed crypto rootPub (.of target) (endorsements.map .of) (.bytes working)
        now.toNat = .ok true ↔
      verifyWorkingKey crypto rootPub target endorsements working now .new = .ok () := by
  rw [verifyWorkingKey_eq_ok, Id.fromRootPublic_eq_ok]
  have htarget : Value.of target = .bytes target.bytes := rfl
  rw [endorsed, htarget, eq_bytes, nextEndorsement_of, returnFalse_iff]
  cases hfind : endorsements.find? fun e => e.workingPub == working with
  | none => simp [bind, Except.bind, pure, Except.pure]
  | some e =>
      simp only [Option.map_some, bind_eq_ok, Except.ok.injEq, exists_eq_left',
        endorsement_workingPub, endorsement_notBefore, endorsement_notAfter, endorsement_rootSig,
        ← of_endorsementView, returnFalse_iff, intLt_u64, intGt_u64]
      simp only [signingInput_of, Bool.not_eq_eq_eq_not, Bool.not_false, decide_eq_true_eq,
        decide_eq_false_iff_not, verifySig_iff, gt_iff_lt, UInt64.not_lt, pure_eq_ok, and_true,
        Option.some.injEq, exists_eq_left', verifyEndorsement_eq_ok, RevocationSet.isRevoked_new]
      constructor
      · rintro ⟨hid, msg, hmsg, hsig, hwindow⟩
        have hlen := (verifyRaw_eq_ok.mp hsig).1
        exact ⟨⟨hlen, congrArg Id.mk hid.symm⟩, ⟨msg, hmsg, hsig⟩, hwindow⟩
      · rintro ⟨⟨-, hid⟩, ⟨msg, hmsg, hsig⟩, hwindow⟩
        exact ⟨(congrArg Id.bytes hid).symm, msg, hmsg, hsig, hwindow⟩

/-! ### One link -/

variable {target : Id} {targetRootPub : Bytes} {targetEndorsements : List KeyEndorsement}
  {capability : String} {now : UInt64} {revocations : RevocationSet} {link before : GrantLink}

theorem link_issuerPub : (Value.of link).getItem "issuer_pub" = .ok (.bytes link.issuerPub) := by
  simp [Value.of, Value.getItem_struct, Value.ofItem]

theorem link_audiencePub :
    (Value.of link).getItem "audience_pub" = .ok (.bytes link.audiencePub) := by
  simp [Value.of, Value.getItem_struct, Value.ofItem]

theorem link_caveats : (Value.of link).getItem "caveats" = .ok (.of link.caveats) := by
  simp [Value.of, Value.getItem_struct]

theorem link_sig : (Value.of link).getItem "sig" = .ok (.bytes link.sig) := by
  simp [Value.of, Value.getItem_struct, Value.ofItem]

theorem of_linkView (prev : Bytes) : Value.of (link.view target prev) = .dict [
    (.str "target", .of target), (.str "issuer_pub", .bytes link.issuerPub),
    (.str "audience_pub", .bytes link.audiencePub), (.str "caveats", .of link.caveats),
    (.str "prev", .bytes prev)] := by
  rfl

theorem isInKeys_bytes (key : Bytes) :
    (Value.bytes key).isInKeys revocations.revoked = .ok (revocations.isRevoked key) := by
  unfold Value.isInKeys RevocationSet.isRevoked
  by_cases hempty : revocations.revoked = ∅
  · simp [hempty]
  · simp [hempty]

theorem containsStr_strs (items : List String) (key : String) :
    (Value.list (items.map .str)).containsStr key = .ok (decide (key ∈ items)) := by
  rw [Value.containsStr, List.any_map]
  congr 1
  rw [Bool.eq_iff_iff]
  simp

theorem allows_of : allows capability (.of link) =
    .ok (link.caveats.allowsCapability capability) := by
  have hallowed : link.caveats.allowsCapability capability =
      (decide ("*" ∈ link.caveats.capabilities) || decide (capability ∈ link.caveats.capabilities)) := by
    rw [Bool.eq_iff_iff, Caveats.allowsCapability_iff]
    simp
  rw [allows, link_caveats, hallowed]
  simp only [bind, Except.bind, caveats_capabilities, of_set, containsStr_strs,
    Std.ExtTreeSet.mem_toList]
  cases decide ("*" ∈ link.caveats.capabilities) <;> rfl

/-- What the checks of a link come to, apart from those that look at the link before. -/
theorem verifyLink_checks {previous : Option Value} {prev : Bytes}
    (hprev : previousSig previous = .ok (.bytes prev)) :
    verifyLink crypto (.of target) targetRootPub (targetEndorsements.map .of) capability now.toNat
        revocations.revoked previous (.of link) = .ok true ↔
      Thicket.Grant.Admits capability now revocations link ∧
        issuedBy crypto (.of target) targetRootPub (targetEndorsements.map .of) now.toNat previous
          (.of link) = .ok true ∧
        narrowsPrevious previous (.of link) = .ok true ∧
        Thicket.Grant.Sealed crypto target prev link := by
  simp only [verifyLink, bind_eq_ok, link_issuerPub, link_audiencePub, link_caveats, link_sig,
    caveats_notAfter, hprev, Except.ok.injEq, exists_eq_left', isInKeys_bytes, returnFalse_iff,
    exists_passed, allows_of, intGt_u64, ← of_linkView]
  simp only [signingInput_of, Bool.not_eq_eq_eq_not, Bool.not_false, verifySig_iff,
    decide_eq_false_iff_not, gt_iff_lt, UInt64.not_lt, pure_eq_ok, and_true]
  constructor
  · rintro ⟨hissuer, haudience, hissued, hnarrows, msg, hmsg, hsig, hallowed, hlive⟩
    exact ⟨⟨hissuer, haudience, hallowed, hlive⟩, hissued, hnarrows, msg, hmsg, hsig⟩
  · rintro ⟨⟨hissuer, haudience, hallowed, hlive⟩, hissued, hnarrows, msg, hmsg, hsig⟩
    exact ⟨hissuer, haudience, hissued, hnarrows, msg, hmsg, hsig, hallowed, hlive⟩

theorem verifyLink_iff (previous : Option GrantLink) :
    verifyLink crypto (.of target) targetRootPub (targetEndorsements.map .of) capability now.toNat
        revocations.revoked (previous.map .of) (.of link) = .ok true ↔
      Thicket.Grant.verifyLink crypto target targetRootPub targetEndorsements capability now
        revocations previous link = .ok () := by
  cases previous with
  | none =>
      rw [Thicket.Grant.verifyLink_head_eq_ok, Option.map_none, verifyLink_checks rfl]
      simp only [issuedBy, narrowsPrevious, link_issuerPub, bind_eq_ok, Except.ok.injEq,
        exists_eq_left', endorsed_iff, pure_eq_ok, true_and]
      refine and_congr_right fun hadmits => and_congr_left fun _ => ?_
      rw [verifyWorkingKey_eq_ok, verifyWorkingKey_eq_ok, hadmits.issuer,
        RevocationSet.isRevoked_new]
  | some before =>
      have hprev : previousSig (some (Value.of before)) = .ok (.bytes before.sig) := link_sig
      rw [Thicket.Grant.verifyLink_inner_eq_ok, Option.map_some, verifyLink_checks hprev]
      simp only [issuedBy, narrowsPrevious, link_issuerPub, link_audiencePub, link_caveats,
        bind_eq_ok, Except.ok.injEq, exists_eq_left', pure_eq_ok, eq_bytes, decide_eq_true_eq,
        narrows_iff, Caveats.ensureNarrows_eq_ok]
      refine and_congr_right fun _ => ?_
      constructor
      · rintro ⟨hissued, hnarrows, hsealed⟩
        exact ⟨⟨hissued, hnarrows⟩, hsealed⟩
      · rintro ⟨⟨hissued, hnarrows⟩, hsealed⟩
        exact ⟨hissued, hnarrows, hsealed⟩

/-! ### The chain -/

theorem verifyLinks_iff {links : List GrantLink} (previous : Option GrantLink) :
    verifyLinks crypto (.of target) targetRootPub (targetEndorsements.map .of) capability now.toNat
        revocations.revoked (previous.map .of) (links.map .of) = .ok true ↔
      Thicket.Grant.verifyLinks crypto target targetRootPub targetEndorsements capability now
        revocations previous links = .ok () := by
  induction links generalizing previous with
  | nil => exact ⟨fun _ => rfl, fun _ => rfl⟩
  | cons link links ih =>
      have hnext := ih (some link)
      rw [Option.map_some] at hnext
      simp only [List.map_cons, verifyLinks, Thicket.Grant.verifyLinks, bind_eq_ok, exists_unit,
        returnFalse_iff, exists_passed, verifyLink_iff, hnext]

/-- The loop checks the root key, at the first link. -/
theorem fromRootPublic_of_verifyLinks {links : List GrantLink}
    (h : Thicket.Grant.verifyLinks crypto target targetRootPub targetEndorsements capability now
      revocations none (link :: links) = .ok ()) :
    Id.fromRootPublic crypto targetRootPub = .ok target := by
  simp only [Thicket.Grant.verifyLinks, bind_eq_ok, exists_unit,
    Thicket.Grant.verifyLink_head_eq_ok] at h
  obtain ⟨⟨-, hkey, -⟩, -⟩ := h
  exact (verifyWorkingKey_eq_ok.mp hkey).1

theorem lastItem_of {links : List GrantLink} (h : links.getLast? = some link) :
    (Value.list (links.map .of)).lastItem = .ok (.of link) := by
  rw [Value.lastItem, List.getLast?_map, h]
  rfl

end Grant

/-- **One verdict on grants.** On the dictionary of a grant, with the dictionaries of the
endorsements and the set of revoked keys, the SDK's verifier returns `True` exactly when the core's
succeeds. -/
theorem grant_verifiers_agree (grant : Thicket.Grant) (targetRootPub : Bytes)
    (targetEndorsements : List KeyEndorsement) (callerPub : Bytes) (capability : String)
    (now : UInt64) (revocations : RevocationSet) :
    Grant.verify crypto (.of grant) targetRootPub (targetEndorsements.map .of) callerPub capability
        now.toNat revocations.revoked = .ok true ↔
      grant.verify crypto targetRootPub targetEndorsements callerPub capability now revocations =
        .ok () := by
  obtain ⟨target, links⟩ := grant
  have htarget : (Value.of (⟨target, links⟩ : Thicket.Grant)).getItem "target" = .ok (.of target) := by
    simp [Value.of, Value.getItem_struct]
  have hlinks : (Value.of (⟨target, links⟩ : Thicket.Grant)).get (.str "links") .none =
      .ok (.list (links.map .of)) := by
    rw [← of_list]
    simp [Value.of, Value.get_struct]
  rw [Grant.verify, hlinks, Thicket.Grant.verify]
  cases links with
  | nil => simp [Value.orElse, Value.truthy, bind, Except.bind, pure, Except.pure, failIf]
  | cons link links =>
      have hsome : (Value.list ((link :: links).map Value.of)).orElse (.list []) =
          .list ((link :: links).map .of) := by
        rfl
      have hverify : Grant.verifyLinks crypto (.of target) targetRootPub
            (targetEndorsements.map .of) capability now.toNat revocations.revoked none
            ((link :: links).map .of) = .ok true ↔
          Thicket.Grant.verifyLinks crypto target targetRootPub targetEndorsements capability now
            revocations none (link :: links) = .ok () :=
        Grant.verifyLinks_iff none
      simp only [bind_eq_ok, Except.ok.injEq, exists_eq_left', hsome, htarget, returnFalse_iff,
        exists_passed, hverify, failIf_eq_ok, exists_unit, liftCore_eq_ok, okOr_eq_ok]
      obtain ⟨last, hlast⟩ := Option.isSome_iff_exists.mp
        (List.getLast?_isSome.mpr (List.cons_ne_nil link links))
      have hid : Value.of target = .bytes target.bytes := rfl
      simp only [hlast, Grant.lastItem_of hlast, hid, eq_bytes, Grant.link_audiencePub,
        Except.ok.injEq, exists_eq_left', pure_eq_ok, Option.some.injEq, decide_eq_true_eq, ne_eq,
        not_not, Bool.not_eq_eq_eq_not, Bool.not_false]
      constructor
      · rintro ⟨-, hhash, hloop, hcaller⟩
        exact ⟨by simp, target, Grant.fromRootPublic_of_verifyLinks hloop, rfl, hloop, hcaller⟩
      · rintro ⟨-, id, hroot, rfl, hloop, hcaller⟩
        obtain ⟨-, hhash⟩ := Id.fromRootPublic_eq_ok.mp hroot
        exact ⟨rfl, (congrArg Id.bytes hhash).symm, hloop, hcaller⟩

end Thicket.Py
