import Thicket.Py.Delegate
import Thicket.Py.GrantVerdict

/-!
# What a delegated grant permits

A verifier walks the links of the held grant as it did before, and then the new one. So the new
grant is accepted where the held one is and the new link's own caveats allow it, and the new link is
appended only if its caveats narrow those of the last one.
-/

namespace Thicket.Py

open Cbor (Bytes)
open Result

variable {crypto : Crypto}

/-! ### Looking up -/

theorem getItem_of_get {v w : Value} {key : String} (h : v.get (.str key) .none = .ok w)
    (hw : w ≠ .none) : v.getItem key = .ok w := by
  cases v with
  | dict entries =>
      rw [Value.get, if_pos (by rfl)] at h
      rw [Value.getItem]
      cases hfind : entries.find? fun e => e.1.eq (.str key) with
      | none =>
          rw [hfind] at h
          exact absurd (Except.ok.inj h).symm hw
      | some e =>
          rw [hfind] at h
          exact h
  | _ => cases h

theorem get_of_getItem {v w : Value} {key : String} (h : v.getItem key = .ok w) :
    v.get (.str key) .none = .ok w := by
  cases v with
  | dict entries =>
      rw [Value.get, if_pos (by rfl)]
      rw [Value.getItem] at h
      cases hfind : entries.find? fun e => e.1.eq (.str key) with
      | none => rw [hfind] at h; cases h
      | some e =>
          rw [hfind] at h
          exact h
  | _ => cases h

/-! ### The verifier of a resource -/

/-- What a resource checks grants against. -/
structure Resource where
  rootPub : Bytes
  endorsements : List Value
  revocations : Finset Bytes

theorem isInKeys_bytes_eq (key : Bytes) (keys : Finset Bytes) :
    (Value.bytes key).isInKeys keys = .ok (decide (key ∈ keys)) := by
  unfold Value.isInKeys
  split_ifs with hempty <;> simp [hempty]

namespace Resource

variable (crypto) (resource : Resource)

/-- `grant.verify` returns `True`. -/
def Accepts (grant : Value) (callerPub : Bytes) (capability : String) (now : Int) : Prop :=
  Grant.verify crypto grant resource.rootPub resource.endorsements callerPub capability now
    resource.revocations = .ok true

/-- `grant["target"]` of a grant for the resource. -/
def target : Value := .bytes (crypto.sha256 resource.rootPub)

/-- The loop over the links gets through. -/
def Walks (capability : String) (now : Int) (previous : Option Value) (links : List Value) : Prop :=
  Grant.verifyLinks crypto (resource.target crypto) resource.rootPub resource.endorsements
    capability now resource.revocations previous links = .ok true

def Passes (capability : String) (now : Int) (previous : Option Value) (link : Value) : Prop :=
  Grant.verifyLink crypto (resource.target crypto) resource.rootPub resource.endorsements
    capability now resource.revocations previous link = .ok true

variable {crypto} {resource} {capability : String} {now : Int}

theorem walks_cons {previous : Option Value} {link : Value} {links : List Value} :
    resource.Walks crypto capability now previous (link :: links) ↔
      resource.Passes crypto capability now previous link ∧
        resource.Walks crypto capability now (some link) links := by
  unfold Walks Passes
  rw [Grant.verifyLinks, bind_eq_ok]
  simp only [returnFalse_iff, exists_passed]

theorem walks_append {previous : Option Value} {links : List Value} {link : Value} :
    resource.Walks crypto capability now previous (links ++ [link]) ↔
      resource.Walks crypto capability now previous links ∧
        resource.Passes crypto capability now (links.getLast?.or previous) link := by
  induction links generalizing previous with
  | nil =>
      rw [List.nil_append, walks_cons]
      exact and_comm
  | cons first links ih =>
      have hlast : (first :: links).getLast?.or previous = links.getLast?.or (some first) := by
        rw [List.getLast?_cons]
        cases links.getLast? <;> rfl
      rw [List.cons_append, walks_cons, ih, walks_cons, hlast, and_assoc]

theorem accepts_iff {grant : Value} {callerPub : Bytes} :
    resource.Accepts crypto grant callerPub capability now ↔
      ∃ links last, grant.getItem "links" = .ok (.list links) ∧ links.getLast? = some last ∧
        grant.getItem "target" = .ok (resource.target crypto) ∧
        resource.Walks crypto capability now none links ∧
        last.getItem "audience_pub" = .ok (.bytes callerPub) := by
  unfold Accepts Grant.verify Walks target
  constructor
  · intro h
    obtain ⟨found, hfound, h⟩ := bind_eq_ok.mp h
    obtain ⟨htruthy, h⟩ := returnFalse_iff.mp h
    obtain ⟨target, htarget, h⟩ := bind_eq_ok.mp h
    obtain ⟨hhash, h⟩ := returnFalse_iff.mp h
    obtain rfl := eq_bytes_iff.mp (by simpa using hhash)
    have hsame : found.orElse (.list []) = found := by
      unfold Value.orElse at htruthy ⊢
      split_ifs at htruthy ⊢ with hfoundTruthy
      · rfl
      · exact absurd htruthy (by decide)
    rw [hsame] at h htruthy
    cases found with
    | list links =>
        obtain ⟨walked, hwalked, h⟩ := bind_eq_ok.mp h
        obtain ⟨hpassed, h⟩ := returnFalse_iff.mp h
        obtain ⟨last, hlast, h⟩ := bind_eq_ok.mp h
        obtain ⟨audience, haudience, h⟩ := bind_eq_ok.mp h
        obtain rfl := eq_bytes_iff.mp (pure_eq_ok.mp h)
        obtain rfl : walked = true := by simpa using hpassed
        have hgetLast : links.getLast? = some last := by
          rw [Value.lastItem] at hlast
          cases hl : links.getLast? with
          | none => rw [hl] at hlast; cases hlast
          | some item =>
              rw [hl] at hlast
              exact congrArg some (Except.ok.inj hlast)
        exact ⟨links, last, getItem_of_get hfound (fun h => by cases h), hgetLast, htarget,
          hwalked, haudience⟩
    | _ => cases h
  · intro h
    obtain ⟨links, last, hlinks, hlast, htarget, hwalks, haudience⟩ := h
    have htruthy : (Value.list links).truthy = true := by
      cases links with
      | nil => cases hlast
      | cons link links => rfl
    rw [get_of_getItem hlinks, htarget]
    simp only [bind, Except.bind, Value.orElse, htruthy, if_true, eq_bytes, decide_true, hwalks,
      Value.lastItem, hlast, haudience]
    rfl

end Resource

/-! ### The new link -/

theorem lastItem_list {links : List Value} {last : Value} :
    (Value.list links).lastItem = .ok last ↔ links.getLast? = some last := by
  rw [Value.lastItem]
  cases links.getLast? <;> simp

/-- A grant for the resource whose last link names the holder, with what `attenuate` reads of it. -/
structure Holding (resource : Resource) (grant : Value) (holder : WorkingKey crypto) where
  links : List Value
  last : Value
  caveats : Value
  sig : Bytes
  links_eq : grant.getItem "links" = .ok (.list links)
  last_eq : links.getLast? = some last
  target_eq : grant.getItem "target" = .ok (resource.target crypto)
  audience_eq : last.getItem "audience_pub" = .ok (.bytes holder.public)
  caveats_eq : last.getItem "caveats" = .ok caveats
  sig_eq : last.getItem "sig" = .ok (.bytes sig)
  sig_length : sig.length = 64
  notRevoked : holder.public ∉ resource.revocations

theorem bytes_of_verifySig {publicKey sig : Value} {msg : Bytes}
    (h : verifySig crypto publicKey msg sig = true) : ∃ bs, sig = .bytes bs ∧ bs.length = 64 := by
  unfold verifySig at h
  split at h
  · next key bs =>
      cases hraw : verifyRaw crypto key msg bs with
      | ok u => exact ⟨bs, rfl, (verifyRaw_eq_ok.mp hraw).2.2.1⟩
      | error e =>
          rw [hraw] at h
          cases h
  · cases h

/-- What the verifier has checked of a link that passes. -/
theorem Resource.Passes.checked {resource : Resource} {capability : String} {now : Int}
    {previous : Option Value} {link : Value}
    (h : resource.Passes crypto capability now previous link) {audiencePub : Bytes}
    (haudience : link.getItem "audience_pub" = .ok (.bytes audiencePub)) :
    audiencePub ∉ resource.revocations ∧ Grant.allows capability link = .ok true ∧
      ∃ cav sig notAfter, link.getItem "caveats" = .ok cav ∧ link.getItem "sig" = .ok (.bytes sig) ∧
        sig.length = 64 ∧ ¬HasNegative cav ∧ cav.getItem "not_after" = .ok notAfter ∧
        Value.intGt now notAfter = .ok false := by
  unfold Resource.Passes Grant.verifyLink at h
  simp only [bind_eq_ok, returnFalse_iff, exists_passed, haudience, isInKeys_bytes_eq,
    Except.ok.injEq, exists_eq_left', decide_eq_false_iff_not] at h
  obtain ⟨_, _, _, _, _, hrevoked, _, _, _, _, cav, hcav, _, _, msg, hmsg, issuer, _, sigItem,
    hsigItem, hverify, hallows, cav', hcav', notAfter, hnotAfter, _, hlive, rfl, _⟩ := h
  obtain rfl := Except.ok.inj (hcav.symm.trans hcav')
  obtain ⟨sig, rfl, hlength⟩ := bytes_of_verifySig (by simpa using hverify)
  have hnonneg : ¬HasNegative cav := by
    intro hneg
    obtain ⟨bytes, hbytes, _⟩ := bind_eq_ok.mp hmsg
    obtain ⟨item, hitem, _⟩ := encode_eq_ok.mp hbytes
    exact not_hasNegative_ofItem (.value (.str "caveats", cav) (by simp) hneg) item hitem
  exact ⟨hrevoked, hallows, cav, sig, notAfter, hcav, hsigItem, hlength, hnonneg, hnotAfter, hlive⟩

namespace Holding

variable {resource : Resource} {held g cav : Value} {working : WorkingKey crypto}
  {audiencePub : Bytes} {capability : String} {now : Int}

theorem walks_last {previous : Option Value} {links : List Value} {last : Value}
    (h : resource.Walks crypto capability now previous links) (hlast : links.getLast? = some last) :
    ∃ before, resource.Passes crypto capability now before last := by
  obtain ⟨front, rfl⟩ := List.getLast?_eq_some_iff.mp hlast
  exact ⟨_, (Resource.walks_append.mp h).2⟩

/-- A grant that is accepted somewhere can be attenuated. -/
theorem of_accepts (h : resource.Accepts crypto held working.public capability now) :
    Nonempty (Holding resource held working) := by
  obtain ⟨links, last, hlinks, hlast, htarget, hwalks, haudience⟩ := Resource.accepts_iff.mp h
  obtain ⟨before, hpasses⟩ := walks_last hwalks hlast
  obtain ⟨hrevoked, _, cav, sig, _, hcav, hsig, hlength, _⟩ := hpasses.checked haudience
  exact ⟨links, last, cav, sig, hlinks, hlast, htarget, haudience, hcav, hsig, hlength, hrevoked⟩

theorem checked (h : Holding resource held working)
    (haccepts : resource.Accepts crypto held working.public capability now) :
    ¬HasNegative h.caveats ∧ ∃ notAfter, h.caveats.getItem "not_after" = .ok notAfter ∧
      Value.intGt now notAfter = .ok false := by
  obtain ⟨links, last, hlinks, hlast, _, hwalks, haudience⟩ := Resource.accepts_iff.mp haccepts
  obtain rfl := Value.list.inj (Except.ok.inj (hlinks.symm.trans h.links_eq))
  obtain rfl := Option.some.inj (hlast.symm.trans h.last_eq)
  obtain ⟨before, hpasses⟩ := walks_last hwalks hlast
  obtain ⟨_, _, cav, _, notAfter, hcav, _, _, hnonneg, hnotAfter, hlive⟩ :=
    hpasses.checked haudience
  obtain rfl := Except.ok.inj (hcav.symm.trans h.caveats_eq)
  exact ⟨hnonneg, notAfter, hnotAfter, hlive⟩

theorem lastCaveats (h : Holding resource held working) :
    Grant.lastCaveats held = .ok h.caveats := by
  rw [Grant.lastCaveats, h.links_eq]
  show ((Value.list h.links).lastItem >>= fun last => last.getItem "caveats") = .ok h.caveats
  rw [lastItem_list.mpr h.last_eq]
  exact h.caveats_eq

theorem accepts_iff (h : Holding resource held working) :
    resource.Accepts crypto held working.public capability now ↔
      resource.Walks crypto capability now none h.links := by
  rw [Resource.accepts_iff]
  constructor
  · intro ⟨links, last, hlinks, _, _, hwalks, _⟩
    obtain rfl := Value.list.inj (Except.ok.inj (hlinks.symm.trans h.links_eq))
    exact hwalks
  · intro hwalks
    exact ⟨h.links, h.last, h.links_eq, h.last_eq, h.target_eq, hwalks, h.audience_eq⟩

/-- The link that `attenuate` appends. -/
def newLink (working : WorkingKey crypto) (audiencePub : Bytes) (cav : Value) (sig : Bytes) :
    Value :=
  .dict [
    (.str "issuer_pub", .bytes working.public),
    (.str "audience_pub", .bytes audiencePub),
    (.str "caveats", cav),
    (.str "sig", .bytes sig)]

theorem attenuate (h : Holding resource held working) :
    Grant.attenuate held working (.bytes audiencePub) cav = (do
      failIf (!(← Grant.narrows cav h.caveats)) .valueError
      let sig ← Grant.linkSig (resource.target crypto) working (.bytes audiencePub) cav
        (.bytes h.sig)
      return .dict [(.str "target", resource.target crypto),
        (.str "links", .list (h.links ++ [newLink working audiencePub cav sig]))]) := by
  rw [Grant.attenuate]
  simp only [h.links_eq, lastItem_list.mpr h.last_eq, h.audience_eq, h.caveats_eq, h.target_eq,
    h.sig_eq, bind, Except.bind, eq_bytes, decide_true, Value.append, failIf]
  rfl

/-- The new grant is accepted for its audience where the held one is accepted for its holder and the
new link passes. -/
theorem accepts_append (h : Holding resource held working) {sig : Bytes}
    (hg : g = .dict [(.str "target", resource.target crypto),
      (.str "links", .list (h.links ++ [newLink working audiencePub cav sig]))]) :
    resource.Accepts crypto g audiencePub capability now ↔
      resource.Accepts crypto held working.public capability now ∧
        resource.Passes crypto capability now (some h.last)
          (newLink working audiencePub cav sig) := by
  have hlinks : g.getItem "links" =
      .ok (.list (h.links ++ [newLink working audiencePub cav sig])) := by
    rw [hg]
    rfl
  have htarget : g.getItem "target" = .ok (resource.target crypto) := by
    rw [hg]
    rfl
  have hlast : h.links.getLast?.or none = some h.last := by rw [h.last_eq]; rfl
  rw [h.accepts_iff, Resource.accepts_iff]
  constructor
  · intro ⟨links', _, hlinks', _, _, hwalks, _⟩
    obtain rfl := Value.list.inj (Except.ok.inj (hlinks'.symm.trans hlinks))
    rw [Resource.walks_append, hlast] at hwalks
    exact hwalks
  · intro hwalks
    refine ⟨_, _, hlinks, List.getLast?_concat, htarget, ?_, rfl⟩
    rw [Resource.walks_append, hlast]
    exact hwalks

/-- The verifier's checks of a link that `attenuate` appended come down to those of its caveats. -/
theorem passes_iff (hsign : crypto.SignVerifies) (h : Holding resource held working) {sig : Bytes}
    (hsig : Grant.linkSig (resource.target crypto) working (.bytes audiencePub) cav (.bytes h.sig) =
      .ok sig)
    (hnarrows : Grant.narrows cav h.caveats = .ok true)
    (haudience : audiencePub ∉ resource.revocations) :
    resource.Passes crypto capability now (some h.last) (newLink working audiencePub cav sig) ↔
      Grant.allows capability (newLink working audiencePub cav sig) = .ok true ∧
        ∃ notAfter, cav.getItem "not_after" = .ok notAfter ∧
          Value.intGt now notAfter = .ok false := by
  have hissuer : (newLink working audiencePub cav sig).getItem "issuer_pub" =
      .ok (.bytes working.public) := by rfl
  have haud : (newLink working audiencePub cav sig).getItem "audience_pub" =
      .ok (.bytes audiencePub) := by rfl
  have hcav : (newLink working audiencePub cav sig).getItem "caveats" = .ok cav := by rfl
  have hsigItem : (newLink working audiencePub cav sig).getItem "sig" = .ok (.bytes sig) := by rfl
  rw [Grant.linkSig] at hsig
  obtain ⟨msg, hmsg, hsigned⟩ := bind_eq_ok.mp hsig
  obtain rfl := pure_eq_ok.mp hsigned
  have hverify := verifySig_iff.mpr (working.verify_sign hsign msg)
  unfold Resource.Passes
  simp only [Grant.verifyLink, hissuer, haud, hcav, hsigItem, isInKeys_bytes_eq, h.notRevoked,
    haudience, decide_false, Grant.issuedBy, h.audience_eq, Grant.narrowsPrevious, h.caveats_eq,
    hnarrows, Grant.previousSig, h.sig_eq, hmsg, hverify, bind_eq_ok, Except.ok.injEq,
    exists_eq_left', returnFalse_iff, exists_passed, eq_bytes, decide_true, pure_eq_ok]
  simp

end Holding

/-! ### The caveats of the new link -/

/-- The capability is one of the list, or the list has them all. -/
def Allows (capabilities : List String) (capability : String) : Prop :=
  "*" ∈ capabilities ∨ capability ∈ capabilities

theorem mem_sortedSet {items : List String} {s : String} : s ∈ sortedSet items ↔ s ∈ items := by
  rw [sortedSet, List.mem_mergeSort, List.mem_dedup]

/-- What `caveatsOf` makes. -/
def Grant.caveatsValue (capabilities : List String) (notAfter : Value)
    (entries : List (Value × Value)) : Value :=
  .dict [
    (.str "capabilities", .list ((sortedSet capabilities).map .str)),
    (.str "not_after", notAfter),
    (.str "constraints", .dict entries)]

theorem caveatsOf_eq_ok {capabilities : List String} {notAfter constraints cav : Value} :
    Grant.caveatsOf capabilities notAfter constraints = .ok cav ↔
      ∃ items entries, (constraints.orElse (.dict [])).items = .ok items ∧
        Grant.sortedItems items = .ok entries ∧
        cav = Grant.caveatsValue capabilities notAfter entries := by
  rw [Grant.caveatsOf, bind_eq_ok]
  simp only [bind_eq_ok, pure_eq_ok]
  constructor
  · intro h
    obtain ⟨items, hitems, entries, hentries, hcav⟩ := h
    exact ⟨items, entries, hitems, hentries, hcav.symm⟩
  · intro h
    obtain ⟨items, entries, hitems, hentries, hcav⟩ := h
    exact ⟨items, hitems, entries, hentries, hcav.symm⟩

theorem sortedItems_perm {items entries : List (Value × Value)}
    (h : Grant.sortedItems items = .ok entries) : entries.Perm items := by
  rw [Grant.sortedItems] at h
  split_ifs at h
  rw [← Except.ok.inj h]
  exact List.mergeSort_perm _ _

section Checks

variable {capabilities : List String} {notAfter : Value} {entries : List (Value × Value)}
  {capability : String} {now : Int}

theorem allows_newLink {working : WorkingKey crypto} {audiencePub sig : Bytes} :
    Grant.allows capability (Holding.newLink working audiencePub
        (Grant.caveatsValue capabilities notAfter entries) sig) = .ok true ↔
      Allows capabilities capability := by
  have hcaps : (Grant.caveatsValue capabilities notAfter entries).getItem "capabilities" =
      .ok (.list ((sortedSet capabilities).map .str)) := by rfl
  have hcav : (Holding.newLink working audiencePub
      (Grant.caveatsValue capabilities notAfter entries) sig).getItem "caveats" =
        .ok (Grant.caveatsValue capabilities notAfter entries) := by rfl
  simp only [Grant.allows, hcav, hcaps, bind, Except.bind, Grant.containsStr_strs, mem_sortedSet,
    Allows]
  by_cases hstar : "*" ∈ capabilities <;> simp [hstar, pure, Except.pure]

theorem lt_int {value : Value} {n : Int} {b : Bool} (h : Value.lt value (.int n) = .ok b) :
    ∃ m, value.asInt = some m ∧ b = decide (m < n) := by
  cases value with
  | bool x => exact ⟨_, rfl, (Except.ok.inj h).symm⟩
  | int m => exact ⟨m, rfl, (Except.ok.inj h).symm⟩
  | _ => cases h

/-- Below the expiry is below the held one and the one asked for. -/
theorem intGt_expiry {last held expiry : Value} {notAfter : Option Int}
    (hheld : last.getItem "not_after" = .ok held)
    (h : Context.expiry last notAfter = .ok expiry) :
    Value.intGt now expiry = .ok false ↔
      Value.intGt now held = .ok false ∧ ∀ n ∈ notAfter, now ≤ n := by
  rw [Context.expiry, hheld] at h
  cases notAfter with
  | none =>
      obtain rfl : held = expiry := Except.ok.inj h
      simp
  | some n =>
      obtain ⟨less, hless, h⟩ := bind_eq_ok.mp (show minOf n held = .ok expiry from h)
      obtain ⟨m, hm, rfl⟩ := lt_int hless
      have hvalue : Value.intGt now held = .ok (decide (now > m)) := by rw [Value.intGt, hm]
      have hlimit : Value.intGt now (.int n) = .ok (decide (now > n)) := rfl
      by_cases hmn : m < n
      · obtain rfl : held = expiry := by simpa [hmn, pure, Except.pure] using h
        rw [hvalue]
        simp
        omega
      · obtain rfl : Value.int n = expiry := by simpa [hmn, pure, Except.pure] using h
        rw [hvalue, hlimit]
        simp
        omega

end Checks

/-! ### The constraints of the new link -/

/-- `(caveats.get("constraints") or {}).items()` -/
def Grant.constraints (caveats : Value) : Except Exc (List (Value × Value)) := do
  ((← caveats.get (.str "constraints") .none).orElse (.dict [])).items

/-- The constraint of the key has this value. -/
def Carries (caveats k v : Value) : Prop :=
  ∃ entries found, Grant.constraints caveats = .ok entries ∧
    (Value.dict entries).get k .none = .ok found ∧ found.eq v = true

theorem loosens_eq_false {child : Value} {items : List (Value × Value)} :
    Grant.loosens child items = .ok false ↔ ∀ e ∈ items, Carries child e.1 e.2 := by
  induction items with
  | nil => simp [Grant.loosens]
  | cons item items ih =>
      obtain ⟨k, v⟩ := item
      rw [Grant.loosens, List.forall_mem_cons, ← ih]
      constructor
      · intro h
        obtain ⟨own, hown, h⟩ := bind_eq_ok.mp h
        obtain ⟨found, hfound, h⟩ := bind_eq_ok.mp h
        cases hsame : found.eq v with
        | false => simp [hsame, pure, Except.pure] at h
        | true =>
            rw [hsame] at h
            have hentries : ∃ entries, own.orElse (.dict []) = .dict entries := by
              cases hdict : own.orElse (.dict []) with
              | dict entries => exact ⟨entries, rfl⟩
              | _ => rw [hdict] at hfound; cases hfound
            obtain ⟨entries, hentries⟩ := hentries
            refine ⟨⟨entries, found, ?_, hentries ▸ hfound, hsame⟩, h⟩
            rw [Grant.constraints, hown]
            show (own.orElse (.dict [])).items = .ok entries
            rw [hentries]
            rfl
      · intro h
        obtain ⟨⟨entries, found, hentries, hfound, hsame⟩, h⟩ := h
        obtain ⟨own, hown, hitems⟩ := bind_eq_ok.mp hentries
        have hdict : own.orElse (.dict []) = .dict entries := by
          cases hown : own.orElse (.dict []) with
          | dict items =>
              rw [hown] at hitems
              rw [show items = entries from Except.ok.inj hitems]
          | _ => rw [hown] at hitems; cases hitems
        rw [hown]
        show ((own.orElse (.dict [])).get k .none >>= _) = _
        rw [hdict, hfound]
        show (if (!found.eq v) = true then _ else _) = _
        rw [hsame]
        exact h

/-- A link that narrows another one has its constraints. -/
theorem narrows_carries {child parent : Value} {items : List (Value × Value)}
    (h : Grant.narrows child parent = .ok true) (hitems : Grant.constraints parent = .ok items) :
    ∀ e ∈ items, Carries child e.1 e.2 := by
  rw [Grant.narrows] at h
  obtain ⟨_, _, h⟩ := bind_eq_ok.mp h
  obtain ⟨-, h⟩ := returnFalse_iff.mp h
  obtain ⟨_, _, h⟩ := bind_eq_ok.mp h
  obtain ⟨_, _, h⟩ := bind_eq_ok.mp h
  obtain ⟨_, _, h⟩ := bind_eq_ok.mp h
  obtain ⟨-, h⟩ := returnFalse_iff.mp h
  obtain ⟨constraints, hconstraints, h⟩ := bind_eq_ok.mp h
  obtain ⟨found, hfound, h⟩ := bind_eq_ok.mp h
  obtain ⟨loosened, hloosened, h⟩ := bind_eq_ok.mp h
  obtain ⟨rfl, -⟩ := returnFalse_iff.mp h
  rw [Grant.constraints, hconstraints] at hitems
  obtain rfl := Except.ok.inj (hfound.symm.trans hitems)
  exact loosens_eq_false.mp hloosened

/-- The dictionary has the text for the key, and nothing else. -/
def Binds (d : List (Value × Value)) (k v : String) : Prop :=
  (∃ e ∈ d, e.1 = .str k) ∧ ∀ e ∈ d, e.1 = .str k → e.2 = .str v

theorem Binds.get {d : List (Value × Value)} {k v : String} (h : Binds d k v) :
    (Value.dict d).get (.str k) .none = .ok (.str v) := by
  rw [Value.get, if_pos (by rfl)]
  obtain ⟨⟨e, he, hkey⟩, hvalue⟩ := h
  cases hfind : d.find? fun e => e.1.eq (.str k) with
  | none => exact absurd (eq_str_iff.mpr hkey) (by simpa using List.find?_eq_none.mp hfind e he)
  | some found =>
      have hfound := eq_str_iff.mp (by simpa using List.find?_some hfind)
      rw [← hvalue found (List.mem_of_find?_eq_some hfind) hfound]
      rfl

theorem Binds.perm {d d' : List (Value × Value)} {k v : String} (h : Binds d k v) (hd : d'.Perm d) :
    Binds d' k v := by
  obtain ⟨⟨e, he, hkey⟩, hvalue⟩ := h
  exact ⟨⟨e, hd.mem_iff.mpr he, hkey⟩, fun e he => hvalue e (hd.mem_iff.mp he)⟩

theorem Binds.of_nodup {d : List (Value × Value)} {k v : String} (hkeys : (d.map Prod.fst).Nodup)
    (h : (.str k, .str v) ∈ d) : Binds d k v := by
  refine ⟨⟨_, h, rfl⟩, ?_⟩
  intro e he hkey
  rw [List.inj_on_of_nodup_map hkeys he h hkey]

/-- `d[k] = v` either replaces or adds. -/
theorem mem_setItem {d d' : List (Value × Value)} {k v : String}
    (h : setItem d (.str k) (.str v) = .ok d') {e : Value × Value} :
    e ∈ d' ↔ e = (.str k, .str v) ∨ e ∈ d ∧ e.1 ≠ .str k := by
  rw [setItem, if_pos (by rfl)] at h
  split_ifs at h with hany
  · obtain rfl := Except.ok.inj h
    obtain ⟨old, hold, hkey⟩ := List.any_eq_true.mp hany
    rw [List.mem_map]
    constructor
    · intro hmem
      obtain ⟨entry, hentry, heq⟩ := hmem
      split_ifs at heq with hsame
      · rw [eq_str_iff.mp hsame] at heq
        exact Or.inl heq.symm
      · obtain rfl := heq
        exact Or.inr ⟨hentry, fun heq => hsame (eq_str_iff.mpr heq)⟩
    · intro hmem
      cases hmem with
      | inl heq =>
          refine ⟨old, hold, ?_⟩
          rw [if_pos hkey, eq_str_iff.mp hkey, heq]
      | inr hmem =>
          refine ⟨e, hmem.1, ?_⟩
          rw [if_neg fun heq => hmem.2 (eq_str_iff.mp heq)]
  · obtain rfl := Except.ok.inj h
    have hnone : ∀ entry ∈ d, entry.1 ≠ .str k := by
      intro entry hentry heq
      exact hany (List.any_eq_true.mpr ⟨entry, hentry, eq_str_iff.mpr heq⟩)
    rw [List.mem_append, List.mem_singleton, or_comm]
    apply or_congr_right
    exact ⟨fun hmem => ⟨hmem, hnone e hmem⟩, And.left⟩

/-- After an update the dictionary has the new items, and the old ones under other keys. -/
theorem mem_updateItems {items : List (String × String)} (hnodup : (items.map Prod.fst).Nodup)
    {d d' : List (Value × Value)} (h : updateItems d items = .ok d') {e : Value × Value} :
    e ∈ d' ↔ (∃ item ∈ items, e = (.str item.1, .str item.2)) ∨
      e ∈ d ∧ ∀ item ∈ items, e.1 ≠ .str item.1 := by
  induction items generalizing d with
  | nil =>
      obtain rfl := Except.ok.inj h
      simp
  | cons item items ih =>
      obtain ⟨k, v⟩ := item
      obtain ⟨d₁, hset, hrest⟩ := bind_eq_ok.mp h
      obtain ⟨hk, hnodup⟩ := List.nodup_cons.mp hnodup
      have hother : ∀ item ∈ items, item.1 ≠ k := by
        intro item hitem heq
        exact hk (List.mem_map.mpr ⟨item, hitem, heq⟩)
      rw [ih hnodup hrest, mem_setItem hset]
      simp only [List.exists_mem_cons_iff, List.forall_mem_cons]
      constructor
      · rintro (hnew | ⟨rfl | ⟨hmem, hkey⟩, hkeys⟩)
        · exact .inl (.inr hnew)
        · exact .inl (.inl rfl)
        · exact .inr ⟨hmem, hkey, hkeys⟩
      · rintro ((rfl | hnew) | ⟨hmem, hkey, hkeys⟩)
        · refine .inr ⟨.inl rfl, fun item hitem heq => ?_⟩
          exact hother item hitem (Value.str.inj heq).symm
        · exact .inl hnew
        · exact .inr ⟨.inr ⟨hmem, hkey⟩, hkeys⟩

/-- A new item is the entry of its key. -/
theorem binds_updateItems {items : List (String × String)} (hnodup : (items.map Prod.fst).Nodup)
    {d d' : List (Value × Value)} (h : updateItems d items = .ok d') {item : String × String}
    (hitem : item ∈ items) : Binds d' item.1 item.2 := by
  constructor
  · exact ⟨_, (mem_updateItems hnodup h).mpr (Or.inl ⟨item, hitem, rfl⟩), rfl⟩
  · intro e he hkey
    cases (mem_updateItems hnodup h).mp he with
    | inl hnew =>
        obtain ⟨other, hother, rfl⟩ := hnew
        rw [List.inj_on_of_nodup_map hnodup hother hitem (Value.str.inj hkey)]
    | inr hold => exact absurd hkey (hold.2 item hitem)

/-- What an old key is bound to stays, unless a new item differs from it. -/
theorem Binds.updateItems {items : List (String × String)} (hnodup : (items.map Prod.fst).Nodup)
    {d d' : List (Value × Value)} {k v : String} (hbinds : Binds d k v)
    (h : updateItems d items = .ok d') (hsame : ∀ v', (k, v') ∈ items → v' = v) :
    Binds d' k v := by
  by_cases hkey : ∃ v', (k, v') ∈ items
  · obtain ⟨v', hitem⟩ := hkey
    obtain rfl := hsame v' hitem
    exact binds_updateItems hnodup h hitem
  · have hother : ∀ item ∈ items, Value.str k ≠ .str item.1 := by
      intro item hitem heq
      obtain rfl := Value.str.inj heq
      exact hkey ⟨item.2, hitem⟩
    obtain ⟨⟨e, he, hek⟩, hvalue⟩ := hbinds
    refine ⟨⟨e, (mem_updateItems hnodup h).mpr (Or.inr ⟨he, hek ▸ hother⟩), hek⟩, ?_⟩
    intro e' he' hek'
    cases (mem_updateItems hnodup h).mp he' with
    | inl hnew =>
        obtain ⟨item, hitem, rfl⟩ := hnew
        exact absurd hek'.symm (hother item hitem)
    | inr hold => exact hvalue e' hold.1 hek'

/-! ### What is permitted -/

namespace Holding

variable {resource : Resource} {held g cav : Value} {working : WorkingKey crypto}
  {audiencePub : Bytes} {capability : String} {now : Int} {capabilities : List String}
  {notAfter : Value} {entries : List (Value × Value)}

theorem attenuate_eq_ok (h : Holding resource held working) :
    Grant.attenuate held working (.bytes audiencePub) cav = .ok g ↔
      Grant.narrows cav h.caveats = .ok true ∧
        ∃ sig, Grant.linkSig (resource.target crypto) working (.bytes audiencePub) cav
            (.bytes h.sig) = .ok sig ∧
          g = .dict [(.str "target", resource.target crypto),
            (.str "links", .list (h.links ++ [newLink working audiencePub cav sig]))] := by
  rw [h.attenuate]
  simp only [bind_eq_ok, failIf_eq_ok, exists_unit, pure_eq_ok, Bool.not_eq_true',
    Bool.not_eq_false]
  constructor
  · intro h
    obtain ⟨narrowed, hnarrows, hnarrowed, sig, hsig, hg⟩ := h
    exact ⟨hnarrowed ▸ hnarrows, sig, hsig, hg.symm⟩
  · intro h
    obtain ⟨hnarrows, sig, hsig, hg⟩ := h
    exact ⟨true, hnarrows, rfl, sig, hsig, hg.symm⟩

theorem lastCaveats_attenuate (h : Holding resource held working)
    (hg : Grant.attenuate held working (.bytes audiencePub) cav = .ok g) :
    Grant.lastCaveats g = .ok cav := by
  obtain ⟨-, sig, -, rfl⟩ := h.attenuate_eq_ok.mp hg
  show ((Value.list (h.links ++ [newLink working audiencePub cav sig])).lastItem >>= fun last =>
    last.getItem "caveats") = .ok cav
  rw [lastItem_list.mpr List.getLast?_concat]
  rfl

/-- A grant with one more link is accepted where the held one is and the caveats allow it. -/
theorem accepts_attenuate (hsign : crypto.SignVerifies) (h : Holding resource held working)
    (haudience : audiencePub ∉ resource.revocations)
    (hg : Grant.attenuate held working (.bytes audiencePub)
      (Grant.caveatsValue capabilities notAfter entries) = .ok g) :
    resource.Accepts crypto g audiencePub capability now ↔
      resource.Accepts crypto held working.public capability now ∧ Allows capabilities capability ∧
        Value.intGt now notAfter = .ok false := by
  obtain ⟨hnarrows, sig, hsig, hg⟩ := h.attenuate_eq_ok.mp hg
  rw [h.accepts_append hg, h.passes_iff hsign hsig hnarrows haudience, allows_newLink]
  apply and_congr_right
  intro _
  apply and_congr_right
  intro _
  constructor
  · intro ⟨notAfter', hnotAfter', hlive⟩
    obtain rfl : notAfter = notAfter' := Except.ok.inj hnotAfter'
    exact hlive
  · intro hlive
    exact ⟨notAfter, rfl, hlive⟩

variable {str : Exc → String} {expires : Option Int} {constraints : Option StrMap}

theorem delegate_eq_ok (h : Holding resource held working) :
    Context.delegate str (some held) working audiencePub capabilities expires constraints = .ok g ↔
      ∃ expiry merged entries, Context.expiry h.caveats expires = .ok expiry ∧
        Context.mergedConstraints h.caveats constraints = .ok (.dict merged) ∧
        Grant.sortedItems merged = .ok entries ∧
        Grant.attenuate held working (.bytes audiencePub)
          (Grant.caveatsValue capabilities expiry entries) = .ok g := by
  simp only [Context.delegate, h.lastCaveats, bind_eq_ok, mapError_ok_iff, Context.unauthorized,
    Except.ok.injEq, exists_eq_left', caveatsOf_eq_ok]
  constructor
  · intro hdelegate
    obtain ⟨expiry, hexpiry, merged, hmerged, cav, hcav, hg⟩ := hdelegate
    obtain ⟨items, entries, hitems, hentries, hcav⟩ := hcav
    obtain ⟨_, _, hmerged'⟩ := bind_eq_ok.mp hmerged
    obtain ⟨_, _, hmerged'⟩ := bind_eq_ok.mp hmerged'
    obtain ⟨d, _, hmerged'⟩ := bind_eq_ok.mp hmerged'
    obtain rfl := pure_eq_ok.mp hmerged'
    rw [orElse_dict] at hitems
    obtain rfl : d = items := Except.ok.inj hitems
    exact ⟨expiry, d, entries, hexpiry, hmerged, hentries, hcav ▸ hg⟩
  · intro hattenuate
    obtain ⟨expiry, merged, entries, hexpiry, hmerged, hentries, hg⟩ := hattenuate
    refine ⟨expiry, hexpiry, _, hmerged, _, ⟨merged, entries, ?_, hentries, rfl⟩, hg⟩
    rw [orElse_dict]
    rfl

/-- **Delegation never widens.** -/
theorem accepts_delegate (hsign : crypto.SignVerifies) (h : Holding resource held working)
    (haudience : audiencePub ∉ resource.revocations)
    (hg : Context.delegate str (some held) working audiencePub capabilities expires constraints =
      .ok g) :
    resource.Accepts crypto g audiencePub capability now ↔
      resource.Accepts crypto held working.public capability now ∧
        Allows capabilities capability ∧ ∀ n ∈ expires, now ≤ n := by
  obtain ⟨expiry, merged, entries, hexpiry, -, -, hg⟩ := h.delegate_eq_ok.mp hg
  obtain ⟨limit, hlimit, -⟩ := bind_eq_ok.mp hexpiry
  rw [h.accepts_attenuate hsign haudience hg, intGt_expiry hlimit hexpiry]
  constructor
  · intro ⟨haccepts, hallows, _, hlive⟩
    exact ⟨haccepts, hallows, hlive⟩
  · intro ⟨haccepts, hallows, hlive⟩
    obtain ⟨-, limit', hlimit', hheld⟩ := h.checked haccepts
    obtain rfl := Except.ok.inj (hlimit.symm.trans hlimit')
    exact ⟨haccepts, hallows, hheld, hlive⟩

theorem constraints_caveatsValue (capabilities : List String) (notAfter : Value)
    (entries : List (Value × Value)) :
    Grant.constraints (Grant.caveatsValue capabilities notAfter entries) = .ok entries := by
  show ((Value.dict entries).orElse (.dict [])).items = .ok entries
  rw [orElse_dict]
  rfl

/-- Sorted into the new caveats, an entry is one of their constraints. -/
theorem carries_sorted {merged entries : List (Value × Value)} {k v : String}
    (h : Binds merged k v) (hentries : Grant.sortedItems merged = .ok entries) :
    Carries (Grant.caveatsValue capabilities notAfter entries) (.str k) (.str v) :=
  ⟨entries, _, constraints_caveatsValue _ _ _, (h.perm (sortedItems_perm hentries)).get,
    eq_str_iff.mpr rfl⟩

theorem mergedConstraints_eq_ok {caveats : Value} {merged : List (Value × Value)} :
    Context.mergedConstraints caveats constraints = .ok (.dict merged) ↔
      ∃ items, Grant.constraints caveats = .ok items ∧
        updateItems items ((constraints.map StrMap.entries).getD []) = .ok merged := by
  simp only [Context.mergedConstraints, Grant.constraints, bind_eq_ok, pure_eq_ok, Value.dict.injEq]
  constructor
  · intro h
    obtain ⟨found, hfound, items, hitems, d, hd, heq⟩ := h
    exact ⟨items, ⟨found, hfound, hitems⟩, heq ▸ hd⟩
  · intro h
    obtain ⟨items, ⟨found, hfound, hitems⟩, hd⟩ := h
    exact ⟨found, hfound, items, hitems, merged, hd, rfl⟩

theorem nodup_requested : (((constraints.map StrMap.entries).getD []).map Prod.fst).Nodup := by
  cases constraints with
  | none => exact List.nodup_nil
  | some m => exact m.nodup

theorem lastCaveats_delegate (h : Holding resource held working)
    (hg : Context.delegate str (some held) working audiencePub capabilities expires constraints =
      .ok g) :
    ∃ cav, Grant.lastCaveats g = .ok cav ∧
      (∀ items, Grant.constraints h.caveats = .ok items → ∀ e ∈ items, Carries cav e.1 e.2) ∧
      ∀ m ∈ constraints, ∀ e ∈ m.entries, Carries cav (.str e.1) (.str e.2) := by
  obtain ⟨expiry, merged, entries, -, hmerged, hentries, hg⟩ := h.delegate_eq_ok.mp hg
  refine ⟨_, h.lastCaveats_attenuate hg, ?_, ?_⟩
  · intro items hitems
    exact narrows_carries (h.attenuate_eq_ok.mp hg).1 hitems
  · intro m hm e he
    obtain rfl := Option.mem_def.mp hm
    obtain ⟨items, -, hupdate⟩ := mergedConstraints_eq_ok.mp hmerged
    exact carries_sorted (binds_updateItems m.nodup hupdate he) hentries

end Holding

end Thicket.Py
