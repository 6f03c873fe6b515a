import Thicket.Py.Delegable
import Thicket.Py.Satisfies

/-!
# What a group of keys can be granted

The holders of a grant can attenuate it, for each other and for themselves, as often as they like. A
resource accepts what comes of this only if some link of it was signed outside the group, for one of
the group, and every link after that one narrows it. So the group can do no more than what was
handed to it from outside, whatever its members sign.
-/

namespace Thicket.Py

open Cbor (Bytes)
open Result

variable {crypto : Crypto}

/-! ### Scopes -/

/-- Capabilities, and the constraints under which they are granted. -/
structure Scope where
  capabilities : List String
  constraints : List (String × String)

/-- The caveats allow nothing outside the scope, and have its constraints. -/
structure Scope.Bounds (scope : Scope) (cav : Value) : Prop where
  capabilities : ∀ capability,
    Grant.allows capability (.dict [(.str "caveats", cav)]) = .ok true →
      capability ∈ scope.capabilities
  constraints : ∀ e ∈ scope.constraints, Carries cav (.str e.1) (.str e.2)

/-- What a link's signature is over. -/
def Grant.linkMessage (target issuerPub audiencePub cav prev : Value) : Except Exc Bytes :=
  signingInput "thicket-grant-v1" (.dict [
    (.str "target", target),
    (.str "issuer_pub", issuerPub),
    (.str "audience_pub", audiencePub),
    (.str "caveats", cav),
    (.str "prev", prev)])

/-- The link has these fields, and is signed over them. -/
structure Grant.SignedLink (crypto : Crypto) (target link : Value) (issuer : Bytes)
    (audience cav : Value) : Prop where
  issuer_eq : link.getItem "issuer_pub" = .ok (.bytes issuer)
  audience_eq : link.getItem "audience_pub" = .ok audience
  caveats_eq : link.getItem "caveats" = .ok cav
  signed : ∃ prev msg sig, Grant.linkMessage target (.bytes issuer) audience cav prev = .ok msg ∧
    link.getItem "sig" = .ok sig ∧ verifySig crypto (.bytes issuer) msg sig = true

/-- Of the links that are presented, those for members of the group that verify under a key outside
it are bounded by the scope, and the keys that the resource endorses are outside: who is outside
hands over no more, and signs nothing for who is inside. -/
structure Handover (crypto : Crypto) (resource : Resource) (group : Finset Bytes) (scope : Scope)
    (presented : List Value) : Prop where
  bounded : ∀ link ∈ presented, ∀ issuer audience cav, issuer ∉ group → audience ∈ group →
    Grant.SignedLink crypto (resource.target crypto) link issuer (.bytes audience) cav →
      scope.Bounds cav
  owned : ∀ e ∈ resource.endorsements, ∀ pub, e.getItem "working_pub" = .ok (.bytes pub) →
    pub ∉ group

/-! ### Links -/

variable {resource : Resource} {capability : String} {now : Int} {previous : Option Value}
  {link : Value} {links : List Value}

theorem eq_bytes_left_iff {bs : Bytes} {v : Value} :
    (Value.bytes bs).eq v = true ↔ v = .bytes bs := by
  cases v with
  | bytes other =>
      rw [eq_bytes, decide_eq_true_iff, Value.bytes.injEq]
      exact eq_comm
  | _ => simp [Value.eq]

theorem bytes_of_verifySig_key {publicKey sig : Value} {msg : Bytes}
    (h : verifySig crypto publicKey msg sig = true) : ∃ pub, publicKey = .bytes pub := by
  unfold verifySig at h
  split at h
  · exact ⟨_, rfl⟩
  · cases h

/-- What the verifier has read and checked of a link that passes. -/
structure ReadLink (crypto : Crypto) (resource : Resource) (now : Int) (previous : Option Value)
    (link : Value) (issuer : Bytes) (audience cav : Value) : Prop
    extends Grant.SignedLink crypto (resource.target crypto) link issuer audience cav where
  issued : Grant.issuedBy crypto (resource.target crypto) resource.rootPub resource.endorsements now
    previous link = .ok true

theorem Resource.Passes.read (h : resource.Passes crypto capability now previous link) :
    ∃ issuer audience cav, ReadLink crypto resource now previous link issuer audience cav := by
  unfold Resource.Passes Grant.verifyLink at h
  simp only [bind_eq_ok, returnFalse_iff, exists_passed] at h
  obtain ⟨issuer, hissuer, _, _, _, audience, haudience, _, _, _, hissued, _, issuer', hissuer',
    audience', haudience', cav, hcav, prev, -, msg, hmsg, issuer'', hissuer'', sig, hsig, hverify,
    -⟩ := h
  obtain rfl := Except.ok.inj (hissuer.symm.trans hissuer')
  obtain rfl := Except.ok.inj (hissuer.symm.trans hissuer'')
  obtain rfl := Except.ok.inj (haudience.symm.trans haudience')
  have hverify : verifySig crypto issuer msg sig = true := by simpa using hverify
  obtain ⟨pub, rfl⟩ := bytes_of_verifySig_key hverify
  exact ⟨pub, audience, cav, ⟨hissuer, haudience, hcav, prev, msg, sig, hmsg, hsig, hverify⟩,
    hissued⟩

theorem allows_caveats {cav : Value} (hcav : link.getItem "caveats" = .ok cav) :
    Grant.allows capability link = Grant.allows capability (.dict [(.str "caveats", cav)]) := by
  rw [Grant.allows, Grant.allows, hcav]
  rfl

theorem mem_of_nextEndorsement {signer e : Value} {endorsements : List Value}
    (h : nextEndorsement signer endorsements = .ok (some e)) :
    e ∈ endorsements ∧ ∃ pub, e.getItem "working_pub" = .ok pub ∧ pub.eq signer = true := by
  induction endorsements with
  | nil => cases h
  | cons first endorsements ih =>
      obtain ⟨pub, hpub, h⟩ := bind_eq_ok.mp h
      split_ifs at h with heq
      · obtain rfl := Option.some.inj (pure_eq_ok.mp h)
        exact ⟨List.mem_cons_self, pub, hpub, heq⟩
      · obtain ⟨hmem, hworking⟩ := ih h
        exact ⟨List.mem_cons_of_mem _ hmem, hworking⟩

theorem working_of_endorsed {rootPub issuer : Bytes} {target : Value} {endorsements : List Value}
    (h : Grant.endorsed crypto rootPub target endorsements (.bytes issuer) now = .ok true) :
    ∃ e ∈ endorsements, e.getItem "working_pub" = .ok (.bytes issuer) := by
  rw [Grant.endorsed, returnFalse_iff] at h
  obtain ⟨found, hfound, h⟩ := bind_eq_ok.mp h.2
  cases found with
  | none => cases h
  | some e =>
      obtain ⟨hmem, pub, hpub, heq⟩ := mem_of_nextEndorsement hfound
      exact ⟨e, hmem, hpub.trans (congrArg _ (eq_bytes_iff.mp heq))⟩

theorem Carries.mem {cav : Value} {k v : String} (h : Carries cav (.str k) (.str v)) :
    ∃ entries, Grant.constraints cav = .ok entries ∧ (.str k, .str v) ∈ entries := by
  obtain ⟨entries, found, hentries, hget, hfound⟩ := h
  obtain rfl := eq_str_iff.mp hfound
  have hitem := getItem_of_get hget (fun h => by cases h)
  obtain ⟨e, he, heq⟩ := Option.map_eq_some_iff.mp (getItem_dict.mp hitem)
  have hsome := List.find?_some he
  have hkey : e.1 = .str k := eq_str_iff.mp hsome
  refine ⟨entries, hentries, ?_⟩
  rw [← heq, ← hkey]
  exact List.mem_of_find?_eq_some he

/-- A constraint of text stays in what narrows the caveats. -/
theorem Carries.narrows {parent child : Value} {k v : String}
    (h : Carries parent (.str k) (.str v)) (hnarrows : Grant.narrows child parent = .ok true) :
    Carries child (.str k) (.str v) := by
  obtain ⟨entries, hentries, hmem⟩ := h.mem
  exact narrows_carries hnarrows hentries (.str k, .str v) hmem

/-- The constraints of a link are those of all that come after it. -/
theorem walks_carries {before last cav : Value} {k v : String}
    (hwalks : resource.Walks crypto capability now (some before) links)
    (hcav : before.getItem "caveats" = .ok cav) (hcarries : Carries cav (.str k) (.str v))
    (hlast : links.getLast?.or (some before) = some last) :
    ∃ cav, last.getItem "caveats" = .ok cav ∧ Carries cav (.str k) (.str v) := by
  induction links generalizing before cav with
  | nil =>
      obtain rfl := Option.some.inj hlast
      exact ⟨cav, hcav, hcarries⟩
  | cons link links ih =>
      obtain ⟨hpasses, hwalks⟩ := Resource.walks_cons.mp hwalks
      obtain ⟨issuer, audience, cav', hread⟩ := hpasses.read
      have hnarrows := hpasses.narrows.2
      simp only [Grant.narrowsPrevious, hread.caveats_eq, hcav, ok_bind] at hnarrows
      apply ih hwalks hread.caveats_eq (hcarries.narrows hnarrows)
      rw [← hlast, List.getLast?_cons]
      cases links.getLast? <;> rfl

/-! ### Crossing into the group -/

section Group

variable {group : Finset Bytes} {scope : Scope} {presented : List Value}

/-- Who issues the next link is outside the group. -/
def Outside (group : Finset Bytes) (previous : Option Value) : Prop :=
  ∀ before ∈ previous, ∀ pub, before.getItem "audience_pub" = .ok (.bytes pub) → pub ∉ group

theorem issuer_outside {issuer : Bytes} {audience cav : Value}
    (hhandover : Handover crypto resource group scope presented)
    (houtside : Outside group previous)
    (hread : ReadLink crypto resource now previous link issuer audience cav) : issuer ∉ group := by
  have hissued := hread.issued
  rw [Grant.issuedBy.eq_def] at hissued
  cases previous with
  | none =>
      simp only [hread.issuer_eq, ok_bind] at hissued
      obtain ⟨e, he, hworking⟩ := working_of_endorsed hissued
      exact hhandover.owned e he issuer hworking
  | some before =>
      simp only [hread.issuer_eq, ok_bind] at hissued
      obtain ⟨audience', haudience, heq⟩ := bind_eq_ok.mp hissued
      rw [pure_eq_ok] at heq
      exact houtside before rfl issuer (haudience.trans (congrArg _ (eq_bytes_left_iff.mp heq)))

/-- **The group stays in its scope.** Where a chain from outside the group gets through and ends at
a member, the capability is in the scope, and the last link has the constraints of the scope. -/
theorem walks_confined (hhandover : Handover crypto resource group scope presented)
    {last : Value} {pub : Bytes} (hpresented : links ⊆ presented)
    (hwalks : resource.Walks crypto capability now previous links)
    (houtside : Outside group previous) (hlast : links.getLast? = some last)
    (haudience : last.getItem "audience_pub" = .ok (.bytes pub)) (hpub : pub ∈ group) :
    capability ∈ scope.capabilities ∧ ∀ e ∈ scope.constraints,
      ∃ cav, last.getItem "caveats" = .ok cav ∧ Carries cav (.str e.1) (.str e.2) := by
  induction links generalizing previous with
  | nil => cases hlast
  | cons link links ih =>
      obtain ⟨hpasses, hrest⟩ := Resource.walks_cons.mp hwalks
      obtain ⟨issuer, audience, cav, hread⟩ := hpasses.read
      have hissuer := issuer_outside hhandover houtside hread
      have hend : links.getLast?.or (some link) = some last := by
        rw [← hlast, List.getLast?_cons]
        cases links.getLast? <;> rfl
      by_cases hcrosses : ∃ member ∈ group, audience = .bytes member
      · -- the first link for a member is one that was signed outside
        obtain ⟨member, hmember, rfl⟩ := hcrosses
        have hbounds := hhandover.bounded link (hpresented List.mem_cons_self) issuer member cav
          hissuer hmember hread.toSignedLink
        have hallows := hpasses.narrows.1
        rw [allows_caveats hread.caveats_eq] at hallows
        refine ⟨hbounds.capabilities capability hallows, fun e he => ?_⟩
        exact walks_carries hrest hread.caveats_eq (hbounds.constraints e he) hend
      · cases links with
        | nil =>
            obtain rfl := Option.some.inj hlast
            have hsame := Except.ok.inj (hread.audience_eq.symm.trans haudience)
            exact absurd ⟨pub, hpub, hsame⟩ hcrosses
        | cons next links =>
            apply ih (List.subset_of_cons_subset hpresented) hrest _
              (by rw [← hlast, List.getLast?_cons_cons])
            intro before hbefore member haudience' hmember
            obtain rfl := Option.some.inj hbefore
            have hsame := Except.ok.inj (hread.audience_eq.symm.trans haudience')
            exact hcrosses ⟨member, hmember, hsame⟩

end Group

/-! ### Grants -/

theorem attribute_of_matchesAll {repr : Value → String} {attributes : Value}
    {items : List (Value × Value)} (h : Grant.matchesAll repr attributes items = .ok true) :
    ∀ e ∈ items, ∃ found, attributes.get e.1 .none = .ok found ∧
      (Value.str (strOf repr found)).eq e.2 = true := by
  induction items with
  | nil => exact List.forall_mem_nil _
  | cons item items ih =>
      obtain ⟨found, hfound, h⟩ := bind_eq_ok.mp h
      obtain ⟨heq, h⟩ := returnFalse_iff.mp h
      exact List.forall_mem_cons.mpr ⟨⟨found, hfound, by simpa using heq⟩, ih h⟩

/-- An attribute that satisfies the grant has what the constraint of its key says. -/
theorem satisfied_of_carries {repr : Value → String} {grant attributes last cav : Value}
    {k v : String} (hlinks : grant.getItem "links" = .ok (.list links))
    (hlast : links.getLast? = some last) (hcav : last.getItem "caveats" = .ok cav)
    (hcarries : Carries cav (.str k) (.str v))
    (h : Grant.satisfies repr grant attributes = .ok true) :
    ∃ found, attributes.get (.str k) .none = .ok found ∧ strOf repr found = v := by
  obtain ⟨entries, hentries, hmem⟩ := hcarries.mem
  have htruthy : grant.truthy = true := by
    cases grant with
    | dict d =>
        cases d with
        | nil => cases hlinks
        | cons e d => rfl
    | _ => cases hlinks
  have hne : (Value.list links).truthy = true := by
    cases links with
    | nil => cases hlast
    | cons link links => rfl
  simp only [Grant.satisfies, htruthy, if_true, get_of_getItem hlinks, ok_bind, hne,
    lastItem_list.mpr hlast, hcav, Bool.not_true, Bool.false_eq_true, if_false] at h
  obtain ⟨constraints, hconstraints, h⟩ := bind_eq_ok.mp h
  obtain ⟨items, hitems, h⟩ := bind_eq_ok.mp h
  rw [Grant.constraints, hconstraints] at hentries
  obtain rfl := Except.ok.inj (hitems.symm.trans hentries)
  obtain ⟨found, hfound, heq⟩ := attribute_of_matchesAll h _ hmem
  exact ⟨found, hfound, by simpa [Value.eq] using heq⟩

end Thicket.Py
