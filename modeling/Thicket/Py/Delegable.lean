import Thicket.Py.Delegation

/-!
# Delegations go through

Of a grant with caveats as `caveats` builds them, `attenuate` either appends a link or raises
`ValueError`. The first failure that is possible is a wider authority, the second one a negative
expiry, which the codec does not take.
-/

namespace Thicket.Py

open Cbor (Bytes)
open Result

variable {crypto : Crypto}

/-! ### Encoding a value that Python can hold -/

section Encoding

variable {α β : Type} {p q : Prop}

/-- Only `ValueError` is raised, and only if `p`. -/
def ValueErrorOnlyIf (p : Prop) (x : Except Exc α) : Prop :=
  ∀ e, x = .error e → e = .valueError ∧ p

namespace ValueErrorOnlyIf

theorem ok (a : α) : ValueErrorOnlyIf p (.ok a : Except Exc α) := fun _ h => nomatch h

theorem mono {x : Except Exc α} (hx : ValueErrorOnlyIf p x) (hpq : p → q) :
    ValueErrorOnlyIf q x := fun e he => ⟨(hx e he).1, hpq (hx e he).2⟩

theorem bind {x : Except Exc α} {f : α → Except Exc β} (hx : ValueErrorOnlyIf p x)
    (hf : ∀ a, x = .ok a → ValueErrorOnlyIf p (f a)) : ValueErrorOnlyIf p (x >>= f) := by
  cases x with
  | ok a => exact hf a rfl
  | error e =>
      intro e' heq
      obtain rfl : e = e' := Except.error.inj heq
      exact hx e rfl

theorem exists_ok {x : Except Exc α} (hx : ValueErrorOnlyIf p x) (hp : ¬p) : ∃ a, x = .ok a := by
  cases x with
  | ok a => exact ⟨a, rfl⟩
  | error e => exact absurd (hx e rfl).2 hp

end ValueErrorOnlyIf

theorem encHead_only (major : Nat) {n : Nat} (h : n < 2 ^ 64) :
    ValueErrorOnlyIf p (encHead major n) := by
  obtain ⟨head, hhead⟩ := encHead_ok major h
  rw [hhead]
  exact .ok head

theorem encItems_only {items : List Value} (h : ∀ item ∈ items, ValueErrorOnlyIf p (enc item)) :
    ValueErrorOnlyIf p (encItems items) := by
  induction items with
  | nil => exact .ok []
  | cons item items ih =>
      obtain ⟨hitem, hitems⟩ := List.forall_mem_cons.mp h
      rw [encItems]
      exact hitem.bind fun _ _ => (ih hitems).bind fun _ _ => .ok _

theorem encEntries_only {entries : List (Value × Value)}
    (h : ∀ e ∈ entries, ValueErrorOnlyIf p (enc e.1) ∧ ValueErrorOnlyIf p (enc e.2)) :
    ValueErrorOnlyIf p (encEntries entries) := by
  induction entries with
  | nil => exact .ok []
  | cons e entries ih =>
      obtain ⟨⟨hkey, hvalue⟩, hentries⟩ := List.forall_mem_cons.mp h
      rw [encEntries]
      exact hkey.bind fun _ _ => hvalue.bind fun _ _ => (ih hentries).bind fun _ _ => .ok _

theorem enc_dict_only {entries : List (Value × Value)} (hlength : entries.length < 2 ^ 64)
    (h : ∀ e ∈ entries, ValueErrorOnlyIf p (enc e.1) ∧ ValueErrorOnlyIf p (enc e.2)) :
    ValueErrorOnlyIf p (enc (.dict entries)) := by
  rw [enc]
  exact (encHead_only 5 hlength).bind fun _ _ => (encEntries_only h).bind fun _ _ => .ok _

theorem Passable.enc_only {v : Value} (h : Passable v) :
    ValueErrorOnlyIf (HasNegative v) (enc v) := by
  have hlt {n : Nat} (hn : n < 2 ^ 63) : n < 2 ^ 64 := by omega
  induction h with
  | none => exact .ok _
  | bool b => exact .ok _
  | int n hn =>
      rw [enc]
      split_ifs with hneg
      · intro e he
        exact ⟨(Except.error.inj he).symm, .int n hneg⟩
      · exact encHead_only 0 (by omega)
  | bytes bs hbs =>
      rw [enc]
      exact (encHead_only 2 (hlt hbs)).bind fun _ _ => .ok _
  | str s hs =>
      rw [enc]
      exact (encHead_only 3 (hlt hs)).bind fun _ _ => .ok _
  | list hlength _ ih =>
      rw [enc]
      apply (encHead_only 4 (hlt hlength)).bind
      intro _ _
      exact (encItems_only fun item hitem => (ih item hitem).mono (.item item hitem)).bind
        fun _ _ => .ok _
  | dict hlength _ _ _ _ ihkeys ihvalues =>
      exact enc_dict_only (hlt hlength) fun e he =>
        ⟨(ihkeys e he).mono (.key e he), (ihvalues e he).mono (.value e he)⟩

theorem Passable.str_only {s : String} (h : Passable (.str s)) :
    ValueErrorOnlyIf p (enc (.str s)) :=
  h.enc_only.mono nofun

theorem Passable.bytes_only {bs : Bytes} (h : Passable (.bytes bs)) :
    ValueErrorOnlyIf p (enc (.bytes bs)) :=
  h.enc_only.mono nofun

/-- A key of a structure. -/
theorem enc_key_only (name : String) (h : (Cbor.utf8 name).length < 2 ^ 63) :
    ValueErrorOnlyIf p (enc (.str name)) :=
  (Passable.str name h).str_only

end Encoding

/-! ### Caveats -/

/-- A dictionary from texts to texts, as decoded. -/
def TextEntries (entries : List (Value × Value)) : Prop :=
  ∀ e ∈ entries, ∃ k v : String, e = (.str k, .str v)

/-- Caveats as `caveats` builds them, that Python can hold. -/
structure IsCaveats (cav : Value) : Prop where
  passable : Passable cav
  capabilities : ∃ caps : List String, cav.getItem "capabilities" = .ok (.list (caps.map .str))
  notAfter : ∃ n, cav.getItem "not_after" = .ok (.int n)
  constraints : ∃ entries, Grant.constraints cav = .ok entries ∧ TextEntries entries

/-- Every link has such caveats. -/
def IsGrant (grant : Value) : Prop :=
  ∀ links, grant.getItem "links" = .ok (.list links) →
    ∀ link ∈ links, ∃ cav, link.getItem "caveats" = .ok cav ∧ IsCaveats cav

theorem Passable.getItem {v w : Value} {key : String} (hv : Passable v)
    (h : v.getItem key = .ok w) : Passable w := by
  cases hv with
  | dict _ _ _ _ hvalues =>
      rw [Value.getItem] at h
      split at h
      · next e hfind =>
          rw [← Except.ok.inj h]
          exact hvalues e (List.mem_of_find?_eq_some hfind)
      · cases h
  | _ => cases h

theorem HasNegative.of_getItem {v w : Value} {key : String} (h : v.getItem key = .ok w)
    (hw : HasNegative w) : HasNegative v := by
  cases v with
  | dict entries =>
      rw [Value.getItem] at h
      split at h
      · next e hfind =>
          obtain rfl := Except.ok.inj h
          exact .value e (List.mem_of_find?_eq_some hfind) hw
      · cases h
  | _ => cases h

theorem Passable.emptyDict : Passable (.dict []) :=
  .dict (by decide) (by simp) .nil (by simp) (by simp)

theorem Passable.constraints {cav : Value} {entries : List (Value × Value)} (hcav : Passable cav)
    (h : Grant.constraints cav = .ok entries) : Passable (.dict entries) := by
  obtain ⟨found, hfound, hitems⟩ := bind_eq_ok.mp h
  have hpassable : Passable (found.orElse (.dict [])) := by
    rw [Value.orElse]
    split_ifs with htruthy
    · have hne : found ≠ .none := by
        rintro rfl
        cases htruthy
      exact hcav.getItem (getItem_of_get hfound hne)
    · exact Passable.emptyDict
  cases hdict : found.orElse (.dict []) with
  | dict items =>
      rw [hdict] at hitems hpassable
      obtain rfl : items = entries := Except.ok.inj hitems
      exact hpassable
  | _ => rw [hdict] at hitems; cases hitems

theorem Passable.nodup {entries : List (Value × Value)} (h : Passable (.dict entries))
    (htext : TextEntries entries) : (entries.map Prod.fst).Nodup := by
  cases h with
  | dict _ _ hdistinct _ _ =>
      rw [List.Nodup, List.pairwise_map]
      apply hdistinct.imp_of_mem
      intro a b ha _ hab heq
      obtain ⟨k, v, rfl⟩ := htext a ha
      rw [← heq, eq_str, decide_eq_false_iff_not] at hab
      exact hab rfl

theorem sortedItems_text {entries : List (Value × Value)} (h : TextEntries entries) :
    ∃ sorted, Grant.sortedItems entries = .ok sorted := by
  have hcomparable : entries.Pairwise fun a b =>
      Grant.comparable a b && Grant.comparable b a := by
    apply List.pairwise_of_forall_mem_list
    intro a ha b hb
    obtain ⟨k, v, rfl⟩ := h a ha
    obtain ⟨k', v', rfl⟩ := h b hb
    rfl
  rw [Grant.sortedItems, if_pos hcomparable]
  exact ⟨_, rfl⟩

/-! ### Narrowing is decided -/

section Narrowing

variable {parent : Value} {pcaps capabilities : List String} {notAfter : Value}
  {entries items : List (Value × Value)}

theorem widens_strs {child : Value} {caps : List String}
    (hchild : child.getItem "capabilities" = .ok (.list (caps.map .str)))
    (hparent : parent.getItem "capabilities" = .ok (.list (pcaps.map .str))) :
    Grant.widens child parent = .ok (!decide ("*" ∈ pcaps) &&
      caps.any fun c => decide (c = "*") || !decide (c ∈ pcaps)) := by
  simp only [Grant.widens, hparent, hchild, bind, Except.bind, Grant.toSet_strs, Grant.isIn_strs,
    Value.iter, Grant.anyOutside_strs]
  by_cases hstar : "*" ∈ pcaps <;> simp [hstar, pure, Except.pure]

theorem widens_caveatsValue
    (hparent : parent.getItem "capabilities" = .ok (.list (pcaps.map .str))) :
    Grant.widens (Grant.caveatsValue capabilities notAfter entries) parent =
      .ok (!decide ("*" ∈ pcaps) &&
        (sortedSet capabilities).any fun c => decide (c = "*") || !decide (c ∈ pcaps)) := by
  have hown : (Grant.caveatsValue capabilities notAfter entries).getItem "capabilities" =
      .ok (.list ((sortedSet capabilities).map .str)) := by rfl
  exact widens_strs hown hparent

theorem exists_loosens (hitems : TextEntries items) :
    ∃ b, Grant.loosens (Grant.caveatsValue capabilities notAfter entries) items = .ok b := by
  induction items with
  | nil => exact ⟨false, rfl⟩
  | cons item items ih =>
      obtain ⟨⟨k, v, rfl⟩, htext⟩ := List.forall_mem_cons.mp hitems
      obtain ⟨b, hb⟩ := ih htext
      rw [Grant.loosens, hb]
      have hget : ∃ own, ((Value.dict entries).orElse (.dict [])).get (.str k) .none = .ok own := by
        rw [orElse_dict]
        exact ⟨_, rfl⟩
      obtain ⟨own, hown⟩ := hget
      show ∃ b', (((Value.dict entries).orElse (.dict [])).get (.str k) .none >>= _) = .ok b'
      rw [hown]
      cases hsame : own.eq (.str v) with
      | false => exact ⟨true, by simp [hsame, bind, Except.bind, pure, Except.pure]⟩
      | true => exact ⟨b, by simp [hsame, bind, Except.bind]⟩

/-- Caveats that ask for no more narrow the parent's. -/
theorem narrows_caveatsValue {n limit : Int}
    (hcaps : parent.getItem "capabilities" = .ok (.list (pcaps.map .str)))
    (hcovered : ∀ c ∈ capabilities, Allows pcaps c)
    (hlimit : parent.getItem "not_after" = .ok (.int limit)) (hn : n ≤ limit)
    (hitems : Grant.constraints parent = .ok items)
    (hcarries : ∀ e ∈ items,
      Carries (Grant.caveatsValue capabilities (.int n) entries) e.1 e.2) :
    Grant.narrows (Grant.caveatsValue capabilities (.int n) entries) parent = .ok true := by
  have hwidens : Grant.widens (Grant.caveatsValue capabilities (.int n) entries) parent =
      .ok false := by
    rw [widens_caveatsValue hcaps]
    by_cases hall : "*" ∈ pcaps
    · simp [hall]
    · simp only [hall, decide_false, Bool.not_false, Bool.true_and, Except.ok.injEq]
      apply List.any_eq_false.mpr
      intro c hc
      have hmem : c ∈ pcaps := (hcovered c (mem_sortedSet.mp hc)).resolve_left hall
      have hne : c ≠ "*" := by
        rintro rfl
        exact hall hmem
      simp [hne, hmem]
  obtain ⟨found, hfound, hfoundItems⟩ := bind_eq_ok.mp hitems
  have hown : (Grant.caveatsValue capabilities (.int n) entries).getItem "not_after" =
      .ok (.int n) := by rfl
  have hlt : Value.lt (.int limit) (.int n) = .ok (decide (limit < n)) := rfl
  simp only [Grant.narrows, hwidens, hown, hlimit, hlt, hfound, hfoundItems,
    loosens_eq_false.mpr hcarries, bind, Except.bind, decide_eq_false (Int.not_lt.mpr hn)]
  rfl

theorem exists_narrows (hparent : IsCaveats parent) (n : Int) :
    ∃ b, Grant.narrows (Grant.caveatsValue capabilities (.int n) entries) parent = .ok b := by
  obtain ⟨pcaps, hpcaps⟩ := hparent.capabilities
  obtain ⟨limit, hlimit⟩ := hparent.notAfter
  obtain ⟨pitems, hpitems, htext⟩ := hparent.constraints
  obtain ⟨found, hfound, hitems⟩ := bind_eq_ok.mp hpitems
  obtain ⟨loosened, hloosened⟩ : ∃ b, Grant.loosens
      (Grant.caveatsValue capabilities (.int n) entries) pitems = .ok b := exists_loosens htext
  have hown : (Grant.caveatsValue capabilities (.int n) entries).getItem "not_after" =
      .ok (.int n) := by rfl
  have hlt : Value.lt (.int limit) (.int n) = .ok (decide (limit < n)) := rfl
  rw [Grant.narrows, widens_caveatsValue hpcaps]
  simp only [hown, hlimit, hlt, hfound, hitems, hloosened, bind, Except.bind]
  split_ifs <;> exact ⟨_, rfl⟩

end Narrowing

/-! ### What is computed for the new link -/

section Computed

variable {cav : Value}

theorem exists_expiry {limit : Int} (hlimit : cav.getItem "not_after" = .ok (.int limit))
    (expires : Option Int) :
    ∃ n, Context.expiry cav expires = .ok (.int n) ∧ n ≤ limit ∧ (n = limit ∨ n ∈ expires) := by
  cases expires with
  | none =>
      refine ⟨limit, ?_, Int.le_refl _, Or.inl rfl⟩
      rw [Context.expiry, hlimit]
      rfl
  | some n =>
      have hexpiry : Context.expiry cav (some n) = minOf n (.int limit) := by
        rw [Context.expiry, hlimit]
        rfl
      have hlt : Value.lt (.int limit) (.int n) = .ok (decide (limit < n)) := rfl
      rw [hexpiry, minOf, hlt]
      by_cases hless : limit < n
      · refine ⟨limit, ?_, Int.le_refl _, Or.inl rfl⟩
        simp [hless, bind, Except.bind, pure, Except.pure]
      · refine ⟨n, ?_, by omega, Or.inr rfl⟩
        simp [hless, bind, Except.bind, pure, Except.pure]

theorem exists_updateItems (d : List (Value × Value)) (items : List (String × String)) :
    ∃ d', updateItems d items = .ok d' ∧ d'.length ≤ d.length + items.length := by
  induction items generalizing d with
  | nil => exact ⟨d, rfl, Nat.le_refl _⟩
  | cons item items ih =>
      obtain ⟨k, v⟩ := item
      obtain ⟨d₁, hset⟩ := exists_setItem d (k := .str k) (.str v) rfl
      obtain ⟨d', hrest, hlength⟩ := ih d₁
      have hone := length_setItem hset
      rw [updateItems, hset]
      refine ⟨d', hrest, ?_⟩
      rw [List.length_cons]
      omega

/-- The strings of a call's arguments, as values. -/
def requested (constraints : Option StrMap) : List (Value × Value) :=
  ((constraints.map StrMap.entries).getD []).map fun e => (.str e.1, .str e.2)

/-- Entries of texts that can be encoded as a dictionary. -/
structure Encodable (entries : List (Value × Value)) : Prop where
  length : entries.length < 2 ^ 64
  text : TextEntries entries
  passable : ∀ e ∈ entries, Passable e.1 ∧ Passable e.2

theorem Encodable.perm {entries entries' : List (Value × Value)} (h : Encodable entries)
    (hperm : entries'.Perm entries) : Encodable entries' :=
  ⟨hperm.length_eq ▸ h.length, fun e he => h.text e (hperm.mem_iff.mp he),
    fun e he => h.passable e (hperm.mem_iff.mp he)⟩

theorem exists_merged (hcav : IsCaveats cav) {constraints : Option StrMap}
    (hrequested : Passable (.dict (requested constraints))) :
    ∃ merged, Context.mergedConstraints cav constraints = .ok (.dict merged) ∧
      Encodable merged := by
  obtain ⟨items, hitems, htext⟩ := hcav.constraints
  obtain ⟨merged, hmerged, hlength⟩ :=
    exists_updateItems items ((constraints.map StrMap.entries).getD [])
  refine ⟨merged, Holding.mergedConstraints_eq_ok.mpr ⟨items, hitems, hmerged⟩, ?_⟩
  have hmem : ∀ e ∈ merged, e ∈ requested constraints ∨ e ∈ items := by
    intro e he
    cases (mem_updateItems Holding.nodup_requested hmerged).mp he with
    | inl hnew =>
        obtain ⟨item, hitem, rfl⟩ := hnew
        exact Or.inl (List.mem_map.mpr ⟨item, hitem, rfl⟩)
    | inr hold => exact Or.inr hold.1
  have hheld := hcav.passable.constraints hitems
  have hnew : (requested constraints).length =
      ((constraints.map StrMap.entries).getD []).length := List.length_map _
  cases hheld with
  | dict hheldLength _ _ hheldKeys hheldValues =>
      cases hrequested with
      | dict hnewLength _ _ hnewKeys hnewValues =>
          refine ⟨by omega, ?_, ?_⟩
          · intro e he
            cases hmem e he with
            | inl hnew =>
                obtain ⟨item, _, rfl⟩ := List.mem_map.mp hnew
                exact ⟨_, _, rfl⟩
            | inr hold => exact htext e hold
          · intro e he
            cases hmem e he with
            | inl hnew => exact ⟨hnewKeys e hnew, hnewValues e hnew⟩
            | inr hold => exact ⟨hheldKeys e hold, hheldValues e hold⟩

theorem enc_caveatsValue_only {capabilities : List String} {n : Int}
    {entries : List (Value × Value)} (hcaps : Passable (.list (capabilities.map .str)))
    (hn : n < 2 ^ 64) (hentries : Encodable entries) :
    ValueErrorOnlyIf (n < 0) (enc (Grant.caveatsValue capabilities (.int n) entries)) := by
  have hset : ValueErrorOnlyIf (n < 0) (enc (.list ((sortedSet capabilities).map .str))) := by
    cases hcaps with
    | list hlength hitems =>
        have hdedup : (sortedSet capabilities).length ≤ capabilities.length := by
          rw [sortedSet, List.length_mergeSort]
          exact (List.dedup_sublist _).length_le
        rw [enc]
        apply (encHead_only 4 _).bind
        · intro _ _
          refine (encItems_only ?_).bind fun _ _ => .ok _
          intro item hitem
          obtain ⟨s, hs, rfl⟩ := List.mem_map.mp hitem
          exact (hitems _ (List.mem_map_of_mem (mem_sortedSet.mp hs))).str_only
        · rw [List.length_map] at hlength ⊢
          omega
  have hlimit : ValueErrorOnlyIf (n < 0) (enc (.int n)) := by
    apply (Passable.int n hn).enc_only.mono
    intro hneg
    cases hneg with
    | int _ h => exact h
  have hconstraints : ValueErrorOnlyIf (n < 0) (enc (.dict entries)) := by
    apply enc_dict_only hentries.length
    intro e he
    obtain ⟨k, v, rfl⟩ := hentries.text e he
    obtain ⟨hk, hv⟩ := hentries.passable _ he
    exact ⟨hk.str_only, hv.str_only⟩
  refine enc_dict_only (Nat.lt_of_le_of_lt (Nat.le_refl 3) (by decide)) ?_
  simp only [List.forall_mem_cons, List.not_mem_nil, false_implies, implies_true, and_true]
  exact ⟨⟨enc_key_only _ (by decide), hset⟩, ⟨enc_key_only _ (by decide), hlimit⟩,
    enc_key_only _ (by decide), hconstraints⟩

end Computed

/-! ### Delegating -/

/-- The last link's caveats allow the capability. -/
def Covers (held : Value) (capability : String) : Prop :=
  ∃ cav caps, Grant.lastCaveats held = .ok cav ∧
    cav.getItem "capabilities" = .ok (.list (caps.map .str)) ∧ Allows caps capability

/-- The request asks for a capability that is not held, for an expiry before the epoch, or for
another value of a constraint. -/
inductive Exceeds (held : Value) (capabilities : List String) (expires : Option Int)
    (constraints : Option StrMap) : Prop
  | capability (c : String) (hc : c ∈ capabilities) (h : ¬Covers held c)
  | expiry (n : Int) (hn : n ∈ expires) (h : n < 0)
  | constraint (k v v' : String) (items : List (Value × Value))
      (hitems : (Grant.lastCaveats held >>= Grant.constraints) = .ok items)
      (hheld : (.str k, .str v) ∈ items) (hasked : (.str k, .str v') ∈ requested constraints)
      (h : v ≠ v')

namespace Holding

variable {resource : Resource} {held cav : Value} {working : WorkingKey crypto}
  {audiencePub : Bytes} {capability : String} {now : Int} {capabilities : List String}

theorem isCaveats (h : Holding resource held working) (hheld : IsGrant held) :
    IsCaveats h.caveats := by
  obtain ⟨cav, hcav, hcaveats⟩ := hheld h.links h.links_eq h.last (List.mem_of_getLast? h.last_eq)
  obtain rfl := Except.ok.inj (hcav.symm.trans h.caveats_eq)
  exact hcaveats

theorem linkSig_only (h : Holding resource held working) {p : Prop}
    (haudience : Passable (.bytes audiencePub)) (hcav : ValueErrorOnlyIf p (enc cav)) :
    ValueErrorOnlyIf p (Grant.linkSig (resource.target crypto) working (.bytes audiencePub) cav
      (.bytes h.sig)) := by
  have hshort (bs : Bytes) (hbs : bs.length ≤ 64) : ValueErrorOnlyIf p (enc (.bytes bs)) :=
    (Passable.bytes bs (by omega)).bytes_only
  have hview : ValueErrorOnlyIf p (encode (.dict [(.str "target", resource.target crypto),
      (.str "issuer_pub", .bytes working.public), (.str "audience_pub", .bytes audiencePub),
      (.str "caveats", cav), (.str "prev", .bytes h.sig)])) := by
    refine enc_dict_only (Nat.lt_of_le_of_lt (Nat.le_refl 5) (by decide)) ?_
    simp only [List.forall_mem_cons, List.not_mem_nil, false_implies, implies_true, and_true]
    exact ⟨⟨enc_key_only _ (by decide), hshort _ (by rw [crypto.sha256_length]; decide)⟩,
      ⟨enc_key_only _ (by decide), hshort _ (by rw [working.public_length]; decide)⟩,
      ⟨enc_key_only _ (by decide), haudience.bytes_only⟩, ⟨enc_key_only _ (by decide), hcav⟩,
      enc_key_only _ (by decide), hshort _ (Nat.le_of_eq h.sig_length)⟩
  exact (hview.bind fun _ _ => .ok _).bind fun _ _ => .ok _

theorem attenuate_only (h : Holding resource held working) (hheld : IsGrant held)
    {n : Int} {entries : List (Value × Value)} (haudience : Passable (.bytes audiencePub))
    (hcaps : Passable (.list (capabilities.map .str))) (hn : n < 2 ^ 64)
    (hentries : Encodable entries) :
    ValueErrorOnlyIf (n < 0 ∨ Grant.narrows (Grant.caveatsValue capabilities (.int n) entries)
        h.caveats = .ok false)
      (Grant.attenuate held working (.bytes audiencePub)
        (Grant.caveatsValue capabilities (.int n) entries)) := by
  obtain ⟨narrowed, hnarrows⟩ : ∃ b, Grant.narrows
      (Grant.caveatsValue capabilities (.int n) entries) h.caveats = .ok b :=
    exists_narrows (h.isCaveats hheld) n
  rw [h.attenuate, hnarrows]
  apply ValueErrorOnlyIf.bind (.ok narrowed)
  intro _ heq
  obtain rfl := Except.ok.inj heq
  apply ValueErrorOnlyIf.bind
  · intro e he
    unfold failIf at he
    split_ifs at he with hwidens
    obtain rfl : narrowed = false := by simpa using hwidens
    exact ⟨(Except.error.inj he).symm, Or.inr rfl⟩
  · intro _ _
    apply ValueErrorOnlyIf.bind
    · exact (h.linkSig_only haudience (enc_caveatsValue_only hcaps hn hentries)).mono Or.inl
    · exact fun _ _ => .ok _

/-- Unless a capability is not covered or a constraint is another than the held one, the built
caveats narrow those of the last link. -/
theorem exceeds_of_not_narrows (h : Holding resource held working) (hheld : IsGrant held)
    {n limit : Int} {expires : Option Int} {constraints : Option StrMap}
    {merged entries : List (Value × Value)}
    (hlimit : h.caveats.getItem "not_after" = .ok (.int limit)) (hn : n ≤ limit)
    (hmerged : Context.mergedConstraints h.caveats constraints = .ok (.dict merged))
    (hentries : Grant.sortedItems merged = .ok entries)
    (hwider : Grant.narrows (Grant.caveatsValue capabilities (.int n) entries) h.caveats =
      .ok false) : Exceeds held capabilities expires constraints := by
  by_contra hexceeds
  obtain ⟨pcaps, hpcaps⟩ := (h.isCaveats hheld).capabilities
  obtain ⟨items, hitems, htext⟩ := (h.isCaveats hheld).constraints
  have hnodup := ((h.isCaveats hheld).passable.constraints hitems).nodup htext
  obtain ⟨items', hitems', hupdate⟩ := mergedConstraints_eq_ok.mp hmerged
  obtain rfl := Except.ok.inj (hitems.symm.trans hitems')
  have hcovered : ∀ c ∈ capabilities, Allows pcaps c := by
    intro c hc
    by_contra hallows
    refine hexceeds (.capability c hc ?_)
    intro ⟨cav, caps, hcav, hcaps, hcapsAllow⟩
    obtain rfl := Except.ok.inj (hcav.symm.trans h.lastCaveats)
    have hsame : caps.map Value.str = pcaps.map .str :=
      Value.list.inj (Except.ok.inj (hcaps.symm.trans hpcaps))
    rw [List.map_injective_iff.mpr (fun _ _ => Value.str.inj) hsame] at hcapsAllow
    exact hallows hcapsAllow
  have hcarries : ∀ e ∈ items,
      Carries (Grant.caveatsValue capabilities (.int n) entries) e.1 e.2 := by
    intro e he
    obtain ⟨k, v, rfl⟩ := htext e he
    have hasked : ∀ v', (k, v') ∈ (constraints.map StrMap.entries).getD [] → v' = v := by
      intro v' hv'
      by_contra hne
      refine hexceeds (.constraint k v v' items ?_ he (List.mem_map.mpr ⟨_, hv', rfl⟩)
        fun heq => hne heq.symm)
      rw [h.lastCaveats]
      exact hitems
    have hbinds : Binds merged k v :=
      (Binds.of_nodup hnodup he).updateItems nodup_requested hupdate hasked
    exact carries_sorted hbinds hentries
  have hnarrows := narrows_caveatsValue hpcaps hcovered hlimit hn hitems hcarries
  exact absurd (hnarrows.symm.trans hwider) nofun

/-- The only exception that comes out of `delegate` is a `ThicketError`, for a request that exceeds
what is held. -/
theorem delegate_thicketError (h : Holding resource held working) (hheld : IsGrant held)
    (hnonneg : ¬HasNegative h.caveats) (str : Exc → String) {expires : Option Int}
    {constraints : Option StrMap} (haudience : Passable (.bytes audiencePub))
    (hcaps : Passable (.list (capabilities.map .str)))
    (hrequested : Passable (.dict (requested constraints))) {e : Context.Raised}
    (herror :
      Context.delegate str (some held) working audiencePub capabilities expires constraints =
        .error e) :
    (∃ code message, e = .thicketError code message) ∧
      Exceeds held capabilities expires constraints := by
  obtain ⟨limit, hlimit⟩ := (h.isCaveats hheld).notAfter
  have hbound : limit < 2 ^ 64 := by
    cases (h.isCaveats hheld).passable.getItem hlimit with
    | int _ hlt => exact hlt
  obtain ⟨n, hexpiry, hn, horigin⟩ := exists_expiry hlimit expires
  obtain ⟨merged, hmerged, hencodable⟩ := exists_merged (h.isCaveats hheld) hrequested
  obtain ⟨entries, hentries⟩ := sortedItems_text hencodable.text
  have hcav : Grant.caveatsOf capabilities (.int n) (.dict merged) =
      .ok (Grant.caveatsValue capabilities (.int n) entries) := by
    apply caveatsOf_eq_ok.mpr ⟨merged, entries, ?_, hentries, rfl⟩
    rw [orElse_dict]
    rfl
  have honly := h.attenuate_only hheld haudience hcaps (n := n) (by omega)
    (hencodable.perm (sortedItems_perm hentries))
  rw [Context.delegate] at herror
  simp only [h.lastCaveats, hexpiry, hmerged, hcav, bind, Except.bind, Except.mapError,
    Context.unauthorized] at herror
  cases hg : Grant.attenuate held working (.bytes audiencePub)
      (Grant.caveatsValue capabilities (.int n) entries) with
  | ok g => rw [hg] at herror; cases herror
  | error e' =>
      obtain ⟨rfl, hwhy⟩ := honly e' hg
      rw [hg] at herror
      refine ⟨⟨_, _, (Except.error.inj herror).symm⟩, ?_⟩
      cases hwhy with
      | inl hneg =>
          cases horigin with
          | inl hheldLimit =>
              refine absurd (HasNegative.of_getItem hlimit (.int limit ?_)) hnonneg
              omega
          | inr hasked => exact .expiry n hasked hneg
      | inr hwider => exact h.exceeds_of_not_narrows hheld hlimit hn hmerged hentries hwider

end Holding

/-! ### What the last link covers -/

section Covering

variable {resource : Resource} {capability other : String} {now : Int}

theorem allows_iff {link cav : Value} {caps : List String} (hcav : link.getItem "caveats" = .ok cav)
    (hcaps : cav.getItem "capabilities" = .ok (.list (caps.map .str))) :
    Grant.allows capability link = .ok true ↔ Allows caps capability := by
  simp only [Grant.allows, hcav, hcaps, bind, Except.bind, Grant.containsStr_strs, Allows]
  by_cases hstar : "*" ∈ caps <;> simp [hstar, pure, Except.pure]

theorem Resource.Passes.narrows {before : Option Value} {link : Value}
    (h : resource.Passes crypto capability now before link) :
    Grant.allows capability link = .ok true ∧ Grant.narrowsPrevious before link = .ok true := by
  unfold Resource.Passes Grant.verifyLink at h
  simp only [bind_eq_ok, returnFalse_iff, exists_passed] at h
  obtain ⟨_, _, _, _, _, _, _, _, _, _, _, hnarrows, _, _, _, _, _, _, _, _, _, _, _, _, _, _, _,
    hallows, _⟩ := h
  exact ⟨hallows, hnarrows⟩

/-- The capability is looked at in one check. -/
theorem Resource.Passes.allowing {before : Option Value} {link : Value}
    (h : resource.Passes crypto capability now before link)
    (hallows : Grant.allows other link = .ok true) :
    resource.Passes crypto other now before link := by
  have hsame : Grant.allows capability link = Grant.allows other link :=
    h.narrows.1.trans hallows.symm
  rw [Resource.Passes, Grant.verifyLink, ← hsame]
  exact h

/-- What a link allows the link before allows. -/
theorem allows_before {before link parent child : Value}
    (hnarrows : Grant.narrowsPrevious (some before) link = .ok true)
    (hparent : before.getItem "caveats" = .ok parent) (hchild : link.getItem "caveats" = .ok child)
    (hp : IsCaveats parent) (hc : IsCaveats child) (hallows : Grant.allows other link = .ok true) :
    Grant.allows other before = .ok true := by
  obtain ⟨pcaps, hpcaps⟩ := hp.capabilities
  obtain ⟨caps, hcaps⟩ := hc.capabilities
  rw [allows_iff hchild hcaps] at hallows
  rw [allows_iff hparent hpcaps]
  simp only [Grant.narrowsPrevious, hparent, hchild, bind, Except.bind, Grant.narrows,
    widens_strs hcaps hpcaps, returnFalse_iff] at hnarrows
  by_cases hstar : "*" ∈ pcaps
  · exact Or.inl hstar
  · have hinside : ∀ c ∈ caps, c ≠ "*" ∧ c ∈ pcaps := by simpa [hstar] using hnarrows.1
    cases hallows with
    | inl hall => exact absurd rfl (hinside "*" hall).1
    | inr hmem => exact Or.inr (hinside other hmem).2

/-- A chain that gets through for one capability gets through for every one that its last link
allows. -/
theorem walks_covered {before : Option Value} {links : List Value} {last : Value}
    (hcaveats : ∀ link ∈ links, ∃ cav, link.getItem "caveats" = .ok cav ∧ IsCaveats cav)
    (h : resource.Walks crypto capability now before links) (hlast : links.getLast? = some last)
    (hallows : Grant.allows other last = .ok true) :
    resource.Walks crypto other now before links := by
  induction links generalizing before with
  | nil => cases hlast
  | cons link rest ih =>
      obtain ⟨hpasses, hwalks⟩ := Resource.walks_cons.mp h
      obtain ⟨⟨cav, hcav, hlink⟩, hrest⟩ := List.forall_mem_cons.mp hcaveats
      cases rest with
      | nil =>
          obtain rfl : link = last := Option.some.inj hlast
          exact Resource.walks_cons.mpr ⟨hpasses.allowing hallows, rfl⟩
      | cons next tail =>
          have htail := ih hrest hwalks (by rw [← hlast, List.getLast?_cons_cons])
          obtain ⟨hnext, -⟩ := Resource.walks_cons.mp htail
          obtain ⟨child, hchild, hnextCav⟩ := hrest next List.mem_cons_self
          have hhere := allows_before hnext.narrows.2 hcav hchild hlink hnextCav hnext.narrows.1
          exact Resource.walks_cons.mpr ⟨hpasses.allowing hhere, htail⟩

end Covering

namespace Holding

variable {resource : Resource} {held g : Value} {working : WorkingKey crypto}
  {capability other : String} {now : Int}

theorem accepts_covered (h : Holding resource held working) (hheld : IsGrant held)
    (haccepts : resource.Accepts crypto held working.public capability now)
    (hcovers : Covers held other) : resource.Accepts crypto held working.public other now := by
  obtain ⟨cav, caps, hcav, hcaps, hallows⟩ := hcovers
  obtain rfl := Except.ok.inj (hcav.symm.trans h.lastCaveats)
  rw [h.accepts_iff] at haccepts ⊢
  exact walks_covered (hheld h.links h.links_eq) haccepts h.last_eq
    ((allows_iff h.caveats_eq hcaps).mpr hallows)

/-- The caveats of the grant that is sent with a call, and what it is attenuated from. -/
theorem authFor_covered (h : Holding resource held working) (hheld : IsGrant held)
    (hcovers : Covers held capability) :
    ∃ n items entries, h.caveats.getItem "not_after" = .ok (.int n) ∧
      Grant.constraints h.caveats = .ok items ∧ Grant.sortedItems items = .ok entries ∧
      Context.authFor (some held) working capability =
        some <$> Grant.attenuate held working (.bytes working.public)
          (Grant.caveatsValue [capability] (.int n) entries) := by
  obtain ⟨cav, caps, hcav, hcaps, hallows⟩ := hcovers
  obtain rfl := Except.ok.inj (hcav.symm.trans h.lastCaveats)
  obtain ⟨n, hn⟩ := (h.isCaveats hheld).notAfter
  obtain ⟨items, hitems, htext⟩ := (h.isCaveats hheld).constraints
  obtain ⟨entries, hentries⟩ := sortedItems_text htext
  obtain ⟨found, hfound, hfoundItems⟩ := bind_eq_ok.mp hitems
  have hbuilt : Grant.caveatsOf [capability] (.int n) found =
      .ok (Grant.caveatsValue [capability] (.int n) entries) :=
    caveatsOf_eq_ok.mpr ⟨items, entries, hfoundItems, hentries, rfl⟩
  refine ⟨n, items, entries, hn, hitems, hentries, ?_⟩
  simp only [Context.authFor, hcav, hcaps, hn, hfound, hbuilt, bind, Except.bind,
    Grant.containsStr_strs]
  by_cases hall : "*" ∈ caps
  · simp only [hall, decide_true, if_true]
    cases Grant.attenuate held working (.bytes working.public)
      (Grant.caveatsValue [capability] (.int n) entries) <;> rfl
  · have hmem : capability ∈ caps := hallows.resolve_left hall
    simp only [hall, hmem, decide_true, decide_false]
    cases Grant.attenuate held working (.bytes working.public)
      (Grant.caveatsValue [capability] (.int n) entries) <;> rfl

/-- Less capabilities, the same expiry and the same constraints are narrower. -/
theorem narrows_own (h : Holding resource held working) (hheld : IsGrant held) {n : Int}
    {items entries : List (Value × Value)} (hcovers : Covers held capability)
    (hn : h.caveats.getItem "not_after" = .ok (.int n))
    (hitems : Grant.constraints h.caveats = .ok items)
    (hentries : Grant.sortedItems items = .ok entries) :
    Grant.narrows (Grant.caveatsValue [capability] (.int n) entries) h.caveats = .ok true := by
  obtain ⟨cav, caps, hcav, hcaps, hallows⟩ := hcovers
  obtain rfl := Except.ok.inj (hcav.symm.trans h.lastCaveats)
  have hpassable := (h.isCaveats hheld).passable.constraints hitems
  obtain ⟨items', hitems', htext⟩ := (h.isCaveats hheld).constraints
  obtain rfl := Except.ok.inj (hitems.symm.trans hitems')
  have hnodup := hpassable.nodup htext
  have hcarries : ∀ e ∈ items,
      Carries (Grant.caveatsValue [capability] (.int n) entries) e.1 e.2 := by
    intro e he
    obtain ⟨k, v, rfl⟩ := htext e he
    exact carries_sorted (Binds.of_nodup hnodup he) hentries
  apply narrows_caveatsValue hcaps _ hn (Int.le_refl n) hitems hcarries
  intro c hc
  rw [List.mem_singleton.mp hc]
  exact hallows

end Holding

/-! ### Delegation -/

/-- The grant is accepted for its audience where the held one is accepted for the holder and what
was asked for allows it, and it has every constraint of the held one and every one asked for. -/
structure Narrower (resource : Resource) (held : Value) (working : WorkingKey crypto) (g : Value)
    (audiencePub : Bytes) (capabilities : List String) (expires : Option Int)
    (constraints : Option StrMap) : Prop where
  accepts_iff : ∀ capability now, resource.Accepts crypto g audiencePub capability now ↔
    resource.Accepts crypto held working.public capability now ∧ Allows capabilities capability ∧
      ∀ n ∈ expires, now ≤ n
  carries : ∃ cav items, Grant.lastCaveats g = .ok cav ∧
    (Grant.lastCaveats held >>= Grant.constraints) = .ok items ∧
    ∀ e ∈ items ++ requested constraints, Carries cav e.1 e.2

section Delegating

variable {resource : Resource} {held : Value} {working : WorkingKey crypto}

theorem Holding.narrower_delegate (hsign : crypto.SignVerifies)
    (h : Holding resource held working) (hheld : IsGrant held) {str : Exc → String} {g : Value}
    {audiencePub : Bytes} {capabilities : List String} {expires : Option Int}
    {constraints : Option StrMap} (haudience : audiencePub ∉ resource.revocations)
    (hg : Context.delegate str (some held) working audiencePub capabilities expires constraints =
      .ok g) : Narrower resource held working g audiencePub capabilities expires constraints := by
  refine ⟨fun _ _ => h.accepts_delegate hsign haudience hg, ?_⟩
  obtain ⟨cav, hcav, hkept, hadded⟩ := h.lastCaveats_delegate hg
  obtain ⟨items, hitems, -⟩ := (h.isCaveats hheld).constraints
  refine ⟨cav, items, hcav, by rw [h.lastCaveats]; exact hitems, ?_⟩
  intro e he
  cases List.mem_append.mp he with
  | inl hold => exact hkept items hitems e hold
  | inr hnew =>
      cases constraints with
      | none => cases hnew
      | some m =>
          obtain ⟨entry, hentry, rfl⟩ := List.mem_map.mp hnew
          exact hadded m rfl entry hentry

/-- What `_auth_for` attaches to a call that the held grant covers. -/
theorem Holding.exists_authFor (hsign : crypto.SignVerifies) (h : Holding resource held working)
    (hheld : IsGrant held) {capability c : String} {now : Int}
    (haccepts : resource.Accepts crypto held working.public c now)
    (hcapability : Passable (.str capability)) (hcovers : Covers held capability) :
    ∃ g, Context.authFor (some held) working capability = .ok (some g) ∧
      Narrower resource held working g working.public [capability] none none := by
  obtain ⟨n, items, entries, hn, hitems, hentries, hauth⟩ := h.authFor_covered hheld hcovers
  have hnarrows := h.narrows_own hheld hcovers hn hitems hentries
  obtain ⟨items', hitems', htext⟩ := (h.isCaveats hheld).constraints
  obtain rfl := Except.ok.inj (hitems.symm.trans hitems')
  have hint : Passable (.int n) := (h.isCaveats hheld).passable.getItem hn
  have hbound : n < 2 ^ 64 := by
    cases hint with
    | int _ hlt => exact hlt
  have hencodable : Encodable items := by
    cases (h.isCaveats hheld).passable.constraints hitems with
    | dict hlength _ _ hkeys hvalues =>
        exact ⟨by omega, htext, fun e he => ⟨hkeys e he, hvalues e he⟩⟩
  have hcaps : Passable (.list ([capability].map .str)) := by
    apply Passable.list (Nat.lt_of_le_of_lt (Nat.le_refl 1) (by decide))
    intro item hitem
    rw [List.mem_singleton.mp hitem]
    exact hcapability
  have hattenuates := h.attenuate_only hheld
    (Passable.bytes working.public (by rw [working.public_length]; decide)) hcaps hbound
    (hencodable.perm (sortedItems_perm hentries))
  obtain ⟨g, hg⟩ := hattenuates.exists_ok <| by
    rintro (hneg | hwider)
    · exact (h.checked haccepts).1 (HasNegative.of_getItem hn (.int n hneg))
    · exact absurd (hnarrows.symm.trans hwider) nofun
  have hexact : ∀ c t, resource.Accepts crypto g working.public c t ↔
      resource.Accepts crypto held working.public c t ∧ Allows [capability] c ∧
        ∀ n ∈ (none : Option Int), t ≤ n := by
    intro c t
    rw [h.accepts_attenuate hsign h.notRevoked hg]
    constructor
    · intro ⟨hheldAccepts, hallows, _⟩
      exact ⟨hheldAccepts, hallows, nofun⟩
    · intro ⟨hheldAccepts, hallows, _⟩
      obtain ⟨-, limit, hlimit, hlive⟩ := h.checked hheldAccepts
      obtain rfl := Except.ok.inj (hn.symm.trans hlimit)
      exact ⟨hheldAccepts, hallows, hlive⟩
  refine ⟨g, by rw [hauth, hg]; rfl, hexact, ?_⟩
  refine ⟨_, items, h.lastCaveats_attenuate hg, by rw [h.lastCaveats]; exact hitems, ?_⟩
  intro e he
  rw [show requested none = [] from rfl, List.append_nil] at he
  exact narrows_carries hnarrows hitems e he

end Delegating

/-- **Delegation is usable and never wider.** Of a grant that the resource accepts for the fiber,
`delegate` makes one that is accepted for the new audience just where the held grant is accepted for
the fiber and the request allows it, or it raises a `ThicketError`. And with a call that the held
grant covers goes a grant that is accepted for the called capability and is no wider. -/
theorem delegation_exact (hsign : crypto.SignVerifies) (str : Exc → String) {resource : Resource}
    {held : Value} (hheld : IsGrant held) (working : WorkingKey crypto) {c : String} {now : Int}
    (haccepts : resource.Accepts crypto held working.public c now) :
    (∀ (audiencePub : Bytes) (capabilities : List String) (expires : Option Int)
        (constraints : Option StrMap), audiencePub ∉ resource.revocations →
        Passable (.bytes audiencePub) → Passable (.list (capabilities.map .str)) →
        Passable (.dict (requested constraints)) →
      (∃ code message, Context.delegate str (some held) working audiencePub capabilities expires
          constraints = .error (.thicketError code message) ∧
        Exceeds held capabilities expires constraints) ∨
      ∃ g, Context.delegate str (some held) working audiencePub capabilities expires constraints =
          .ok g ∧
        Narrower resource held working g audiencePub capabilities expires constraints) ∧
    ∀ capability, Passable (.str capability) → Covers held capability →
      ∃ g, Context.authFor (some held) working capability = .ok (some g) ∧
        (∀ c now, resource.Accepts crypto held working.public c now →
          resource.Accepts crypto g working.public capability now) ∧
        Narrower resource held working g working.public [capability] none none := by
  obtain ⟨h⟩ := Holding.of_accepts haccepts
  constructor
  · intro audiencePub capabilities expires constraints haudience hpub hcaps hrequested
    cases hg : Context.delegate str (some held) working audiencePub capabilities expires
        constraints with
    | ok g => exact Or.inr ⟨g, rfl, h.narrower_delegate hsign hheld haudience hg⟩
    | error e =>
        obtain ⟨⟨code, message, rfl⟩, hexceeds⟩ := h.delegate_thicketError hheld
          (h.checked haccepts).1 str hpub hcaps hrequested hg
        exact Or.inl ⟨code, message, rfl, hexceeds⟩
  · intro capability hcapability hcovers
    obtain ⟨g, hauth, hnarrower⟩ :=
      h.exists_authFor hsign hheld haccepts hcapability hcovers
    refine ⟨g, hauth, ?_, hnarrower⟩
    intro c t ht
    exact (hnarrower.accepts_iff capability t).mpr ⟨h.accepts_covered hheld ht hcovers,
      Or.inr (List.mem_singleton.mpr rfl), nofun⟩

/-! ### An agent's grant

The owner's key 2 grants agent 3 to read and write notes. -/

def ownerRoot : RootKey Crypto.checked := ⟨(1 : UInt8)⟩

def ownerKey : WorkingKey Crypto.checked := ⟨(2 : UInt8)⟩

def agentKey : WorkingKey Crypto.checked := ⟨(3 : UInt8)⟩

def agentCaveats : Value := .dict [
  (.str "capabilities", .list [.str "fs.read", .str "fs.write"]), (.str "not_after", .int 100),
  (.str "constraints", .dict [(.str "path", .str "notes")])]

def agentView (cav : Value) : Value := .dict [
  (.str "target", .bytes (checksum (seedPublic 1))), (.str "issuer_pub", .bytes ownerKey.public),
  (.str "audience_pub", .bytes agentKey.public), (.str "caveats", cav), (.str "prev", .bytes [])]

def agentLink (cav : Value) : Value :=
  let msg := valueOr (signingInput "thicket-grant-v1" (agentView cav)) []
  .dict [(.str "issuer_pub", .bytes ownerKey.public), (.str "audience_pub", .bytes agentKey.public),
    (.str "caveats", cav), (.str "sig", .bytes (ownerKey.sign msg))]

def grantWith (cav : Value) : Value :=
  .dict [(.str "target", .bytes (checksum (seedPublic 1))), (.str "links", .list [agentLink cav])]

def agentGrant : Value := grantWith agentCaveats

def ownerResource : Resource where
  rootPub := ownerRoot.public
  endorsements := [valueOr (RootKey.endorse ownerRoot ownerKey.public 0 1000) .none]
  revocations := ∅

theorem agentGrant_isGrant : IsGrant agentGrant := by
  intro links hlinks link hlink
  obtain rfl : [agentLink agentCaveats] = links := Value.list.inj (Except.ok.inj hlinks)
  obtain rfl := List.mem_singleton.mp hlink
  have hstr (s : String) (h : (Cbor.utf8 s).length < 2 ^ 63) : Passable (.str s) := .str s h
  refine ⟨agentCaveats, rfl, ?_, ⟨["fs.read", "fs.write"], rfl⟩, ⟨100, rfl⟩,
    [(.str "path", .str "notes")], rfl, ?_⟩
  · apply Passable.dict (by decide) (by decide) (by decide) <;>
      simp only [List.forall_mem_cons, List.not_mem_nil, false_implies, implies_true, and_true]
    · exact ⟨hstr _ (by decide), hstr _ (by decide), hstr _ (by decide)⟩
    · refine ⟨.list (by decide) ?_, .int 100 (by decide), ?_⟩
      · simp only [List.forall_mem_cons, List.not_mem_nil, false_implies, implies_true, and_true]
        exact ⟨hstr _ (by decide), hstr _ (by decide)⟩
      · apply Passable.dict (by decide) (by decide) (by decide) <;>
          simp only [List.forall_mem_cons, List.not_mem_nil, false_implies, implies_true, and_true]
        · exact hstr _ (by decide)
        · exact hstr _ (by decide)
  · intro e he
    rw [List.mem_singleton.mp he]
    exact ⟨"path", "notes", rfl⟩

/-- Agent 4 may read. -/
theorem delegation_exact_agent :
    (∃ g, Context.delegate (fun _ => "") (some agentGrant) agentKey (seedPublic 4) ["fs.read"]
        (some 50) none = .ok g ∧
      Narrower ownerResource agentGrant agentKey g (seedPublic 4) ["fs.read"] (some 50) none) ∧
    ∃ g, Context.authFor (some agentGrant) agentKey "fs.write" = .ok (some g) ∧
      Narrower ownerResource agentGrant agentKey g agentKey.public ["fs.write"] none none := by
  have haccepts : ownerResource.Accepts .checked agentGrant agentKey.public "fs.read" 10 := by
    unfold Resource.Accepts
    decide +kernel
  obtain ⟨hdelegate, hauth⟩ := delegation_exact Crypto.checked_signVerifies (fun _ => "")
    agentGrant_isGrant agentKey haccepts
  have hstr (s : String) (h : (Cbor.utf8 s).length < 2 ^ 63) : Passable (.str s) := .str s h
  constructor
  · have hcaps : Passable (.list (["fs.read"].map .str)) := by
      apply Passable.list (by decide)
      intro item hitem
      rw [List.mem_singleton.mp hitem]
      exact hstr _ (by decide)
    have hrequested : Passable (.dict (requested none)) := Passable.emptyDict
    cases hdelegate (seedPublic 4) ["fs.read"] (some 50) none (by decide +kernel)
      (.bytes _ (by decide)) hcaps hrequested with
    | inl hraised =>
        obtain ⟨code, message, hraised, -⟩ := hraised
        have hok : (Context.delegate (fun _ => "") (some agentGrant) agentKey (seedPublic 4)
            ["fs.read"] (some 50) none).isOk = true := by decide +kernel
        rw [hraised] at hok
        cases hok
    | inr hok => exact hok
  · have hcovers : Covers agentGrant "fs.write" :=
      ⟨agentCaveats, ["fs.read", "fs.write"], rfl, rfl, Or.inr (by decide)⟩
    obtain ⟨g, hg, -, hnarrower⟩ := hauth "fs.write" (hstr _ (by decide)) hcovers
    exact ⟨g, hg, hnarrower⟩

/-- Caveats with constraints on a text and on a number, which the verifier never sorts. -/
def mixedCaveats : Value := .dict [
  (.str "capabilities", .list [.str "fs.read"]), (.str "not_after", .int 100),
  (.str "constraints", .dict [(.str "path", .str "notes"), (.int 1, .str "x")])]

theorem delegate_raises_typeError :
    ownerResource.Accepts .checked (grantWith mixedCaveats) agentKey.public "fs.read" 10 ∧
    Context.delegate (fun _ => "") (some (grantWith mixedCaveats)) agentKey (seedPublic 4)
      ["fs.read"] none none = .error (.exc .typeError) ∧
    Context.authFor (some (grantWith mixedCaveats)) agentKey "fs.read" = .error .typeError := by
  refine ⟨?_, rfl, rfl⟩
  unfold Resource.Accepts
  decide +kernel

end Thicket.Py
