import Thicket.Lib.HashMap
import Thicket.Lib.TopK
import Mathlib.Data.List.Dedup
import Mathlib.Data.List.Find
import Mathlib.Data.List.Induction
import Mathlib.Data.List.Nodup
import Mathlib.Data.List.Perm.Subperm
import Mathlib.Tactic.Common

/-!
# The newest item of each key

Copies of an item share its key and differ in their versions. Merging a list keeps one copy of each
key, of the highest version there is in the list. What is merged may have been cut off before: then
the best `k` of the copies that are kept are the best `k` of the newest ones exactly as long as
enough of the kept copies are newest ones and outdo the rest.
-/

namespace Newest

variable {α κ ν : Type} [LinearOrder ν] (key : α → κ) (version : α → ν)

/-- No item of the same key is newer. -/
structure IsNewest (items : List α) (a : α) : Prop where
  mem : a ∈ items
  le : ∀ b ∈ items, key b = key a → version b ≤ version a

/-! ### The first of them -/

section First

variable [DecidableEq κ]

/-- The first of the newest items of a key. -/
def first (items : List α) (k : κ) : Option α :=
  items.find? fun a => decide (key a = k ∧ ∀ b ∈ items, key b = k → version b ≤ version a)

variable {key version} {items : List α} {a b : α} {k : κ}

theorem first_eq_some (h : first key version items k = some a) :
    key a = k ∧ IsNewest key version items a := by
  rw [first] at h
  have hfirst := List.find?_some h
  obtain ⟨rfl, hle⟩ := of_decide_eq_true hfirst
  exact ⟨rfl, List.mem_of_find?_eq_some h, hle⟩

theorem first_append_of_ne (hkey : key a ≠ k) :
    first key version (items ++ [a]) k = first key version items k := by
  have hsame : ∀ b, (key b = k ∧ ∀ c ∈ items ++ [a], key c = k → version c ≤ version b) ↔
      key b = k ∧ ∀ c ∈ items, key c = k → version c ≤ version b := by
    intro b
    simp [or_imp, forall_and, hkey]
  simp only [first, hsame, List.find?_append, List.find?_singleton, hkey, false_and, decide_false,
    Bool.false_eq_true, if_false, Option.or_none]

/-- An item that is not newer than the newest one comes too late. -/
theorem first_append_of_le (hb : first key version items (key a) = some b)
    (hle : version a ≤ version b) : first key version (items ++ [a]) (key a) = some b := by
  obtain ⟨hkey, hnewest⟩ := first_eq_some hb
  rw [first, List.find?_append, Option.or_eq_some_iff]
  left
  rw [← hb, first]
  apply List.find?_congr
  intro c _
  rw [decide_eq_decide]
  apply and_congr_right
  intro _
  simp only [List.mem_append, List.mem_singleton, or_imp, forall_and, forall_eq, true_implies]
  apply and_iff_left_of_imp
  intro hnewer
  exact hle.trans (hnewer b hnewest.mem hkey)

theorem first_append_of_newer (hnewer : ∀ b ∈ items, key b = key a → version b < version a) :
    first key version (items ++ [a]) (key a) = some a := by
  have hnone : items.find? (fun b => decide (key b = key a ∧
      ∀ c ∈ items ++ [a], key c = key a → version c ≤ version b)) = none := by
    rw [List.find?_eq_none]
    intro b hb hfirst
    obtain ⟨hkey, hle⟩ := of_decide_eq_true hfirst
    have hback := hle a (List.mem_append_right _ List.mem_cons_self) rfl
    exact absurd (hnewer b hb hkey) (not_lt_of_ge hback)
  have hall : ∀ c ∈ items ++ [a], key c = key a → version c ≤ version a := by
    intro c hc hkey
    rcases List.mem_append.mp hc with hc | hc
    · exact (hnewer c hc hkey).le
    · rw [List.mem_singleton.mp hc]
  rw [first, List.find?_append, hnone, List.find?_singleton, if_pos (decide_eq_true ⟨rfl, hall⟩)]
  rfl

end First

/-! ### Merging -/

section Merge

variable [Ord κ] [Std.TransOrd κ]

/-- An item replaces the one that is kept for its key if it is newer. -/
def keep (best : HashMap κ α) (a : α) : HashMap κ α :=
  match best[key a]? with
  | some existing => if version a ≤ version existing then best else best.insert (key a) a
  | none => best.insert (key a) a

def merge (items : List α) : HashMap κ α := items.foldl (keep key version) ∅

/-- `best` holds a newest item for each key of the items. -/
structure Merged (items : List α) (best : HashMap κ α) : Prop where
  key_eq : ∀ (k : κ) (a : α), best[k]? = some a → key a = k
  newest : ∀ (k : κ) (a : α), best[k]? = some a → IsNewest key version items a
  found : ∀ a ∈ items, ∃ b, best[key a]? = some b

variable {key version} {items items' : List α} {best : HashMap κ α} {a b : α} {k : κ}

omit [Ord κ] [Std.TransOrd κ] in
theorem IsNewest.append (h : IsNewest key version items a)
    (hb : key b = key a → version b ≤ version a) : IsNewest key version (items ++ [b]) a := by
  refine ⟨List.mem_append_left _ h.mem, ?_⟩
  intro c hc hkey
  rcases List.mem_append.mp hc with hc | hc
  · exact h.le c hc hkey
  · rw [List.mem_singleton.mp hc] at hkey ⊢
    exact hb hkey

/-- The versions that are kept are the highest ones, so they do not depend on an order. -/
theorem Merged.version_iff (h : Merged key version items best) {v : ν} :
    best[k]?.map version = some v ↔
      ∃ a, IsNewest key version items a ∧ key a = k ∧ version a = v := by
  rw [Option.map_eq_some_iff]
  constructor
  · intro ⟨a, ha, hv⟩
    exact ⟨a, h.newest k a ha, h.key_eq k a ha, hv⟩
  · intro ⟨a, hnewest, hkey, hv⟩
    obtain ⟨b, hb⟩ := h.found a hnewest.mem
    rw [hkey] at hb
    have hsame := (h.key_eq k b hb).trans hkey.symm
    have hba := hnewest.le b (h.newest k b hb).mem hsame
    have hab := (h.newest k b hb).le a hnewest.mem hsame.symm
    exact ⟨b, hb, (le_antisymm hba hab).trans hv⟩

theorem Merged.version_eq {best' : HashMap κ α} (h : Merged key version items best)
    (h' : Merged key version items' best') (hsame : ∀ a, a ∈ items ↔ a ∈ items') (k : κ) :
    best[k]?.map version = best'[k]?.map version := by
  have hnewest : ∀ a, IsNewest key version items a ↔ IsNewest key version items' a := by
    intro a
    constructor
    · intro ⟨hmem, hle⟩
      exact ⟨(hsame a).mp hmem, fun b hb => hle b ((hsame b).mpr hb)⟩
    · intro ⟨hmem, hle⟩
      exact ⟨(hsame a).mpr hmem, fun b hb => hle b ((hsame b).mp hb)⟩
  apply Option.ext
  intro v
  rw [h.version_iff, h'.version_iff]
  simp only [hnewest]

variable [Std.LawfulEqOrd κ]

theorem Merged.nodup {values : List α} (h : Merged key version items best)
    (hvalues : best.Yields values) : (values.map key).Nodup := hvalues.nodup_map h.key_eq

variable [DecidableEq κ]

theorem Merged.insert (h : Merged key version items best)
    (hnewer : ∀ existing, best[key a]? = some existing → version existing ≤ version a) :
    Merged key version (items ++ [a]) (best.insert (key a) a) := by
  refine ⟨?_, ?_, ?_⟩
  · intro k c hc
    rw [HashMap.getElem?_insert] at hc
    split_ifs at hc with hk
    · rw [← Option.some.inj hc, hk]
    · exact h.key_eq k c hc
  · intro k c hc
    rw [HashMap.getElem?_insert] at hc
    split_ifs at hc with hk
    · obtain rfl := Option.some.inj hc
      refine ⟨List.mem_append_right _ List.mem_cons_self, ?_⟩
      intro b hb hkey
      rcases List.mem_append.mp hb with hb | hb
      · obtain ⟨existing, hexisting⟩ := h.found b hb
        have hle := (h.newest _ existing hexisting).le b hb (h.key_eq _ existing hexisting).symm
        exact hle.trans (hnewer existing (hkey ▸ hexisting))
      · rw [List.mem_singleton.mp hb]
    · apply (h.newest k c hc).append
      intro hkey
      exact absurd (hkey.trans (h.key_eq k c hc)).symm hk
  · intro b hb
    rw [HashMap.getElem?_insert]
    split_ifs with hk
    · exact ⟨a, rfl⟩
    · rcases List.mem_append.mp hb with hb | hb
      · exact h.found b hb
      · exact absurd (congrArg key (List.mem_singleton.mp hb)) hk

theorem Merged.keep (h : Merged key version items best) (a : α) :
    Merged key version (items ++ [a]) (keep key version best a) := by
  rw [Newest.keep]
  cases hexisting : best[key a]? with
  | none =>
      apply h.insert
      intro existing hsome
      rw [hexisting] at hsome
      cases hsome
  | some existing =>
      dsimp only
      split_ifs with hle
      · refine ⟨h.key_eq, ?_, ?_⟩
        · intro k c hc
          apply (h.newest k c hc).append
          intro hkey
          rw [← h.key_eq k c hc, ← hkey, hexisting] at hc
          rwa [← Option.some.inj hc]
        · intro b hb
          rcases List.mem_append.mp hb with hb | hb
          · exact h.found b hb
          · rw [List.mem_singleton.mp hb]
            exact ⟨existing, hexisting⟩
      · apply h.insert
        intro existing' hsome
        rw [hexisting] at hsome
        rw [← Option.some.inj hsome]
        exact le_of_not_ge hle

theorem merged_foldl (h : Merged key version items best) (more : List α) :
    Merged key version (items ++ more) (more.foldl (Newest.keep key version) best) := by
  induction more generalizing items best with
  | nil => rwa [List.append_nil]
  | cons a more ih =>
      have hstep := ih (h.keep a)
      rwa [List.append_assoc, List.singleton_append] at hstep

theorem merged_merge (items : List α) : Merged key version items (merge key version items) := by
  have hempty : Merged key version [] (∅ : HashMap κ α) := by
    refine ⟨?_, ?_, List.forall_mem_nil _⟩
    · intro k a ha
      simp at ha
    · intro k a ha
      simp at ha
  exact merged_foldl hempty items

theorem getElem?_keep_of_ne (best : HashMap κ α) (h : key a ≠ k) :
    (keep key version best a)[k]? = best[k]? := by
  rw [keep]
  split
  · split_ifs
    · rfl
    · rw [HashMap.getElem?_insert, if_neg (Ne.symm h)]
  · rw [HashMap.getElem?_insert, if_neg (Ne.symm h)]

/-- What a merge keeps for a key is the first of its newest items. -/
theorem getElem?_merge (items : List α) (k : κ) :
    (merge key version items)[k]? = first key version items k := by
  induction items using List.reverseRecOn generalizing k with
  | nil => simp [merge, first]
  | append_singleton items a ih =>
      have hmerged : Merged key version items (merge key version items) := merged_merge items
      rw [merge, List.foldl_append, List.foldl_cons, List.foldl_nil]
      change (Newest.keep key version (merge key version items) a)[k]? = _
      by_cases hkey : key a = k
      · subst hkey
        rw [Newest.keep]
        cases hexisting : (merge key version items)[key a]? with
        | none =>
            rw [HashMap.getElem?_insert, if_pos rfl, first_append_of_newer]
            intro b hb hkey
            obtain ⟨kept, hkept⟩ := hmerged.found b hb
            rw [hkey, hexisting] at hkept
            cases hkept
        | some existing =>
            have hfirst := (ih (key a)).symm.trans hexisting
            obtain ⟨hkey, hnewest⟩ := first_eq_some hfirst
            dsimp only
            split_ifs with hle
            · rw [hexisting, first_append_of_le hfirst hle]
            · rw [HashMap.getElem?_insert, if_pos rfl, first_append_of_newer]
              intro b hb hb'
              exact (hnewest.le b hb (hb'.trans hkey.symm)).trans_lt (lt_of_not_ge hle)
      · rw [first_append_of_ne hkey, getElem?_keep_of_ne _ hkey, ih k]

end Merge

/-! ### The best of the newest -/

section Best

variable {σ : Type} [LinearOrder σ] (score : α → σ)

/-- One newest item for each key that is held. -/
structure Collects (held items : List α) : Prop where
  nodup : (items.map key).Nodup
  newest : ∀ a ∈ items, IsNewest key version held a
  found : ∀ b ∈ held, ∃ a ∈ items, key a = key b

/-- The best `k` of the newest items that are held. -/
def SelectsNewest (held : List α) (k : Nat) (best : List α) : Prop :=
  ∃ items, Collects key version held items ∧ TopK.Selects score items k best

/-- `k` different ones of the items have the property. -/
def AtLeast (k : Nat) (items : List α) (p : α → Prop) : Prop :=
  ∃ chosen : List α, chosen.Nodup ∧ chosen.length = k ∧ ∀ a ∈ chosen, a ∈ items ∧ p a

/-- What is kept for the key, if anything, is not a newest item. -/
def Lost (held kept : List α) (k : κ) : Prop :=
  ∀ a ∈ kept, key a = k → ¬IsNewest key version held a

/-- Whatever is lost is outdone: `k` of the newest items that are kept are as good as a newest item
of the lost key, and better than what is kept in its place. -/
def Covers (held kept : List α) (k : Nat) : Prop :=
  ∀ b ∈ held, Lost key version held kept (key b) →
    (∃ a, IsNewest key version held a ∧ key a = key b ∧
      AtLeast k kept fun c => IsNewest key version held c ∧ score a ≤ score c) ∧
    ∀ a ∈ kept, key a = key b →
      AtLeast k kept fun c => IsNewest key version held c ∧ score a < score c

variable {key version score} {held kept values best items : List α} {a b : α} {k : Nat}
  {p q : α → Prop}

theorem AtLeast.mono (h : AtLeast k items p) (hpq : ∀ a ∈ items, p a → q a) :
    AtLeast k items q := by
  obtain ⟨chosen, hnodup, hlength, hchosen⟩ := h
  refine ⟨chosen, hnodup, hlength, ?_⟩
  intro a ha
  obtain ⟨hmem, hp⟩ := hchosen a ha
  exact ⟨hmem, hpq a hmem hp⟩

/-- Which items are kept matters, not how often they are listed. -/
theorem covers_congr {kept' : List α} (hsame : ∀ a, a ∈ kept ↔ a ∈ kept') :
    Covers key version score held kept k ↔ Covers key version score held kept' k := by
  simp only [Covers, Lost, AtLeast, hsame]

/-- Fewer than `k` candidates are better than one of the best `k`. -/
theorem not_atLeast_of_selected (h : TopK.Selects score items k best) (ha : a ∈ best) :
    ¬AtLeast k items fun c => score a < score c := by
  intro ⟨chosen, hnodup, hlength, hchosen⟩
  have hbest : ∀ c ∈ chosen, c ∈ best := by
    intro c hc
    by_contra hout
    exact not_lt_of_ge (h.le_of_not_mem ha (hchosen c hc).1 hout) (hchosen c hc).2
  have hall : (a :: chosen).Nodup :=
    List.nodup_cons.mpr ⟨fun hmem => lt_irrefl _ (hchosen a hmem).2, hnodup⟩
  have hsub : a :: chosen ⊆ best := List.cons_subset.mpr ⟨ha, hbest⟩
  have hle := (List.subperm_of_subset hall hsub).length_le
  have hbound := h.length
  rw [List.length_cons] at hle
  omega

theorem eq_of_key_eq (hkeys : (kept.map key).Nodup) (ha : a ∈ kept) (hb : b ∈ kept)
    (hkey : key a = key b) : a = b :=
  List.inj_on_of_nodup_map hkeys ha hb hkey

theorem lost_of_not_newest (hkeys : (kept.map key).Nodup) (ha : a ∈ kept)
    (hstale : ¬IsNewest key version held a) : Lost key version held kept (key a) := by
  intro c hc hkey
  rw [eq_of_key_eq hkeys hc ha hkey]
  exact hstale

/-- Where what is lost is outdone, the best of the kept items are newest ones. -/
theorem newest_of_selected (hkeys : (kept.map key).Nodup) (hheld : ∀ a ∈ kept, a ∈ held)
    (hcovers : Covers key version score held kept k) (h : TopK.Selects score kept k best)
    (ha : a ∈ best) : IsNewest key version held a := by
  have hkept := h.mem ha
  by_contra hstale
  have hlost := lost_of_not_newest hkeys hkept hstale
  have hmany := (hcovers a (hheld a hkept) hlost).2 a hkept rfl
  exact not_atLeast_of_selected h ha (hmany.mono fun c _ hc => hc.2)

/-- What stands for a key: the item that is kept for it, or one that outdoes what is kept. -/
theorem exists_representative (hcovers : Covers key version score held kept k)
    (hb : b ∈ held) : ∃ a, key a = key b ∧ IsNewest key version held a ∧
      (a ∈ kept ∨ Lost key version held kept (key b) ∧
        AtLeast k kept fun c => IsNewest key version held c ∧ score a ≤ score c) := by
  by_cases hlost : Lost key version held kept (key b)
  · obtain ⟨⟨a, hnewest, hkey, hmany⟩, -⟩ := hcovers b hb hlost
    exact ⟨a, hkey, hnewest, .inr ⟨hlost, hmany⟩⟩
  · rw [Lost] at hlost
    push Not at hlost
    obtain ⟨a, ha, hkey, hnewest⟩ := hlost
    exact ⟨a, hkey, hnewest, .inl ha⟩

/-- A collection that holds all newest items that are kept, and for the other keys items that are
outdone. -/
theorem exists_collection [DecidableEq κ] (hkeys : (kept.map key).Nodup)
    (hcovers : Covers key version score held kept k) : ∃ items,
    Collects key version held items ∧ (∀ a ∈ kept, IsNewest key version held a → a ∈ items) ∧
      ∀ a ∈ items, a ∈ kept ∨ Lost key version held kept (key a) ∧
        AtLeast k kept fun c => IsNewest key version held c ∧ score a ≤ score c := by
  have hchoose : ∀ key' ∈ held.map key, ∃ a, key a = key' ∧ IsNewest key version held a ∧
      (a ∈ kept ∨ Lost key version held kept key' ∧
        AtLeast k kept fun c => IsNewest key version held c ∧ score a ≤ score c) := by
    intro key' hkey'
    obtain ⟨b, hb, rfl⟩ := List.mem_map.mp hkey'
    exact exists_representative hcovers hb
  rcases isEmpty_or_nonempty α with hempty | hnonempty
  · exact ⟨[], ⟨List.nodup_nil, isEmptyElim, isEmptyElim⟩, isEmptyElim, isEmptyElim⟩
  choose! f hf using hchoose
  have hmem : ∀ b ∈ held, f (key b) ∈ (held.map key).dedup.map f := fun b hb =>
    List.mem_map_of_mem (List.mem_dedup.mpr (List.mem_map_of_mem hb))
  have hkey : ∀ b ∈ held, key (f (key b)) = key b := fun b hb => (hf _ (List.mem_map_of_mem hb)).1
  have hof : ∀ a ∈ (held.map key).dedup.map f, ∃ b ∈ held, f (key b) = a := by
    intro a ha
    obtain ⟨key', hkey', hfa⟩ := List.mem_map.mp ha
    obtain ⟨b, hb, rfl⟩ := List.mem_map.mp (List.mem_dedup.mp hkey')
    exact ⟨b, hb, hfa⟩
  refine ⟨(held.map key).dedup.map f, ⟨?_, ?_, ?_⟩, ?_, ?_⟩
  · have hsame : ((held.map key).dedup.map f).map key = (held.map key).dedup := by
      rw [List.map_map]
      refine (List.map_congr_left ?_).trans (List.map_id _)
      intro key' hkey'
      exact (hf key' (List.mem_dedup.mp hkey')).1
    rw [hsame]
    exact List.nodup_dedup _
  · intro a ha
    obtain ⟨b, hb, rfl⟩ := hof a ha
    exact (hf _ (List.mem_map_of_mem hb)).2.1
  · intro b hb
    exact ⟨f (key b), hmem b hb, hkey b hb⟩
  · intro a ha hnewest
    rcases (hf _ (List.mem_map_of_mem hnewest.mem)).2.2 with hkept | ⟨hlost, -⟩
    · rw [← eq_of_key_eq hkeys hkept ha (hkey a hnewest.mem)]
      exact hmem a hnewest.mem
    · exact absurd hnewest (hlost a ha rfl)
  · intro a ha
    obtain ⟨b, hb, rfl⟩ := hof a ha
    rw [hkey b hb]
    exact (hf _ (List.mem_map_of_mem hb)).2.2

/-- The best of the kept items are the best of the newest ones. -/
theorem selectsNewest_of_covers [DecidableEq κ] (hkeys : (kept.map key).Nodup)
    (hheld : ∀ a ∈ kept, a ∈ held) (hcovers : Covers key version score held kept k)
    (h : TopK.Selects score kept k best) : SelectsNewest key version score held k best := by
  obtain ⟨items, hcollects, hnewest, hitems⟩ := exists_collection hkeys hcovers
  have hnodup : items.Nodup := hcollects.nodup.of_map key
  have hbest := h.nodup (hkeys.of_map key)
  have hsub : best ⊆ items := by
    intro a ha
    exact hnewest a (h.mem ha) (newest_of_selected hkeys hheld hcovers h ha)
  obtain ⟨front, hfront, hsublist⟩ := hbest.subperm hsub
  obtain ⟨left, hleft⟩ := hsublist.exists_perm_append
  have hsplit : (best ++ left).Perm items :=
    (List.Perm.append_right left hfront.symm).trans hleft.symm
  refine ⟨items, hcollects, h.sorted, ⟨left, hsplit, ?_⟩, ?_⟩
  · intro a ha b hb
    have hout : b ∉ best := by
      have hdisjoint := List.disjoint_of_nodup_append (hsplit.nodup_iff.mpr hnodup)
      exact fun hin => hdisjoint hin hb
    rcases hitems b (hsplit.mem_iff.mp (List.mem_append_right _ hb)) with hin | ⟨-, hmany⟩
    · exact h.le_of_not_mem ha hin hout
    · by_contra hbetter
      apply not_atLeast_of_selected h ha
      exact hmany.mono fun c _ hc => lt_of_lt_of_le (lt_of_not_ge hbetter) hc.2
  · rw [h.length]
    by_cases hlost : ∃ b ∈ held, Lost key version held kept (key b)
    · -- enough items are kept for there to be enough of them in either list
      obtain ⟨b, hb, hlost⟩ := hlost
      obtain ⟨⟨a, -, -, chosen, hchosen, hlength, hall⟩, -⟩ := hcovers b hb hlost
      have hle := (hchosen.subperm fun c hc => (hall c hc).1).length_le
      have hle' := (hchosen.subperm fun c hc => hnewest c (hall c hc).1 (hall c hc).2.1).length_le
      omega
    · push Not at hlost
      have hin : items ⊆ kept := by
        intro a ha
        exact (hitems a ha).resolve_right fun h => hlost a (hcollects.newest a ha).mem h.1
      have hback : kept ⊆ items := by
        intro a ha
        apply hnewest a ha
        by_contra hstale
        exact hlost a (hheld a ha) (lost_of_not_newest hkeys ha hstale)
      have hle := (hnodup.subperm hin).length_le
      have hle' := ((hkeys.of_map key).subperm hback).length_le
      omega

/-- And only there, if it has to hold in whatever order the kept items come. -/
theorem covers_of_selectsNewest (hkeys : (kept.map key).Nodup)
    (h : ∀ values, values.Perm kept →
      SelectsNewest key version score held k ((TopK.sortByScore score values).take k)) :
    Covers key version score held kept k := by
  -- what is selected from the kept items is newest, so it is not lost
  have hbest : ∀ values, values.Perm kept → ∀ c ∈ (TopK.sortByScore score values).take k,
      c ∈ kept ∧ IsNewest key version held c := by
    intro values hperm c hc
    obtain ⟨items, hcollects, hselects⟩ := h values hperm
    have hkept := ((TopK.selects_take score values k).of_perm hperm).mem hc
    exact ⟨hkept, hcollects.newest c (hselects.mem hc)⟩
  intro b hb hlost
  constructor
  · obtain ⟨items, hcollects, hselects⟩ := h kept (List.Perm.refl _)
    obtain ⟨a, ha, hkey⟩ := hcollects.found b hb
    have hout : a ∉ (TopK.sortByScore score kept).take k := by
      intro hin
      obtain ⟨hkept, hnewest⟩ := hbest kept (List.Perm.refl _) a hin
      exact hlost a hkept hkey hnewest
    refine ⟨a, hcollects.newest a ha, hkey, (TopK.sortByScore score kept).take k, ?_,
      hselects.length_of_not_mem ha hout, ?_⟩
    · exact (TopK.selects_take score kept k).nodup (hkeys.of_map key)
    · intro c hc
      obtain ⟨hkept, hnewest⟩ := hbest kept (List.Perm.refl _) c hc
      exact ⟨hkept, hnewest, hselects.le_of_not_mem hc ha hout⟩
  · intro a ha hkey
    -- the stale item may come first, and is left out even then
    obtain ⟨before, after, rfl⟩ := List.append_of_mem ha
    have hperm : (a :: (before ++ after)).Perm (before ++ a :: after) := List.perm_middle.symm
    have hselects := TopK.selects_take score (a :: (before ++ after)) k
    have hnodup : (a :: (before ++ after)).Nodup := hperm.nodup_iff.mpr (hkeys.of_map key)
    have hout : a ∉ (TopK.sortByScore score (a :: (before ++ after))).take k := by
      intro hin
      exact hlost a ha hkey (hbest _ hperm a hin).2
    refine ⟨_, hselects.nodup hnodup, hselects.length_of_not_mem List.mem_cons_self hout, ?_⟩
    intro c hc
    obtain ⟨hkept, hnewest⟩ := hbest _ hperm c hc
    refine ⟨hkept, hnewest, ?_⟩
    by_contra hle
    have hca : c ≠ a := fun h => hout (h ▸ hc)
    have hrest : c ∈ before ++ after := by
      have hmem := List.mem_cons.mp (hperm.mem_iff.mpr hkept)
      exact hmem.resolve_left hca
    have hbefore : [a, c].Sublist (a :: (before ++ after)) :=
      (List.singleton_sublist.mpr hrest).cons_cons a
    exact hout (TopK.mem_take_of_before hnodup hbefore (le_of_not_gt hle) hc)

end Best

end Newest
