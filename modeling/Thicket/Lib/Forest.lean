import Mathlib.Data.Finset.Card
import Mathlib.Data.List.Dedup
import Mathlib.Data.List.Flatten
import Mathlib.Data.List.Perm.Subperm
import Mathlib.Logic.Relation
import Mathlib.Tactic.Common

/-!
# Forests from parent pointers

Items have a key and may name the key of a parent. The items without a parent are the roots, and
below a key are the items that name it. Following the references from the roots comes to an end and
shows each item once exactly if no chain of parents leads back to where it began and no key that is
named as a parent belongs to two items.
-/

/-- The root of the first tree, what is below it, and the trees beside it. -/
inductive Forest (α : Type) where
  | nil
  | node (root : α) (below beside : Forest α)

namespace Forest

variable {α β : Type}

def roots : Forest α → List α
  | nil => []
  | node root _ beside => root :: beside.roots

def preorder : Forest α → List α
  | nil => []
  | node root below beside => root :: (below.preorder ++ beside.preorder)

/-- Every node, with the roots of what is below it. -/
def families : Forest α → List (α × List α)
  | nil => []
  | node root below beside => (root, below.roots) :: (below.families ++ beside.families)

def map (f : α → β) : Forest α → Forest β
  | nil => nil
  | node root below beside => node (f root) (below.map f) (beside.map f)

/-- Below a node is what it refers to. -/
def Follows (children : α → List α) (forest : Forest α) : Prop :=
  ∀ family ∈ forest.families, family.2 = children family.1

variable {forest below beside : Forest α} {root : α} {children : α → List α}

theorem follows_node : (node root below beside).Follows children ↔
    below.roots = children root ∧ below.Follows children ∧ beside.Follows children := by
  simp only [Follows, families, List.forall_mem_cons, List.forall_mem_append]

theorem roots_map (f : α → β) (forest : Forest α) : (forest.map f).roots = forest.roots.map f := by
  induction forest with
  | nil => rfl
  | node root below beside _ ih => rw [map, roots, roots, ih, List.map_cons]

theorem preorder_map (f : α → β) (forest : Forest α) :
    (forest.map f).preorder = forest.preorder.map f := by
  induction forest with
  | nil => rfl
  | node root below beside ihBelow ihBeside =>
      rw [map, preorder, preorder, ihBelow, ihBeside, List.map_cons, List.map_append]

theorem families_map (f : α → β) (forest : Forest α) :
    (forest.map f).families = forest.families.map fun family => (f family.1, family.2.map f) := by
  induction forest with
  | nil => rfl
  | node root below beside ihBelow ihBeside =>
      rw [map, families, families, ihBelow, ihBeside, roots_map, List.map_cons, List.map_append]

theorem map_fst_families (forest : Forest α) : forest.families.map Prod.fst = forest.preorder := by
  induction forest with
  | nil => rfl
  | node root below beside ihBelow ihBeside =>
      rw [families, preorder, List.map_cons, List.map_append, ihBelow, ihBeside]

theorem roots_subset_preorder : forest.roots ⊆ forest.preorder := by
  induction forest with
  | nil => exact List.Subset.refl _
  | node root below beside _ ih =>
      apply List.cons_subset_cons
      intro k hk
      exact List.mem_append_right _ (ih hk)

/-! ### References -/

/-- Every node is a root or is referred to by a node, as often as it is there. -/
theorem Follows.perm_preorder (h : forest.Follows children) :
    forest.preorder.Perm (forest.roots ++ forest.preorder.flatMap children) := by
  induction forest with
  | nil => exact .nil
  | node root below beside ihBelow ihBeside =>
      obtain ⟨hroots, hbelow, hbeside⟩ := follows_node.mp h
      have hparts := (ihBelow hbelow).append (ihBeside hbeside)
      rw [hroots] at hparts
      rw [preorder, roots, List.cons_append, List.flatMap_cons, List.flatMap_append]
      refine (hparts.trans (List.perm_append_comm_assoc _ _ _)).cons root |>.trans ?_
      rw [List.append_assoc]

/-- What follows the references from a node of a forest comes to an end. -/
theorem Follows.acc (h : forest.Follows children) :
    ∀ k ∈ forest.preorder, Acc (fun c p => c ∈ children p) k := by
  induction forest with
  | nil => exact nofun
  | node root below beside ihBelow ihBeside =>
      obtain ⟨hroots, hbelow, hbeside⟩ := follows_node.mp h
      intro k hk
      rcases List.mem_cons.mp hk with rfl | hk
      · refine ⟨k, fun c hc => ?_⟩
        rw [← hroots] at hc
        exact ihBelow hbelow c (roots_subset_preorder hc)
      · rcases List.mem_append.mp hk with hk | hk
        · exact ihBelow hbelow k hk
        · exact ihBeside hbeside k hk

theorem exists_follows {keys : List α} (h : ∀ k ∈ keys, Acc (fun c p => c ∈ children p) k) :
    ∃ forest : Forest α, forest.roots = keys ∧ forest.Follows children := by
  have hall {keys : List α} (h : ∀ k ∈ keys, ∃ below : Forest α,
      below.roots = children k ∧ below.Follows children) :
      ∃ forest : Forest α, forest.roots = keys ∧ forest.Follows children := by
    induction keys with
    | nil => exact ⟨nil, rfl, nofun⟩
    | cons k keys ih =>
        obtain ⟨below, hroots, hbelow⟩ := h k List.mem_cons_self
        obtain ⟨beside, rfl, hbeside⟩ := ih fun k hk => h k (List.mem_cons_of_mem _ hk)
        exact ⟨node k below beside, rfl, follows_node.mpr ⟨hroots, hbelow, hbeside⟩⟩
  apply hall
  intro k hk
  have hacc := h k hk
  clear hk h
  induction hacc with
  | intro k _ ih => exact hall ih

/-! ### Items with parents -/

section Items

variable {ι κ : Type} [DecidableEq κ] (items : List ι) (key : ι → κ) (parent : ι → Option κ)

/-- The keys of the items whose parent is `p`; `none` for the roots. -/
def keysUnder (p : Option κ) : List κ := (items.filter fun s => parent s = p).map key

def childKeys (k : κ) : List κ := keysUnder items key parent (some k)

/-- Every parent that is named is the key of an item. -/
def ParentsKnown : Prop := ∀ s ∈ items, ∀ k, parent s = some k → k ∈ items.map key

/-- No chain of parents leads back to where it began. -/
def Loopless : Prop := ∀ k, ¬Relation.TransGen (fun c p => c ∈ childKeys items key parent p) k k

/-- A key that is named as a parent belongs to one item. -/
def ParentsUnique : Prop :=
  ∀ k, childKeys items key parent k ≠ [] → (items.map key).count k = 1

variable {items : List ι} {key : ι → κ} {parent : ι → Option κ}

theorem mem_keysUnder {c : κ} {p : Option κ} :
    c ∈ keysUnder items key parent p ↔ ∃ s ∈ items, parent s = p ∧ key s = c := by
  simp [keysUnder, and_assoc]

theorem keysUnder_concat (s : ι) (p : Option κ) : keysUnder (items ++ [s]) key parent p =
    keysUnder items key parent p ++ if parent s = p then [key s] else [] := by
  rw [keysUnder, List.filter_append, List.map_append, ← keysUnder]
  by_cases hs : parent s = p <;> simp [hs]

theorem mem_keys_of_mem_childKeys {c p : κ} (h : c ∈ childKeys items key parent p) :
    c ∈ items.map key := by
  obtain ⟨s, hs, -, rfl⟩ := mem_keysUnder.mp h
  exact List.mem_map_of_mem hs

theorem ParentsKnown.mem_keys (h : ParentsKnown items key parent) {p : κ}
    (hp : childKeys items key parent p ≠ []) : p ∈ items.map key := by
  obtain ⟨c, hc⟩ := List.exists_mem_of_ne_nil _ hp
  obtain ⟨s, hs, hparent, -⟩ := mem_keysUnder.mp hc
  exact h s hs p hparent

/-- Every item is under one parent. -/
theorem perm_flatMap_keysUnder {parents : List (Option κ)} (hnodup : parents.Nodup)
    (h : ∀ s ∈ items, parent s ∈ parents) :
    (items.map key).Perm (parents.flatMap (keysUnder items key parent)) := by
  induction parents generalizing items with
  | nil =>
      obtain rfl := List.eq_nil_iff_forall_not_mem.mpr fun s hs => List.not_mem_nil (h s hs)
      exact .nil
  | cons p parents ih =>
      obtain ⟨hp, hnodup⟩ := List.nodup_cons.mp hnodup
      let others := items.filter fun s => !decide (parent s = p)
      have hothers : ∀ s ∈ others, parent s ∈ parents := by
        intro s hs
        obtain ⟨hs, hne⟩ := List.mem_filter.mp hs
        exact (List.mem_cons.mp (h s hs)).resolve_left (by simpa using hne)
      have hsame : ∀ q ∈ parents, keysUnder others key parent q = keysUnder items key parent q := by
        intro q hq
        rw [keysUnder, keysUnder, List.filter_filter]
        congr 1
        apply List.filter_congr
        intro s _
        by_cases hs : parent s = q
        · have hne : q ≠ p := fun hqp => hp (hqp ▸ hq)
          simp [hs, hne]
        · simp [hs]
      have hsplit := (List.filter_append_perm (fun s => decide (parent s = p)) items).symm.map key
      rw [List.map_append] at hsplit
      refine hsplit.trans (List.Perm.append_left _ ?_)
      have hrest : parents.flatMap (keysUnder items key parent) =
          parents.flatMap (keysUnder others key parent) := by
        simp only [List.flatMap, List.map_congr_left hsame]
      show (others.map key).Perm (parents.flatMap (keysUnder items key parent))
      rw [hrest]
      exact ih hnodup hothers

/-- Under the parents that are keys, each taken once, and under none. -/
theorem ParentsKnown.perm_dedup (h : ParentsKnown items key parent) : (items.map key).Perm
    (keysUnder items key parent none ++
      (items.map key).dedup.flatMap (childKeys items key parent)) := by
  have hnodup : (none :: (items.map key).dedup.map some).Nodup := by
    apply List.nodup_cons.mpr
    exact ⟨by simp, (List.nodup_dedup _).map (Option.some_injective κ)⟩
  have hmem : ∀ s ∈ items, parent s ∈ none :: (items.map key).dedup.map some := by
    intro s hs
    cases hparent : parent s with
    | none => exact List.mem_cons_self
    | some k =>
        have hk := List.mem_dedup.mpr (h s hs k hparent)
        exact List.mem_cons_of_mem _ (List.mem_map_of_mem hk)
  have hperm : (items.map key).Perm ((none :: (items.map key).dedup.map some).flatMap
      (keysUnder items key parent)) := perm_flatMap_keysUnder hnodup hmem
  rw [List.flatMap_cons, List.flatMap_map] at hperm
  exact hperm

/-! ### No loops -/

theorem wellFounded_of_finite {R : κ → κ → Prop} (keys : List κ) (hkeys : ∀ a b, R a b → a ∈ keys)
    (hloop : ∀ k, ¬Relation.TransGen R k k) : WellFounded R := by
  classical
  let rank (b : κ) : Nat := (keys.toFinset.filter fun a => Relation.TransGen R a b).card
  apply Subrelation.wf (r := fun a b => rank a < rank b) ?_ (measure rank).wf
  intro a b hab
  apply Finset.card_lt_card
  apply (Finset.ssubset_iff_of_subset _).mpr
  · refine ⟨a, ?_, ?_⟩
    · exact Finset.mem_filter.mpr ⟨List.mem_toFinset.mpr (hkeys a b hab), .single hab⟩
    · intro ha
      exact hloop a (Finset.mem_filter.mp ha).2
  · intro c hc
    obtain ⟨hc, hca⟩ := Finset.mem_filter.mp hc
    exact Finset.mem_filter.mpr ⟨hc, hca.tail hab⟩

theorem Loopless.wellFounded_below (h : Loopless items key parent) :
    WellFounded fun c p => c ∈ childKeys items key parent p :=
  wellFounded_of_finite (items.map key) (fun _ _ hc => mem_keys_of_mem_childKeys hc) h

theorem Loopless.wellFounded_above (h : Loopless items key parent)
    (hknown : ParentsKnown items key parent) :
    WellFounded fun p c => c ∈ childKeys items key parent p := by
  apply wellFounded_of_finite (items.map key)
  · intro p c hc
    exact hknown.mem_keys (List.ne_nil_of_mem hc)
  · intro k hk
    exact h k (Relation.transGen_swap.mp hk)

omit [DecidableEq κ] in
theorem acc_irrefl {R : κ → κ → Prop} {k : κ} (h : Acc R k) : ¬R k k := by
  induction h with
  | intro k _ ih => exact fun hk => ih k hk hk

/-- Where nothing is related to itself or to what comes after it, no chain leads back to where it
began. -/
theorem not_transGen_of_pairwise {R : α → α → Prop} {l : List α} (hself : ∀ a ∈ l, ¬R a a)
    (hlater : l.Pairwise fun a b => ¬R a b) (a : α) :
    ¬Relation.TransGen (fun a b => a ∈ l ∧ b ∈ l ∧ R a b) a a := by
  induction l with
  | nil =>
      intro hloop
      obtain ⟨b, hab, -⟩ := Relation.TransGen.head'_iff.mp hloop
      exact List.not_mem_nil hab.1
  | cons x l ih =>
      obtain ⟨hx, hlater⟩ := List.pairwise_cons.mp hlater
      obtain ⟨hxx, hself⟩ := List.forall_mem_cons.mp hself
      -- nothing leads away from the first
      have hsource : ∀ b c, c ∈ x :: l → R b c → b ≠ x := by
        intro b c hc hbc hb
        subst hb
        rcases List.mem_cons.mp hc with rfl | hc
        · exact hxx hbc
        · exact hx c hc hbc
      have htail : ∀ b, b ∈ x :: l → b ≠ x → b ∈ l :=
        fun b hb hne => (List.mem_cons.mp hb).resolve_left hne
      have hchain : ∀ b c, c ≠ x →
          Relation.TransGen (fun a b => a ∈ x :: l ∧ b ∈ x :: l ∧ R a b) b c →
          Relation.TransGen (fun a b => a ∈ l ∧ b ∈ l ∧ R a b) b c := by
        intro b c hc h
        induction h with
        | single hbc =>
            exact .single ⟨htail b hbc.1 (hsource b _ hbc.2.1 hbc.2.2), htail _ hbc.2.1 hc, hbc.2.2⟩
        | tail _ hmc ihchain =>
            have hm := hsource _ _ hmc.2.1 hmc.2.2
            exact (ihchain hm).tail ⟨htail _ hmc.1 hm, htail _ hmc.2.1 hc, hmc.2.2⟩
      intro hloop
      obtain ⟨b, hab, -⟩ := Relation.TransGen.head'_iff.mp hloop
      exact ih hself hlater (hchain a a (hsource a b hab.2.1 hab.2.2) hloop)

/-! ### Each item once -/

section

variable {children : κ → List κ}

theorem count_flatMap_filter (c : κ) (keys : List κ) : (keys.flatMap children).count c =
    ((keys.filter fun p => c ∈ children p).flatMap children).count c := by
  induction keys with
  | nil => rfl
  | cons k keys ih =>
      rw [List.flatMap_cons, List.count_append, ih]
      by_cases hk : c ∈ children k
      · rw [List.filter_cons_of_pos (by simpa using hk), List.flatMap_cons, List.count_append]
      · rw [List.filter_cons_of_neg (by simpa using hk), List.count_eq_zero_of_not_mem hk,
          Nat.zero_add]

/-- Where parents come first, the references determine how often each key is there. -/
theorem perm_of_references (hwf : WellFounded fun p c => c ∈ children p) {roots keys keys' : List κ}
    (h : keys.Perm (roots ++ keys.flatMap children))
    (h' : keys'.Perm (roots ++ keys'.flatMap children)) : keys.Perm keys' := by
  apply List.perm_iff_count.mpr
  intro c
  induction c using hwf.induction with
  | _ c ih =>
      have hparents : (keys.filter fun p => c ∈ children p).Perm
          (keys'.filter fun p => c ∈ children p) := by
        apply List.perm_iff_count.mpr
        intro p
        by_cases hp : c ∈ children p
        · rw [List.count_filter (by simpa using hp), List.count_filter (by simpa using hp)]
          exact ih p hp
        · rw [List.count_eq_zero_of_not_mem (by simp [hp]),
            List.count_eq_zero_of_not_mem (by simp [hp])]
      rw [h.count_eq, h'.count_eq, List.count_append, List.count_append, count_flatMap_filter,
        count_flatMap_filter c keys', (hparents.flatMap_right children).count_eq]

end

/-- The copies of a key beside the first. -/
def repeats (keys : List κ) : List κ := keys.diff keys.dedup

theorem perm_dedup_append_repeats (keys : List κ) : (keys.dedup ++ repeats keys).Perm keys := by
  apply List.subperm_append_diff_self_of_count_le
  intro k _
  exact (List.dedup_sublist keys).count_le k

theorem count_repeats {k : κ} {keys : List κ} (h : k ∈ keys) :
    keys.count k = 1 + (repeats keys).count k := by
  have hone : keys.dedup.count k = 1 :=
    List.count_eq_one_of_mem (List.nodup_dedup keys) (List.mem_dedup.mpr h)
  rw [← (perm_dedup_append_repeats keys).count_eq, List.count_append, hone]

theorem parentsUnique_iff (hknown : ParentsKnown items key parent) :
    ParentsUnique items key parent ↔
      (repeats (items.map key)).flatMap (childKeys items key parent) = [] := by
  rw [List.flatMap_eq_nil_iff]
  constructor
  · intro h k hk
    by_contra hchildren
    have hcount := count_repeats (hknown.mem_keys hchildren)
    have hpos := List.count_pos_iff.mpr hk
    have hone := h k hchildren
    omega
  · intro h k hchildren
    rw [count_repeats (hknown.mem_keys hchildren), List.count_eq_zero_of_not_mem]
    exact fun hk => hchildren (h k hk)

/-- The keys that belong to two items have no children exactly if following the copies of a key
shows nothing more. -/
theorem perm_flatMap_iff (hknown : ParentsKnown items key parent) :
    ParentsUnique items key parent ↔ (items.map key).Perm (keysUnder items key parent none ++
      (items.map key).flatMap (childKeys items key parent)) := by
  have hparts := (perm_dedup_append_repeats (items.map key)).flatMap_right
    (childKeys items key parent)
  rw [List.flatMap_append] at hparts
  have honce := hknown.perm_dedup
  rw [parentsUnique_iff hknown]
  constructor
  · intro hnil
    rw [hnil, List.append_nil] at hparts
    exact honce.trans (hparts.append_left _)
  · intro hall
    have hlength := hparts.length_eq
    have honceLength := honce.length_eq
    have hallLength := hall.length_eq
    rw [List.length_append] at hlength honceLength hallLength
    apply List.eq_nil_of_length_eq_zero
    omega

/-- **Each item once.** Following the references from the roots comes to an end and shows every item
once, exactly if no chain of parents loops and no parent is two items. -/
theorem exists_perm_iff (hknown : ParentsKnown items key parent) :
    (∃ forest : Forest κ, forest.roots = keysUnder items key parent none ∧
      forest.Follows (childKeys items key parent) ∧ forest.preorder.Perm (items.map key)) ↔
    Loopless items key parent ∧ ParentsUnique items key parent := by
  rw [perm_flatMap_iff hknown]
  constructor
  · intro h
    obtain ⟨forest, hroots, hfollows, hperm⟩ := h
    constructor
    · intro k hk
      obtain ⟨p, hp, -⟩ := Relation.TransGen.head'_iff.mp hk
      have hmem := hperm.mem_iff.mpr (mem_keys_of_mem_childKeys hp)
      exact acc_irrefl (hfollows.acc k hmem).transGen hk
    · have hforest := hfollows.perm_preorder
      rw [hroots] at hforest
      exact hperm.symm.trans (hforest.trans (.append_left _ (hperm.flatMap_right _)))
  · intro h
    obtain ⟨hloopless, hitems⟩ := h
    have hacc : ∀ k ∈ keysUnder items key parent none,
        Acc (fun c p => c ∈ childKeys items key parent p) k :=
      fun k _ => hloopless.wellFounded_below.apply k
    obtain ⟨forest, hroots, hfollows⟩ := exists_follows hacc
    refine ⟨forest, hroots, hfollows, ?_⟩
    have hforest := hfollows.perm_preorder
    rw [hroots] at hforest
    exact perm_of_references (hloopless.wellFounded_above hknown) hforest hitems

/-! ### Copies -/

/-- Items with one key are copies, and what holds of copies holds of every item whose key is there
twice. -/
theorem pairwise_copies_iff {P : ι → Prop} :
    (items.Pairwise fun a b => key a = key b → a = b ∧ P a) ↔
      (∀ a ∈ items, ∀ b ∈ items, key a = key b → a = b) ∧
        ∀ a ∈ items, 2 ≤ (items.map key).count (key a) → P a := by
  induction items with
  | nil => simp
  | cons x items ih =>
      rw [List.pairwise_cons, ih, List.map_cons]
      constructor
      · intro h
        obtain ⟨hfirst, hsame, hcopies⟩ := h
        constructor
        · intro a ha b hb hkey
          rcases List.mem_cons.mp ha with rfl | hax
          · rcases List.mem_cons.mp hb with rfl | hbx
            · rfl
            · exact (hfirst b hbx hkey).1
          · rcases List.mem_cons.mp hb with rfl | hbx
            · exact (hfirst a hax hkey.symm).1.symm
            · exact hsame a hax b hbx hkey
        · intro a ha hcount
          have hx : ∀ b ∈ items, key x = key b → P x := fun b hb hkey => (hfirst b hb hkey).2
          rcases List.mem_cons.mp ha with rfl | ha
          · rw [List.count_cons_self] at hcount
            have hmem := List.count_pos_iff.mp (show 0 < (items.map key).count (key a) by omega)
            obtain ⟨b, hb, hkey⟩ := List.mem_map.mp hmem
            exact hx b hb hkey.symm
          · by_cases hkey : key x = key a
            · obtain ⟨rfl, hP⟩ := hfirst a ha hkey
              exact hP
            · rw [List.count_cons_of_ne hkey] at hcount
              exact hcopies a ha hcount
      · intro h
        obtain ⟨hsame, hcopies⟩ := h
        refine ⟨?_, ?_, ?_⟩
        · intro b hb hkey
          have hcount := List.count_pos_iff.mpr (List.mem_map_of_mem (f := key) hb)
          refine ⟨hsame x List.mem_cons_self b (List.mem_cons_of_mem _ hb) hkey, ?_⟩
          apply hcopies x List.mem_cons_self
          rw [List.count_cons_self, hkey]
          omega
        · intro a ha b hb
          exact hsame a (List.mem_cons_of_mem _ ha) b (List.mem_cons_of_mem _ hb)
        · intro a ha hcount
          apply hcopies a (List.mem_cons_of_mem _ ha)
          exact hcount.trans (List.sublist_cons_self _ _ |>.count_le _)

end Items

end Forest
