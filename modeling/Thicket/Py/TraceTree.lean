import Thicket.Py.Collector

/-!
# Spans and the nodes they are linked into

`build_tree` makes a node for each id and puts the id of a span under that of its parent, in the
order of the starts. An id that two spans have is there twice but has one node, of the later span,
and the children of both.
-/

namespace Thicket.Py.Collector

open Cbor (Bytes)
open Result Forest Walk

/-! ### Spans -/

/-- The id that a span gives for its parent, as a key; the empty id is no parent's. -/
def parentKey (s : Value) : Except Exc (Option Key) := do
  let parentId ← s.get (.str "parent_span_id") (.bytes [])
  let k ← parentId.key
  return if parentId.eq (.bytes []) then none else some k

def idOf (s : Value) : Key := valueOr (spanKey s) .none

def parentOf (s : Value) : Option Key := valueOr (parentKey s) none

def startOf (s : Value) : Value := valueOr (start s) .none

/-- `child` gives the id of `parent` for its parent. -/
def Names (child parent : Value) : Prop :=
  ∃ k, parentKey child = .ok (some k) ∧ spanKey parent = .ok k

/-- Both were reported. -/
def Under (spans : List Value) (child parent : Value) : Prop :=
  child ∈ spans ∧ parent ∈ spans ∧ Names child parent

/-- The parents of a span lead back to it. -/
def OnCycle (spans : List Value) (s : Value) : Prop := Relation.TransGen (Under spans) s s

/-! ### Results -/

/-- Nothing that starts before `a` is `b`. -/
def NotAfter (a b : Value) : Prop := Value.lt (startOf b) (startOf a) ≠ .ok true

/-- Every span is in the forest once, siblings are in order, and a span is under its parent. -/
structure IsTraceTree (spans : List Value) (forest : Forest Value) : Prop where
  once : forest.preorder.Perm spans
  roots : forest.roots.Pairwise NotAfter
  siblings : ∀ family ∈ forest.families, family.2.Pairwise NotAfter
  hangs : ∀ child ∈ spans, ∀ parent ∈ spans, Names child parent → ¬OnCycle spans child →
    ∃ family ∈ forest.families, Names child family.1 ∧ child ∈ family.2

/-- Following the references from the roots comes to an end, with this forest of spans. -/
def Built.Shows (built : Built) (forest : Forest Value) : Prop :=
  ∃ keys : Forest Key, keys.roots = built.roots ∧ keys.Follows built.children ∧
    forest = keys.map built.span

/-- What `build_tree` is to do with the spans of a trace. -/
def Assembles (spans : List Value) : Prop :=
  ∃ built forest, buildTree spans = .ok built ∧ built.Shows forest ∧ IsTraceTree spans forest ∧
    (∀ str : Value → String, Terminates fun n => render str built n built.roots 0) ∧
    Terminates fun n => encode built n built.roots

/-- The spans have ids and starts that the code can work with, spans with one id are copies of one
that no span names as its parent, and no parents lead back to where they began. -/
structure Coherent (spans : List Value) : Prop where
  ids : ∀ s ∈ spans, (spanKey s).isOk = true ∧ (parentKey s).isOk = true
  starts : spans.Pairwise fun a b => comparable (startOf a) (startOf b) = true
  copies : spans.Pairwise fun a b => spanKey a = spanKey b → a = b ∧ ∀ c ∈ spans, ¬Names c a
  acyclic : ∀ s, ¬OnCycle spans s

/-! ### Linking -/

section

variable {spans : List Value}

/-- The parent of a span, if it is the id of one of the spans. -/
def parentAmong (spans : List Value) (s : Value) : Option Key :=
  (parentOf s).filter fun k => k ∈ spans.map idOf

theorem spanKey_eq {s : Value} (h : (spanKey s).isOk = true) : spanKey s = .ok (idOf s) :=
  eq_ok_valueOr h

theorem parentKey_eq {s : Value} (h : (parentKey s).isOk = true) : parentKey s = .ok (parentOf s) :=
  eq_ok_valueOr h

/-- Where there is an id there is a dictionary. -/
theorem start_eq {s : Value} (h : (spanKey s).isOk = true) : start s = .ok (startOf s) := by
  cases s with
  | dict entries => rfl
  | _ => cases h

def firstEntry (s : Value) : Key × Node := (idOf s, { span := s, children := [] })

def firstNodes (spans : List Value) : OrderedDict Key Node := .ofList (spans.map firstEntry)

theorem newNodes_eq (h : ∀ s ∈ spans, (spanKey s).isOk = true) :
    newNodes spans = .ok (firstNodes spans) := by
  have hkeyed : spans.mapM (fun s => do
      return (← spanKey s, ({ span := s, children := [] } : Node))) =
        (.ok (spans.map firstEntry) : Except Exc _) := by
    apply mapM_eq_ok
    intro s hs
    rw [spanKey_eq (h s hs)]
    rfl
  rw [newNodes, hkeyed]
  rfl

theorem isOk_of_newNodes {nodes : OrderedDict Key Node} (h : newNodes spans = .ok nodes) :
    ∀ s ∈ spans, (spanKey s).isOk = true := by
  obtain ⟨keyed, hkeyed, -⟩ := bind_eq_ok.mp h
  intro s hs
  obtain ⟨entry, hentry⟩ := ok_of_mapM hkeyed s hs
  obtain ⟨id, hid, -⟩ := bind_eq_ok.mp hentry
  rw [hid]
  rfl

theorem lookup_firstEntry (spans : List Value) (k : Key) :
    (k ∉ spans.map idOf ∧ (spans.map firstEntry).lookup k = none) ∨
      ∃ s ∈ spans, idOf s = k ∧ (spans.map firstEntry).lookup k = some ⟨s, []⟩ := by
  induction spans with
  | nil => exact .inl ⟨List.not_mem_nil, rfl⟩
  | cons s spans ih =>
      rw [List.map_cons, List.map_cons, firstEntry, List.lookup_cons]
      by_cases hk : k = idOf s
      · exact .inr ⟨s, List.mem_cons_self, hk.symm, by simp [hk]⟩
      · have hne : (k == idOf s) = false := beq_eq_false_iff_ne.mpr hk
        rw [hne]
        rcases ih with ⟨hnot, hnone⟩ | ⟨t, ht, hid, hsome⟩
        · exact .inl ⟨List.not_mem_cons_of_ne_of_not_mem hk hnot, hnone⟩
        · exact .inr ⟨t, List.mem_cons_of_mem _ ht, hid, hsome⟩

/-- The node of a key is that of a span with this id, without children. -/
theorem get?_firstNodes (spans : List Value) (k : Key) :
    (k ∉ spans.map idOf ∧ (firstNodes spans).get? k = none) ∨
      ∃ s ∈ spans, idOf s = k ∧ (firstNodes spans).get? k = some ⟨s, []⟩ := by
  have hlookup := lookup_firstEntry spans.reverse k
  simp only [List.map_reverse, List.mem_reverse] at hlookup
  rw [firstNodes, OrderedDict.get?_ofList]
  exact hlookup

/-- What is linked once the spans of `done` have been gone through. -/
structure Linked (spans done : List Value) (built : Built) : Prop where
  roots : built.roots = keysUnder done idOf (parentAmong spans) none
  nodes : ∀ k, built.nodes.get? k = ((firstNodes spans).get? k).map fun node =>
    { node with children := childKeys done idOf (parentAmong spans) k }

variable {done : List Value} {built : Built} {s : Value}

theorem linked_nil (spans : List Value) : Linked spans [] ⟨firstNodes spans, []⟩ := by
  refine ⟨rfl, fun k => ?_⟩
  rcases get?_firstNodes spans k with ⟨-, hnone⟩ | ⟨s, -, -, hsome⟩
  · rw [hnone]
    rfl
  · rw [hsome]
    rfl

theorem Linked.root (h : Linked spans done built) (hparent : parentAmong spans s = none) :
    Linked spans (done ++ [s]) { built with roots := built.roots ++ [idOf s] } := by
  constructor
  · rw [keysUnder_concat, if_pos hparent, ← h.roots]
  · intro k
    have hne : parentAmong spans s ≠ some k := by simp [hparent]
    rw [childKeys, keysUnder_concat, if_neg hne, List.append_nil]
    exact h.nodes k

theorem Linked.child (h : Linked spans done built) {p : Key} {parent : Node}
    (hparent : parentAmong spans s = some p) (hp : built.nodes.get? p = some parent) :
    Linked spans (done ++ [s]) { built with
      nodes := built.nodes.put p { parent with children := parent.children ++ [idOf s] } } := by
  constructor
  · rw [keysUnder_concat, if_neg (by simp [hparent]), List.append_nil]
    exact h.roots
  · intro k
    rw [OrderedDict.get?_put, childKeys, keysUnder_concat, hparent]
    by_cases hk : k = p
    · subst hk
      have hnode := h.nodes k
      rw [hp] at hnode
      obtain ⟨first, hfirst, rfl⟩ := Option.map_eq_some_iff.mp hnode.symm
      rw [if_pos rfl, if_pos rfl, hfirst]
      rfl
    · rw [if_neg hk, if_neg (fun hpk => hk (Option.some.inj hpk).symm), List.append_nil]
      exact h.nodes k

/-- One turn of the loop links one span. -/
theorem Linked.link (h : Linked spans done built) (hs : s ∈ spans)
    (hid : (spanKey s).isOk = true) (hparent : (parentKey s).isOk = true) :
    ∃ built', link built s = .ok built' ∧ Linked spans (done ++ [s]) built' := by
  have hof := parentKey_eq hparent
  obtain ⟨parentId, hget, hof⟩ := bind_eq_ok.mp hof
  obtain ⟨k, hkey, hof⟩ := bind_eq_ok.mp hof
  rw [pure_eq_ok] at hof
  have hnode : ∃ node, built.nodes.get? (idOf s) = some node := by
    rw [h.nodes]
    rcases get?_firstNodes spans (idOf s) with ⟨hnot, -⟩ | ⟨t, -, -, hsome⟩
    · exact absurd (List.mem_map_of_mem hs) hnot
    · rw [hsome]
      exact ⟨_, rfl⟩
  obtain ⟨node, hnode⟩ := hnode
  simp only [Collector.link, spanKey_eq hid, hnode, hget, hkey, okOr, ok_bind]
  by_cases hempty : parentId.eq (.bytes []) = true
  · -- the empty id is no parent, even if it is the id of a span
    rw [if_pos hempty] at hof
    have hroot : parentAmong spans s = none := by rw [parentAmong, ← hof, Option.filter_none]
    refine ⟨_, ?_, h.root hroot⟩
    simp only [if_pos hempty]
    split <;> rfl
  rw [if_neg hempty] at hof
  simp only [if_neg hempty]
  rcases get?_firstNodes spans k with ⟨hnot, hnone⟩ | ⟨t, ht, hk, hsome⟩
  · have hroot : parentAmong spans s = none := by
      rw [parentAmong, ← hof]
      simpa using hnot
    have hget : built.nodes.get? k = none := by
      rw [h.nodes, hnone]
      rfl
    refine ⟨_, ?_, h.root hroot⟩
    rw [hget]
    rfl
  · have hchild : parentAmong spans s = some k := by
      rw [parentAmong, ← hof]
      simpa using ⟨t, ht, hk⟩
    have hget := h.nodes k
    rw [hsome] at hget
    refine ⟨_, ?_, h.child hchild hget⟩
    rw [hget]
    rfl

/-- The loop links the spans one after the other. -/
theorem Linked.run {rest : List Value} (h : Linked spans done built)
    (hrest : ∀ s ∈ rest, s ∈ spans ∧ (spanKey s).isOk = true ∧ (parentKey s).isOk = true) :
    ∃ built', rest.foldlM Collector.link built = .ok built' ∧
      Linked spans (done ++ rest) built' := by
  induction rest generalizing done built with
  | nil =>
      rw [List.append_nil]
      exact ⟨built, rfl, h⟩
  | cons s rest ih =>
      obtain ⟨⟨hs, hid, hparent⟩, hrest⟩ := List.forall_mem_cons.mp hrest
      obtain ⟨built', hlink, hlinked⟩ := h.link hs hid hparent
      obtain ⟨last, hlast, hall⟩ := ih hlinked hrest
      rw [List.append_assoc] at hall
      refine ⟨last, ?_, hall⟩
      rw [List.foldlM_cons, hlink]
      exact hlast

theorem isOk_of_link {built' : Built} (h : Collector.link built s = .ok built') :
    (parentKey s).isOk = true := by
  obtain ⟨id, -, h⟩ := bind_eq_ok.mp h
  obtain ⟨node, -, h⟩ := bind_eq_ok.mp h
  obtain ⟨parentId, hget, h⟩ := bind_eq_ok.mp h
  obtain ⟨k, hkey, -⟩ := bind_eq_ok.mp h
  rw [parentKey, hget, ok_bind, hkey]
  rfl

theorem isOk_of_run {rest : List Value} {built' : Built}
    (h : rest.foldlM Collector.link built = .ok built') :
    ∀ s ∈ rest, (parentKey s).isOk = true := by
  induction rest generalizing built with
  | nil => exact List.forall_mem_nil _
  | cons s rest ih =>
      rw [List.foldlM_cons] at h
      obtain ⟨next, hlink, hrest⟩ := bind_eq_ok.mp h
      exact List.forall_mem_cons.mpr ⟨isOk_of_link hlink, ih hrest⟩

/-- What is assembled from spans that can be read and sorted. -/
theorem buildTree_ok
    (hids : ∀ s ∈ spans, (spanKey s).isOk = true ∧ (parentKey s).isOk = true)
    (hstarts : spans.Pairwise fun a b => comparable (startOf a) (startOf b) = true) :
    ∃ sorted built, buildTree spans = .ok built ∧ Linked spans sorted built ∧
      sorted.Perm spans ∧ sorted.Pairwise NotAfter := by
  have hstart : ∀ s ∈ spans, start s = .ok (startOf s) := fun s hs => start_eq (hids s hs).1
  let sorted := spans.mergeSort fun a b => !valueOr (Value.lt (startOf b) (startOf a)) false
  have hperm : sorted.Perm spans := List.mergeSort_perm _ _
  have hrest : ∀ s ∈ sorted, s ∈ spans ∧ (spanKey s).isOk = true ∧ (parentKey s).isOk = true := by
    intro s hs
    have hmem := hperm.mem_iff.mp hs
    exact ⟨hmem, hids s hmem⟩
  obtain ⟨built, hrun, hlinked⟩ := (linked_nil spans).run hrest
  refine ⟨sorted, built, ?_, hlinked, hperm, pairwise_mergeSort_lt hstarts⟩
  rw [buildTree, newNodes_eq fun s hs => (hids s hs).1, sortedBy_eq hstart, if_pos hstarts]
  exact hrun

theorem of_buildTree (h : buildTree spans = .ok built) :
    (∀ s ∈ spans, (spanKey s).isOk = true ∧ (parentKey s).isOk = true) ∧
      spans.Pairwise fun a b => comparable (startOf a) (startOf b) = true := by
  obtain ⟨nodes, hnodes, h⟩ := bind_eq_ok.mp h
  obtain ⟨sorted, hsorted, hrun⟩ := bind_eq_ok.mp h
  have hids := isOk_of_newNodes hnodes
  rw [sortedBy_eq fun s hs => start_eq (hids s hs)] at hsorted
  split_ifs at hsorted with hstarts
  obtain rfl := Except.ok.inj hsorted
  refine ⟨?_, hstarts⟩
  intro s hs
  exact ⟨hids s hs, isOk_of_run hrun s (List.mem_mergeSort.mpr hs)⟩

/-! ### What is linked -/

theorem Linked.span (h : Linked spans done built) (hs : s ∈ spans) :
    built.span (idOf s) ∈ spans ∧ idOf (built.span (idOf s)) = idOf s := by
  rw [Built.span, Built.node, h.nodes]
  rcases get?_firstNodes spans (idOf s) with ⟨hnot, -⟩ | ⟨t, ht, hid, hsome⟩
  · exact absurd (List.mem_map_of_mem hs) hnot
  · rw [hsome]
    exact ⟨ht, hid⟩

theorem mem_of_parentAmong {k : Key} (h : parentAmong spans s = some k) : k ∈ spans.map idOf := by
  simpa using (Option.filter_eq_some_iff.mp h).2

theorem Linked.children (h : Linked spans done built) :
    built.children = childKeys done idOf (parentAmong spans) := by
  funext k
  rw [Built.children, Built.node, h.nodes]
  rcases get?_firstNodes spans k with ⟨hnot, hnone⟩ | ⟨t, -, -, hsome⟩
  · rw [hnone]
    symm
    apply List.eq_nil_iff_forall_not_mem.mpr
    intro c hc
    obtain ⟨s, -, hparent, -⟩ := mem_keysUnder.mp hc
    exact hnot (mem_of_parentAmong hparent)
  · rw [hsome]
    rfl

theorem names_iff (hchild : (parentKey s).isOk = true) {parent : Value}
    (hparent : (spanKey parent).isOk = true) :
    Names s parent ↔ parentOf s = some (idOf parent) := by
  unfold Names
  rw [parentKey_eq hchild, spanKey_eq hparent]
  constructor
  · intro h
    obtain ⟨k, hk, hid⟩ := h
    rw [Except.ok.inj hk, Except.ok.inj hid]
  · intro h
    exact ⟨idOf parent, congrArg _ h, rfl⟩

/-- The parent that a span is linked under is one that it names. -/
theorem parentAmong_eq_some
    (hids : ∀ s ∈ spans, (spanKey s).isOk = true ∧ (parentKey s).isOk = true) (hs : s ∈ spans)
    {k : Key} : parentAmong spans s = some k ↔
      ∃ parent ∈ spans, Names s parent ∧ idOf parent = k := by
  rw [parentAmong, Option.filter_eq_some_iff, decide_eq_true_iff, List.mem_map]
  constructor
  · intro h
    obtain ⟨hk, parent, hparent, rfl⟩ := h
    exact ⟨parent, hparent, (names_iff (hids s hs).2 (hids parent hparent).1).mpr hk, rfl⟩
  · intro h
    obtain ⟨parent, hparent, hnames, rfl⟩ := h
    exact ⟨(names_iff (hids s hs).2 (hids parent hparent).1).mp hnames, parent, hparent, rfl⟩

theorem parentsKnown (hperm : done.Perm spans) :
    ParentsKnown done idOf (parentAmong spans) := by
  intro s _ k hk
  exact (hperm.map idOf).mem_iff.mpr (mem_of_parentAmong hk)

section Spans

variable (hids : ∀ s ∈ spans, (spanKey s).isOk = true ∧ (parentKey s).isOk = true)
  (hperm : done.Perm spans)

include hids hperm

theorem mem_childKeys_iff {c p : Key} : c ∈ childKeys done idOf (parentAmong spans) p ↔
    ∃ child parent, Under spans child parent ∧ idOf child = c ∧ idOf parent = p := by
  rw [childKeys, mem_keysUnder]
  constructor
  · intro h
    obtain ⟨child, hchild, hnamed, hc⟩ := h
    have hmem := hperm.mem_iff.mp hchild
    obtain ⟨parent, hparent, hnames, hp⟩ := (parentAmong_eq_some hids hmem).mp hnamed
    exact ⟨child, parent, ⟨hmem, hparent, hnames⟩, hc, hp⟩
  · intro h
    obtain ⟨child, parent, ⟨hchild, hparent, hnames⟩, hc, hp⟩ := h
    have hnamed := (parentAmong_eq_some hids hchild).mpr ⟨parent, hparent, hnames, hp⟩
    exact ⟨child, hperm.mem_iff.mpr hchild, hnamed, hc⟩

/-- Only spans that no span names may be there twice. -/
theorem parentsUnique_spans_iff : ParentsUnique done idOf (parentAmong spans) ↔
    ∀ s ∈ spans, 2 ≤ (spans.map idOf).count (idOf s) → ∀ c ∈ spans, ¬Names c s := by
  have hcount : ∀ k, (done.map idOf).count k = (spans.map idOf).count k :=
    fun k => (hperm.map idOf).count_eq k
  constructor
  · intro h s hs htwice c hc hnames
    have hchild := (mem_childKeys_iff hids hperm).mpr ⟨c, s, ⟨hc, hs, hnames⟩, rfl, rfl⟩
    have hone := h (idOf s) (List.ne_nil_of_mem hchild)
    rw [hcount] at hone
    omega
  · intro h k hk
    obtain ⟨c, hc⟩ := List.exists_mem_of_ne_nil _ hk
    obtain ⟨child, parent, ⟨hchild, hparent, hnames⟩, -, rfl⟩ :=
      (mem_childKeys_iff hids hperm).mp hc
    have hpos := List.count_pos_iff.mpr (List.mem_map_of_mem (f := idOf) hparent)
    have honce : ¬2 ≤ (spans.map idOf).count (idOf parent) :=
      fun htwice => h parent hparent htwice child hchild hnames
    rw [hcount]
    omega

/-- The chains of keys are those of the spans, if a key is that of one span. -/
theorem loopless_spans_iff (hsame : ∀ a ∈ spans, ∀ b ∈ spans, idOf a = idOf b → a = b) :
    Loopless done idOf (parentAmong spans) ↔ ∀ s, ¬OnCycle spans s := by
  constructor
  · intro h s hs
    have hkeys : ∀ child parent, Under spans child parent →
        idOf child ∈ childKeys done idOf (parentAmong spans) (idOf parent) :=
      fun child parent hunder =>
        (mem_childKeys_iff hids hperm).mpr ⟨child, parent, hunder, rfl, rfl⟩
    exact h (idOf s) (Relation.TransGen.lift idOf hkeys s s hs)
  · intro h k hk
    have hspans : ∀ p, Relation.TransGen
        (fun c p => c ∈ childKeys done idOf (parentAmong spans) p) k p →
        ∃ child ∈ spans, ∃ parent ∈ spans, idOf child = k ∧ idOf parent = p ∧
          Relation.TransGen (Under spans) child parent := by
      intro p hp
      induction hp with
      | single hlast =>
          obtain ⟨child, parent, hunder, hc, hp⟩ := (mem_childKeys_iff hids hperm).mp hlast
          exact ⟨child, hunder.1, parent, hunder.2.1, hc, hp, .single hunder⟩
      | tail _ hlast ih =>
          obtain ⟨child, hchild, middle, hmiddle, hc, hm, hchain⟩ := ih
          obtain ⟨middle', parent, hunder, hm', hp⟩ := (mem_childKeys_iff hids hperm).mp hlast
          obtain rfl := hsame middle hmiddle middle' hunder.1 (hm.trans hm'.symm)
          exact ⟨child, hchild, parent, hunder.2.1, hc, hp, hchain.tail hunder⟩
    obtain ⟨child, hchild, parent, hparent, hc, hp, hchain⟩ := hspans k hk
    obtain rfl := hsame child hchild parent hparent (hc.trans hp.symm)
    exact h child hchain

end Spans

theorem copies_iff (hids : ∀ s ∈ spans, (spanKey s).isOk = true ∧ (parentKey s).isOk = true) :
    spans.Pairwise (fun a b => spanKey a = spanKey b → a = b ∧ ∀ c ∈ spans, ¬Names c a) ↔
      (∀ a ∈ spans, ∀ b ∈ spans, idOf a = idOf b → a = b) ∧
        ∀ s ∈ spans, 2 ≤ (spans.map idOf).count (idOf s) → ∀ c ∈ spans, ¬Names c s := by
  rw [← pairwise_copies_iff]
  apply List.Pairwise.iff_of_mem
  intro a b ha hb
  rw [spanKey_eq (hids a ha).1, spanKey_eq (hids b hb).1, Except.ok.injEq]

end

end Thicket.Py.Collector
