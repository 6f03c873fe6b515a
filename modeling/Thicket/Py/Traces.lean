import Thicket.Py.TraceTree

/-!
# What is shown of a trace

Following the references shows the later of two spans with one id twice, and a span whose parents
lead back to it hangs under itself and under no root. Where neither happens, every span is shown
once, under its parent. The collector answers for the spans that were reported for a trace, whatever
the order.
-/

namespace Thicket.Py.Collector

open Result Forest Walk

section

variable {spans done : List Value} {built : Built}

theorem map_map_eq_self {α β : Type} {f : α → β} {g : β → α} {items : List α}
    (h : ∀ a ∈ items, g (f a) = a) : (items.map f).map g = items := by
  rw [List.map_map]
  exact (List.map_congr_left h).trans (List.map_id _)

/-- What is linked refers to spans only. -/
theorem Linked.known (h : Linked spans done built) (hperm : done.Perm spans) {keys : Forest Key}
    (hroots : keys.roots = built.roots) (hfollows : keys.Follows built.children) :
    ∀ k ∈ keys.preorder, k ∈ spans.map idOf := by
  intro k hk
  apply (hperm.map idOf).mem_iff.mp
  rcases List.mem_append.mp (hfollows.perm_preorder.mem_iff.mp hk) with hroot | hchild
  · rw [hroots, h.roots] at hroot
    obtain ⟨s, hs, -, rfl⟩ := mem_keysUnder.mp hroot
    exact List.mem_map_of_mem hs
  · obtain ⟨p, -, hp⟩ := List.mem_flatMap.mp hchild
    rw [h.children] at hp
    exact mem_keys_of_mem_childKeys hp

/-- If what is shown is the spans, then no chain of parents is a loop and every id is that of one
span, copies of spans without children apart. -/
theorem coherent_of_shows {forest : Forest Value} (hbuild : buildTree spans = .ok built)
    (hshows : built.Shows forest) (honce : forest.preorder.Perm spans) : Coherent spans := by
  obtain ⟨keys, hroots, hfollows, rfl⟩ := hshows
  obtain ⟨hids, hstarts⟩ := of_buildTree hbuild
  obtain ⟨sorted, built', hbuild', hlinked, hperm, -⟩ := buildTree_ok hids hstarts
  obtain rfl := Except.ok.inj (hbuild.symm.trans hbuild')
  have hknown := hlinked.known hperm hroots hfollows
  have hid : ∀ k ∈ keys.preorder, idOf (built.span k) = k := by
    intro k hk
    obtain ⟨s, hs, rfl⟩ := List.mem_map.mp (hknown k hk)
    exact (hlinked.span hs).2
  rw [preorder_map] at honce
  -- every span is shown, so the node of its id has it
  have hspan : ∀ s ∈ spans, built.span (idOf s) = s := by
    intro s hs
    obtain ⟨k, hk, rfl⟩ := List.mem_map.mp (honce.mem_iff.mpr hs)
    rw [hid k hk]
  have hsame : ∀ a ∈ spans, ∀ b ∈ spans, idOf a = idOf b → a = b := by
    intro a ha b hb hab
    rw [← hspan a ha, hab, hspan b hb]
  have hpreorder : keys.preorder.Perm (sorted.map idOf) := by
    have hkeys := (honce.map idOf).trans (hperm.map idOf).symm
    rwa [map_map_eq_self hid] at hkeys
  rw [hlinked.roots] at hroots
  rw [hlinked.children] at hfollows
  obtain ⟨hloopless, hunique⟩ := (exists_perm_iff (parentsKnown hperm)).mp
    ⟨keys, hroots, hfollows, hpreorder⟩
  exact {
    ids := hids
    starts := hstarts
    copies := (copies_iff hids).mpr ⟨hsame, (parentsUnique_spans_iff hids hperm).mp hunique⟩
    acyclic := (loopless_spans_iff hids hperm hsame).mp hloopless }

theorem Assembles.coherent (h : Assembles spans) : Coherent spans := by
  obtain ⟨built, forest, hbuild, hshows, htree, -⟩ := h
  exact coherent_of_shows hbuild hshows htree.once

/-- The spans under a parent, in order. -/
theorem map_span_keysUnder (hspan : ∀ s ∈ done, built.span (idOf s) = s)
    (parent : Value → Option Key) (p : Option Key) :
    (keysUnder done idOf parent p).map built.span = done.filter fun s => parent s = p := by
  rw [keysUnder]
  apply map_map_eq_self
  intro s hs
  exact hspan s (List.mem_of_mem_filter hs)

theorem recurses_render (str : Value → String) (built : Built) :
    Recurses built.children fun n keys depth => render str built n keys depth := by
  intro keys hbelow depth
  apply Terminates.of_succ
  refine .bind (.mapM fun k hk => ?_) fun _ => terminates_pure _
  exact .bind (terminates_ofExcept _) fun _ => .bind (hbelow k hk _) fun _ => terminates_pure _

theorem recurses_encode (built : Built) :
    Recurses built.children fun n keys (_ : Unit) => encode built n keys := by
  intro keys hbelow _
  apply Terminates.of_succ
  refine .bind (terminates_ofExcept _) fun _ => ?_
  refine .bind (.mapM fun k hk => ?_) fun _ => terminates_pure _
  refine .bind (terminates_ofExcept _) fun _ => .bind (terminates_ofExcept _) fun _ => ?_
  refine .bind (terminates_ofExcept _) fun _ => ?_
  exact .bind (hbelow k hk ()) fun _ => terminates_pure _

/-- Where every node has the span of its id, a forest of all the keys is a trace tree. -/
theorem Linked.isTraceTree (h : Linked spans done built)
    (hids : ∀ s ∈ spans, (spanKey s).isOk = true ∧ (parentKey s).isOk = true)
    (hperm : done.Perm spans) (hsorted : done.Pairwise NotAfter)
    (hspan : ∀ s ∈ spans, built.span (idOf s) = s) {keys : Forest Key}
    (hroots : keys.roots = built.roots) (hfollows : keys.Follows built.children)
    (hpreorder : keys.preorder.Perm (done.map idOf)) :
    IsTraceTree spans (keys.map built.span) := by
  have hdone : ∀ s ∈ done, built.span (idOf s) = s := fun s hs => hspan s (hperm.mem_iff.mp hs)
  have hunder := map_span_keysUnder hdone (parentAmong spans)
  constructor
  · rw [preorder_map]
    have hall := hpreorder.map built.span
    rw [map_map_eq_self hdone] at hall
    exact hall.trans hperm
  · rw [roots_map, hroots, h.roots, hunder]
    exact hsorted.filter _
  · rw [families_map]
    intro family hfamily
    obtain ⟨keyed, hkeyed, rfl⟩ := List.mem_map.mp hfamily
    show (keyed.2.map built.span).Pairwise NotAfter
    rw [hfollows keyed hkeyed, h.children, childKeys, hunder]
    exact hsorted.filter _
  · intro child hchild parent hparent hnames _
    have hmem : idOf parent ∈ keys.preorder :=
      hpreorder.mem_iff.mpr ((hperm.map idOf).mem_iff.mpr (List.mem_map_of_mem hparent))
    rw [← map_fst_families] at hmem
    obtain ⟨family, hfamily, hkey⟩ := List.mem_map.mp hmem
    refine ⟨(built.span family.1, family.2.map built.span), ?_, ?_, ?_⟩
    · rw [families_map]
      exact List.mem_map_of_mem hfamily
    · rwa [hkey, hspan parent hparent]
    · rw [hfollows family hfamily, hkey, h.children, ← hspan child hchild]
      apply List.mem_map_of_mem
      have hunderParent : Under spans child parent := ⟨hchild, hparent, hnames⟩
      exact (mem_childKeys_iff hids hperm).mpr ⟨child, parent, hunderParent, rfl, rfl⟩

theorem Coherent.assembles (h : Coherent spans) : Assembles spans := by
  obtain ⟨sorted, built, hbuild, hlinked, hperm, hsorted⟩ := buildTree_ok h.ids h.starts
  obtain ⟨hsame, hcopies⟩ := (copies_iff h.ids).mp h.copies
  have hloopless := (loopless_spans_iff h.ids hperm hsame).mpr h.acyclic
  have hunique := (parentsUnique_spans_iff h.ids hperm).mpr hcopies
  obtain ⟨keys, hroots, hfollows, hpreorder⟩ :=
    (exists_perm_iff (parentsKnown hperm)).mpr ⟨hloopless, hunique⟩
  rw [← hlinked.roots] at hroots
  rw [← hlinked.children] at hfollows
  have hspan : ∀ s ∈ spans, built.span (idOf s) = s := by
    intro s hs
    obtain ⟨hmem, hid⟩ := hlinked.span hs
    exact hsame _ hmem s hs hid
  have htree := hlinked.isTraceTree h.ids hperm hsorted hspan hroots hfollows hpreorder
  refine ⟨built, keys.map built.span, hbuild, ⟨keys, hroots, hfollows, rfl⟩, htree, ?_, ?_⟩
  · intro str
    rw [← hroots]
    exact (recurses_render str built).terminates hfollows 0
  · rw [← hroots]
    exact (recurses_encode built).terminates hfollows ()

/-- **A trace is assembled exactly if its spans are coherent.** -/
theorem assembles_iff (spans : List Value) : Assembles spans ↔ Coherent spans :=
  ⟨Assembles.coherent, Coherent.assembles⟩

/-- A span that names itself is shown nowhere; of two spans with one id the first is not shown. -/
theorem not_assembles_self_parent_or_repeated :
    ¬Assembles [.dict [(.str "trace_id", .bytes [1]), (.str "span_id", .bytes [1]),
        (.str "parent_span_id", .bytes [1])]] ∧
      ¬Assembles [.dict [(.str "trace_id", .bytes [1]), (.str "span_id", .bytes [1]),
          (.str "name", .str "one")],
        .dict [(.str "trace_id", .bytes [1]), (.str "span_id", .bytes [1]),
          (.str "name", .str "two")]] := by
  constructor
  · intro h
    apply h.coherent.acyclic _
    exact .single ⟨List.mem_cons_self, List.mem_cons_self, .bytes [1], rfl, rfl⟩
  · intro h
    obtain ⟨hfirst, -⟩ := List.pairwise_cons.mp h.coherent.copies
    obtain ⟨hsame, -⟩ := hfirst _ List.mem_cons_self rfl
    simp at hsame

/-- Where every span is shown: at the top are those whose parent was not reported, and under a span
are those that name it. -/
theorem Coherent.families {forest : Forest Value} (h : Coherent spans)
    (hbuild : buildTree spans = .ok built) (hshows : built.Shows forest) :
    (∀ s, s ∈ forest.roots ↔ s ∈ spans ∧ ∀ p ∈ spans, ¬Names s p) ∧
      ∀ family ∈ forest.families, family.1 ∈ spans ∧
        ∀ s, s ∈ family.2 ↔ s ∈ spans ∧ Names s family.1 := by
  obtain ⟨keys, hroots, hfollows, rfl⟩ := hshows
  obtain ⟨sorted, built', hbuild', hlinked, hperm, -⟩ := buildTree_ok h.ids h.starts
  obtain rfl := Except.ok.inj (hbuild.symm.trans hbuild')
  obtain ⟨hsame, -⟩ := (copies_iff h.ids).mp h.copies
  have hspan : ∀ s ∈ spans, built.span (idOf s) = s := by
    intro s hs
    obtain ⟨hmem, hid⟩ := hlinked.span hs
    exact hsame _ hmem s hs hid
  have hsorted : ∀ s ∈ sorted, built.span (idOf s) = s := fun s hs => hspan s (hperm.mem_iff.mp hs)
  have hunder := map_span_keysUnder hsorted (parentAmong spans)
  constructor
  · intro s
    rw [roots_map, hroots, hlinked.roots, hunder, List.mem_filter, hperm.mem_iff,
      decide_eq_true_iff]
    apply and_congr_right
    intro hs
    rw [Option.eq_none_iff_forall_ne_some]
    constructor
    · intro hnone p hp hnames
      exact hnone _ ((parentAmong_eq_some h.ids hs).mpr ⟨p, hp, hnames, rfl⟩)
    · intro hnot k hk
      obtain ⟨p, hp, hnames, -⟩ := (parentAmong_eq_some h.ids hs).mp hk
      exact hnot p hp hnames
  · rw [families_map]
    intro family hfamily
    obtain ⟨keyed, hkeyed, rfl⟩ := List.mem_map.mp hfamily
    have hkey : keyed.1 ∈ keys.preorder := by
      rw [← map_fst_families]
      exact List.mem_map_of_mem hkeyed
    obtain ⟨p, hp, hid⟩ := List.mem_map.mp (hlinked.known hperm hroots hfollows _ hkey)
    dsimp only
    rw [hfollows keyed hkeyed, hlinked.children, childKeys, hunder, ← hid, hspan p hp]
    refine ⟨hp, fun s => ?_⟩
    rw [List.mem_filter, hperm.mem_iff, decide_eq_true_iff]
    apply and_congr_right
    intro hs
    rw [parentAmong_eq_some h.ids hs]
    constructor
    · intro hnamed
      obtain ⟨p', hp', hnames, hid⟩ := hnamed
      exact hsame p' hp' p hp hid ▸ hnames
    · intro hnames
      exact ⟨p, hp, hnames, rfl⟩

/-! ### The collector's replies -/

theorem Coherent.sublist {others : List Value} (h : Coherent spans)
    (hsub : others.Sublist spans) : Coherent others := by
  refine ⟨fun s hs => h.ids s (hsub.subset hs), h.starts.sublist hsub, ?_, ?_⟩
  · apply (h.copies.sublist hsub).imp
    intro a b hab hkey
    obtain ⟨rfl, hleaf⟩ := hab hkey
    exact ⟨rfl, fun c hc => hleaf c (hsub.subset hc)⟩
  · intro s hs
    apply h.acyclic s
    apply Relation.TransGen.mono _ s s hs
    intro child parent hunder
    obtain ⟨hchild, hparent, hnames⟩ := hunder
    exact ⟨hsub.subset hchild, hsub.subset hparent, hnames⟩

theorem Coherent.perm {others : List Value} (h : Coherent spans) (hperm : spans.Perm others) :
    Coherent others := by
  have hmem : ∀ s, s ∈ others ↔ s ∈ spans := fun s => hperm.mem_iff.symm
  constructor
  · intro s hs
    exact h.ids s ((hmem s).mp hs)
  · apply (hperm.pairwise_iff _).mp h.starts
    intro a b hab
    rwa [comparable_comm]
  · simp only [hmem]
    apply (hperm.pairwise_iff _).mp h.copies
    intro a b hab hkey
    obtain ⟨rfl, hleaf⟩ := hab hkey.symm
    exact ⟨rfl, hleaf⟩
  · intro s hs
    apply h.acyclic s
    apply Relation.TransGen.mono _ s s hs
    intro child parent hunder
    obtain ⟨hchild, hparent, hnames⟩ := hunder
    exact ⟨(hmem child).mp hchild, (hmem parent).mp hparent, hnames⟩

/-- The state after a report; one that raises leaves it as it was. -/
def collect (byTrace : ByTrace) (span : Value) : ByTrace := valueOr (report byTrace span) byTrace

/-- The spans among the reports that are for a trace. -/
def reportedFor (id : Key) (reports : List Value) : List Value :=
  reports.filter fun span => traceKey span = .ok id

theorem spansOf_collect (byTrace : ByTrace) (span : Value) (id : Key) :
    spansOf (collect byTrace span) id = spansOf byTrace id ++ reportedFor id [span] := by
  rw [collect, report, reportedFor]
  cases hkey : traceKey span with
  | error e =>
      rw [List.filter_cons_of_neg (by simp [hkey]), List.filter_nil, List.append_nil]
      rfl
  | ok k =>
      show spansOf (byTrace.put k (spansOf byTrace k ++ [span])) id = _
      rw [spansOf, OrderedDict.get?_put]
      by_cases hid : id = k
      · subst hid
        rw [if_pos rfl, List.filter_cons_of_pos (by simp [hkey])]
        rfl
      · rw [if_neg hid, List.filter_cons_of_neg (by simpa [hkey] using Ne.symm hid),
          List.filter_nil, List.append_nil]
        rfl

/-- What is stored for a trace is what was reported for it, in order. -/
theorem spansOf_foldl_collect (reports : List Value) (byTrace : ByTrace) (id : Key) :
    spansOf (reports.foldl collect byTrace) id = spansOf byTrace id ++ reportedFor id reports := by
  induction reports generalizing byTrace with
  | nil => exact (List.append_nil _).symm
  | cons span reports ih =>
      rw [List.foldl_cons, ih, spansOf_collect, List.append_assoc, reportedFor, reportedFor,
        ← List.filter_append]
      rfl

/-- A reply is linked from the spans of the trace, sorted. -/
theorem perm_of_trace {reports sorted : List Value} {req : Value} {id : Key}
    (hreq : traceKey req = .ok id)
    (hreply : trace (reports.foldl collect .empty) req = .ok (sorted, built)) :
    ∃ spans, spans.Perm (reportedFor id reports) ∧ buildTree spans = .ok built := by
  rw [trace, hreq, ok_bind, spansOf_foldl_collect] at hreply
  obtain ⟨spans, hsorted, hreply⟩ := bind_eq_ok.mp hreply
  obtain ⟨built', hbuild, hreply⟩ := bind_eq_ok.mp hreply
  obtain ⟨-, rfl⟩ := Prod.mk.inj (Except.ok.inj hreply)
  exact ⟨spans, perm_of_sortedBy hsorted, hbuild⟩

/-- Whatever was reported, the reply to a request shows every span of the trace once exactly if the
spans of the trace are coherent. -/
theorem trace_shows_iff (reports : List Value) {req : Value} {id : Key}
    (hreq : traceKey req = .ok id) :
    (∃ sorted built forest, trace (reports.foldl collect .empty) req = .ok (sorted, built) ∧
      built.Shows forest ∧ forest.preorder.Perm (reportedFor id reports)) ↔
    Coherent (reportedFor id reports) := by
  have hspans : spansOf (reports.foldl collect .empty) id = reportedFor id reports := by
    rw [spansOf_foldl_collect]
    rfl
  have htrace : trace (reports.foldl collect .empty) req = do
      let sorted ← sortedBy start (reportedFor id reports)
      return (sorted, ← buildTree sorted) := by
    rw [trace, hreq, ok_bind, hspans]
  rw [htrace]
  constructor
  · intro h
    obtain ⟨sorted, built, forest, hreply, hshows, honce⟩ := h
    obtain ⟨sorted', hsorted, hreply⟩ := bind_eq_ok.mp hreply
    obtain ⟨built', hbuild, hreply⟩ := bind_eq_ok.mp hreply
    cases hreply
    have hperm := perm_of_sortedBy hsorted
    exact (coherent_of_shows hbuild hshows (honce.trans hperm.symm)).perm hperm
  · intro h
    obtain ⟨sorted, hsorted⟩ : ∃ sorted, sortedBy start (reportedFor id reports) = .ok sorted := by
      rw [sortedBy_eq fun s hs => start_eq (h.ids s hs).1, if_pos h.starts]
      exact ⟨_, rfl⟩
    have hperm := perm_of_sortedBy hsorted
    obtain ⟨built, forest, hbuild, hshows, htree, -⟩ := (h.perm hperm.symm).assembles
    refine ⟨sorted, built, forest, ?_, hshows, htree.once.trans hperm⟩
    rw [hsorted, ok_bind, hbuild]
    rfl

end

end Thicket.Py.Collector
