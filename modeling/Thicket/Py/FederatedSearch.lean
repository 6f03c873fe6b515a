import Thicket.Py.CoreValues
import Thicket.Py.Decode
import Thicket.Py.Demux
import Thicket.Py.Grant
import Mathlib.Data.List.Induction

/-!
# Searching in the federated directory of the Python SDK

`FederatedDirectory.search` asks all directories at once, leaves out those that raise, and goes
round-robin through what the others answer: the first record of an id that verifies is merged. A
directory answers whatever its reply decodes to, and what that raises when it is looked at is not
caught.
-/

namespace Thicket.Py

open Cbor (Bytes)
open Result

/-! ### A directory -/

/-- What comes of a call on a directory's connection: the payload of the response, or a lost
connection or a timeout. -/
inductive DirectoryReply where
  | raises (e : Exc)
  | answers (payload : Payload)

/-- What `DirectoryClient._call` raises. -/
inductive CallError where
  | directoryError
  | other (e : Exc)

namespace DirectoryReply

/-- `DirectoryClient._call` -/
def body : DirectoryReply → Except CallError Value
  | .raises e => .error (.other e)
  | .answers payload =>
      if (payload.getD "typ" .none).eq (.str "Error") then
        match ((payload.getD "error" .none).orElse (.dict [])).get (.str "message") .none with
        | .ok _ => .error .directoryError
        | .error e => .error (.other e)
      else .ok (payload.getD "body" (.bytes []))

variable (foreign : Value → Except Exc Value)

/-- `cbor.decode` of a body. What it makes of one that is not a byte string is `foreign`. -/
def readBody : Value → Except Exc Value
  | .bytes body => decode body
  | body => foreign body

/-- `DirectoryClient.search`, as far as it returns. -/
def searched (self : DirectoryReply) : Option Value :=
  match self.body with
  | .ok body => (readBody foreign body).toOption
  | .error _ => none

/-- `DirectoryClient.resolve` -/
def resolved (self : DirectoryReply) : Except Exc Value :=
  match self.body with
  | .ok body => readBody foreign body
  | .error .directoryError => .ok .none
  | .error (.other e) => .error e

end DirectoryReply

/-! ### The merge -/

/-- `zip_longest(*lists)` -/
def zipLongest (lists : List (List Value)) : List (List Value) :=
  (List.range ((lists.map List.length).max?.getD 0)).map fun i =>
    lists.map fun list => list[i]?.getD .none

/-- The ids that were seen, and the records that were merged. -/
structure Merge where
  seen : List Value
  merged : List Value

section

variable (crypto : Crypto)

/-- The body of the inner loop of `FederatedDirectory.search`. -/
def Merge.take (now : Int) (self : Merge) (rec : Value) : Except Exc Merge :=
  match rec with
  | .none => .ok self
  | rec => do
      let rid ← recordId rec
      if ← rid.isIn self.seen then return self
      if !(← verifyRecord crypto rec now) then return self
      return { seen := self.seen ++ [rid], merged := self.merged ++ [rec] }

/-- What is merged of the answers, before it is cut off. -/
def mergeLists (now : Int) (lists : List (List Value)) : Except Exc (List Value) := do
  let merge ← (zipLongest lists).foldlM
    (fun merge tier => tier.foldlM (Merge.take crypto now) merge) { seen := [], merged := [] }
  return merge.merged

/-- `FederatedDirectory.search` at the time that `unix_now()` gives. -/
def federatedSearch (foreign : Value → Except Exc Value) (replies : List DirectoryReply) (now : Int)
    (topK : Nat) : Except Exc (List Value) := do
  let perPeer := replies.filterMap (DirectoryReply.searched foreign)
  let merged ← mergeLists crypto now (← perPeer.mapM Value.iter)
  return merged.take topK

end

/-! ### Round-robin -/

/-- The items in the order of a round-robin through the lists. -/
def roundRobin {α : Type} (lists : List (List α)) : List α :=
  (List.range ((lists.map List.length).max?.getD 0)).flatMap fun i =>
    lists.filterMap fun list => list[i]?

section

variable {α : Type} {lists : List (List α)} {list : List α} {a : α}

theorem length_le_longest (h : list ∈ lists) :
    list.length ≤ (lists.map List.length).max?.getD 0 :=
  List.le_max?_getD_of_mem (List.mem_map_of_mem h)

theorem mem_roundRobin : a ∈ roundRobin lists ↔ ∃ list ∈ lists, a ∈ list := by
  simp only [roundRobin, List.mem_flatMap, List.mem_filterMap, List.mem_range]
  constructor
  · intro ⟨i, _, list, hlist, hget⟩
    exact ⟨list, hlist, List.mem_of_getElem? hget⟩
  · intro ⟨list, hlist, ha⟩
    obtain ⟨i, hi⟩ := List.mem_iff_getElem?.mp ha
    have hlt := (List.getElem?_eq_some_iff.mp hi).1
    exact ⟨i, lt_of_lt_of_le hlt (length_le_longest hlist), list, hlist, hi⟩

theorem roundRobin_map {β : Type} (f : α → β) (lists : List (List α)) :
    roundRobin (lists.map fun list => list.map f) = (roundRobin lists).map f := by
  simp only [roundRobin, List.map_map, Function.comp_def, List.length_map, List.map_flatMap,
    List.map_filterMap, List.filterMap_map, List.getElem?_map]

end

theorem foldlM_flatMap {α β σ : Type} (step : σ → β → Except Exc σ) (f : α → List β)
    (items : List α) (s : σ) :
    (items.flatMap f).foldlM step s = items.foldlM (fun s a => (f a).foldlM step s) s := by
  induction items generalizing s with
  | nil => rfl
  | cons a items ih =>
      rw [List.flatMap_cons, List.foldlM_append, List.foldlM_cons]
      apply bind_congr
      intro s
      exact ih s

variable {crypto : Crypto} {now : Int} {before items after : List Value} {merge next : Merge}
  {rec rid : Value}

/-- What fills up a tier is passed over. -/
theorem mergeLists_eq (lists : List (List Value)) : mergeLists crypto now lists =
    Merge.merged <$>
      (roundRobin lists).foldlM (Merge.take crypto now) { seen := [], merged := [] } := by
  have htier : ∀ (i : Nat) (merge : Merge), (lists.map fun list => list[i]?.getD .none).foldlM
      (Merge.take crypto now) merge =
        (lists.filterMap fun list => list[i]?).foldlM (Merge.take crypto now) merge := by
    intro i merge
    rw [List.foldlM_map, List.foldlM_filterMap]
    congr 1
    funext merge list
    cases list[i]? <;> rfl
  rw [mergeLists, zipLongest, roundRobin, foldlM_flatMap, List.foldlM_map]
  simp only [htier]
  rfl

/-! ### What is merged -/

variable (crypto now) in
def Verified (rec : Value) : Prop := verifyRecord crypto rec now = .ok true

variable (crypto now) in
/-- An item can be looked at after those before it: it is `None`, or it has an id that can be looked
up and either that was seen or the verification of the record returns. -/
def Legible (before : List Value) (rec : Value) : Prop :=
  rec = .none ∨ ∃ rid, recordId rec = .ok rid ∧ rid.isHashable = true ∧
    ((∃ b ∈ before, Verified crypto now b ∧ recordId b = .ok rid) ∨
      ∃ verdict, verifyRecord crypto rec now = .ok verdict)

variable (crypto now) in
/-- Of what came before, the first record of each id that verifies is merged, and the ids of these
are seen. -/
structure Merging (before : List Value) (merge : Merge) : Prop where
  seen_iff : ∀ rid, rid ∈ merge.seen ↔ ∃ b ∈ before, Verified crypto now b ∧ recordId b = .ok rid
  found : ∀ b ∈ before, Verified crypto now b → ∃ kept ∈ merge.merged, recordId kept = recordId b
  first : ∀ kept ∈ merge.merged, ∃ front rear, before = front ++ kept :: rear ∧
    Verified crypto now kept ∧ ∀ b ∈ front, Verified crypto now b → recordId b ≠ recordId kept

theorem bytes_eq_iff {value : Value} {bs : Bytes} :
    (Value.bytes bs).eq value = true ↔ value = .bytes bs := by
  cases value with
  | bytes other =>
      rw [eq_bytes, decide_eq_true_iff, Value.bytes.injEq]
      exact eq_comm
  | _ => exact iff_of_false (by simp [Value.eq]) (by simp)

/-- Whatever verifies has a byte string as its id. -/
theorem Verified.recordId_eq (h : Verified crypto now rec) :
    ∃ id : Bytes, recordId rec = .ok (.bytes id) := by
  obtain ⟨payload, hpayload, h⟩ := bind_eq_ok.mp h
  obtain ⟨id, hid, h⟩ := bind_eq_ok.mp h
  obtain ⟨root, -, h⟩ := bind_eq_ok.mp h
  obtain ⟨expected, -, h⟩ := bind_eq_ok.mp h
  obtain ⟨hbinds, -⟩ := returnFalse_iff.mp h
  refine ⟨expected, ?_⟩
  rw [recordId, hpayload]
  exact hid.trans (congrArg Except.ok (eq_bytes_iff.mp (by simpa using hbinds)))

theorem Merging.isIn_seen (h : Merging crypto now before merge) (hhash : rid.isHashable = true) :
    ∃ isSeen, rid.isIn merge.seen = .ok isSeen ∧ (isSeen = true ↔ rid ∈ merge.seen) := by
  refine ⟨_, by rw [Value.isIn, if_pos hhash], ?_⟩
  rw [List.any_eq_true]
  constructor
  · intro ⟨item, hitem, heq⟩
    obtain ⟨b, -, hverified, hid⟩ := (h.seen_iff item).mp hitem
    obtain ⟨id, hbytes⟩ := hverified.recordId_eq
    obtain rfl : Value.bytes id = item := Except.ok.inj (hbytes.symm.trans hid)
    rw [bytes_eq_iff.mp heq]
    exact hitem
  · intro hmem
    obtain ⟨b, -, hverified, hid⟩ := (h.seen_iff rid).mp hmem
    obtain ⟨id, hbytes⟩ := hverified.recordId_eq
    obtain rfl : Value.bytes id = rid := Except.ok.inj (hbytes.symm.trans hid)
    exact ⟨_, hmem, bytes_eq_iff.mpr rfl⟩

/-- An item that does not verify, or whose id was seen, changes nothing. -/
theorem Merging.skip (h : Merging crypto now before merge)
    (hskip : Verified crypto now rec → ∃ rid ∈ merge.seen, recordId rec = .ok rid) :
    Merging crypto now (before ++ [rec]) merge := by
  refine ⟨?_, ?_, ?_⟩
  · intro rid
    rw [h.seen_iff]
    constructor
    · intro ⟨b, hb, hverified⟩
      exact ⟨b, List.mem_append_left _ hb, hverified⟩
    · intro ⟨b, hb, hverified, hid⟩
      rcases List.mem_append.mp hb with hb | hb
      · exact ⟨b, hb, hverified, hid⟩
      · obtain rfl := List.mem_singleton.mp hb
        obtain ⟨rid', hseen, hid'⟩ := hskip hverified
        obtain rfl : rid' = rid := Except.ok.inj (hid'.symm.trans hid)
        exact (h.seen_iff _).mp hseen
  · intro b hb hverified
    rcases List.mem_append.mp hb with hb | hb
    · exact h.found b hb hverified
    · obtain rfl := List.mem_singleton.mp hb
      obtain ⟨rid, hseen, hid⟩ := hskip hverified
      obtain ⟨b', hb', hverified', hid'⟩ := (h.seen_iff rid).mp hseen
      obtain ⟨kept, hkept, hsame⟩ := h.found b' hb' hverified'
      exact ⟨kept, hkept, hsame.trans (hid'.trans hid.symm)⟩
  · intro kept hkept
    obtain ⟨front, rear, hbefore, hfirst⟩ := h.first kept hkept
    refine ⟨front, rear ++ [rec], ?_, hfirst⟩
    rw [hbefore, List.append_assoc, List.cons_append]

/-- The first record of an id that verifies is merged. -/
theorem Merging.add (h : Merging crypto now before merge) (hverified : Verified crypto now rec)
    (hid : recordId rec = .ok rid) (hnew : rid ∉ merge.seen) : Merging crypto now (before ++ [rec])
      { seen := merge.seen ++ [rid], merged := merge.merged ++ [rec] } := by
  refine ⟨?_, ?_, ?_⟩
  · intro rid'
    rw [List.mem_append, h.seen_iff, List.mem_singleton]
    constructor
    · intro hmem
      rcases hmem with ⟨b, hb, hverified⟩ | rfl
      · exact ⟨b, List.mem_append_left _ hb, hverified⟩
      · exact ⟨rec, List.mem_append_right _ List.mem_cons_self, hverified, hid⟩
    · intro ⟨b, hb, hverified, hid'⟩
      rcases List.mem_append.mp hb with hb | hb
      · exact .inl ⟨b, hb, hverified, hid'⟩
      · rw [List.mem_singleton.mp hb] at hid'
        exact .inr (Except.ok.inj (hid'.symm.trans hid))
  · intro b hb hverified
    rcases List.mem_append.mp hb with hb | hb
    · obtain ⟨kept, hkept, hsame⟩ := h.found b hb hverified
      exact ⟨kept, List.mem_append_left _ hkept, hsame⟩
    · rw [List.mem_singleton.mp hb]
      exact ⟨rec, List.mem_append_right _ List.mem_cons_self, rfl⟩
  · intro kept hkept
    rcases List.mem_append.mp hkept with hkept | hkept
    · obtain ⟨front, rear, hbefore, hfirst⟩ := h.first kept hkept
      refine ⟨front, rear ++ [rec], ?_, hfirst⟩
      rw [hbefore, List.append_assoc, List.cons_append]
    · rw [List.mem_singleton.mp hkept]
      refine ⟨before, [], rfl, hverified, ?_⟩
      intro b hb hverified' hsame
      exact hnew ((h.seen_iff rid).mpr ⟨b, hb, hverified', hsame.trans hid⟩)

theorem take_eq (merge : Merge) (hrec : rec ≠ .none) : Merge.take crypto now merge rec = (do
    let rid ← recordId rec
    if ← rid.isIn merge.seen then return merge
    if !(← verifyRecord crypto rec now) then return merge
    return { seen := merge.seen ++ [rid], merged := merge.merged ++ [rec] }) := by
  cases rec with
  | none => exact absurd rfl hrec
  | _ => rfl

theorem merging_step (h : Merging crypto now before merge) (rec : Value) :
    (∃ next, Merge.take crypto now merge rec = .ok next ∧
      Merging crypto now (before ++ [rec]) next ∧ Legible crypto now before rec) ∨
    (∃ e, Merge.take crypto now merge rec = .error e) ∧ ¬Legible crypto now before rec := by
  by_cases hnone : rec = .none
  · refine .inl ⟨merge, by rw [hnone]; rfl, h.skip ?_, .inl hnone⟩
    intro hverified
    rw [hnone] at hverified
    cases hverified
  rw [take_eq merge hnone]
  cases hid : recordId rec with
  | error e =>
      refine .inr ⟨⟨e, rfl⟩, ?_⟩
      rintro (heq | ⟨rid, hrid, -⟩)
      · exact hnone heq
      · rw [hid] at hrid
        cases hrid
  | ok rid =>
      by_cases hhash : rid.isHashable = true
      case neg =>
        refine .inr ⟨⟨.typeError, ?_⟩, ?_⟩
        · simp only [bind, Except.bind, Value.isIn, if_neg hhash]
        · rintro (heq | ⟨rid', hrid', hhash', -⟩)
          · exact hnone heq
          · obtain rfl : rid = rid' := Except.ok.inj (hid.symm.trans hrid')
            exact hhash hhash'
      obtain ⟨isSeen, hisIn, hseen⟩ := h.isIn_seen hhash
      simp only [bind, Except.bind, hisIn]
      cases isSeen with
      | true =>
          have hmem := hseen.mp rfl
          exact .inl ⟨merge, rfl, h.skip fun _ => ⟨rid, hmem, hid⟩,
            .inr ⟨rid, hid, hhash, .inl ((h.seen_iff rid).mp hmem)⟩⟩
      | false =>
          have hnew : rid ∉ merge.seen := fun hmem => Bool.false_ne_true (hseen.mpr hmem)
          cases hverify : verifyRecord crypto rec now with
          | error e =>
              refine .inr ⟨⟨e, rfl⟩, ?_⟩
              rintro (heq | ⟨rid', hrid', -, hbefore | ⟨verdict, hverdict⟩⟩)
              · exact hnone heq
              · obtain rfl : rid = rid' := Except.ok.inj (hid.symm.trans hrid')
                exact hnew ((h.seen_iff rid).mpr hbefore)
              · rw [hverify] at hverdict
                cases hverdict
          | ok verdict =>
              have hlegible : Legible crypto now before rec :=
                .inr ⟨rid, hid, hhash, .inr ⟨verdict, hverify⟩⟩
              cases verdict with
              | true => exact .inl ⟨_, rfl, h.add hverify hid hnew, hlegible⟩
              | false =>
                  refine .inl ⟨merge, rfl, h.skip fun hverified => ?_, hlegible⟩
                  cases hverify.symm.trans hverified

variable (crypto now) in
/-- Each of the items can be looked at after those before it. -/
def Readable (items : List Value) : Prop :=
  ∀ before rec after, items = before ++ rec :: after → Legible crypto now before rec

theorem readable_append : Readable crypto now (items ++ [rec]) ↔
    Readable crypto now items ∧ Legible crypto now items rec := by
  constructor
  · intro h
    refine ⟨?_, h items rec [] rfl⟩
    intro before rec' after hitems
    apply h before rec' (after ++ [rec])
    rw [hitems, List.append_assoc, List.cons_append]
  · intro ⟨hitems, hrec⟩ before rec' after hsplit
    rcases List.eq_nil_or_concat after with rfl | ⟨rest, last, rfl⟩
    · obtain ⟨rfl, hlast⟩ := List.append_inj' hsplit rfl
      rw [← List.head_eq_of_cons_eq hlast]
      exact hrec
    · rw [List.concat_eq_append, ← List.cons_append, ← List.append_assoc] at hsplit
      exact hitems before rec' rest (List.append_inj' hsplit rfl).1

/-- The merge of items that can all be looked at, or it raises. -/
theorem merging_run (items : List Value) :
    (∃ merge, items.foldlM (Merge.take crypto now) { seen := [], merged := [] } = .ok merge ∧
      Merging crypto now items merge ∧ Readable crypto now items) ∨
    (∃ e, items.foldlM (Merge.take crypto now) { seen := [], merged := [] } = .error e) ∧
      ¬Readable crypto now items := by
  induction items using List.reverseRecOn with
  | nil =>
      refine .inl ⟨_, rfl, ⟨by simp, List.forall_mem_nil _, List.forall_mem_nil _⟩, ?_⟩
      intro before rec after h
      exact absurd h.symm (by simp)
  | append_singleton items rec ih =>
      rw [List.foldlM_append, readable_append]
      rcases ih with ⟨merge, hrun, hmerging, hreadable⟩ | ⟨⟨e, hrun⟩, hunreadable⟩
      · rw [hrun]
        rcases merging_step hmerging rec with
          ⟨next, htake, hnext, hlegible⟩ | ⟨⟨e, htake⟩, hillegible⟩
        · refine .inl ⟨next, ?_, hnext, hreadable, hlegible⟩
          simp [bind, Except.bind, htake]
        · refine .inr ⟨⟨e, ?_⟩, fun h => hillegible h.2⟩
          simp [bind, Except.bind, htake]
      · rw [hrun]
        exact .inr ⟨⟨e, rfl⟩, fun h => hunreadable h.1⟩

/-- What is merged of lists: it is the first record of each id that verifies, in the order of a
round-robin. -/
theorem mergeLists_cases (lists : List (List Value)) :
    (∃ merge, mergeLists crypto now lists = .ok merge.merged ∧
      Merging crypto now (roundRobin lists) merge ∧ Readable crypto now (roundRobin lists)) ∨
    (∃ e, mergeLists crypto now lists = .error e) ∧ ¬Readable crypto now (roundRobin lists) := by
  rw [mergeLists_eq]
  rcases merging_run (roundRobin lists) with ⟨merge, hrun, hmerging⟩ | ⟨⟨e, hrun⟩, hunreadable⟩
  · refine .inl ⟨merge, ?_, hmerging⟩
    rw [hrun]
    rfl
  · refine .inr ⟨⟨e, ?_⟩, hunreadable⟩
    rw [hrun]
    rfl

end Thicket.Py
