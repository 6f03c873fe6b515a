import Thicket.Lib.Result
import Mathlib.Data.List.Infix

/-!
# Reading a stream that was cut

A reader takes the items of a stream off its front until the stream ends or something is wrong.
Where the stream was cut, it has the items before the cut; whether it also tells a cut between two
items from one inside an item is decided by what it makes of the first part of an item.
-/

/-- A reader of one item takes something off the stream, and what follows the item does not matter
to it. -/
structure ItemReader (α β ε : Type) where
  read : List α → Except ε (Option (β × List α))
  shorter : ∀ {stream item rest}, read stream = .ok (some (item, rest)) →
    rest.length < stream.length
  append : ∀ {stream item rest}, read stream = .ok (some (item, rest)) → ∀ more,
    read (stream ++ more) = .ok (some (item, rest ++ more))

/-- What was read, and the error there was instead of a clean end. -/
structure Reading (β ε : Type) where
  items : List β
  failure : Option ε

namespace ItemReader

variable {α β ε ε' : Type} {reader : ItemReader α β ε} {write : β → List α} {stream rest : List α}
  {items whole front : List β} {item : β} {cut : Nat} {e : ε} {f : ε → ε'}

/-- Read items until there are no more. -/
def toEnd (reader : ItemReader α β ε) (stream : List α) : Reading β ε :=
  match _ : reader.read stream with
  | .error e => { items := [], failure := some e }
  | .ok none => { items := [], failure := none }
  | .ok (some (item, rest)) =>
      let later := reader.toEnd rest
      { items := item :: later.items, failure := later.failure }
termination_by stream.length
decreasing_by exact reader.shorter ‹_›

theorem toEnd_eq (stream : List α) : reader.toEnd stream =
    match reader.read stream with
    | .error e => { items := [], failure := some e }
    | .ok none => { items := [], failure := none }
    | .ok (some (item, rest)) =>
        { items := item :: (reader.toEnd rest).items, failure := (reader.toEnd rest).failure } := by
  rw [toEnd]
  split
  next h => rw [h]
  next h => rw [h]
  next h => rw [h]

theorem toEnd_of_error (h : reader.read stream = .error e) :
    reader.toEnd stream = { items := [], failure := some e } := by
  rw [toEnd_eq, h]

theorem toEnd_of_none (h : reader.read stream = .ok none) :
    reader.toEnd stream = { items := [], failure := none } := by
  rw [toEnd_eq, h]

theorem toEnd_of_some (h : reader.read stream = .ok (some (item, rest))) :
    reader.toEnd stream =
      { items := item :: (reader.toEnd rest).items, failure := (reader.toEnd rest).failure } := by
  rw [toEnd_eq, h]

/-! ### Items as they were written -/

/-- What is written for an item is read back, and no more than that is taken. -/
def Reads (reader : ItemReader α β ε) (write : β → List α) (item : β) : Prop :=
  ∀ rest, reader.read (write item ++ rest) = .ok (some (item, rest))

theorem toEnd_flatMap (h : ∀ item ∈ items, reader.Reads write item) (rest : List α) :
    reader.toEnd (items.flatMap write ++ rest) =
      { items := items ++ (reader.toEnd rest).items, failure := (reader.toEnd rest).failure } := by
  induction items with
  | nil => rfl
  | cons item items ih =>
      rw [List.flatMap_cons, List.append_assoc, toEnd_of_some (h item List.mem_cons_self _),
        ih fun a ha => h a (List.mem_cons_of_mem _ ha)]
      rfl

/-- A first part of an item is no item. -/
theorem read_part_ne_some (h : reader.Reads write item) {n : Nat} (hn : n < (write item).length)
    (found : β × List α) : reader.read ((write item).take n) ≠ .ok (some found) := by
  intro hread
  have hmore := reader.append hread ((write item).drop n)
  have hitem := h []
  rw [List.take_append_drop] at hmore
  rw [List.append_nil, hmore] at hitem
  -- then it would have left what was cut off behind
  simp only [Except.ok.injEq, Option.some.injEq, Prod.mk.injEq, List.append_eq_nil_iff,
    List.drop_eq_nil_iff] at hitem
  omega

/-- A reader of a first part of an item stops there. -/
theorem toEnd_part (h : reader.Reads write item) {n : Nat} (hn : n < (write item).length) :
    (reader.toEnd ((write item).take n)).items = [] ∧
      ((reader.toEnd ((write item).take n)).failure = none ↔
        reader.read ((write item).take n) = .ok none) := by
  cases hread : reader.read ((write item).take n) with
  | error e =>
      rw [toEnd_of_error hread]
      exact ⟨rfl, nofun, nofun⟩
  | ok found =>
      cases found with
      | none =>
          rw [toEnd_of_none hread]
          exact ⟨rfl, fun _ => rfl, fun _ => rfl⟩
      | some found => exact absurd hread (read_part_ne_some h hn found)

/-! ### Cuts -/

/-- How far some items reach on the stream. -/
def extent (write : β → List α) (items : List β) : Nat := (items.flatMap write).length

theorem extent_append (front items : List β) :
    extent write (front ++ items) = extent write front + extent write items := by
  simp only [extent, List.flatMap_append, List.length_append]

theorem extent_cons (item : β) (items : List β) :
    extent write (item :: items) = (write item).length + extent write items := by
  simp only [extent, List.flatMap_cons, List.length_append]

theorem extent_concat (items : List β) (item : β) :
    extent write (items ++ [item]) = extent write items + (write item).length := by
  rw [extent_append, extent_cons]
  rfl

theorem extent_mono (write : β → List α) (h : front <+: items) :
    extent write front ≤ extent write items := by
  obtain ⟨later, rfl⟩ := h
  rw [extent_append]
  omega

/-- The cut is between two items. -/
def OnBoundary (write : β → List α) (items : List β) (cut : Nat) : Prop :=
  ∃ front, front <+: items ∧ cut = extent write front

instance : Decidable (OnBoundary write items cut) :=
  decidable_of_iff (∃ front ∈ items.inits, cut = extent write front) (by
    simp only [List.mem_inits, OnBoundary])

/-- The cut is at the start of the item after `whole` or inside this item. -/
structure CutIn (write : β → List α) (items : List β) (cut : Nat) (whole : List β) (item : β) :
    Prop where
  front : whole ++ [item] <+: items
  le : extent write whole ≤ cut
  lt : cut < extent write (whole ++ [item])

theorem exists_cutIn (hcut : cut ≤ extent write items) :
    cut = extent write items ∨ ∃ whole item, CutIn write items cut whole item := by
  induction items generalizing cut with
  | nil =>
      apply Or.inl
      exact Nat.le_zero.mp hcut
  | cons first items ih =>
      rw [extent_cons] at hcut ⊢
      by_cases hfirst : cut < (write first).length
      · refine Or.inr ⟨[], first, ⟨items, rfl⟩, Nat.zero_le cut, ?_⟩
        rw [extent_concat]
        omega
      · have hrest : cut - (write first).length ≤ extent write items := by omega
        cases ih hrest with
        | inl hend =>
            apply Or.inl
            omega
        | inr hin =>
            obtain ⟨whole, item, hfront, hle, hlt⟩ := hin
            refine Or.inr ⟨first :: whole, item, ?_, ?_, ?_⟩
            · exact List.cons_prefix_cons.mpr ⟨rfl, hfront⟩
            · rw [extent_cons]
              omega
            · rw [List.cons_append, extent_cons]
              omega

namespace CutIn

variable (h : CutIn write items cut whole item)
include h

/-- Items that reach no further than the cut are among those before it. -/
theorem front_of_le (hfront : front <+: items) (hle : extent write front ≤ cut) :
    front <+: whole := by
  cases List.prefix_or_prefix_of_prefix hfront h.front with
  | inl hshort =>
      cases List.prefix_concat_iff.mp hshort with
      | inl hsame =>
          have hlt := h.lt
          rw [← hsame] at hlt
          omega
      | inr hwhole => exact hwhole
  | inr hlong =>
      have hlt := h.lt
      have hmono := extent_mono write hlong
      omega

theorem whole_front : whole <+: items :=
  (List.prefix_append whole [item]).trans h.front

theorem mem : item ∈ items :=
  h.front.subset (List.mem_append_right whole (List.mem_singleton_self item))

theorem ne : whole ≠ items := by
  intro hall
  have hlt := h.front.length_le
  rw [← hall, List.length_append, List.length_singleton] at hlt
  omega

theorem unique {whole' : List β} {item' : β} (h' : CutIn write items cut whole' item') :
    whole = whole' ∧ item = item' := by
  have hleft := h.front_of_le h'.whole_front h'.le
  have hright := h'.front_of_le h.whole_front h.le
  obtain rfl : whole = whole' :=
    hright.eq_of_length_le hleft.length_le
  obtain ⟨later, hlater⟩ := h.front
  obtain ⟨later', hlater'⟩ := h'.front
  have hsame := hlater.trans hlater'.symm
  simp only [List.append_assoc, List.cons_append, List.nil_append, List.append_cancel_left_eq,
    List.cons.injEq] at hsame
  exact ⟨rfl, hsame.1⟩

theorem eq_of_onBoundary (hboundary : OnBoundary write items cut) : cut = extent write whole := by
  obtain ⟨front, hfront, hend⟩ := hboundary
  have hmono := extent_mono write (h.front_of_le hfront (Nat.le_of_eq hend.symm))
  have hle := h.le
  omega

/-- What is left of the stream: the items before the cut and a first part of the next one. -/
theorem take_eq : (items.flatMap write).take cut =
    whole.flatMap write ++ (write item).take (cut - extent write whole) := by
  obtain ⟨later, rfl⟩ := h.front
  have hlt := h.lt
  rw [extent_concat] at hlt
  have hlen : cut - extent write whole ≤ (write item).length := by omega
  have hall : (whole.flatMap write).take cut = whole.flatMap write :=
    List.take_of_length_le h.le
  rw [List.flatMap_append, List.flatMap_append, List.append_assoc, List.take_append, hall,
    List.flatMap_singleton]
  change _ ++ (write item ++ later.flatMap write).take (cut - extent write whole) = _
  rw [List.take_append_of_le_length hlen]

end CutIn

/-! ### What a cut looks like -/

/-- These are the first items, as many of them as lie before the cut. -/
def LieBefore (write : β → List α) (items : List β) (cut : Nat) (whole : List β) : Prop :=
  whole <+: items ∧ ∀ front, front <+: items → (extent write front ≤ cut ↔ front <+: whole)

/-- A cut is reported as it is: the items read are those that lie before it, and the end is clean
only between two items. -/
structure Reports (write : β → List α) (items : List β) (cut : Nat) (reading : Reading β ε) :
    Prop where
  whole : LieBefore write items cut reading.items
  clean_iff : reading.failure = none ↔ OnBoundary write items cut

/-- A cut inside an item that its reader takes for the end of the stream. -/
def Silent (reader : ItemReader α β ε) (write : β → List α) (items : List β) (cut : Nat) : Prop :=
  ∃ whole item, CutIn write items cut whole item ∧ extent write whole < cut ∧
    reader.read ((write item).take (cut - extent write whole)) = .ok none

section

variable (hitems : ∀ item ∈ items, reader.Reads write item) (hcut : cut ≤ extent write items)
  (hempty : reader.read [] = .ok none)
include hitems

/-- A reader of a stream that was cut in an item has the items before it. -/
theorem toEnd_cutIn (h : CutIn write items cut whole item) :
    (reader.toEnd ((items.flatMap write).take cut)).items = whole ∧
      ((reader.toEnd ((items.flatMap write).take cut)).failure = none ↔
        reader.read ((write item).take (cut - extent write whole)) = .ok none) := by
  have hlt := h.lt
  have hle := h.le
  rw [extent_concat] at hlt
  have hwhole : ∀ a ∈ whole, reader.Reads write a :=
    fun a ha => hitems a (h.front.subset (List.mem_append_left _ ha))
  obtain ⟨hnone, hfailure⟩ := toEnd_part (hitems item h.mem)
    (n := cut - extent write whole) (by omega)
  rw [h.take_eq, toEnd_flatMap hwhole, hnone, List.append_nil]
  exact ⟨rfl, hfailure⟩

include hempty

theorem toEnd_all (hall : cut = extent write items) :
    reader.toEnd ((items.flatMap write).take cut) = { items := items, failure := none } := by
  have htake : (items.flatMap write).take cut = items.flatMap write ++ [] := by
    rw [List.append_nil]
    exact List.take_of_length_le (Nat.le_of_eq hall.symm)
  rw [htake, toEnd_flatMap hitems, toEnd_of_none hempty, List.append_nil]

include hcut

/-- Wherever the cut is, the items before it are read. -/
theorem toEnd_lieBefore :
    LieBefore write items cut (reader.toEnd ((items.flatMap write).take cut)).items := by
  cases exists_cutIn hcut with
  | inl hall =>
      rw [toEnd_all hitems hempty hall]
      refine ⟨List.prefix_refl items, fun front hfront => ⟨fun _ => hfront, fun _ => ?_⟩⟩
      exact hall ▸ extent_mono write hfront
  | inr hin =>
      obtain ⟨whole, item, hin⟩ := hin
      rw [(toEnd_cutIn hitems hin).1]
      refine ⟨hin.whole_front, fun front hfront => ⟨hin.front_of_le hfront, fun hshort => ?_⟩⟩
      exact (extent_mono write hshort).trans hin.le

/-- The end is clean on a boundary and after a first part of an item that passes for one. -/
theorem toEnd_clean_iff : (reader.toEnd ((items.flatMap write).take cut)).failure = none ↔
    OnBoundary write items cut ∨ reader.Silent write items cut := by
  cases exists_cutIn hcut with
  | inl hall =>
      rw [toEnd_all hitems hempty hall]
      exact ⟨fun _ => Or.inl ⟨items, List.prefix_refl items, hall⟩, fun _ => rfl⟩
  | inr hin =>
      obtain ⟨whole, item, hin⟩ := hin
      have hle := hin.le
      rw [(toEnd_cutIn hitems hin).2]
      constructor
      · intro hread
        by_cases hend : cut = extent write whole
        · exact Or.inl ⟨whole, hin.whole_front, hend⟩
        · exact Or.inr ⟨whole, item, hin, by omega, hread⟩
      · intro h
        cases h with
        | inl hboundary =>
            have hend := hin.eq_of_onBoundary hboundary
            rw [show cut - extent write whole = 0 by omega]
            exact hempty
        | inr hsilent =>
            obtain ⟨whole', item', hin', _, hread⟩ := hsilent
            obtain ⟨rfl, rfl⟩ := hin.unique hin'
            exact hread

/-- Every cut is reported that the reader does not take for the end of the stream. -/
theorem reports_iff : Reports write items cut (reader.toEnd ((items.flatMap write).take cut)) ↔
    ¬reader.Silent write items cut := by
  have hclean := toEnd_clean_iff hitems hcut hempty
  constructor
  · intro hreports hsilent
    have hboundary := hreports.clean_iff.mp (hclean.mpr (Or.inr hsilent))
    obtain ⟨whole, item, hin, hinside, _⟩ := hsilent
    have hend := hin.eq_of_onBoundary hboundary
    omega
  · intro hsilent
    refine ⟨toEnd_lieBefore hitems hcut hempty, hclean.trans ?_⟩
    exact or_iff_left hsilent

end

/-! ### Other errors -/

/-- The same reader with other errors. -/
def mapError (f : ε → ε') (reader : ItemReader α β ε) : ItemReader α β ε' where
  read stream := (reader.read stream).mapError f
  shorter h := reader.shorter ((Result.mapError_ok_iff _ _ _).mp h)
  append h more := (Result.mapError_ok_iff _ _ _).mpr
    (reader.append ((Result.mapError_ok_iff _ _ _).mp h) more)

theorem toEnd_mapError (stream : List α) : (reader.mapError f).toEnd stream =
    { items := (reader.toEnd stream).items, failure := (reader.toEnd stream).failure.map f } := by
  induction hn : stream.length using Nat.strong_induction_on generalizing stream with
  | _ n ih =>
      have hmap : (reader.mapError f).read stream = (reader.read stream).mapError f := rfl
      cases hread : reader.read stream with
      | error e =>
          rw [hread] at hmap
          rw [toEnd_of_error hread, toEnd_of_error hmap]
          rfl
      | ok found =>
          rw [hread] at hmap
          cases found with
          | none =>
              rw [toEnd_of_none hread, toEnd_of_none hmap]
              rfl
          | some found =>
              obtain ⟨item, rest⟩ := found
              have hshorter := reader.shorter hread
              rw [toEnd_of_some hread, toEnd_of_some hmap, ih rest.length (by omega) rest rfl]

theorem reports_mapError_iff :
    Reports write items cut ((reader.mapError f).toEnd stream) ↔
      Reports write items cut (reader.toEnd stream) := by
  rw [toEnd_mapError]
  constructor
  · intro ⟨hwhole, hclean⟩
    exact ⟨hwhole, by rwa [Option.map_eq_none_iff] at hclean⟩
  · intro ⟨hwhole, hclean⟩
    exact ⟨hwhole, by rwa [Option.map_eq_none_iff]⟩

end ItemReader
