import Thicket.Lib.HashMap
import Thicket.Lib.Run
import Thicket.Lib.WeightedMean
import Thicket.Trust.Attestation
import Mathlib.Data.Rat.Cast.Order

/-!
# Reputation

`ReputationLedger`, computed in rational numbers where the code rounds to `f32`. The score of an
attestation is the number its bits stand for, so an attestation comes with that number; one that is
infinite or not a number has none. The counters wrap, as in a release build.

What an identity is worth depends on its own counters, on those of its attesters, and on which
attestations there are, in any order. An attester without a success weighs nothing.
-/

namespace Thicket

open Cbor (Bytes)

/-- The number that the bits of an `f32` stand for. -/
def f32Value (bits : UInt32) : Option ℚ :=
  let sign : ℚ := if bits.toNat / 2 ^ 31 = 1 then -1 else 1
  let exponent := bits.toNat / 2 ^ 23 % 256
  let fraction : Nat := bits.toNat % 2 ^ 23
  if exponent = 255 then none
  else if exponent = 0 then some (sign * fraction / 2 ^ 149)
  else some (sign * ((2 ^ 23 + fraction) * 2 ^ exponent) / 2 ^ 150)

theorem f32Value_one : f32Value 0x3F800000 = some 1 := by decide +kernel

/-- An attestation whose score is a number. -/
structure Vouch where
  attestation : Attestation
  score : ℚ
  isScore : f32Value attestation.scoreBits = some score

namespace Vouch

def subject (v : Vouch) : Id := v.attestation.subject

def attester (v : Vouch) : Id := v.attestation.attester

end Vouch

/-- Outcomes as successes and failures, and attestations in the order they were added. -/
structure ReputationLedger where
  outcomes : HashMap Id (UInt64 × UInt64)
  attestations : List Vouch

namespace ReputationLedger

def new : ReputationLedger := { outcomes := ∅, attestations := [] }

def recordOutcome (r : ReputationLedger) (id : Id) (success : Bool) : ReputationLedger :=
  let e := r.outcomes[id]?.getD (0, 0)
  { r with outcomes := r.outcomes.insert id (if success then (e.1 + 1, e.2) else (e.1, e.2 + 1)) }

def addAttestation (r : ReputationLedger) (attestation : Vouch) : ReputationLedger :=
  { r with attestations := r.attestations ++ [attestation] }

def observations (r : ReputationLedger) (id : Id) : UInt64 :=
  match r.outcomes[id]? with
  | some (s, f) => s + f
  | none => 0

def outcomeScore (r : ReputationLedger) (id : Id) : ℚ :=
  match r.outcomes[id]? with
  | some (s, f) => if s + f > 0 then s.toNat / (s + f).toNat else 0
  | none => 0

/-- `num` and `den` after the loop over the attestations. -/
def vouchSums (r : ReputationLedger) (id : Id) : ℚ × ℚ :=
  (r.attestations.filter fun a => a.subject = id).foldl
    (fun acc att =>
      let weight := r.outcomeScore att.attester
      (acc.1 + weight * att.score, acc.2 + weight)) (0, 0)

def reputation (r : ReputationLedger) (id : Id) : ℚ :=
  let direct := r.outcomeScore id
  let (num, den) := r.vouchSums id
  let vouched := if den > 0 then num / den else 0
  match decide (r.observations id > 0), decide (den > 0) with
  | true, true => 0.5 * direct + 0.5 * vouched
  | true, false => direct
  | false, true => vouched
  | false, false => 0

/-! ### What a reputation depends on -/

/-- Successes and failures of `id`; no entry is as good as none of either. -/
def counts (r : ReputationLedger) (id : Id) : UInt64 × UInt64 := r.outcomes[id]?.getD (0, 0)

/-- The success rate that the counters show. -/
def rate (counts : UInt64 × UInt64) : ℚ :=
  if counts.1 + counts.2 > 0 then counts.1.toNat / (counts.1 + counts.2).toNat else 0

/-- The weight of an attestation. -/
def weight (r : ReputationLedger) (v : Vouch) : ℚ := rate (r.counts v.attester)

/-- The attestations about `id`. -/
def vouches (r : ReputationLedger) (id : Id) : List Vouch :=
  r.attestations.filter fun v => v.subject = id

/-- What own outcomes and the vouches of others come to, each where there is any. -/
def blend (observed vouchedFor : Bool) (direct vouched : ℚ) : ℚ :=
  match observed, vouchedFor with
  | true, true => 0.5 * direct + 0.5 * vouched
  | true, false => direct
  | false, true => vouched
  | false, false => 0

variable {r r' : ReputationLedger} {id : Id}

theorem observations_eq (r : ReputationLedger) (id : Id) :
    r.observations id = (r.counts id).1 + (r.counts id).2 := by
  unfold observations counts
  cases r.outcomes[id]? with
  | none => rfl
  | some e => rfl

theorem outcomeScore_eq (r : ReputationLedger) (id : Id) :
    r.outcomeScore id = rate (r.counts id) := by
  unfold outcomeScore counts
  cases r.outcomes[id]? with
  | none => rfl
  | some e => rfl

theorem vouchSums_eq (r : ReputationLedger) (id : Id) : r.vouchSums id =
    (WeightedMean.weighted r.weight Vouch.score (r.vouches id),
      WeightedMean.total r.weight (r.vouches id)) := by
  have hweight : (fun v : Vouch => r.outcomeScore v.attester) = r.weight := by
    funext v
    exact outcomeScore_eq r v.attester
  have hfold := WeightedMean.foldl_eq (fun v : Vouch => r.outcomeScore v.attester) Vouch.score
    (r.vouches id) 0 0
  rw [hweight, zero_add, zero_add] at hfold
  exact hfold

/-- A reputation is a blend of a rate and a weighted mean. -/
theorem reputation_eq (r : ReputationLedger) (id : Id) : r.reputation id =
    blend ((r.counts id).1 + (r.counts id).2 > 0)
      (WeightedMean.total r.weight (r.vouches id) > 0) (rate (r.counts id))
      (WeightedMean.weighted r.weight Vouch.score (r.vouches id) /
        WeightedMean.total r.weight (r.vouches id)) := by
  rw [reputation, vouchSums_eq, observations_eq, outcomeScore_eq]
  by_cases hden : WeightedMean.total r.weight (r.vouches id) > 0
  · simp only [hden, if_true]
    rfl
  · simp only [hden, if_false]
    cases decide ((r.counts id).1 + (r.counts id).2 > 0) <;> rfl

theorem weight_eq_zero {vs : List Vouch} (h : ∀ v ∈ vs, (r.counts v.attester).1 = 0) :
    ∀ v ∈ vs, r.weight v = 0 := by
  intro v hv
  rw [weight, rate, h v hv]
  split_ifs
  · exact zero_div _
  · rfl

/-- Ledgers with the same counters and, in any order, the same attestations but for some by
attesters without a success, have the same reputations. -/
theorem reputation_congr (unproven : List Vouch) (hcounts : r.counts = r'.counts)
    (hattestations : r.attestations.Perm (r'.attestations ++ unproven))
    (hunproven : ∀ v ∈ unproven, (r'.counts v.attester).1 = 0) (id : Id) :
    r.reputation id = r'.reputation id := by
  have hweight : r.weight = r'.weight := by
    funext v
    rw [weight, hcounts, weight]
  have hvouches : (r.vouches id).Perm
      (r'.vouches id ++ unproven.filter fun v => v.subject = id) := by
    rw [vouches, vouches, ← List.filter_append]
    exact hattestations.filter _
  have hzero : ∀ v ∈ unproven.filter fun v => v.subject = id, r'.weight v = 0 := by
    intro v hv
    exact weight_eq_zero hunproven v (List.mem_of_mem_filter hv)
  rw [reputation_eq, reputation_eq, hcounts, hweight, WeightedMean.total_perm hvouches,
    WeightedMean.weighted_perm hvouches, WeightedMean.total_append hzero,
    WeightedMean.weighted_append hzero]

/-! ### Histories -/

/-- What is recorded in a ledger. -/
inductive Entry where
  | outcome (id : Id) (success : Bool)
  | attestation (attestation : Vouch)

namespace Entry

/-- Whether the entry is such an outcome of `id`. -/
def isOutcome (id : Id) (success : Bool) : Entry → Bool
  | outcome i s => i = id && s == success
  | attestation _ => false

def vouch? : Entry → Option Vouch
  | outcome _ _ => none
  | attestation v => some v

end Entry

def record (r : ReputationLedger) : Entry → ReputationLedger
  | .outcome id success => r.recordOutcome id success
  | .attestation v => r.addAttestation v

variable {entries : List Entry}

theorem counts_recordOutcome (r : ReputationLedger) (i : Id) (success : Bool) (id : Id) :
    (r.recordOutcome i success).counts id =
      if id = i then
        if success then ((r.counts i).1 + 1, (r.counts i).2)
        else ((r.counts i).1, (r.counts i).2 + 1)
      else r.counts id := by
  rw [counts, recordOutcome, HashMap.getElem?_insert]
  split_ifs <;> rfl

/-- The counters after a history: its outcomes are added, in whatever order they came. -/
theorem counts_exec (r : ReputationLedger) (entries : List Entry) (id : Id) :
    (Run.exec record r entries).counts id =
      ((r.counts id).1 + .ofNat (entries.countP (Entry.isOutcome id true)),
        (r.counts id).2 + .ofNat (entries.countP (Entry.isOutcome id false))) := by
  have hcount (n m : UInt64) : n + 1 + m = n + (m + 1) := by
    rw [UInt64.add_assoc, UInt64.add_comm 1]
  induction entries generalizing r with
  | nil => exact (Prod.ext (UInt64.add_zero _) (UInt64.add_zero _)).symm
  | cons entry entries ih =>
      rw [Run.exec_cons, ih, List.countP_cons, List.countP_cons]
      cases entry with
      | outcome i success =>
          have hstep : (r.record (.outcome i success)).counts id = _ :=
            counts_recordOutcome r i success id
          rw [hstep]
          by_cases hid : i = id
          · subst hid
            cases success <;> simp [Entry.isOutcome, hcount]
          · have hne : id ≠ i := fun h => hid h.symm
            simp [Entry.isOutcome, hid, hne]
      | attestation v => rfl

theorem attestations_exec (r : ReputationLedger) (entries : List Entry) :
    (Run.exec record r entries).attestations =
      r.attestations ++ entries.filterMap Entry.vouch? := by
  induction entries generalizing r with
  | nil => exact (List.append_nil _).symm
  | cons entry entries ih =>
      rw [Run.exec_cons, ih]
      cases entry with
      | outcome i success => rfl
      | attestation v => exact List.append_assoc _ _ _

/-! ### Vouches without standing -/

/-- No success of `id` is recorded, in the ledger or in the history. -/
structure Unproven (r : ReputationLedger) (entries : List Entry) (id : Id) : Prop where
  ledger : (r.counts id).1 = 0
  history : .outcome id true ∉ entries

theorem Unproven.counts_exec (h : Unproven r entries id) :
    ((Run.exec record r entries).counts id).1 = 0 := by
  have hnone : entries.countP (Entry.isOutcome id true) = 0 := by
    rw [List.countP_eq_zero]
    intro entry hentry hcounted
    cases entry with
    | outcome i success =>
        simp only [Entry.isOutcome, Bool.and_eq_true, decide_eq_true_eq, beq_iff_eq] at hcounted
        obtain ⟨rfl, rfl⟩ := hcounted
        exact h.history hentry
    | attestation v => cases hcounted
  rw [ReputationLedger.counts_exec, hnone, h.ledger]
  rfl

theorem counts_exec_perm {entries' : List Entry} (h : entries.Perm entries')
    (r : ReputationLedger) :
    (Run.exec record r entries).counts = (Run.exec record r entries').counts := by
  funext id
  rw [counts_exec, counts_exec, h.countP_eq, h.countP_eq]

theorem counts_exec_attestations (vs : List Vouch) (r : ReputationLedger) :
    (Run.exec record r (vs.map .attestation)).counts = r.counts := by
  induction vs generalizing r with
  | nil => rfl
  | cons v vs ih => exact ih (r.addAttestation v)

/-- **Sybil vouches carry no weight.** Put attestations by attesters without a success anywhere into
a history, and reorder the history as well: every reputation is what it is without them. -/
theorem reputation_without_sybils (r : ReputationLedger) {kept : List Entry} {sybils : List Vouch}
    (hentries : entries.Perm (kept ++ sybils.map .attestation))
    (hsybils : ∀ v ∈ sybils, Unproven r entries v.attester) (id : Id) :
    (Run.exec record r entries).reputation id = (Run.exec record r kept).reputation id := by
  have hcounts : (Run.exec record r entries).counts = (Run.exec record r kept).counts := by
    rw [counts_exec_perm hentries, Run.exec_append, counts_exec_attestations]
  have hvouches : (sybils.map Entry.attestation).filterMap Entry.vouch? = sybils := by
    rw [List.filterMap_map]
    exact List.filterMap_some
  apply reputation_congr sybils hcounts
  · rw [attestations_exec, attestations_exec, List.append_assoc]
    apply List.Perm.append_left
    have hperm := hentries.filterMap Entry.vouch?
    rw [List.filterMap_append, hvouches] at hperm
    exact hperm
  · intro v hv
    rw [← hcounts]
    exact (hsybils v hv).counts_exec

/-- A vouch with the score 1.0, whose signature nobody has checked. -/
def fullVouch (attester subject : Id) : Vouch where
  attestation := { subject, claim := "x", scoreBits := 0x3F800000, issuedAt := 0, attester,
                   attesterPub := [], sig := [] }
  score := 1
  isScore := f32Value_one

/-- A proven attester `1` vouches for `2`, and `3`, about whom nothing is recorded, for itself. -/
theorem reputation_without_sybils_self :
    (Run.exec record new [.attestation (fullVouch ⟨[3]⟩ ⟨[3]⟩), .outcome ⟨[1]⟩ true,
        .attestation (fullVouch ⟨[1]⟩ ⟨[2]⟩)]).reputation ⟨[3]⟩ =
      (Run.exec record new [.outcome ⟨[1]⟩ true,
        .attestation (fullVouch ⟨[1]⟩ ⟨[2]⟩)]).reputation ⟨[3]⟩ := by
  have hperm : [Entry.attestation (fullVouch ⟨[3]⟩ ⟨[3]⟩), .outcome ⟨[1]⟩ true,
      .attestation (fullVouch ⟨[1]⟩ ⟨[2]⟩)].Perm
        ([.outcome ⟨[1]⟩ true, .attestation (fullVouch ⟨[1]⟩ ⟨[2]⟩)] ++
          [fullVouch ⟨[3]⟩ ⟨[3]⟩].map .attestation) :=
    (List.perm_append_singleton _ _).symm
  apply reputation_without_sybils new hperm
  intro v hv
  rw [List.mem_singleton.mp hv]
  refine ⟨rfl, ?_⟩
  simp [Vouch.attester, fullVouch]

end ReputationLedger

end Thicket
