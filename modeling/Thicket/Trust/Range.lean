import Thicket.Trust.Reputation
import Mathlib.Tactic.Linarith

/-!
# The range of a reputation

A reputation is documented to lie in `[0, 1]`, and so is the score of an attestation. A mean of
numbers in the range is in the range. But issuing an attestation, verifying it and adding it take
any score, and the vouch of one proven attester passes its score on.
-/

namespace Thicket.ReputationLedger

open Cbor (Bytes)
open Result

def InUnit (x : ℚ) : Prop := 0 ≤ x ∧ x ≤ 1

/-- No counter overflows on an outcome, and the score of an attestation is in range. -/
def Allowed (r : ReputationLedger) : Entry → Prop
  | .outcome id _ => (r.counts id).1.toNat + (r.counts id).2.toNat + 1 < 2 ^ 64
  | .attestation v => InUnit v.score

structure Bounded (r : ReputationLedger) : Prop where
  counts_lt : ∀ id, (r.counts id).1.toNat + (r.counts id).2.toNat < 2 ^ 64
  scores : ∀ v ∈ r.attestations, InUnit v.score

variable {r : ReputationLedger} {entry : Entry} {entries : List Entry}

/-! ### One ledger -/

theorem rate_mem {counts : UInt64 × UInt64} (h : counts.1.toNat + counts.2.toNat < 2 ^ 64) :
    InUnit (rate counts) := by
  have hsum : (counts.1 + counts.2).toNat = counts.1.toNat + counts.2.toNat := by
    rw [UInt64.toNat_add]
    exact Nat.mod_eq_of_lt h
  unfold rate
  rw [hsum]
  split_ifs
  · refine ⟨div_nonneg (Nat.cast_nonneg _) (Nat.cast_nonneg _), ?_⟩
    apply div_le_one_of_le₀ _ (Nat.cast_nonneg _)
    exact Nat.cast_le.mpr (Nat.le_add_right _ _)
  · exact ⟨le_rfl, zero_le_one⟩

theorem blend_mem {observed vouchedFor : Bool} {direct vouched : ℚ} (hdirect : InUnit direct)
    (hvouched : vouchedFor = true → InUnit vouched) :
    InUnit (blend observed vouchedFor direct vouched) := by
  cases vouchedFor with
  | true =>
      obtain ⟨hlow, hhigh⟩ := hdirect
      obtain ⟨hlow', hhigh'⟩ := hvouched rfl
      cases observed with
      | true =>
          show 0 ≤ 0.5 * direct + 0.5 * vouched ∧ 0.5 * direct + 0.5 * vouched ≤ 1
          exact ⟨by linarith, by linarith⟩
      | false => exact ⟨hlow', hhigh'⟩
  | false =>
      cases observed with
      | true => exact hdirect
      | false => exact ⟨le_rfl, zero_le_one⟩

theorem Bounded.reputation_mem (h : r.Bounded) (id : Id) : InUnit (r.reputation id) := by
  rw [reputation_eq]
  apply blend_mem (rate_mem (h.counts_lt id))
  intro hpos
  apply WeightedMean.mean_mem
  · intro v _
    exact (rate_mem (h.counts_lt v.attester)).1
  · intro v hv
    exact h.scores v (List.mem_of_mem_filter hv)
  · exact of_decide_eq_true hpos

/-! ### A history -/

theorem counts_new (id : Id) : new.counts id = (0, 0) := by
  rw [counts, new, Std.ExtTreeMap.getElem?_empty]
  rfl

theorem bounded_new : new.Bounded := by
  refine ⟨fun id => ?_, List.forall_mem_nil _⟩
  rw [counts_new]
  decide

theorem Bounded.record (h : r.Bounded) (hallowed : Allowed r entry) : (r.record entry).Bounded := by
  cases entry with
  | outcome i success =>
      have hnext (n m : UInt64) (hlt : n.toNat + m.toNat + 1 < 2 ^ 64) :
          (n + 1).toNat = n.toNat + 1 := by
        rw [UInt64.toNat_add]
        exact Nat.mod_eq_of_lt (show n.toNat + 1 < 2 ^ 64 by omega)
      have hroom : (r.counts i).1.toNat + (r.counts i).2.toNat + 1 < 2 ^ 64 := hallowed
      refine ⟨fun id => ?_, h.scores⟩
      have hstep : (r.record (.outcome i success)).counts id = _ :=
        counts_recordOutcome r i success id
      rw [hstep]
      split_ifs
      · show ((r.counts i).1 + 1).toNat + (r.counts i).2.toNat < 2 ^ 64
        rw [hnext _ _ hroom]
        omega
      · show (r.counts i).1.toNat + ((r.counts i).2 + 1).toNat < 2 ^ 64
        rw [hnext _ (r.counts i).1 (by omega)]
        omega
      · exact h.counts_lt id
  | attestation v =>
      refine ⟨h.counts_lt, fun w hw => ?_⟩
      rcases List.mem_append.mp hw with hw | hw
      · exact h.scores w hw
      · rw [List.mem_singleton.mp hw]
        exact hallowed

/-! ### One vouch -/

/-- With one success of its attester and nothing else on record, a vouch is the reputation. -/
theorem reputation_single (v : Vouch) (h : v.attester ≠ v.subject) :
    (Run.exec record new [.outcome v.attester true, .attestation v]).reputation v.subject =
      v.score := by
  have hattester : (Run.exec record new [.outcome v.attester true, .attestation v]).counts
      v.attester = (1, 0) := by
    rw [counts_exec, counts_new]
    simp [Entry.isOutcome]
  have hsubject : (Run.exec record new [.outcome v.attester true, .attestation v]).counts
      v.subject = (0, 0) := by
    rw [counts_exec, counts_new]
    simp [Entry.isOutcome, h]
  have hvouches : (Run.exec record new [.outcome v.attester true, .attestation v]).vouches
      v.subject = [v] := by
    rw [vouches, attestations_exec]
    show [v].filter (fun w => w.subject = v.subject) = [v]
    simp
  generalize Run.exec record new [.outcome v.attester true, .attestation v] = r
    at hattester hsubject hvouches ⊢
  have hweight : r.weight v = 1 := by
    rw [weight, hattester]
    decide +kernel
  have htotal : WeightedMean.total r.weight [v] = 1 := by simp [WeightedMean.total, hweight]
  have hweighted : WeightedMean.weighted r.weight Vouch.score [v] = v.score := by
    simp [WeightedMean.weighted, hweight]
  rw [reputation_eq, hsubject, hvouches, htotal, hweighted, div_one]
  simp [blend]

/-- **In range.** Where no counter overflows and every score that is added is in range, every
reputation is, all the time. A score out of range can become a reputation. -/
theorem reputation_in_range (entries : List Entry) :
    (Run.EachStep record Allowed new entries →
      ∀ r ∈ Run.states record new entries, ∀ id, InUnit (r.reputation id)) ∧
    ∀ v : Vouch, v.attester ≠ v.subject → ¬InUnit v.score →
      ¬InUnit ((Run.exec record new [.outcome v.attester true, .attestation v]).reputation
        v.subject) := by
  refine ⟨?_, ?_⟩
  · intro hallowed r hr id
    have hbounded := Run.states_invariant (fun r entry (h : r.Bounded) hok => h.record hok)
      bounded_new hallowed r hr
    exact hbounded.reputation_mem id
  · intro v hne hscore
    rw [reputation_single v hne]
    exact hscore

/-- A success, and a vouch by who had it. -/
theorem reputation_in_range_full :
    InUnit ((Run.exec record new [.outcome ⟨[1]⟩ true,
      .attestation (fullVouch ⟨[1]⟩ ⟨[2]⟩)]).reputation ⟨[2]⟩) := by
  have hroom : Allowed new (.outcome ⟨[1]⟩ true) := by
    show (new.counts ⟨[1]⟩).1.toNat + (new.counts ⟨[1]⟩).2.toNat + 1 < 2 ^ 64
    rw [counts_new]
    decide
  have hscore : InUnit (fullVouch ⟨[1]⟩ ⟨[2]⟩).score := ⟨zero_le_one, le_rfl⟩
  have hallowed : Run.EachStep record Allowed new [.outcome ⟨[1]⟩ true,
      .attestation (fullVouch ⟨[1]⟩ ⟨[2]⟩)] := ⟨hroom, hscore, trivial⟩
  exact (reputation_in_range _).1 hallowed _ Run.exec_mem_states _

/-! ### A score of five -/

def attesterRoot : RootKey Crypto.checked := ⟨(1 : UInt8)⟩

def attesterKey : WorkingKey Crypto.checked := ⟨(2 : UInt8)⟩

def attesterEndorsement : KeyEndorsement :=
  valueOr (attesterRoot.endorse attesterKey.public 0 100) ⟨[], 0, 0, []⟩

/-- An attestation by the root `1` for the identity `7`, with the score 5.0. -/
def attestationOfFive : Attestation :=
  valueOr (Attestation.issue attesterRoot.id attesterKey ⟨[7]⟩ "x" 0x40A00000 50)
    ⟨⟨[]⟩, "", 0, 0, ⟨[]⟩, [], []⟩

def vouchOfFive : Vouch where
  attestation := attestationOfFive
  score := 5
  isScore := by decide +kernel

/-- The attestation is issued and verifies, and after one success of its attester it makes the
reputation of its subject five. -/
theorem reputation_of_five :
    Attestation.issue attesterRoot.id attesterKey ⟨[7]⟩ "x" 0x40A00000 50 =
        .ok vouchOfFive.attestation ∧
      vouchOfFive.attestation.verify Crypto.checked attesterRoot.public [attesterEndorsement] 50
        .new = .ok () ∧
      (Run.exec record new [.outcome vouchOfFive.attester true,
        .attestation vouchOfFive]).reputation vouchOfFive.subject = 5 ∧
      ¬InUnit 5 := by
  have hissued : Attestation.issue attesterRoot.id attesterKey ⟨[7]⟩ "x" 0x40A00000 50 =
      .ok vouchOfFive.attestation := by decide +kernel
  refine ⟨hissued, ?_, ?_, ?_⟩
  · apply (Attestation.verify_issue Crypto.checked_signVerifies hissued).mpr
    decide +kernel
  · exact reputation_single vouchOfFive (by decide +kernel)
  · intro h
    exact absurd h.2 (by norm_num)

end Thicket.ReputationLedger
