import Thicket.Directory.Linearizable
import Mathlib.Data.List.Chain

/-!
# Heartbeats

A resource that renews its lease in time is found for as long as the last renewal says and no
longer, whatever the other clients of the directory do in between and whenever its host sweeps.
-/

namespace Thicket.Directory

open Cbor (Bytes)
open Net Registry Result

variable {embedder : Embedder} {crypto : Crypto}

/-- The time of a renewal by the owner. -/
def renewal? (owner : Id) : Asked embedder → Option UInt64
  | .call _ caller (.renew _) now _ => if caller = owner then some now else none
  | _ => none

/-- The time of a call, or of a sweep. -/
def time? : Asked embedder → Option UInt64
  | .call _ _ _ now _ | .host (.sweepExpired now) => some now
  | _ => none

def ClientOp.Reads : ClientOp → Prop
  | .resolve _ | .search _ => True
  | _ => False

/-- The owner does nothing but renew its lease for `ttl` and look things up; what the host does is
about other records, unless it sweeps. -/
def Spares (owner : Id) (ttl : UInt64) : Asked embedder → Prop
  | .call _ caller op _ _ => caller = owner → op = .renew ttl ∨ op.Reads
  | .other _ => True
  | .host op => target op ≠ some owner

/-- What happens between a first renewal and a time, if the owner renews before the lease ends. -/
structure Heartbeats (owner : Id) (ttl first : UInt64) (acts : List (Asked embedder))
    (now : UInt64) : Prop where
  spares : ∀ act ∈ acts, Spares owner ttl act
  ordered : (first :: (acts.filterMap time? ++ [now])).Pairwise (· ≤ ·)
  inTime : (first :: acts.filterMap (renewal? owner)).IsChain fun t t' =>
    t'.toNat ≤ t.toNat + ttl.toNat
  fits : ∀ t ∈ first :: acts.filterMap (renewal? owner), t.toNat + ttl.toNat < 2 ^ 64

def lastRenewal (owner : Id) (first : UInt64) (acts : List (Asked embedder)) : UInt64 :=
  (acts.filterMap (renewal? owner)).getLastD first

/-- The record with the lease of a renewal. -/
def leased (record : SignedRecord) (ttl t : UInt64) : SignedRecord :=
  record.setLease { issuedAt := t, ttl, expiresAt := t + ttl }

variable {owner : Id} {ttl first now : UInt64} {act : Asked embedder} {acts : List (Asked embedder)}
  {registry : Registry embedder} {record : SignedRecord}

/-! ### One act -/

theorem record?_step_of_target {op : Registry.Op} {id other : Id} (htarget : target op = some other)
    (hid : other ≠ id) : (registry.step crypto op).record? id = registry.record? id := by
  have hchange : Change crypto registry.revocations id op _ _ := step_change registry op id
  have hother : target op ≠ some id := by
    rw [htarget]
    exact fun heq => hid (Option.some.inj heq)
  generalize (registry.step crypto op).record? id = after at hchange ⊢
  generalize registry.record? id = before at hchange ⊢
  cases hchange with
  | kept => rfl
  | published _ _ _ hown => exact absurd (congrArg some hown) hother
  | renewed => exact absurd rfl hother
  | revoked => exact absurd rfl hother
  | deregistered => exact absurd rfl hother
  | swept => cases htarget

theorem record?_ask_of_ne {caller : Id} (hcaller : caller ≠ owner) (op : ClientOp)
    (values : List (Stored embedder)) :
    (registry.ask crypto caller now values op).2.record? owner = registry.record? owner := by
  rcases exists_step_of_ask registry caller now values op with hsame | ⟨op', htarget, hstep⟩
  · rw [hsame]
  · rw [hstep, record?_step_of_target htarget hcaller]

/-- An act that spares the owner leaves its entry, renews its lease or sweeps. -/
theorem spares_cases (hspares : Spares owner ttl act) (registry : Registry embedder) :
    (((asked embedder crypto).act registry act).record? owner = registry.record? owner ∧
        renewal? owner act = none) ∨
      (∃ key t values, act = .call key owner (.renew ttl) t values) ∨
      ∃ t, act = .host (.sweepExpired t) := by
  cases act with
  | other key => exact Or.inl ⟨rfl, rfl⟩
  | call key caller op t values =>
      by_cases hcaller : caller = owner
      · rcases hspares hcaller with rfl | hreads
        · exact Or.inr (Or.inl ⟨key, t, values, by rw [hcaller]⟩)
        · left
          cases op with
          | resolve id => exact ⟨rfl, rfl⟩
          | search need => exact ⟨rfl, rfl⟩
          | _ => cases hreads
      · refine Or.inl ⟨record?_ask_of_ne hcaller op values, ?_⟩
        cases op <;> first | rfl | exact if_neg hcaller
  | host op =>
      cases htarget : target op with
      | some other =>
          have hother : other ≠ owner := by
            rintro rfl
            exact hspares htarget
          exact Or.inl ⟨record?_step_of_target htarget hother, rfl⟩
      | none =>
          cases op with
          | sweepExpired t => exact Or.inr (Or.inr ⟨t, rfl⟩)
          | _ => cases htarget

/-- The entry of the owner after an act that spares it: the last renewal's, or a sweep has taken it.
-/
theorem record?_act (hspares : Spares owner ttl act)
    (hrecord : registry.record? owner = some (leased record ttl first)) :
    ((asked embedder crypto).act registry act).record? owner =
        some (leased record ttl ((renewal? owner act).getD first)) ∨
      ∃ t, act = .host (.sweepExpired t) ∧ first + ttl < t ∧
        ((asked embedder crypto).act registry act).record? owner = none := by
  rcases spares_cases hspares registry with ⟨hsame, hnone⟩ | ⟨key, t, values, rfl⟩ | ⟨t, rfl⟩
  · left
    rw [hsame, hrecord, hnone]
    rfl
  · left
    show (registry.ask crypto owner t values (.renew ttl)).2.record? owner = _
    rw [ask_renew, record?_renew hrecord rfl, renewal?, if_pos rfl]
    rfl
  · have hswept : ((asked embedder crypto).act registry (.host (.sweepExpired t))).record? owner =
        (registry.record? owner).filter fun record => !leaseExpired record t :=
      record?_sweepExpired owner
    rw [hrecord, Option.filter_some] at hswept
    have hlive : leaseExpired (leased record ttl first) t = false ↔ t ≤ first + ttl :=
      leaseExpired_setLease
    by_cases hle : t ≤ first + ttl
    · left
      rw [hswept, hlive.mpr hle]
      rfl
    · right
      refine ⟨t, rfl, UInt64.not_le.mp hle, ?_⟩
      rw [hswept, if_neg]
      simpa [hlive] using hle

/-- An owner that spares its entry does not bring it back. -/
theorem record?_act_none (hspares : Spares owner ttl act)
    (hrecord : registry.record? owner = none) :
    ((asked embedder crypto).act registry act).record? owner = none := by
  rcases spares_cases hspares registry with ⟨hsame, -⟩ | ⟨key, t, values, rfl⟩ | ⟨t, rfl⟩
  · rw [hsame, hrecord]
  · show (registry.ask crypto owner t values (.renew ttl)).2.record? owner = _
    rw [ask_renew]
    have hchange : Change crypto registry.revocations owner (.renew owner t ttl) _ _ :=
      step_change registry _ owner
    rw [hrecord] at hchange
    generalize (registry.step crypto (.renew owner t ttl)).record? owner = after at hchange ⊢
    cases hchange with
    | kept => rfl
  · show (registry.sweepExpired t).1.record? owner = _
    rw [record?_sweepExpired, hrecord]
    rfl

theorem record?_exec_none (hspares : ∀ act ∈ acts, Spares owner ttl act)
    (hrecord : registry.record? owner = none) :
    (Run.exec (asked embedder crypto).act registry acts).record? owner = none := by
  induction acts generalizing registry with
  | nil => exact hrecord
  | cons act acts ih =>
      obtain ⟨hact, hacts⟩ := List.forall_mem_cons.mp hspares
      exact ih hacts (record?_act_none hact hrecord)

/-! ### A run -/

theorem time?_of_renewal? {t : UInt64} (h : renewal? owner act = some t) : time? act = some t := by
  cases act with
  | call key caller op now values =>
      cases op with
      | renew ttl =>
          rw [renewal?] at h
          split_ifs at h
          exact h
      | _ => cases h
  | _ => cases h

theorem Heartbeats.tail (h : Heartbeats owner ttl first (act :: acts) now) :
    Heartbeats owner ttl ((renewal? owner act).getD first) acts now := by
  obtain ⟨-, hspares⟩ := List.forall_mem_cons.mp h.spares
  have hordered := h.ordered
  have hinTime := h.inTime
  have hfits := h.fits
  rw [List.filterMap_cons] at hordered hinTime hfits
  cases hrenewal : renewal? owner act with
  | some t =>
      rw [hrenewal] at hinTime hfits
      rw [time?_of_renewal? hrenewal] at hordered
      exact ⟨hspares, (List.pairwise_cons.mp hordered).2, hinTime.tail,
        (List.forall_mem_cons.mp hfits).2⟩
  | none =>
      rw [hrenewal] at hinTime hfits
      refine ⟨hspares, hordered.sublist ?_, hinTime, hfits⟩
      apply List.Sublist.cons_cons
      apply List.Sublist.append_right
      split
      · exact List.Sublist.refl _
      · exact List.sublist_cons_self _ _

theorem lastRenewal_cons : lastRenewal owner first (act :: acts) =
    lastRenewal owner ((renewal? owner act).getD first) acts := by
  rw [lastRenewal, lastRenewal, List.filterMap_cons]
  cases renewal? owner act with
  | none => rfl
  | some t => exact List.getLastD_cons

/-- After a sweep that has taken the record there is no renewal in time. -/
theorem Heartbeats.swept {t : UInt64}
    (h : Heartbeats owner ttl first (.host (.sweepExpired t) :: acts) now) (hlt : first + ttl < t) :
    lastRenewal owner first acts = first ∧ t ≤ now := by
  have hordered := (List.pairwise_cons.mp h.ordered).2
  have hlater : ∀ t' ∈ acts.filterMap time? ++ [now], t ≤ t' := (List.pairwise_cons.mp hordered).1
  have hinTime : (first :: acts.filterMap (renewal? owner)).IsChain fun t t' =>
      t'.toNat ≤ t.toNat + ttl.toNat := h.inTime
  refine ⟨?_, hlater now (List.mem_append_right _ List.mem_cons_self)⟩
  rw [lastRenewal]
  cases hrenewals : acts.filterMap (renewal? owner) with
  | nil => rfl
  | cons t' renewals =>
      rw [hrenewals] at hinTime
      have hnext : t'.toNat ≤ first.toNat + ttl.toNat := (List.isChain_cons_cons.mp hinTime).1
      obtain ⟨act, hact, hrenewal⟩ := List.mem_filterMap.mp (hrenewals ▸ List.mem_cons_self)
      have hmem : t' ∈ acts.filterMap time? :=
        List.mem_filterMap.mpr ⟨act, hact, time?_of_renewal? hrenewal⟩
      have hle := UInt64.le_iff_toNat_le.mp (hlater t' (List.mem_append_left _ hmem))
      have hsum : (first + ttl).toNat = first.toNat + ttl.toNat := by
        rw [UInt64.toNat_add, Nat.mod_eq_of_lt (h.fits first List.mem_cons_self)]
      have hexpired := UInt64.lt_iff_toNat_lt.mp hlt
      omega

/-- What is left of the lease, for as long as the owner renews it in time. -/
theorem record?_heartbeats (h : Heartbeats owner ttl first acts now)
    (hrecord : registry.record? owner = some (leased record ttl first)) :
    (Run.exec (asked embedder crypto).act registry acts).record? owner =
        some (leased record ttl (lastRenewal owner first acts)) ∨
      lastRenewal owner first acts + ttl < now ∧
        (Run.exec (asked embedder crypto).act registry acts).record? owner = none := by
  induction acts generalizing registry first with
  | nil => exact Or.inl hrecord
  | cons act acts ih =>
      rw [lastRenewal_cons]
      rcases record?_act (h.spares act List.mem_cons_self) hrecord with hkept | ⟨t, rfl, hlt, hnone⟩
      · exact ih h.tail hkept
      · right
        obtain ⟨-, hspares⟩ := List.forall_mem_cons.mp h.spares
        rw [Run.exec_cons]
        refine ⟨?_, record?_exec_none hspares hnone⟩
        obtain ⟨hlast, hle⟩ := h.swept hlt
        rw [show (renewal? owner (.host (.sweepExpired t) : Asked embedder)).getD first = first from
          rfl, hlast]
        exact UInt64.lt_of_lt_of_le hlt hle

theorem toOption_resolve (registry : Registry embedder) (id : Id) (t : UInt64) :
    (registry.resolve id t).toOption = (registry.record? id).filter fun record =>
      !leaseExpired record t && record.payload.visibility ≠ .private := by
  apply Option.ext
  intro record
  rw [toOption_eq_some, resolve_ok, Option.filter_eq_some_iff]
  simp

/-- **Heartbeats.** A record whose owner renews its lease in time is what every lookup finds, with
the lease of the last renewal, until that lease ends, and from then on it is not found; unless it is
private. -/
theorem heartbeats_resolve (h : Heartbeats owner ttl first acts now)
    (hrecord : registry.record? owner = some record) (hlease : record.payload.lease.isSome = true)
    (key : Nat × Bytes) (values values' : List (Stored embedder)) (caller : Id) :
    ((Run.exec (asked embedder crypto).act registry
        (.call key owner (.renew ttl) first values :: acts)).ask crypto caller now values'
          (.resolve owner)).1 =
      .ok (.found (if record.payload.visibility ≠ .private ∧
          now ≤ lastRenewal owner first acts + ttl then
        some (leased record ttl (lastRenewal owner first acts)) else none)) := by
  obtain ⟨lease, hlease⟩ := Option.isSome_iff_exists.mp hlease
  have hfirst : ((asked embedder crypto).act registry
      (.call key owner (.renew ttl) first values)).record? owner =
        some (leased record ttl first) := by
    show (registry.ask crypto owner first values (.renew ttl)).2.record? owner = _
    rw [ask_renew, record?_renew hrecord hlease]
    rfl
  rw [Run.exec_cons, Registry.ask, toOption_resolve]
  rcases record?_heartbeats h hfirst with hkept | ⟨hlt, hnone⟩
  · have hlive : leaseExpired (leased record ttl (lastRenewal owner first acts)) now = false ↔
        now ≤ lastRenewal owner first acts + ttl :=
      leaseExpired_setLease
    rw [hkept, Option.filter_some]
    refine congrArg (fun found => Except.ok (ClientAnswer.found found)) (if_congr ?_ rfl rfl)
    rw [Bool.and_eq_true, Bool.not_eq_true', hlive, decide_eq_true_eq]
    exact and_comm
  · rw [hnone, if_neg fun hboth => absurd hboth.2 (UInt64.not_le.mpr hlt)]
    rfl

/-! ### A lease that is renewed once more -/

def renewedTwice : List (Asked .exact) :=
  [.host (.sweepExpired 60), .call (0, [8]) ownerRoot.id (.renew 50) 65 [],
   .call (1, [7]) ⟨[9]⟩ .deregister 70 [], .host (.sweepExpired 100)]

/-- It ends at 115, so that it is found at 110. -/
theorem heartbeats_resolve_twice :
    ((Run.exec (asked .exact .checked).act published
        (.call (0, [7]) ownerRoot.id (.renew 50) 20 [] :: renewedTwice)).ask .checked ⟨[9]⟩ 110 []
          (.resolve ownerRoot.id)).1 =
      .ok (.found (some (leased (versioned 2 100 5) 50 65))) := by
  have hspares : ∀ act ∈ renewedTwice, Spares ownerRoot.id 50 act := by
    simp only [renewedTwice, List.forall_mem_cons]
    refine ⟨(Option.some_ne_none _).symm, fun _ => Or.inl rfl, ?_, (Option.some_ne_none _).symm,
      List.forall_mem_nil _⟩
    intro heq
    exact absurd heq (by decide)
  have hrenewals : renewedTwice.filterMap (renewal? ownerRoot.id) = [65] := by decide +kernel
  have hbeats : Heartbeats ownerRoot.id 50 20 renewedTwice 110 := by
    refine ⟨hspares, by decide +kernel, by decide +kernel, ?_⟩
    rw [hrenewals, List.forall_mem_cons, List.forall_mem_singleton]
    exact ⟨by decide +kernel, by decide +kernel⟩
  have hvisible : (versioned 2 100 5).payload.visibility ≠ .private := by decide +kernel
  have hlast : lastRenewal ownerRoot.id 20 renewedTwice = 65 := by decide +kernel
  rw [heartbeats_resolve hbeats published_record rfl, hlast,
    if_pos ⟨hvisible, by decide⟩]

end Thicket.Directory
