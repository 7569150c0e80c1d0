import Mathlib.Algebra.BigOperators.Pi
import Mathlib.Algebra.Group.Pi.Lemmas
import Mathlib.Data.Fintype.Prod
import Mathlib.Data.UInt
import ScriptCoverage.Proofs.Recording.Fresh

/-!
Sums over all counters. A sum over every address of every contract is additive in the
amounts, so what a collector holds in all follows from what was added to it, however the
amounts went into counters on the way: the hits of a trace add as many as there are, and its
branches add one outcome each.
-/

namespace ScriptCoverage

open scoped BigOperators

theorem sum_map_indicator {α : Type} (p : α → Bool) (items : List α) :
    (items.map fun item => if p item then 1 else 0).sum = items.countP p := by
  induction items with
  | nil => rfl
  | cons item rest ih => rw [List.map_cons, List.sum_cons, ih, List.countP_cons, Nat.add_comm]

section Weights

variable {ι M N : Type} [Fintype ι] [AddCommMonoid N]

/-- An additive weight of amounts, summed over all keys. -/
def weighAll [AddZeroClass M] (weight : M →+ N) : (ι → M) →+ N :=
  ∑ key, weight.comp (Pi.evalAddMonoidHom (fun _ => M) key)

theorem weighAll_apply [AddZeroClass M] (weight : M →+ N) (amounts : ι → M) :
    weighAll weight amounts = ∑ key, weight (amounts key) := by
  simp [weighAll]

theorem weighAll_single [AddZeroClass M] [DecidableEq ι] (weight : M →+ N) (key : ι) (amount : M) :
    weighAll weight (Pi.single key amount : ι → M) = weight amount := by
  rw [weighAll_apply, Finset.sum_eq_single key, Pi.single_eq_same]
  · intro other _ hother
    rw [Pi.single_eq_of_ne hother, map_zero]
  · intro habsent
    exact absurd (Finset.mem_univ key) habsent

/-- The weight of what a map holds is the sum over its values. -/
theorem weighAll_amount [AddMonoid M] [Ord ι] [Std.TransOrd ι] [Std.LawfulEqOrd ι]
    [DecidableEq ι] {α : Type} (weight : WithZero M →+ N) (value : α → M)
    (map : OrderedMap ι α) :
    weighAll weight (map.amount value) = (map.values.map fun held => weight (value held)).sum := by
  rw [← OrderedMap.sum_entries value map, map_list_sum, List.map_map, OrderedMap.values,
    List.map_map]
  refine congrArg List.sum (List.map_congr_left fun entry _ => ?_)
  exact weighAll_single weight entry.1 _

end Weights

noncomputable instance fintypeWord32 : Fintype UInt32 :=
  .ofInjective UInt32.toFin fun _ _ => UInt32.toFin_inj.mp

noncomputable instance fintypeWord64 : Fintype UInt64 :=
  .ofInjective UInt64.toFin fun _ _ => UInt64.toFin_inj.mp

noncomputable instance fintypeContractHash : Fintype ContractHash :=
  .ofInjective (fun hash => (hash.low, hash.mid, hash.high)) fun
    | ⟨_, _, _⟩, ⟨_, _, _⟩, rfl => rfl

namespace Counters

/-- All hits together. -/
def hitSum (counters : Counters) : ℕ :=
  (counters.hits.values.map UInt32.toNat).sum

/-- All outcomes of branches together. -/
def outcomeSum (counters : Counters) : ℕ :=
  (counters.branches.values.map fun count => count.taken.toNat + count.continued.toNat).sum

end Counters

namespace Amount

def hitWeight : Amount →+ ℕ :=
  (WithZero.lift (AddHom.id ℕ)).comp (AddMonoidHom.fst _ _)

def outcomeWeight : Amount →+ ℕ :=
  (WithZero.lift (AddMonoidHom.fst ℕ ℕ + AddMonoidHom.snd ℕ ℕ).toAddHom).comp
    (AddMonoidHom.snd _ _)

theorem outcomeWeight_eq (amount : Amount) :
    outcomeWeight amount = amount.outcomes.1 + amount.outcomes.2 := by
  obtain ⟨hits, outcomes⟩ := amount
  cases outcomes <;> rfl

end Amount

namespace Totals

noncomputable def hitWeight : Totals →+ ℕ :=
  weighAll Amount.hitWeight

noncomputable def outcomeWeight : Totals →+ ℕ :=
  weighAll Amount.outcomeWeight

/-- Totals weigh in one part what the map of this part holds. -/
theorem weighAll_part {M α : Type} [AddMonoid M] (weight : WithZero M →+ ℕ)
    {part : Amount →+ WithZero M} (value : α → M) (map : OrderedMap UInt32 α) {totals : Totals}
    (hpart : ∀ address, part (totals address) = map.amount value address) :
    weighAll (weight.comp part) totals = (map.values.map fun held => weight (value held)).sum := by
  rw [← weighAll_amount, weighAll_apply, weighAll_apply]
  refine Finset.sum_congr rfl fun address _ => ?_
  rw [AddMonoidHom.comp_apply, hpart]

theorem hitWeight_totals (counters : Counters) : hitWeight counters.totals = counters.hitSum :=
  weighAll_part _ UInt32.toNat counters.hits fun _ => rfl

theorem outcomeWeight_totals (counters : Counters) :
    outcomeWeight counters.totals = counters.outcomeSum :=
  weighAll_part _ BranchCount.amounts counters.branches fun _ => rfl

end Totals

namespace Counters

theorem sum_hitCount (counters : Counters) :
    ∑ address, (counters.hitCount address).toNat = counters.hitSum := by
  rw [← Totals.hitWeight_totals, Totals.hitWeight, weighAll_apply]
  exact Finset.sum_congr rfl fun address _ => (hits_totals counters address).symm

theorem sum_branchCount (counters : Counters) :
    ∑ address, ((counters.branchCount address).taken.toNat +
      (counters.branchCount address).continued.toNat) = counters.outcomeSum := by
  rw [← Totals.outcomeWeight_totals, Totals.outcomeWeight, weighAll_apply]
  refine Finset.sum_congr rfl fun address _ => ?_
  rw [Amount.outcomeWeight_eq, outcomes_totals]
  rfl

end Counters

namespace Amounts

/-- An additive weight of totals, summed over all contracts. -/
noncomputable def weigh (weight : Totals →+ ℕ) : Amounts →+ ℕ :=
  weighAll (WithZero.lift weight.toAddHom)

theorem weigh_single (weight : Totals →+ ℕ) (hash : ContractHash) (counters : Counters) :
    weigh weight (single hash counters) = weight counters.totals := by
  rw [weigh, single, weighAll_single]
  rfl

/-- Contracts without amounts weigh nothing. -/
theorem weigh_congr (weight : Totals →+ ℕ) {x y : Amounts}
    (h : ∀ hash, x.totals hash = y.totals hash) : weigh weight x = weigh weight y := by
  have hlift (amount : WithZero Totals) : WithZero.lift weight.toAddHom amount =
      weight (WithZero.lift (AddHom.id Totals) amount) := by
    cases amount with
    | zero => rw [map_zero, map_zero, map_zero]
    | coe totals => rfl
  rw [weigh, weighAll_apply, weighAll_apply]
  refine Finset.sum_congr rfl fun hash _ => ?_
  rw [hlift, hlift]
  exact congrArg weight (h hash)

end Amounts

theorem Trace.weigh_amounts (weight : Totals →+ ℕ) (records : List Attributed) :
    Amounts.weigh weight (Trace.amounts records) =
      (records.map fun entry => weight entry.2.counters.totals).sum := by
  rw [Trace.amounts, map_list_sum, List.map_map]
  refine congrArg List.sum (List.map_congr_left fun entry _ => ?_)
  exact Amounts.weigh_single weight entry.1 _

namespace Collector

def hitSum (collector : Collector) : ℕ :=
  (collector.recordings.map fun recording => recording.counters.hitSum).sum

def outcomeSum (collector : Collector) : ℕ :=
  (collector.recordings.map fun recording => recording.counters.outcomeSum).sum

theorem weigh_tally (weight : Totals →+ ℕ) (collector : Collector) :
    Amounts.weigh weight collector.tally =
      (collector.recordings.map fun recording => weight recording.counters.totals).sum := by
  rw [Amounts.weigh, tally, weighAll_amount]
  rfl

variable {before after : Collector}

/-- The counters of a collector that was fresh weigh as much as there are records, of those
that weigh one. -/
theorem IsFresh.weigh_of_adds (h : before.IsFresh) {traces : List (List Attributed)}
    (hadds : before.Adds (traces.map Trace.amounts).sum after) {weight : Totals →+ ℕ}
    {weighs : DataRecord → Bool}
    (hweighs : ∀ data, weight data.counters.totals = if weighs data then 1 else 0) :
    (after.recordings.map fun recording => weight recording.counters.totals).sum =
      (traces.map fun records => records.countP fun entry => weighs entry.2).sum := by
  rw [← weigh_tally, Amounts.weigh_congr weight (h.totals_tally_of_adds hadds), map_list_sum,
    List.map_map]
  refine congrArg List.sum (List.map_congr_left fun records _ => ?_)
  rw [Function.comp_apply, Trace.weigh_amounts, ← sum_map_indicator]
  exact congrArg List.sum (List.map_congr_left fun entry _ => hweighs entry.2)

end Collector

namespace DataRecord

theorem hitWeight_counters (data : DataRecord) :
    Totals.hitWeight data.counters.totals = if data.isHit then 1 else 0 := by
  rw [Totals.hitWeight_totals]
  cases data <;> rfl

/-- A branch adds one outcome, whichever it is. -/
theorem outcomeWeight_counters (data : DataRecord) :
    Totals.outcomeWeight data.counters.totals = if !data.isHit then 1 else 0 := by
  rw [Totals.outcomeWeight_totals]
  cases data with
  | hit address => rfl
  | branch address offset result =>
      rw [counters]
      split <;> rfl

end DataRecord

namespace Collector

variable {before after : Collector} {traces : List (List Attributed)}

/-- Every hit that was added stands in a counter, once. -/
theorem IsFresh.hitSum_of_adds (h : before.IsFresh)
    (hadds : before.Adds (traces.map Trace.amounts).sum after) :
    after.hitSum = (traces.map Trace.hits).sum := by
  have hweight := h.weigh_of_adds hadds DataRecord.hitWeight_counters
  simp only [Totals.hitWeight_totals] at hweight
  exact hweight

/-- Every branch that was added stands in a counter, as one outcome. -/
theorem IsFresh.outcomeSum_of_adds (h : before.IsFresh)
    (hadds : before.Adds (traces.map Trace.amounts).sum after) :
    after.outcomeSum = (traces.map Trace.branches).sum := by
  have hweight := h.weigh_of_adds hadds DataRecord.outcomeWeight_counters
  simp only [Totals.outcomeWeight_totals] at hweight
  exact hweight

end Collector

end ScriptCoverage
