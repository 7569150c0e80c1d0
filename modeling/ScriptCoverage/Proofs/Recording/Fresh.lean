import ScriptCoverage.Proofs.Recording.History
import ScriptCoverage.Proofs.Recording.Order

/-!
Collectors that agree. Recording looks at which contracts are registered and at their
counters, never at names, symbols or scripts: what one collector can take, another one
with the same counters can take as well. Fresh collectors, in which contracts are
registered and nothing is counted, agree as soon as they know the same contracts.
-/

namespace ScriptCoverage.Collector

variable {before after : Collector} {amounts : Amounts}

/-- The counters of a contract, if it is registered. -/
def counters (collector : Collector) (hash : ContractHash) : Option Counters :=
  (collector.get? hash).map (·.counters)

theorem contains_of_counters {x y : Collector} (hsame : x.counters = y.counters) :
    x.contains = y.contains := by
  funext hash
  have hhash := congrArg Option.isSome (congrFun hsame hash)
  rwa [counters, counters, Option.isSome_map, Option.isSome_map] at hhash

/-- What can be added to one collector can be added to another with the same counters. -/
theorem Adds.transfer {x y x' : Collector} (hadds : x.Adds amounts x')
    (hsame : x.counters = y.counters) :
    ∃ y', y.Adds amounts y' ∧ x'.counters = y'.counters := by
  let written : Collector := ⟨y.contracts.mapEntries fun hash recording =>
    { recording with counters := (x'.counters hash).getD recording.counters }⟩
  have hwritten (hash : ContractHash) : written.get? hash = (y.get? hash).map fun recording =>
      { recording with counters := (x'.counters hash).getD recording.counters } :=
    OrderedMap.get?_mapEntries _ y.contracts hash
  have hsame' (hash : ContractHash) : (x.get? hash).map (·.counters) =
      (y.get? hash).map (·.counters) := congrFun hsame hash
  refine ⟨written, fun hash => ?_, funext fun hash => ?_⟩
  · have hhash := hsame' hash
    cases hy : y.get? hash with
    | none =>
        rw [hy, Option.map_none, Option.map_eq_none_iff] at hhash
        exact ⟨(hadds.of_none hhash).1, by rw [hwritten, hy, Option.map_none]⟩
    | some recording =>
        rw [hy, Option.map_some, Option.map_eq_some_iff] at hhash
        obtain ⟨source, hx, hcounters⟩ := hhash
        obtain ⟨sum, hx', htotals⟩ := hadds.of_some hx
        refine ⟨sum, ?_, by rw [htotals, hcounters]⟩
        rw [hwritten, hy, counters, hx']
        rfl
  · have hhash := hsame' hash
    rw [counters, counters, hwritten, Option.map_map]
    cases hy : y.get? hash with
    | none =>
        rw [hy, Option.map_none, Option.map_eq_none_iff] at hhash
        rw [(hadds.of_none hhash).2]
        rfl
    | some recording =>
        rw [hy, Option.map_some, Option.map_eq_some_iff] at hhash
        obtain ⟨source, hx, -⟩ := hhash
        obtain ⟨sum, hx', -⟩ := hadds.of_some hx
        rw [counters, hx']
        rfl

theorem applyTraces_transfer {x y x' : Collector} {traces : List (List TraceRecord)}
    (hrun : (applyTraces traces).run x = (.ok (), x')) (hsame : x.counters = y.counters) :
    ∃ y', (applyTraces traces).run y = (.ok (), y') ∧ x'.counters = y'.counters := by
  obtain ⟨hconsistent, hadds⟩ := applyTraces_eq_ok_iff.mp hrun
  rw [counted_of_contains (contains_of_counters hsame)] at hconsistent hadds
  obtain ⟨y', hadds', hsame'⟩ := hadds.transfer hsame
  exact ⟨y', applyTraces_eq_ok_iff.mpr ⟨hconsistent, hadds'⟩, hsame'⟩

/-- Amounts add alike if they agree on registered contracts and spare the others. -/
theorem adds_congr {amounts' : Amounts}
    (htotals : ∀ hash, amounts.totals hash = amounts'.totals hash)
    (hzero : ∀ hash, before.get? hash = none → amounts hash = 0 ∧ amounts' hash = 0) :
    before.Adds amounts after ↔ before.Adds amounts' after := by
  refine forall_congr' fun hash => ?_
  cases hget : before.get? hash with
  | none =>
      obtain ⟨hx, hy⟩ := hzero hash hget
      rw [hx, hy]
  | some recording => rw [htotals hash]

/-- Every contract is registered under its own hash. -/
def IsKeyed (collector : Collector) : Prop :=
  ∀ hash recording, collector.get? hash = some recording → recording.hash = hash

theorem Adds.isKeyed (hadds : before.Adds amounts after) (hkeyed : before.IsKeyed) :
    after.IsKeyed := by
  intro hash recording hafter
  cases hget : before.get? hash with
  | none =>
      rw [(hadds.of_none hget).2] at hafter
      cases hafter
  | some source =>
      obtain ⟨sum, hsum, -⟩ := hadds.of_some hget
      rw [hsum] at hafter
      cases hafter
      exact hkeyed hash source hget

/-- Contracts are registered, with or without scripts, and nothing is counted. -/
structure IsFresh (collector : Collector) : Prop where
  keyed : collector.IsKeyed
  uncounted : ∀ hash recording, collector.get? hash = some recording →
    recording.counters = .empty

theorem isFresh_empty : empty.IsFresh where
  keyed := fun _ _ h => by cases h
  uncounted := fun _ _ h => by cases h

/-- Contracts without counters keep a collector fresh. -/
theorem IsFresh.insert (h : before.IsFresh) {recording : Recording}
    (huncounted : recording.counters = .empty) :
    IsFresh ⟨before.contracts.insert recording.hash recording⟩ where
  keyed := by
    intro hash found hget
    rw [get?_insert] at hget
    split at hget
    · rename_i heq
      cases hget
      exact heq.symm
    · exact h.keyed hash found hget
  uncounted := by
    intro hash found hget
    rw [get?_insert] at hget
    split at hget
    · cases hget
      exact huncounted
    · exact h.uncounted hash found hget

theorem IsFresh.addContract (h : before.IsFresh) (name : String) (symbols : SymbolTable)
    (declared : Option ContractHash) :
    ((Collector.addContract name symbols declared).run before).2.IsFresh := by
  rcases run_addContract name symbols declared before with hsame | ⟨-, hnew⟩
  · rwa [hsame]
  · rw [hnew]
    have huncounted : (Recording.new name symbols).counters = .empty := rfl
    exact h.insert huncounted

theorem IsFresh.counters_eq (h : before.IsFresh) (hash : ContractHash) :
    before.counters hash = if before.contains hash then some .empty else none := by
  rw [counters, contains, OrderedMap.contains]
  change (before.get? hash).map _ = if (before.get? hash).isSome then _ else _
  cases hget : before.get? hash with
  | none => rfl
  | some recording => exact congrArg some (h.uncounted hash recording hget)

/-- Fresh collectors agree when they know the same contracts. -/
theorem IsFresh.counters_congr {x y : Collector} (hx : x.IsFresh) (hy : y.IsFresh)
    (hsame : x.contains = y.contains) : x.counters = y.counters := by
  funext hash
  rw [hx.counters_eq, hy.counters_eq, hsame]

/-- All that a collector has counted. -/
def tally (collector : Collector) : Amounts :=
  OrderedMap.amount (fun recording => recording.counters.totals) collector.contracts

theorem tally_of_none {collector : Collector} {hash : ContractHash}
    (hget : collector.get? hash = none) : collector.tally hash = 0 :=
  OrderedMap.amount_of_none hget

theorem totals_tally {collector : Collector} {hash : ContractHash} {recording : Recording}
    (hget : collector.get? hash = some recording) :
    collector.tally.totals hash = recording.counters.totals := by
  have hheld : collector.tally hash = (recording.counters.totals : WithZero Totals) :=
    OrderedMap.amount_of_some hget
  rw [Amounts.totals, hheld]
  rfl

/-- A collector that was fresh has counted the same as what was added to it, but for zeros
at contracts that nothing was added to. -/
theorem IsFresh.totals_tally_of_adds (h : before.IsFresh) (hadds : before.Adds amounts after)
    (hash : ContractHash) : after.tally.totals hash = amounts.totals hash := by
  cases hsource : before.get? hash with
  | none =>
      obtain ⟨hzero, hnone⟩ := hadds.of_none hsource
      rw [Amounts.totals_of_eq_zero (tally_of_none hnone), Amounts.totals_of_eq_zero hzero]
  | some source =>
      obtain ⟨sum, hsum, htotals⟩ := hadds.of_some hsource
      rw [totals_tally hsum, htotals, h.uncounted hash source hsource, Counters.totals_empty,
        zero_add]

/-- The counters of a collector that was fresh are what was added to it. -/
theorem IsFresh.totals_counters_of_adds (h : before.IsFresh) (hadds : before.Adds amounts after)
    (hash : ContractHash) : ((after.counters hash).getD .empty).totals = amounts.totals hash := by
  rw [← h.totals_tally_of_adds hadds hash, counters]
  cases hget : after.get? hash with
  | none =>
      rw [Amounts.totals_of_eq_zero (tally_of_none hget)]
      exact Counters.totals_empty
  | some recording => exact (totals_tally hget).symm

/-- What was added to a fresh collector, and what the collector has then counted, add alike
to another one with the same contracts. -/
theorem IsFresh.adds_tally_iff {target merged : Collector} (h : before.IsFresh)
    (hadds : before.Adds amounts after) (hcontains : target.contains = before.contains) :
    target.Adds after.tally merged ↔ target.Adds amounts merged := by
  refine adds_congr (h.totals_tally_of_adds hadds) fun hash hget => ?_
  have hregistered : (target.get? hash).isSome = (before.get? hash).isSome :=
    congrFun hcontains hash
  rw [hget, Option.isSome_none] at hregistered
  have hbefore : before.get? hash = none :=
    Option.isNone_iff_eq_none.mp (Option.isSome_eq_false_iff.mp hregistered.symm)
  obtain ⟨hzero, hafter⟩ := hadds.of_none hbefore
  exact ⟨tally_of_none hafter, hzero⟩

theorem IsFresh.hasNoZero (h : before.IsFresh) (hash : ContractHash) : before.HasNoZero hash := by
  intro recording hget
  rw [h.uncounted hash recording hget]
  exact Counters.hasNoZero_empty

end ScriptCoverage.Collector
