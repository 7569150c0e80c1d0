import Mathlib.Algebra.BigOperators.Group.List.Basic
import ScriptCoverage.Proofs.Recording.Application

/-!
Recording in another order. Amounts are summed without regard to their order, and what
applying a trace does depends only on its sum, so neither the order of the records of a
trace nor the order of traces matters: not even for whether they can be applied.
-/

namespace ScriptCoverage

namespace Trace

variable {records records' : List Attributed}

theorem amounts_perm (h : records.Perm records') : amounts records = amounts records' :=
  (h.map _).sum_eq

theorem allConsistent_perm (h : records.Perm records') :
    AllConsistent records ↔ AllConsistent records' :=
  ⟨fun hall entry hmem => hall entry (h.mem_iff.mpr hmem),
    fun hall entry hmem => hall entry (h.mem_iff.mp hmem)⟩

theorem stats_perm {data data' : List (Option ContractHash × DataRecord)}
    (howned : (owned data).Perm (owned data')) (horphans : orphans data = orphans data') :
    stats data = stats data' := by
  rw [stats, stats, hits, hits, branches, branches, howned.countP_eq, howned.countP_eq, horphans]

end Trace

namespace Collector

variable {before middle after : Collector}

theorem Additive.run_forM_perm {α : Type} {known : ContractHash → Bool}
    {step : α → Step Collector Unit} {Valid : α → Prop} {amounts : α → Amounts}
    (h : Additive known step Valid amounts) (hknown : before.contains = known)
    {items items' : List α} (hperm : items.Perm items')
    (hok : (items.forM step).run before = (.ok (), after)) :
    (items'.forM step).run before = (.ok (), after) := by
  obtain ⟨hvalid, hadds⟩ := (h.run_forM_iff hknown).mp hok
  rw [(hperm.map _).sum_eq] at hadds
  exact (h.run_forM_iff hknown).mpr
    ⟨fun item hmem => hvalid item (hperm.mem_iff.mpr hmem), hadds⟩

theorem splits_amounts (records : List Attributed) : Splits (Trace.amounts records) := by
  induction records with
  | nil => exact splits_zero
  | cons entry rest ih =>
      obtain ⟨hash, data⟩ := entry
      rw [Trace.amounts_cons]
      exact (splits_single hash data.counters).add ih

theorem counted_of_contains {x y : Collector} (h : x.contains = y.contains) :
    x.counted = y.counted := by
  unfold counted attributed
  rw [h]

/-- Applies traces one after the other. -/
def applyTraces (traces : List (List TraceRecord)) : Step Collector Unit :=
  traces.forM fun records => do
    let _ ← applyTrace records
    return ()

theorem additive_applyTrace (collector : Collector) :
    Additive collector.contains (fun records => do
        let _ ← applyTrace records
        return ())
      (fun records => Trace.AllConsistent (collector.counted records))
      (fun records => Trace.amounts (collector.counted records)) where
  splits := fun records => splits_amounts _
  run_iff := by
    intro records before after hknown
    rw [← counted_of_contains hknown, ← exists_applyTrace_iff, Step.run_bind_eq_ok]
    refine exists_congr fun answer => ⟨?_, fun happly => ⟨after, happly, rfl⟩⟩
    rintro ⟨_, happly, hreturn⟩
    cases hreturn
    exact happly

/-- Traces are applied exactly when all their records are consistent and the sum of all
their amounts can be added. -/
theorem applyTraces_eq_ok_iff {traces : List (List TraceRecord)} :
    (applyTraces traces).run before = (.ok (), after) ↔
      (∀ records ∈ traces, Trace.AllConsistent (before.counted records)) ∧
        before.Adds (traces.map fun records => Trace.amounts (before.counted records)).sum
          after :=
  (additive_applyTrace before).run_forM_iff rfl

theorem applyTraces_append_eq_ok_iff {first second : List (List TraceRecord)} :
    (applyTraces (first ++ second)).run before = (.ok (), after) ↔
      ∃ middle, (applyTraces first).run before = (.ok (), middle) ∧
        (applyTraces second).run middle = (.ok (), after) :=
  Step.run_forM_append_eq_ok

theorem applyTraces_perm {traces traces' : List (List TraceRecord)} (hperm : traces.Perm traces')
    (hok : (applyTraces traces).run before = (.ok (), after)) :
    (applyTraces traces').run before = (.ok (), after) :=
  (additive_applyTrace before).run_forM_perm rfl hperm hok

/-- Records may be reordered within a trace, as long as the same records count for the
same contracts and as many count for none, and traces may be reordered among each
other. -/
theorem recording_order_independent :
    (∀ (before after : Collector) (stats : TraceStats) (records records' : List TraceRecord),
      (before.counted records).Perm (before.counted records') →
      Trace.orphans (before.attributed records) = Trace.orphans (before.attributed records') →
      ((∃ unknown, (applyTrace records).run before = (.ok (stats, unknown), after)) ↔
        ∃ unknown, (applyTrace records').run before = (.ok (stats, unknown), after))) ∧
    (∀ (before after : Collector) (traces traces' : List (List TraceRecord)),
      traces.Perm traces' → (applyTraces traces).run before = (.ok (), after) →
      (applyTraces traces').run before = (.ok (), after)) := by
  constructor
  · intro before after stats records records' hcounted horphans
    rw [exists_applyTrace_eq_ok_iff, exists_applyTrace_eq_ok_iff,
      Trace.stats_perm hcounted horphans, Trace.allConsistent_perm hcounted,
      Trace.amounts_perm hcounted]
  · intro before after traces traces' hperm hok
    exact applyTraces_perm hperm hok

/-- A trace whose stray hit moves from the front to the end, and two traces that swap. -/
theorem recording_order_independent_shuffled :
    (∃ unknown, (applyTrace [.contract .zero, .branch 2 5 5, .hit 0, .unknownContract, .hit 7]).run
        (.sole .empty) =
      (.ok (⟨1, 1, 1⟩, unknown), .sole ⟨(∅ : OrderedMap UInt32 UInt32).insert 0 1,
        (∅ : OrderedMap UInt32 BranchCount).insert 2 ⟨1, 0⟩⟩)) ∧
      (applyTraces [[.contract .zero, .hit 3], [.contract .zero, .hit 0]]).run
          (.sole .empty) =
        (.ok (), .sole ⟨((∅ : OrderedMap UInt32 UInt32).insert 0 1).insert 3 1, ∅⟩) := by
  constructor
  · refine (recording_order_independent.1 _ _ _
      [.hit 9, .contract .zero, .hit 0, .branch 2 5 5] _ ?_ ?_).mp ⟨[], ?_⟩
    · decide
    · decide
    · rfl
  · refine recording_order_independent.2 _ _
      [[.contract .zero, .hit 0], [.contract .zero, .hit 3]] _ ?_ ?_
    · decide
    · rfl

end Collector

end ScriptCoverage
