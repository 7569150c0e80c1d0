import ScriptCoverage.Proofs.Recording.Fresh
import ScriptCoverage.Proofs.Report.RawDump

/-!
Collecting in shards. Each share of the traces is recorded in a collector of its own,
and the dumps of all these collectors are merged into one more. The dumps of a shard
stand for its traces: merging them into a collector adds what applying the traces there
would add. So the merged counters are those of one collector that saw every trace.
-/

namespace ScriptCoverage

/-- What merging the text of a dump adds; nothing for a text that is none. -/
def RawDump.amounts (text : List Char) : Amounts :=
  match parse text with
  | .ok dump => .single dump.hash dump.counters
  | .error _ => 0

namespace Collector

variable {before after target merged shard result : Collector}

/-- The dumps of all contracts, by ascending hash. -/
def dumps (collector : Collector) : List (List Char) :=
  collector.recordings.map fun recording => RawDump.ofTree (.ofRecording recording)

/-- Reads a dump and merges it into its contract. -/
def mergeDump (text : List Char) : Step Collector Unit := do
  let dump ← (RawDump.parse text).mapError CoverageError.format
  applyRaw dump

/-- Merges dumps one after the other. -/
def mergeDumps (texts : List (List Char)) : Step Collector Unit :=
  texts.forM mergeDump

theorem additive_mergeDump (known : ContractHash → Bool) :
    Additive known mergeDump (fun text => ∃ dump, RawDump.parse text = .ok dump)
      RawDump.amounts where
  splits := by
    intro text
    rw [RawDump.amounts]
    cases RawDump.parse text with
    | ok dump => exact splits_single dump.hash dump.counters
    | error e => exact splits_zero
  run_iff := by
    intro text before after _
    rw [mergeDump, RawDump.amounts, Step.run_bind, Step.run_lift]
    cases RawDump.parse text with
    | error e => simp [Except.mapError]
    | ok dump =>
        rw [← applyRaw_eq_ok_iff]
        simp [Except.mapError]

/-- Dumps are merged exactly when all of them are dumps and the sum of their amounts can
be added. -/
theorem mergeDumps_eq_ok_iff {texts : List (List Char)} :
    (mergeDumps texts).run before = (.ok (), after) ↔
      (∀ text ∈ texts, ∃ dump, RawDump.parse text = .ok dump) ∧
        before.Adds (texts.map RawDump.amounts).sum after :=
  (additive_mergeDump before.contains).run_forM_iff rfl

theorem mergeDumps_perm {texts texts' : List (List Char)} (hperm : texts.Perm texts')
    (hok : (mergeDumps texts).run before = (.ok (), after)) :
    (mergeDumps texts').run before = (.ok (), after) :=
  (additive_mergeDump before.contains).run_forM_perm rfl hperm hok

theorem mergeDumps_append_eq_ok_iff {first second : List (List Char)} :
    (mergeDumps (first ++ second)).run before = (.ok (), after) ↔
      ∃ middle, (mergeDumps first).run before = (.ok (), middle) ∧
        (mergeDumps second).run middle = (.ok (), after) :=
  Step.run_forM_append_eq_ok

/-- The dumps of a collector amount to all its counters, if none of them is zero. -/
theorem sum_amounts_dumps (hkeyed : after.IsKeyed) (hzero : ∀ hash, after.HasNoZero hash) :
    (after.dumps.map RawDump.amounts).sum = after.tally := by
  have hentry : ∀ entry ∈ after.contracts.entries,
      RawDump.amounts (RawDump.ofTree (.ofRecording entry.2)) =
        Pi.single entry.1 (entry.2.counters.totals : WithZero Totals) := by
    intro entry hmem
    have hget : after.get? entry.1 = some entry.2 := OrderedMap.get?_eq_some_iff.mpr hmem
    have hnonzero := Counters.nonzero_of_hasNoZero (hzero entry.1 entry.2 hget)
    rw [RawDump.amounts, RawDump.parse_ofTree, hnonzero]
    exact congrArg (Amounts.single · entry.2.counters) (hkeyed entry.1 entry.2 hget)
  have hdumps : after.dumps.map RawDump.amounts = after.contracts.entries.map fun entry =>
      Pi.single entry.1 (entry.2.counters.totals : WithZero Totals) := by
    rw [dumps, recordings, OrderedMap.values, List.map_map, List.map_map]
    refine List.map_congr_left fun entry hmem => ?_
    rw [Function.comp_apply, Function.comp_apply]
    exact hentry entry hmem
  rw [hdumps]
  exact OrderedMap.sum_entries (fun recording => recording.counters.totals) after.contracts

theorem exists_parse_of_mem_dumps {text : List Char} (h : text ∈ after.dumps) :
    ∃ dump, RawDump.parse text = .ok dump := by
  obtain ⟨recording, -, rfl⟩ := List.mem_map.mp h
  exact ⟨_, RawDump.parse_ofTree recording⟩

theorem hasNoZero_applyTraces {traces : List (List TraceRecord)} {hash : ContractHash}
    (h : before.HasNoZero hash) (hok : (applyTraces traces).run before = (.ok (), after)) :
    after.HasNoZero hash := by
  induction traces generalizing before with
  | nil =>
      cases hok
      exact h
  | cons records rest ih =>
      obtain ⟨middle, htrace, hrest⟩ := Step.run_forM_cons_eq_ok.mp hok
      obtain ⟨answer, _, happly, hreturn⟩ := Step.run_bind_eq_ok.mp htrace
      cases hreturn
      have hmiddle := hasNoZero_applyTrace h records
      rw [happly] at hmiddle
      exact ih hmiddle hrest

/-- The dumps of a shard stand for the traces that it saw: merged into a collector with
the same contracts, they do what applying the traces does. -/
theorem mergeDumps_dumps_iff {traces : List (List TraceRecord)} (hfresh : shard.IsFresh)
    (hcollected : (applyTraces traces).run shard = (.ok (), result))
    (hcontains : target.contains = shard.contains) :
    (mergeDumps result.dumps).run target = (.ok (), merged) ↔
      (applyTraces traces).run target = (.ok (), merged) := by
  have hzero : ∀ hash, result.HasNoZero hash := fun hash =>
    hasNoZero_applyTraces (hfresh.hasNoZero hash) hcollected
  obtain ⟨hconsistent, hadds⟩ := applyTraces_eq_ok_iff.mp hcollected
  rw [← counted_of_contains hcontains] at hconsistent hadds
  rw [mergeDumps_eq_ok_iff, applyTraces_eq_ok_iff,
    sum_amounts_dumps (hadds.isKeyed hfresh.keyed) hzero, and_iff_right hconsistent,
    and_iff_right fun _ => exists_parse_of_mem_dumps]
  exact hfresh.adds_tally_iff hadds hcontains

theorem contains_of_applyTraces {traces : List (List TraceRecord)}
    (hok : (applyTraces traces).run before = (.ok (), after)) :
    after.contains = before.contains :=
  funext (applyTraces_eq_ok_iff.mp hok).2.contains

end Collector

open Collector

/-- A share of the traces, and the collector that is to record it. -/
structure Shard where
  collector : Collector
  traces : List (List TraceRecord)

namespace Shard

/-- All traces of the shard are recorded, and leave this collector. -/
def Collects (shard : Shard) (result : Collector) : Prop :=
  (applyTraces shard.traces).run shard.collector = (.ok (), result)

/-- A shard that starts from the contracts of another fresh collector. -/
structure StartsLike (shard : Shard) (single : Collector) : Prop where
  fresh : shard.collector.IsFresh
  contains : shard.collector.contains = single.contains

variable {single target merged : Collector} {shards : List Shard} {results : List Collector}

/-- A shard can record its share if one collector can record all traces. -/
theorem exists_collects {shard : Shard} {after : Collector} (hsingle : single.IsFresh)
    (hshard : shard.StartsLike single)
    (hall : (applyTraces (shards.flatMap (·.traces))).run single = (.ok (), after))
    (hmem : shard ∈ shards) : ∃ result, shard.Collects result := by
  obtain ⟨earlier, later, rfl⟩ := List.append_of_mem hmem
  have hfront : ((earlier ++ shard :: later).flatMap (·.traces)).Perm
      (shard.traces ++ (earlier.flatMap (·.traces) ++ later.flatMap (·.traces))) := by
    rw [List.flatMap_append, List.flatMap_cons]
    exact List.perm_append_comm_assoc _ _ _
  obtain ⟨middle, hshare, -⟩ := applyTraces_append_eq_ok_iff.mp (applyTraces_perm hfront hall)
  have hsame := hsingle.counters_congr hshard.fresh hshard.contains.symm
  obtain ⟨result, hresult, -⟩ := applyTraces_transfer hshare hsame
  exact ⟨result, hresult⟩

/-- Merging the dumps of all shards does what applying all their traces does. -/
theorem mergeDumps_flatMap_iff (hcollected : List.Forall₂ Collects shards results)
    (hshards : ∀ shard ∈ shards, shard.StartsLike target) :
    (mergeDumps (results.flatMap dumps)).run target = (.ok (), merged) ↔
      (applyTraces (shards.flatMap (·.traces))).run target = (.ok (), merged) := by
  induction hcollected generalizing target with
  | nil => rfl
  | cons hcollects hrest ih =>
      obtain ⟨hfirst, hlater⟩ := List.forall_mem_cons.mp hshards
      rw [List.flatMap_cons, List.flatMap_cons, mergeDumps_append_eq_ok_iff,
        applyTraces_append_eq_ok_iff]
      refine exists_congr fun middle => ?_
      rw [mergeDumps_dumps_iff hfirst.fresh hcollects hfirst.contains.symm]
      refine and_congr_right fun happlied => ih fun shard hmem => ?_
      have hcontains := (hlater shard hmem).contains
      rw [← contains_of_applyTraces happlied] at hcontains
      exact ⟨(hlater shard hmem).fresh, hcontains⟩

/-- Shards collect what one collector collects. However traces are divided among fresh
collectors with the same contracts, with or without scripts: if one of them can record all
the traces, then every shard can record its share, the dumps of all shards can be merged
into a fresh collector in any order, and that leaves every contract with the counters that
it has after recording all traces in one place. -/
theorem sharded_collection_eq_single {single target after : Collector} {shards : List Shard}
    {traces : List (List TraceRecord)} (hsingle : single.IsFresh) (htarget : target.IsFresh)
    (hcontains : target.contains = single.contains)
    (hshards : ∀ shard ∈ shards, shard.StartsLike single)
    (hdivided : (shards.flatMap (·.traces)).Perm traces)
    (happlied : (applyTraces traces).run single = (.ok (), after)) :
    ∃ results, List.Forall₂ Collects shards results ∧
      ∀ texts, texts.Perm (results.flatMap dumps) →
        ∃ merged, (mergeDumps texts).run target = (.ok (), merged) ∧
          merged.counters = after.counters := by
  have hall := applyTraces_perm hdivided.symm happlied
  have hcollect : ∀ shard ∈ shards,
      shard.Collects ((applyTraces shard.traces).run shard.collector).2 := by
    intro shard hmem
    obtain ⟨result, hresult⟩ := exists_collects hsingle (hshards shard hmem) hall hmem
    rw [Collects, hresult]
  obtain ⟨results, hcollected⟩ : ∃ results, List.Forall₂ Collects shards results :=
    ⟨_, List.forall₂_map_right_iff.mpr (List.forall₂_same.mpr hcollect)⟩
  refine ⟨results, hcollected, fun texts hperm => ?_⟩
  obtain ⟨merged, hmerged, hcounters⟩ :=
    applyTraces_transfer hall (hsingle.counters_congr htarget hcontains.symm)
  have hlike : ∀ shard ∈ shards, shard.StartsLike target := fun shard hmem =>
    ⟨(hshards shard hmem).fresh, (hshards shard hmem).contains.trans hcontains.symm⟩
  have hdumps := (mergeDumps_flatMap_iff hcollected hlike).mpr hmerged
  exact ⟨merged, mergeDumps_perm hperm.symm hdumps, hcounters.symm⟩

/-- Three shards, one of them with a script and one without traces. Both of the others hit
address 3, and one takes a branch at an address that is no instruction. -/
theorem sharded_collection_eq_single_three :
    ∃ script : Script, script.bytes = [0x21, 0x40] ∧
      ∃ results, List.Forall₂ Collects
          [⟨sole .empty, [[.contract .zero, .hit 3]]⟩,
            ⟨⟨(∅ : OrderedMap ContractHash Recording).insert .zero
              ⟨"Token", ⟨.zero, none, [], []⟩, some script, .empty⟩⟩,
              [[.contract .zero, .branch 2 5 5, .hit 3]]⟩,
            ⟨sole .empty, []⟩] results ∧
        ∀ texts, texts.Perm (results.flatMap dumps) →
          ∃ merged, (mergeDumps texts).run (sole .empty) = (.ok (), merged) ∧
            merged.counters = (sole ⟨(∅ : OrderedMap UInt32 UInt32).insert 3 2,
              (∅ : OrderedMap UInt32 BranchCount).insert 2 ⟨1, 0⟩⟩).counters := by
  have hread : disassemble [0x21, 0x40] = ⟨[(0, ⟨0x21, [], 1⟩), (1, ⟨0x40, [], 1⟩)], none⟩ := by
    decide +kernel
  have hfresh (script : Option Script) : IsFresh ⟨(∅ : OrderedMap ContractHash Recording).insert
      .zero ⟨"Token", ⟨.zero, none, [], []⟩, script, .empty⟩⟩ := by
    have huncounted : Recording.counters ⟨"Token", ⟨.zero, none, [], []⟩, script, .empty⟩ =
        .empty := rfl
    exact isFresh_empty.insert huncounted
  refine ⟨⟨_, _, hread⟩, rfl, ?_⟩
  have hdivided : List.Perm
      [[TraceRecord.contract .zero, .hit 3], [.contract .zero, .branch 2 5 5, .hit 3]]
      [[.contract .zero, .branch 2 5 5, .hit 3], [.contract .zero, .hit 3]] :=
    List.Perm.swap _ _ _
  refine sharded_collection_eq_single (hfresh none) (hfresh none) rfl ?_ hdivided rfl
  intro shard hmem
  simp only [List.mem_cons, List.not_mem_nil, or_false] at hmem
  rcases hmem with rfl | rfl | rfl
  · exact ⟨hfresh none, rfl⟩
  · refine ⟨hfresh _, funext fun hash => ?_⟩
    change (OrderedMap.get? _ hash).isSome = (OrderedMap.get? _ hash).isSome
    rw [OrderedMap.get?_insert, OrderedMap.get?_insert]
    split <;> rfl
  · exact ⟨hfresh none, rfl⟩

end Shard

end ScriptCoverage
