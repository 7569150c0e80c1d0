import ScriptCoverage.Proofs.Session.Consolidation
import ScriptCoverage.Session.Session

/-!
What a session reports. Every tracked contract has the script of the first file that holds
one for it, and the sums of the traces that were accepted; files that were not attached,
and traces that were rejected, leave nothing behind in trees or artifacts.
-/

namespace ScriptCoverage

namespace Collector

/-- No contract has a script. -/
def HasNoScripts (collector : Collector) : Prop :=
  ∀ hash recording, collector.get? hash = some recording → recording.script = none

theorem HasNoScripts.addContract {collector : Collector} (h : collector.HasNoScripts)
    (name : String) (symbols : SymbolTable) (declared : Option ContractHash) :
    ((Collector.addContract name symbols declared).run collector).2.HasNoScripts := by
  rcases run_addContract name symbols declared collector with hsame | ⟨-, hnew⟩
  · rwa [hsame]
  · intro hash recording hget
    rw [hnew, get?_insert] at hget
    split at hget
    · cases hget
      rfl
    · exact h hash recording hget

theorem recordings_eq_map {x y : Collector} {change : Recording → Recording}
    (h : ∀ hash, y.get? hash = (x.get? hash).map change) :
    y.recordings = x.recordings.map change := by
  have hcontracts : y.contracts = x.contracts.mapEntries fun _ => change := by
    apply OrderedMap.ext_get?
    intro hash
    rw [OrderedMap.get?_mapEntries]
    exact h hash
  rw [recordings, recordings, hcontracts, OrderedMap.values, OrderedMap.values,
    OrderedMap.mapEntries, List.map_map, List.map_map]
  rfl

theorem IsKeyed.recordings_ascending {collector : Collector} (h : collector.IsKeyed) :
    collector.recordings.Pairwise fun x y => compare x.hash y.hash = .lt := by
  have hkey : ∀ entry ∈ collector.contracts.entries, entry.2.hash = entry.1 := by
    intro entry hmem
    exact h entry.1 entry.2 (OrderedMap.get?_eq_some_iff.mpr hmem)
  refine List.pairwise_map.mpr (collector.contracts.ascending.imp_of_mem ?_)
  intro x y hx hy hlt
  rwa [hkey x hx, hkey y hy]

theorem IsFresh.withScripts {collector : Collector} (h : collector.IsFresh)
    (find : ContractHash → Option Script) : (collector.withScripts find).IsFresh where
  keyed := by
    intro hash recording hget
    rw [get?_withScripts, Option.map_eq_some_iff] at hget
    obtain ⟨source, hsource, rfl⟩ := hget
    exact h.keyed hash source hsource
  uncounted := by
    intro hash recording hget
    rw [get?_withScripts, Option.map_eq_some_iff] at hget
    obtain ⟨source, hsource, rfl⟩ := hget
    exact h.uncounted hash source hsource

/-- What becomes of fresh contracts once scripts are given to them and traces added. -/
theorem IsFresh.get?_of_adds {before after : Collector} {amounts : Amounts}
    {find : ContractHash → Option Script} (hfresh : before.IsFresh) (hbare : before.HasNoScripts)
    (hadds : (before.withScripts find).Adds amounts after) (hash : ContractHash) :
    after.get? hash = (before.get? hash).map fun contract => { contract with
      script := find contract.hash
      counters := (after.counters contract.hash).getD .empty } := by
  have hscripts : (before.withScripts find).get? hash = (before.get? hash).map fun contract =>
      { contract with script := contract.script.or (find hash) } := get?_withScripts hash
  cases hget : before.get? hash with
  | none =>
      rw [hget] at hscripts
      exact (hadds.of_none hscripts).2
  | some contract =>
      rw [hget, Option.map_some, hbare hash contract hget, Option.none_or] at hscripts
      obtain ⟨sum, hsum, -⟩ := hadds.of_some hscripts
      have hcounters : (after.counters hash).getD .empty = sum := by
        rw [counters, hsum]
        rfl
      rw [hsum, Option.map_some, hfresh.keyed hash contract hget, hcounters]

end Collector

namespace Tracking

theorem collector_add_of_ok (tracking : Tracking) {registration : Registration}
    {symbols : SymbolTable} (h : registration.symbols = .ok symbols) :
    (tracking.add registration).collector =
      ((Collector.addContract registration.name symbols registration.declared).run
        tracking.collector).2 := by
  rw [add, h]
  dsimp only
  split
  · rename_i hrun
    rw [hrun]
  · rename_i hrun
    rw [hrun]
    rfl

theorem collector_add_of_error (tracking : Tracking) {registration : Registration}
    {e : SymbolsError} (h : registration.symbols = .error e) :
    (tracking.add registration).collector = tracking.collector := by
  rw [add, h]
  rfl

/-- Tracking a contract adds it to the collector or changes nothing. -/
theorem collector_add (tracking : Tracking) (registration : Registration) :
    (tracking.add registration).collector = tracking.collector ∨
      ∃ symbols, (tracking.add registration).collector =
        ((Collector.addContract registration.name symbols registration.declared).run
          tracking.collector).2 := by
  cases hsymbols : registration.symbols with
  | error e => exact .inl (tracking.collector_add_of_error hsymbols)
  | ok symbols => exact .inr ⟨symbols, tracking.collector_add_of_ok hsymbols⟩

theorem collector_addAll {tracking : Tracking} (hfresh : tracking.collector.IsFresh)
    (hbare : tracking.collector.HasNoScripts) (registrations : List Registration) :
    (tracking.addAll registrations).collector.IsFresh ∧
      (tracking.addAll registrations).collector.HasNoScripts := by
  induction registrations generalizing tracking with
  | nil => exact ⟨hfresh, hbare⟩
  | cons registration rest ih =>
      have hcons : tracking.addAll (registration :: rest) =
          (tracking.add registration).addAll rest := rfl
      rw [hcons]
      rcases collector_add tracking registration with hsame | ⟨symbols, hadded⟩
      · exact ih (hsame ▸ hfresh) (hsame ▸ hbare)
      · exact ih (hadded ▸ hfresh.addContract _ _ _) (hadded ▸ hbare.addContract _ _ _)

end Tracking

namespace Session

/-- The contracts that a session tracks when it starts. -/
def tracked (registrations : List Registration) : Collector :=
  (Tracking.empty.addAll registrations).collector

theorem isFresh_tracked (registrations : List Registration) : (tracked registrations).IsFresh :=
  (Tracking.collector_addAll Collector.isFresh_empty (fun _ _ h => by cases h) registrations).1

theorem hasNoScripts_tracked (registrations : List Registration) :
    (tracked registrations).HasNoScripts :=
  (Tracking.collector_addAll Collector.isFresh_empty (fun _ _ h => by cases h) registrations).2

/-- The answer of a session that starts with these contracts and ends over these files. -/
def outcome (options : SessionOptions) (registrations : List Registration) (timestamp : Nat)
    (files : List CoverageFile) : Except SessionError SessionReport :=
  (((Session.new options).start registrations timestamp).session.finish (.files files)).result

/-- What the session has read when it has come to the traces. -/
def scriptsRead (registrations : List Registration) (files : List CoverageFile) : Consolidation :=
  (CoverageFile.scriptFiles files).foldl Consolidation.readScript (.start (tracked registrations))

/-- What the session has read at its end. -/
def allRead (registrations : List Registration) (files : List CoverageFile) : Consolidation :=
  (CoverageFile.traceFiles files).foldl Consolidation.readTrace (scriptsRead registrations files)

/-- The script files that the session attaches, in the order of their names. -/
def attachedFiles (registrations : List Registration) (files : List CoverageFile) :
    List CoverageFile :=
  (Consolidation.start (tracked registrations)).attached (CoverageFile.scriptFiles files)

/-- The trace files that the session does not reject, in the order of their names. -/
def acceptedFiles (registrations : List Registration) (files : List CoverageFile) :
    List CoverageFile :=
  (scriptsRead registrations files).accepted (CoverageFile.traceFiles files)

theorem outcome_eq (options : SessionOptions) (registrations : List Registration)
    (timestamp : Nat) (files : List CoverageFile) :
    outcome options registrations timestamp files =
      .ok (report options timestamp (allRead registrations files)) := rfl

/-- A session gives scripts to the tracked contracts and then adds the traces it takes in. -/
theorem adds_allRead (registrations : List Registration) (files : List CoverageFile) :
    ∃ traces, ((tracked registrations).withScripts (CoverageFile.firstScript? files)).TakesIn
        (CoverageFile.traceFiles files) (acceptedFiles registrations files) traces
        (allRead registrations files).collector ∧
      ((tracked registrations).withScripts (CoverageFile.firstScript? files)).Adds
        (traces.map fun records => Trace.amounts ((tracked registrations).counted records)).sum
        (allRead registrations files).collector := by
  have hscripts : (scriptsRead registrations files).collector =
      (tracked registrations).withScripts (CoverageFile.firstScript? files) :=
    Consolidation.collector_readScripts _ _
  have hcounters : (scriptsRead registrations files).collector.counters =
      (tracked registrations).counters := by
    rw [hscripts]
    exact Collector.counters_withScripts
  obtain ⟨traces, htaken⟩ := Consolidation.exists_takesIn_accepted
    (scriptsRead registrations files) (CoverageFile.traceFiles files)
  have hadds := (Collector.applyTraces_eq_ok_iff.mp htaken.applied).2
  rw [Collector.counted_of_contains (Collector.contains_of_counters hcounters), hscripts] at hadds
  rw [hscripts] at htaken
  exact ⟨traces, htaken, hadds⟩

theorem report_congr {state state' : Consolidation} (h : state.collector = state'.collector)
    (options : SessionOptions) (timestamp : Nat) :
    (report options timestamp state).trees = (report options timestamp state').trees ∧
      (report options timestamp state).artifacts = (report options timestamp state').artifacts := by
  unfold report
  rw [h]
  exact ⟨rfl, rfl⟩

/-- Files that were neither attached nor accepted can be taken out of the directory. -/
theorem collector_filter {registrations : List Registration} {files : List CoverageFile}
    {keep : CoverageFile → Bool}
    (hkeep : ∀ file ∈ attachedFiles registrations files ++ acceptedFiles registrations files,
      keep file = true) :
    (allRead registrations files).collector =
      (allRead registrations (files.filter keep)).collector := by
  obtain ⟨hattached, haccepted⟩ := List.forall_mem_append.mp hkeep
  rw [allRead, allRead, CoverageFile.traceFiles_filter]
  apply Consolidation.collector_readTraces_filter haccepted
  rw [scriptsRead, scriptsRead, CoverageFile.scriptFiles_filter]
  exact Consolidation.collector_readScripts_filter hattached

theorem scripts_allRead (registrations : List Registration) (files : List CoverageFile) :
    (allRead registrations files).stats.scripts = (attachedFiles registrations files).length := by
  rw [allRead, Consolidation.scripts_readTraces, scriptsRead, Consolidation.scripts_readScripts]
  exact Nat.zero_add _

theorem rejectedFiles_allRead (registrations : List Registration) (files : List CoverageFile) :
    (allRead registrations files).stats.rejectedFiles +
        (acceptedFiles registrations files).length =
      (CoverageFile.traceFiles files).length := by
  rw [allRead, acceptedFiles, Consolidation.rejectedFiles_readTraces, scriptsRead,
    Consolidation.rejectedFiles_readScripts]
  exact Nat.zero_add _

/-- Whatever lies in the coverage directory, a session reports the contracts it tracks, in
the order of their hashes. Each has the script of the first file by name that is named for
it, loads and decodes completely, if there is one, and the sums of the traces of those trace
files that were accepted. The trace files are read by name as well, and one is accepted when
its trace can be read and applied. Trace files that were rejected and script files that were
not attached have no effect: without any of them trees and artifacts are the same. -/
theorem session_isolation (options : SessionOptions) (registrations : List Registration)
    (timestamp : Nat) (files : List CoverageFile) :
    ∃ (report : SessionReport) (counters : ContractHash → Counters)
      (traces : List (List TraceRecord)),
      outcome options registrations timestamp files = .ok report ∧
      CoverageFile.ReadByName files ∧
      report.trees = (tracked registrations).recordings.map (fun contract =>
        .ofRecording { contract with
          script := CoverageFile.firstScript? files contract.hash
          counters := counters contract.hash }) ∧
      report.trees.Pairwise (fun x y => compare x.hash y.hash = .lt) ∧
      (∀ hash script, CoverageFile.firstScript? files hash = some script ↔
        ∃ front file rest, CoverageFile.scriptFiles files = front ++ file :: rest ∧
          file.Holds hash script ∧ ∀ earlier ∈ front, ∀ other, ¬earlier.Holds hash other) ∧
      ((tracked registrations).withScripts (CoverageFile.firstScript? files)).TakesIn
        (CoverageFile.traceFiles files) (acceptedFiles registrations files) traces
        (allRead registrations files).collector ∧
      List.Forall₂ CoverageFile.ReadsAs (acceptedFiles registrations files) traces ∧
      (∀ hash, (counters hash).totals = (traces.map fun records =>
        Trace.amounts ((tracked registrations).counted records)).sum.totals hash) ∧
      report.stats.scripts = (attachedFiles registrations files).length ∧
      report.stats.rejectedFiles + (acceptedFiles registrations files).length =
        (CoverageFile.traceFiles files).length ∧
      ∀ keep : CoverageFile → Bool,
        (∀ file ∈ attachedFiles registrations files ++ acceptedFiles registrations files,
          keep file = true) →
        ∃ other, outcome options registrations timestamp (files.filter keep) = .ok other ∧
          other.trees = report.trees ∧ other.artifacts = report.artifacts := by
  have hfresh := isFresh_tracked registrations
  obtain ⟨traces, htaken, hadds⟩ := adds_allRead registrations files
  let counters := fun hash => ((allRead registrations files).collector.counters hash).getD .empty
  have hrecordings : (allRead registrations files).collector.recordings =
      (tracked registrations).recordings.map fun contract => { contract with
        script := CoverageFile.firstScript? files contract.hash
        counters := counters contract.hash } :=
    Collector.recordings_eq_map (hfresh.get?_of_adds (hasNoScripts_tracked registrations) hadds)
  have htrees : (report options timestamp (allRead registrations files)).trees =
      (tracked registrations).recordings.map fun contract => .ofRecording { contract with
        script := CoverageFile.firstScript? files contract.hash
        counters := counters contract.hash } := by
    rw [report, hrecordings, List.map_map]
    rfl
  refine ⟨report options timestamp (allRead registrations files), counters, traces,
    outcome_eq options registrations timestamp files, CoverageFile.readByName files, htrees, ?_,
    fun _ _ => CoverageFile.firstScript?_eq_some_iff, htaken, htaken.readsAs,
    (hfresh.withScripts _).totals_counters_of_adds hadds, ?_, ?_, ?_⟩
  · rw [htrees]
    exact List.pairwise_map.mpr hfresh.keyed.recordings_ascending
  · exact scripts_allRead registrations files
  · exact rejectedFiles_allRead registrations files
  · intro keep hkeep
    obtain ⟨htrees', hartifacts⟩ := report_congr (collector_filter hkeep) options timestamp
    exact ⟨_, outcome_eq options registrations timestamp (files.filter keep), htrees'.symm,
      hartifacts.symm⟩

end Session

end ScriptCoverage
