import ScriptCoverage.Proofs.Coverage.AddressTable
import ScriptCoverage.Proofs.Session.Isolation

/-!
What the statistics of a session account for. A data record of a trace counts as a hit, as
a branch or as ignored; those of accepted traces stand in the counters of the contracts, and
the counters in the trees. A rejected trace leaves its mark in the number of rejected files
alone, and the number of scripts is that of the contracts that have one.
-/

namespace ScriptCoverage

/-- Hits and branches; the other records say which contract they belong to. -/
def TraceRecord.isData : TraceRecord → Bool
  | .hit _ | .branch .. => true
  | .contract _ | .unknownContract => false

namespace Trace

theorem isData_toRecord (data : DataRecord) : data.toRecord.isData = true := by
  cases data <;> rfl

theorem length_attributed (isRegistered : ContractHash → Bool) (current : Option ContractHash)
    (records : List TraceRecord) :
    (attributed isRegistered current records).length = records.countP TraceRecord.isData := by
  induction records using Trace.inductionOn generalizing current with
  | nil => rfl
  | contract hash rest ih => exact ih _
  | unknownContract rest ih => exact ih none
  | data data rest ih =>
      rw [attributed_toRecord, List.length_cons, ih, List.countP_cons_of_pos (isData_toRecord data)]

theorem length_owned_add_orphans (data : List (Option ContractHash × DataRecord)) :
    (owned data).length + orphans data = data.length := by
  induction data with
  | nil => rfl
  | cons entry rest ih =>
      obtain ⟨current, record⟩ := entry
      cases current with
      | none =>
          rw [owned_cons_none, orphans_cons_none, List.length_cons]
          omega
      | some hash =>
          rw [owned_cons_some, orphans_cons_some, List.length_cons, List.length_cons]
          omega

theorem hits_add_branches (records : List Attributed) :
    hits records + branches records = records.length := by
  rw [List.length_eq_countP_add_countP fun entry : Attributed => entry.2.isHit]
  simp [hits, branches]

/-- Every data record of a trace counts once. -/
theorem stats_account (isRegistered : ContractHash → Bool) (current : Option ContractHash)
    (records : List TraceRecord) :
    (stats (attributed isRegistered current records)).hits +
        (stats (attributed isRegistered current records)).branches +
        (stats (attributed isRegistered current records)).ignored =
      records.countP TraceRecord.isData := by
  rw [← length_attributed isRegistered current, ← length_owned_add_orphans,
    ← hits_add_branches]
  rfl

end Trace

namespace Collector

/-- The number of contracts that have a script. -/
def scriptCount (collector : Collector) : ℕ :=
  collector.recordings.countP fun recording => recording.script.isSome

def scriptIndicator (recording : Recording) : ℕ :=
  if recording.script.isSome then 1 else 0

theorem scriptCount_eq_weigh (collector : Collector) :
    collector.scriptCount =
      weighAll (WithZero.lift (AddHom.id ℕ)) (collector.contracts.amount scriptIndicator) := by
  rw [weighAll_amount, scriptCount, ← sum_map_indicator]
  rfl

variable {before after : Collector}

theorem HasNoScripts.scriptCount_eq_zero (h : before.HasNoScripts) : before.scriptCount = 0 := by
  rw [scriptCount, List.countP_eq_zero]
  intro recording hmem
  obtain ⟨⟨hash, held⟩, hentry, rfl⟩ := List.mem_map.mp hmem
  simp [h hash held (OrderedMap.get?_eq_some_iff.mpr hentry)]

/-- One more contract has a script once it is given to one that had none. -/
theorem scriptCount_insert {hash : ContractHash} {recording : Recording}
    (hget : before.get? hash = some recording) (hnone : recording.script = none)
    (script : Script) :
    (⟨before.contracts.insert hash { recording with script := some script }⟩ :
        Collector).scriptCount = before.scriptCount + 1 := by
  have hadded : (before.contracts.insert hash { recording with script := some script }).amount
      scriptIndicator =
        before.contracts.amount scriptIndicator + Pi.single hash (WithZero.coe 1) := by
    refine OrderedMap.amount_insert_add ?_
    rw [OrderedMap.amount_of_some hget, ← WithZero.coe_add]
    simp [scriptIndicator, hnone]
  rw [scriptCount_eq_weigh, scriptCount_eq_weigh, hadded, map_add, weighAll_single]
  rfl

/-- Counting does not touch scripts. -/
theorem Adds.scriptCount_eq {amounts : Amounts} (h : before.Adds amounts after) :
    after.scriptCount = before.scriptCount := by
  have hsame : after.contracts.amount scriptIndicator =
      before.contracts.amount scriptIndicator := by
    funext hash
    cases hget : before.get? hash with
    | none => rw [OrderedMap.amount_of_none hget, OrderedMap.amount_of_none (h.of_none hget).2]
    | some recording =>
        obtain ⟨counters, hafter, -⟩ := h.of_some hget
        rw [OrderedMap.amount_of_some hget, OrderedMap.amount_of_some hafter]
        rfl
  rw [scriptCount_eq_weigh, scriptCount_eq_weigh, hsame]

end Collector

namespace Consolidation

variable {state : Consolidation} {files : List CoverageFile}

theorem scriptCount_readScript (h : state.stats.scripts = state.collector.scriptCount)
    (file : CoverageFile) :
    (state.readScript file).stats.scripts = (state.readScript file).collector.scriptCount := by
  rcases readScript_cases state file with
    ⟨hash, recording, script, -, -, hget, hnone, hread⟩ | ⟨-, hsame, hstats⟩
  · rw [hread, attach_of_none hget hnone]
    change state.stats.scripts + 1 = Collector.scriptCount ⟨_⟩
    rw [Collector.scriptCount_insert hget hnone, h]
  · rw [hsame, hstats, h]

/-- A trace file adds to the counters, if only nothing. -/
theorem adds_readTrace (state : Consolidation) (file : CoverageFile) :
    ∃ amounts, state.collector.Adds amounts (state.readTrace file).collector := by
  rcases readTrace_cases state file with ⟨records, -, hrun, -⟩ | ⟨-, hsame, -⟩
  · obtain ⟨-, hadds⟩ := Collector.exists_applyTrace_iff.mp ⟨_, hrun⟩
    exact ⟨_, hadds⟩
  · rw [hsame]
    exact ⟨0, Collector.adds_zero _⟩

theorem scriptCount_readTrace (h : state.stats.scripts = state.collector.scriptCount)
    (file : CoverageFile) :
    (state.readTrace file).stats.scripts = (state.readTrace file).collector.scriptCount := by
  obtain ⟨amounts, hadds⟩ := adds_readTrace state file
  rw [scripts_readTrace, h, hadds.scriptCount_eq]

/-- What every file preserves, all files preserve. -/
theorem scriptCount_foldl {read : Consolidation → CoverageFile → Consolidation}
    (hread : ∀ {state : Consolidation}, state.stats.scripts = state.collector.scriptCount →
      ∀ file, (read state file).stats.scripts = (read state file).collector.scriptCount)
    (h : state.stats.scripts = state.collector.scriptCount) (files : List CoverageFile) :
    (files.foldl read state).stats.scripts = (files.foldl read state).collector.scriptCount := by
  induction files generalizing state with
  | nil => exact h
  | cons file rest ih => exact ih (hread h file)

theorem traceFiles_readTraces (state : Consolidation) (files : List CoverageFile) :
    (files.foldl readTrace state).stats.traceFiles = state.stats.traceFiles + files.length := by
  induction files generalizing state with
  | nil => rfl
  | cons file rest ih =>
      rw [List.foldl_cons, ih, traceFiles_readTrace, List.length_cons]
      omega

theorem attributed_readTrace (state : Consolidation) (file : CoverageFile) :
    (state.readTrace file).collector.attributed = state.collector.attributed := by
  obtain ⟨amounts, hadds⟩ := adds_readTrace state file
  funext records
  rw [Collector.attributed, Collector.attributed, funext hadds.contains]

/-- The traces of the accepted files, and nothing else, go into the statistics. -/
theorem recorded_readTraces {traces : List (List TraceRecord)}
    (htraces : List.Forall₂ CoverageFile.ReadsAs (state.accepted files) traces) :
    (files.foldl readTrace state).stats.hits = state.stats.hits +
        (traces.map fun records => (Trace.stats (state.collector.attributed records)).hits).sum ∧
      (files.foldl readTrace state).stats.branches = state.stats.branches +
        (traces.map fun records =>
          (Trace.stats (state.collector.attributed records)).branches).sum ∧
      (files.foldl readTrace state).stats.ignoredRecords = state.stats.ignoredRecords +
        (traces.map fun records =>
          (Trace.stats (state.collector.attributed records)).ignored).sum := by
  induction files generalizing state traces with
  | nil =>
      cases htraces
      exact ⟨rfl, rfl, rfl⟩
  | cons file rest ih =>
      rw [List.foldl_cons]
      rw [accepted] at htraces
      rcases readTrace_cases state file with
        ⟨records, hread, -, hstats⟩ | ⟨-, -, hstats⟩
      · rw [filesMoving_of_moves (by simp [hstats])] at htraces
        obtain ⟨records', traces', hread', htraces', rfl⟩ := List.forall₂_cons_left_iff.mp htraces
        obtain rfl := hread.unique hread'
        have hrest := ih htraces'
        simp only [attributed_readTrace, hstats, SessionStats.withAccepted_hits,
          SessionStats.withAccepted_branches, SessionStats.withAccepted_ignoredRecords] at hrest
        simp only [List.map_cons, List.sum_cons]
        omega
      · rw [filesMoving_of_not_moves (by simp [hstats])] at htraces
        have hrest := ih htraces
        simp only [attributed_readTrace, hstats, SessionStats.withRejected_hits,
          SessionStats.withRejected_branches, SessionStats.withRejected_ignoredRecords] at hrest
        exact hrest

end Consolidation

/-- Statistics account for contracts and for the traces that were accepted. -/
structure SessionStats.AccountsFor (stats : SessionStats) (contracts : List Recording)
    (accepted : List (List TraceRecord)) : Prop where
  hits : (contracts.map fun contract => contract.counters.hitSum).sum = stats.hits
  branches : (contracts.map fun contract => contract.counters.outcomeSum).sum = stats.branches
  records : stats.hits + stats.branches + stats.ignoredRecords =
    (accepted.map fun records => records.countP TraceRecord.isData).sum
  files : stats.rejectedFiles + accepted.length = stats.traceFiles
  scripts : stats.scripts = contracts.countP fun contract => contract.script.isSome

namespace Session

theorem scripts_eq_scriptCount (registrations : List Registration) (files : List CoverageFile) :
    (allRead registrations files).stats.scripts =
      (allRead registrations files).collector.scriptCount := by
  have hstart : (Consolidation.start (tracked registrations)).stats.scripts =
      (tracked registrations).scriptCount :=
    (hasNoScripts_tracked registrations).scriptCount_eq_zero.symm
  exact Consolidation.scriptCount_foldl Consolidation.scriptCount_readTrace
    (Consolidation.scriptCount_foldl Consolidation.scriptCount_readScript hstart _) _

theorem traceFiles_allRead (registrations : List Registration) (files : List CoverageFile) :
    (allRead registrations files).stats.traceFiles = (CoverageFile.traceFiles files).length := by
  obtain ⟨scripts, hstats⟩ := Consolidation.stats_readScripts
    (.start (tracked registrations)) (CoverageFile.scriptFiles files)
  rw [allRead, Consolidation.traceFiles_readTraces, scriptsRead, hstats]
  exact Nat.zero_add _

theorem attributed_scriptsRead (registrations : List Registration) (files : List CoverageFile) :
    (scriptsRead registrations files).collector.attributed =
      (tracked registrations).attributed := by
  have hscripts : (scriptsRead registrations files).collector =
      (tracked registrations).withScripts (CoverageFile.firstScript? files) :=
    Consolidation.collector_readScripts _ _
  funext records
  rw [Collector.attributed, Collector.attributed, hscripts,
    Collector.contains_of_counters Collector.counters_withScripts]

/-- The statistics of a session are those of the accepted traces. -/
theorem recorded_allRead {registrations : List Registration} {files : List CoverageFile}
    {traces : List (List TraceRecord)}
    (htraces : List.Forall₂ CoverageFile.ReadsAs (acceptedFiles registrations files) traces) :
    (allRead registrations files).stats.hits =
        (traces.map fun records =>
          (Trace.stats ((tracked registrations).attributed records)).hits).sum ∧
      (allRead registrations files).stats.branches =
        (traces.map fun records =>
          (Trace.stats ((tracked registrations).attributed records)).branches).sum ∧
      (allRead registrations files).stats.ignoredRecords =
        (traces.map fun records =>
          (Trace.stats ((tracked registrations).attributed records)).ignored).sum := by
  have hrecorded := Consolidation.recorded_readTraces htraces
  obtain ⟨scripts, hstats⟩ := Consolidation.stats_readScripts
    (.start (tracked registrations)) (CoverageFile.scriptFiles files)
  have hstart : (scriptsRead registrations files).stats =
      { SessionStats.ofContracts (tracked registrations).size with scripts } := hstats
  simp only [attributed_scriptsRead, hstart, SessionStats.ofContracts, Nat.zero_add] at hrecorded
  exact hrecorded

/-- The counters of a session hold what its statistics count. -/
theorem accountsFor_allRead {registrations : List Registration} {files : List CoverageFile}
    {traces : List (List TraceRecord)}
    (htraces : List.Forall₂ CoverageFile.ReadsAs (acceptedFiles registrations files) traces)
    (hadds : ((tracked registrations).withScripts (CoverageFile.firstScript? files)).Adds
      (traces.map fun records => Trace.amounts ((tracked registrations).counted records)).sum
      (allRead registrations files).collector) :
    (allRead registrations files).stats.AccountsFor
      (allRead registrations files).collector.recordings traces := by
  have hfresh := (isFresh_tracked registrations).withScripts (CoverageFile.firstScript? files)
  obtain ⟨hhits, hbranches, hignored⟩ := recorded_allRead htraces
  have hcounted : (traces.map fun records =>
      Trace.amounts ((tracked registrations).counted records)) =
        (traces.map (tracked registrations).counted).map Trace.amounts := by
    rw [List.map_map]
    rfl
  rw [hcounted] at hadds
  have hrejected := rejectedFiles_allRead registrations files
  rw [htraces.length_eq, ← traceFiles_allRead] at hrejected
  refine ⟨?_, ?_, ?_, hrejected, scripts_eq_scriptCount registrations files⟩
  · rw [hhits]
    refine (hfresh.hitSum_of_adds hadds).trans ?_
    rw [List.map_map]
    rfl
  · rw [hbranches]
    refine (hfresh.outcomeSum_of_adds hadds).trans ?_
    rw [List.map_map]
    rfl
  · rw [hhits, hbranches, hignored, ← List.sum_map_add, ← List.sum_map_add]
    refine congrArg List.sum (List.map_congr_left fun records _ => ?_)
    exact Trace.stats_account (tracked registrations).contains none records

/-- The statistics of a session account for every record of its trace files, which are the
files of the directory with their extension, by name. Its trees show,
and its contracts hold, as many hits as it states and as many outcomes as it states
branches; these and the ignored records are the data records of the trace files that were
not rejected. A missing directory counts as an empty one. -/
theorem session_statistics (options : SessionOptions) (registrations : List Registration)
    (timestamp : Nat) (files : List CoverageFile) :
    ∃ (report : SessionReport) (contracts : List Recording) (traces : List (List TraceRecord)),
      outcome options registrations timestamp files = .ok report ∧
      CoverageFile.ReadByName files ∧
      contracts = (allRead registrations files).collector.recordings ∧
      report.trees = contracts.map .ofRecording ∧
      List.Forall₂ CoverageFile.ReadsAs (acceptedFiles registrations files) traces ∧
      report.stats.AccountsFor contracts traces ∧
      (report.trees.map (·.hitSum)).sum = report.stats.hits ∧
      (report.trees.map (·.outcomeSum)).sum = report.stats.branches ∧
      report.stats.traceFiles = (CoverageFile.traceFiles files).length ∧
      report.stats.rejectedFiles ≤ report.stats.traceFiles ∧
      (((Session.new options).start registrations timestamp).session.finish .missing).result =
        outcome options registrations timestamp [] := by
  obtain ⟨traces, htaken, hadds⟩ := adds_allRead registrations files
  have haccounts := accountsFor_allRead htaken.readsAs hadds
  have htrees {sum : CoverageTree → ℕ} {held : Counters → ℕ}
      (hshown : ∀ recording, sum (.ofRecording recording) = held recording.counters) :
      (((allRead registrations files).collector.recordings.map .ofRecording).map sum).sum =
        ((allRead registrations files).collector.recordings.map
          fun contract => held contract.counters).sum := by
    rw [List.map_map]
    exact congrArg List.sum (List.map_congr_left fun recording _ => hshown recording)
  refine ⟨report options timestamp (allRead registrations files), _, traces,
    outcome_eq options registrations timestamp files, CoverageFile.readByName files, rfl, rfl,
    htaken.readsAs, haccounts, ?_, ?_, traceFiles_allRead registrations files, ?_, rfl⟩
  · exact (htrees CoverageTree.hitSum_ofRecording).trans haccounts.hits
  · exact (htrees CoverageTree.outcomeSum_ofRecording).trans haccounts.branches
  · exact Nat.le.intro haccounts.files

end Session

end ScriptCoverage
