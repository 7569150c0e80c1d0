import ScriptCoverage.Proofs.Data.StableSort
import ScriptCoverage.Proofs.Files.Path
import ScriptCoverage.Proofs.Recording.Fresh
import ScriptCoverage.Session.Consolidation

/-!
What the files of a coverage directory do to a collector. A script file gives its script
to the contract that it is named for, unless the contract has one or the file cannot be
loaded; a trace file applies its trace or is rejected. What a file does depends on the
collector alone, and a file that does not count leaves the collector as it was. So files
that do not count can be taken out of the directory.
-/

namespace ScriptCoverage

namespace CoverageFile

/-- A file holds a script for a contract: it is named by a text of the hash, and its content, a
container or bare instructions, decodes as a whole. -/
structure Holds (file : CoverageFile) (hash : ContractHash) (script : Script) : Prop where
  named : ∃ stem, file.path.EndsIn stem "nef" ∧ ContractHash.parse? stem.toList = some hash
  decodes : ∃ content bytes, file.content = some content ∧ Nef.scriptBytes content = .ok bytes ∧
    Script.ofBytes bytes = .ok script

/-- The trace in a file, which is UTF-8 and has these records. -/
def ReadsAs (file : CoverageFile) (records : List TraceRecord) : Prop :=
  ∃ content text, file.content = some content ∧ Utf8.decode content = some text ∧
    (Trace.parse text file.path.text).records = .ok records

/-- The script that a file holds for a contract. -/
def scriptFor? (hash : ContractHash) (file : CoverageFile) : Option Script :=
  if file.scriptHash? = some hash then (Script.ofFile file).toOption else none

/-- Script files in the order in which they are read. -/
def scriptFiles (files : List CoverageFile) : List CoverageFile :=
  (sorted files).filter isScript

/-- Trace files in the order in which they are read. -/
def traceFiles (files : List CoverageFile) : List CoverageFile :=
  (sorted files).filter isTrace

/-- The script of the first file that holds one for the contract. -/
def firstScript? (files : List CoverageFile) (hash : ContractHash) : Option Script :=
  (scriptFiles files).findSome? (scriptFor? hash)

theorem script_ofFile_eq_ok_iff {file : CoverageFile} {script : Script} :
    Script.ofFile file = .ok script ↔ ∃ content bytes, file.content = some content ∧
      Nef.scriptBytes content = .ok bytes ∧ Script.ofBytes bytes = .ok script := by
  unfold Script.ofFile
  cases file.content with
  | none => simp
  | some content => simp [Except.bind_eq_ok_iff, Except.mapError_eq_ok_iff]

theorem trace_ofFile_eq_ok_iff {file : CoverageFile} {records : List TraceRecord} :
    (Trace.ofFile file).1 = .ok records ↔ file.ReadsAs records := by
  unfold ReadsAs Trace.ofFile
  cases file.content with
  | none => simp
  | some content =>
      cases htext : Utf8.decode content with
      | none => simp [htext]
      | some text => simp [htext, Except.mapError_eq_ok_iff]

/-- A file has one trace. -/
theorem ReadsAs.unique {file : CoverageFile} {records other : List TraceRecord}
    (h : file.ReadsAs records) (hother : file.ReadsAs other) : records = other := by
  rw [← trace_ofFile_eq_ok_iff] at h hother
  rwa [h, Except.ok.injEq] at hother

theorem scriptFor?_eq_some_iff {file : CoverageFile} (hscript : file.isScript = true)
    {hash : ContractHash} {script : Script} :
    file.scriptFor? hash = some script ↔ file.Holds hash script := by
  obtain ⟨stem, hends⟩ := Path.extension?_eq_some_iff.mp (eq_of_beq hscript)
  rw [scriptFor?, Option.ite_none_right_eq_some, Except.toOption_eq_some_iff,
    script_ofFile_eq_ok_iff, scriptHash?, Option.bind_eq_some_iff]
  constructor
  · rintro ⟨⟨found, hstem, hparse⟩, hdecodes⟩
    rw [hends.stem?, Option.some_inj] at hstem
    subst hstem
    exact ⟨⟨stem, hends, hparse⟩, hdecodes⟩
  · rintro ⟨⟨found, hfound, hparse⟩, hdecodes⟩
    exact ⟨⟨found, hfound.stem?, hparse⟩, hdecodes⟩

/-- The script for a contract is that of the first file that holds one. -/
theorem firstScript?_eq_some_iff {files : List CoverageFile} {hash : ContractHash}
    {script : Script} :
    firstScript? files hash = some script ↔ ∃ front file rest,
      scriptFiles files = front ++ file :: rest ∧ file.Holds hash script ∧
        ∀ earlier ∈ front, ∀ other, ¬earlier.Holds hash other := by
  have hfiles : ∀ file ∈ scriptFiles files, file.isScript = true := by
    intro file hfile
    exact (List.mem_filter.mp hfile).2
  rw [firstScript?, List.findSome?_eq_some_iff]
  refine exists_congr fun front => exists_congr fun file => exists_congr fun rest =>
    and_congr_right fun hsplit => ?_
  rw [hsplit] at hfiles
  obtain ⟨hfront, hrest⟩ := List.forall_mem_append.mp hfiles
  rw [scriptFor?_eq_some_iff (hrest file List.mem_cons_self)]
  refine and_congr_right fun _ => forall₂_congr fun earlier hearlier => ?_
  simp [Option.eq_none_iff_forall_ne_some, scriptFor?_eq_some_iff (hfront earlier hearlier)]

/-- The files of a directory are sorted by name, and of these the files are read that have the
extension of a script or of a trace. -/
structure ReadByName (files : List CoverageFile) : Prop where
  byName : IsStableSort (fun file : CoverageFile => file.path.name?.getD "") files (sorted files)
  scripts : scriptFiles files = (sorted files).filter (·.path.extension? == some "nef")
  traces : traceFiles files = (sorted files).filter (·.path.extension? == some "trace")
  extensions : ∀ file ∈ files, ∀ extension,
    file.path.extension? = some extension ↔ ∃ stem, file.path.EndsIn stem extension

theorem readByName (files : List CoverageFile) : ReadByName files where
  byName := IsStableSort.of_mergeSort name files
  scripts := rfl
  traces := rfl
  extensions := fun _ _ _ => Path.extension?_eq_some_iff

/-- Files that are taken out leave the others in their order. -/
theorem sorted_filter (keep : CoverageFile → Bool) (files : List CoverageFile) :
    sorted (files.filter keep) = (sorted files).filter keep :=
  IsStableSort.mergeSort_filter name keep files

theorem scriptFiles_filter (keep : CoverageFile → Bool) (files : List CoverageFile) :
    scriptFiles (files.filter keep) = (scriptFiles files).filter keep := by
  rw [scriptFiles, scriptFiles, sorted_filter, List.filter_comm]

theorem traceFiles_filter (keep : CoverageFile → Bool) (files : List CoverageFile) :
    traceFiles (files.filter keep) = (traceFiles files).filter keep := by
  rw [traceFiles, traceFiles, sorted_filter, List.filter_comm]

end CoverageFile

namespace Collector

/-- The collector with scripts for the contracts that have none. -/
def withScripts (find : ContractHash → Option Script) (collector : Collector) : Collector :=
  ⟨collector.contracts.mapEntries fun hash recording =>
    { recording with script := recording.script.or (find hash) }⟩

variable {collector : Collector} {find : ContractHash → Option Script}

theorem get?_withScripts (hash : ContractHash) :
    (collector.withScripts find).get? hash = (collector.get? hash).map fun recording =>
      { recording with script := recording.script.or (find hash) } :=
  OrderedMap.get?_mapEntries _ collector.contracts hash

theorem withScripts_withScripts (more : ContractHash → Option Script) :
    (collector.withScripts find).withScripts more =
      collector.withScripts fun hash => (find hash).or (more hash) := by
  apply ext_get?
  intro hash
  simp only [get?_withScripts, Option.map_map]
  refine congrArg (Option.map · _) (funext fun recording => ?_)
  simp [Option.or_assoc]

/-- Scripts are no use to contracts that have one. -/
theorem withScripts_eq_self
    (h : ∀ hash recording, collector.get? hash = some recording → recording.script = none →
      find hash = none) : collector.withScripts find = collector := by
  apply ext_get?
  intro hash
  rw [get?_withScripts]
  cases hget : collector.get? hash with
  | none => rfl
  | some recording =>
      have hsame : recording.script.or (find hash) = recording.script := by
        cases hscript : recording.script with
        | none => rw [h hash recording hget hscript, Option.none_or]
        | some script => rw [Option.some_or]
      rw [Option.map_some, hsame]

theorem counters_withScripts : (collector.withScripts find).counters = collector.counters := by
  funext hash
  rw [counters, counters, get?_withScripts, Option.map_map]
  rfl

/-- Trace files are taken in one after the other. A file is accepted if its trace can be read and
applied to what is there, and passed over if there is no trace in it that can be applied. -/
inductive TakesIn : Collector → List CoverageFile → List CoverageFile → List (List TraceRecord) →
    Collector → Prop where
  | done {collector : Collector} : TakesIn collector [] [] [] collector
  | accept {before middle after : Collector} {file : CoverageFile}
      {rest accepted : List CoverageFile} {records : List TraceRecord}
      {traces : List (List TraceRecord)} {answer : TraceStats × List ContractHash}
      (hread : file.ReadsAs records)
      (happlied : (applyTrace records).run before = (.ok answer, middle))
      (hrest : TakesIn middle rest accepted traces after) :
      TakesIn before (file :: rest) (file :: accepted) (records :: traces) after
  | reject {before after : Collector} {file : CoverageFile}
      {rest accepted : List CoverageFile} {traces : List (List TraceRecord)}
      (hrefused : ∀ records, file.ReadsAs records →
        ∃ e, (applyTrace records).run before = (.error e, before))
      (hrest : TakesIn before rest accepted traces after) :
      TakesIn before (file :: rest) accepted traces after

namespace TakesIn

variable {before after : Collector} {files accepted : List CoverageFile}
  {traces : List (List TraceRecord)}

theorem readsAs (h : before.TakesIn files accepted traces after) :
    List.Forall₂ CoverageFile.ReadsAs accepted traces := by
  induction h with
  | done => exact .nil
  | accept hread _ _ ih => exact .cons hread ih
  | reject _ _ ih => exact ih

/-- The traces that are taken in are applied. -/
theorem applied (h : before.TakesIn files accepted traces after) :
    (applyTraces traces).run before = (.ok (), after) := by
  induction h with
  | done => rfl
  | accept _ happlied _ ih =>
      refine Step.run_forM_cons_eq_ok.mpr ⟨_, ?_, ih⟩
      exact Step.run_bind_eq_ok.mpr ⟨_, _, happlied, rfl⟩
  | reject _ _ ih => exact ih

end TakesIn

end Collector

namespace SessionStats

/-- One more trace file, and what its trace contributed. -/
@[simps]
def withAccepted (stats : SessionStats) (trace : TraceStats) : SessionStats where
  contracts := stats.contracts
  scripts := stats.scripts
  traceFiles := stats.traceFiles + 1
  rejectedFiles := stats.rejectedFiles
  hits := stats.hits + trace.hits
  branches := stats.branches + trace.branches
  ignoredRecords := stats.ignoredRecords + trace.ignored

/-- One more trace file, which did not count. -/
@[simps]
def withRejected (stats : SessionStats) : SessionStats where
  contracts := stats.contracts
  scripts := stats.scripts
  traceFiles := stats.traceFiles + 1
  rejectedFiles := stats.rejectedFiles + 1
  hits := stats.hits
  branches := stats.branches
  ignoredRecords := stats.ignoredRecords

end SessionStats

namespace Consolidation

/-- A script file is attached to the contract that it is named for, or it is of no use to
any contract that lacks a script and changes nothing. -/
theorem readScript_cases (state : Consolidation) (file : CoverageFile) :
    (∃ hash recording script, file.scriptHash? = some hash ∧ Script.ofFile file = .ok script ∧
      state.collector.get? hash = some recording ∧ recording.script = none ∧
      state.readScript file = state.attach hash script) ∨
    (∀ hash recording, state.collector.get? hash = some recording → recording.script = none →
      file.scriptFor? hash = none) ∧
      (state.readScript file).collector = state.collector ∧
      (state.readScript file).stats = state.stats := by
  unfold readScript
  split
  · rename_i hnamed
    refine .inr ⟨fun hash _ _ _ => ?_, rfl, rfl⟩
    simp [CoverageFile.scriptFor?, hnamed]
  · rename_i named hnamed
    have hother {hash : ContractHash} (hne : hash ≠ named) : file.scriptFor? hash = none := by
      simp [CoverageFile.scriptFor?, hnamed, hne.symm]
    split
    · rename_i hget
      refine .inr ⟨fun hash recording hfound _ => hother ?_, rfl, rfl⟩
      rintro rfl
      rw [hget] at hfound
      cases hfound
    · rename_i recording hget
      split
      · rename_i hattached
        refine .inr ⟨fun hash found hfound hnone => hother ?_, rfl, rfl⟩
        rintro rfl
        rw [hget] at hfound
        cases hfound
        rw [hnone] at hattached
        cases hattached
      · rename_i hfree
        rw [Bool.not_eq_true, Option.isSome_eq_false_iff, Option.isNone_iff_eq_none] at hfree
        cases hfile : Script.ofFile file with
        | ok script => exact .inl ⟨named, recording, script, hnamed, rfl, hget, hfree, rfl⟩
        | error e =>
            refine .inr ⟨fun hash _ _ _ => ?_, rfl, rfl⟩
            simp [CoverageFile.scriptFor?, hfile, Except.toOption]

theorem attach_of_none {state : Consolidation} {hash : ContractHash} {recording : Recording}
    (hget : state.collector.get? hash = some recording) (hnone : recording.script = none)
    (script : Script) :
    state.attach hash script = { state with
      collector := ⟨state.collector.contracts.insert hash { recording with script := some script }⟩
      stats.scripts := state.stats.scripts + 1 } := by
  have hregister : (Recording.registerScript script).run recording =
      (.ok (), { recording with script := some script }) := by
    simp [Recording.registerScript, Step.run_bind, hnone]
  have hrun : (Collector.registerScript hash script).run state.collector =
      (.ok (), ⟨state.collector.contracts.insert hash
        { recording with script := some script }⟩) := by
    simp only [Collector.registerScript, Collector.run_onContract, hget, hregister]
  rw [attach, hrun]

/-- Reading a script file gives its script to the contracts that lack one. -/
theorem collector_readScript (state : Consolidation) (file : CoverageFile) :
    (state.readScript file).collector =
      state.collector.withScripts fun hash => file.scriptFor? hash := by
  rcases readScript_cases state file with
    ⟨named, recording, script, hnamed, hfile, hget, hnone, hread⟩ | ⟨huseless, hsame, -⟩
  · rw [hread, attach_of_none hget hnone]
    apply Collector.ext_get?
    intro hash
    rw [Collector.get?_insert, Collector.get?_withScripts]
    by_cases hhash : hash = named
    · subst hhash
      have hscript : file.scriptFor? hash = some script := by
        simp [CoverageFile.scriptFor?, hnamed, hfile, Except.toOption]
      rw [if_pos rfl, hget, Option.map_some, hnone, hscript, Option.none_or]
    · have hscript : file.scriptFor? hash = none := by
        simp [CoverageFile.scriptFor?, hnamed, Ne.symm hhash]
      rw [if_neg hhash, hscript]
      simp
  · rw [hsame, Collector.withScripts_eq_self huseless]

/-- A script file counts as a script, or has changed nothing. -/
theorem stats_readScript (state : Consolidation) (file : CoverageFile) :
    (state.readScript file).stats = { state.stats with scripts := state.stats.scripts + 1 } ∨
      (state.readScript file).stats = state.stats ∧
        (state.readScript file).collector = state.collector := by
  rcases readScript_cases state file with
    ⟨named, recording, script, -, -, hget, hnone, hread⟩ | ⟨-, hsame, hstats⟩
  · rw [hread, attach_of_none hget hnone]
    exact .inl rfl
  · exact .inr ⟨hstats, hsame⟩

/-- Script files together give every contract without a script the first that there is. -/
theorem collector_readScripts (state : Consolidation) (files : List CoverageFile) :
    (files.foldl readScript state).collector =
      state.collector.withScripts fun hash => files.findSome? (CoverageFile.scriptFor? hash) := by
  induction files generalizing state with
  | nil =>
      rw [List.foldl_nil, Collector.withScripts_eq_self]
      intro _ _ _ _
      rfl
  | cons file rest ih =>
      rw [List.foldl_cons, ih, collector_readScript, Collector.withScripts_withScripts]
      refine congrArg (Collector.withScripts · state.collector) (funext fun hash => ?_)
      rw [List.findSome?_cons]
      cases file.scriptFor? hash <;> rfl

/-- A trace file applies its trace and counts what it contributed, or there is no trace in it
that can be applied; then it is rejected and changes nothing else. -/
theorem readTrace_cases (state : Consolidation) (file : CoverageFile) :
    (∃ records, file.ReadsAs records ∧
      (Collector.applyTrace records).run state.collector =
        (.ok (Trace.stats (state.collector.attributed records),
          state.collector.unregistered records), (state.readTrace file).collector) ∧
      (state.readTrace file).stats =
        state.stats.withAccepted (Trace.stats (state.collector.attributed records))) ∨
    (∀ records, file.ReadsAs records →
      ∃ e, (Collector.applyTrace records).run state.collector = (.error e, state.collector)) ∧
      (state.readTrace file).collector = state.collector ∧
      (state.readTrace file).stats = state.stats.withRejected := by
  simp only [← CoverageFile.trace_ofFile_eq_ok_iff]
  unfold readTrace
  rcases Trace.ofFile file with ⟨e | records, warnings⟩
  · exact .inr ⟨by simp, rfl, rfl⟩
  · dsimp only [warnUnregistered]
    cases hrun : (Collector.applyTrace records).run state.collector with
    | mk result after =>
        cases result with
        | ok answer =>
            obtain ⟨stats, unknown⟩ := answer
            obtain ⟨-, -, rfl⟩ := Collector.exists_applyTrace_eq_ok_iff.mp ⟨unknown, hrun⟩
            obtain rfl := Collector.unregistered_of_applyTrace hrun
            exact .inl ⟨records, rfl, hrun, rfl⟩
        | error e =>
            obtain rfl := Collector.applyTrace_atomic records state.collector e after hrun
            refine .inr ⟨?_, rfl, rfl⟩
            rintro _ ⟨⟩
            exact ⟨e, hrun⟩

theorem scripts_readTrace (state : Consolidation) (file : CoverageFile) :
    (state.readTrace file).stats.scripts = state.stats.scripts := by
  rcases readTrace_cases state file with ⟨_, -, -, hstats⟩ | ⟨-, -, hstats⟩ <;> simp [hstats]

theorem traceFiles_readTrace (state : Consolidation) (file : CoverageFile) :
    (state.readTrace file).stats.traceFiles = state.stats.traceFiles + 1 := by
  rcases readTrace_cases state file with ⟨_, -, -, hstats⟩ | ⟨-, -, hstats⟩ <;> simp [hstats]

theorem collector_readTrace_congr {state state' : Consolidation}
    (hsame : state.collector = state'.collector) (file : CoverageFile) :
    (state.readTrace file).collector = (state'.readTrace file).collector := by
  unfold readTrace
  rcases Trace.ofFile file with ⟨e | records, warnings⟩
  · exact hsame
  · dsimp only [warnUnregistered]
    rw [hsame]
    rcases (Collector.applyTrace records).run state'.collector with ⟨e | answer, after⟩
    · rfl
    · rfl

/-- The files at which reading moves the statistics in the way asked for. -/
def filesMoving (moves : SessionStats → SessionStats → Bool)
    (read : Consolidation → CoverageFile → Consolidation) :
    Consolidation → List CoverageFile → List CoverageFile
  | _, [] => []
  | state, file :: rest =>
      let after := read state file
      if moves state.stats after.stats then file :: filesMoving moves read after rest
      else filesMoving moves read after rest

theorem filesMoving_of_moves {moves : SessionStats → SessionStats → Bool}
    {read : Consolidation → CoverageFile → Consolidation} {state : Consolidation}
    {file : CoverageFile} (h : moves state.stats (read state file).stats = true)
    (rest : List CoverageFile) :
    filesMoving moves read state (file :: rest) =
      file :: filesMoving moves read (read state file) rest := by
  simp only [filesMoving, h, if_true]

theorem filesMoving_of_not_moves {moves : SessionStats → SessionStats → Bool}
    {read : Consolidation → CoverageFile → Consolidation} {state : Consolidation}
    {file : CoverageFile} (h : moves state.stats (read state file).stats = false)
    (rest : List CoverageFile) :
    filesMoving moves read state (file :: rest) =
      filesMoving moves read (read state file) rest := by
  simp only [filesMoving, h, Bool.false_eq_true, if_false]

/-- Files that do not move the statistics can be taken out, if they leave the collector as
it was and if what a file does to a collector depends on that collector alone. -/
theorem collector_foldl_filter {moves : SessionStats → SessionStats → Bool}
    {read : Consolidation → CoverageFile → Consolidation}
    (hcongr : ∀ {state state' : Consolidation}, state.collector = state'.collector →
      ∀ file, (read state file).collector = (read state' file).collector)
    (hidle : ∀ state file, moves state.stats (read state file).stats = false →
      (read state file).collector = state.collector)
    {keep : CoverageFile → Bool} {state state' : Consolidation} {files : List CoverageFile}
    (hkeep : ∀ file ∈ filesMoving moves read state files, keep file = true)
    (hsame : state.collector = state'.collector) :
    (files.foldl read state).collector = ((files.filter keep).foldl read state').collector := by
  induction files generalizing state state' with
  | nil => exact hsame
  | cons file rest ih =>
      rw [List.foldl_cons]
      cases hmoves : moves state.stats (read state file).stats with
      | true =>
          rw [filesMoving_of_moves hmoves] at hkeep
          obtain ⟨hfile, hrest⟩ := List.forall_mem_cons.mp hkeep
          rw [List.filter_cons_of_pos hfile, List.foldl_cons]
          exact ih hrest (hcongr hsame file)
      | false =>
          rw [filesMoving_of_not_moves hmoves] at hkeep
          rw [List.filter_cons]
          split
          · rw [List.foldl_cons]
            exact ih hkeep (hcongr hsame file)
          · exact ih hkeep ((hidle state file hmoves).trans hsame)

/-- The script files that are attached. -/
def attached (state : Consolidation) (files : List CoverageFile) : List CoverageFile :=
  filesMoving (fun before after => before.scripts < after.scripts) readScript state files

/-- The trace files that are not rejected. -/
def accepted (state : Consolidation) (files : List CoverageFile) : List CoverageFile :=
  filesMoving (fun before after => after.rejectedFiles = before.rejectedFiles) readTrace state
    files

theorem collector_readScripts_filter {keep : CoverageFile → Bool} {state : Consolidation}
    {files : List CoverageFile} (hkeep : ∀ file ∈ state.attached files, keep file = true) :
    (files.foldl readScript state).collector =
      ((files.filter keep).foldl readScript state).collector := by
  refine collector_foldl_filter ?_ ?_ hkeep rfl
  · intro state state' hsame file
    rw [collector_readScript, collector_readScript, hsame]
  · intro state file hmoves
    rcases stats_readScript state file with hstats | ⟨-, hsame⟩
    · simp [hstats] at hmoves
    · exact hsame

theorem collector_readTraces_filter {keep : CoverageFile → Bool} {state state' : Consolidation}
    {files : List CoverageFile} (hkeep : ∀ file ∈ state.accepted files, keep file = true)
    (hsame : state.collector = state'.collector) :
    (files.foldl readTrace state).collector =
      ((files.filter keep).foldl readTrace state').collector := by
  refine collector_foldl_filter (fun h => collector_readTrace_congr h) ?_ hkeep hsame
  intro state file hmoves
  rcases readTrace_cases state file with ⟨_, -, -, hstats⟩ | ⟨-, hsame, -⟩
  · simp [hstats] at hmoves
  · exact hsame

theorem scripts_readScripts (state : Consolidation) (files : List CoverageFile) :
    (files.foldl readScript state).stats.scripts =
      state.stats.scripts + (state.attached files).length := by
  induction files generalizing state with
  | nil => rfl
  | cons file rest ih =>
      rw [List.foldl_cons, ih, attached, attached]
      rcases stats_readScript state file with hstats | ⟨hstats, -⟩
      · have hscripts : (state.readScript file).stats.scripts = state.stats.scripts + 1 :=
          congrArg SessionStats.scripts hstats
        rw [filesMoving_of_moves (by simp [hstats]), List.length_cons, hscripts]
        omega
      · rw [filesMoving_of_not_moves (by simp [hstats]), hstats]

/-- Script files move no other number. -/
theorem stats_readScripts (state : Consolidation) (files : List CoverageFile) :
    ∃ scripts, (files.foldl readScript state).stats = { state.stats with scripts } := by
  induction files generalizing state with
  | nil => exact ⟨state.stats.scripts, rfl⟩
  | cons file rest ih =>
      obtain ⟨scripts, hrest⟩ := ih (state.readScript file)
      rw [List.foldl_cons, hrest]
      rcases stats_readScript state file with hstats | ⟨hstats, -⟩
      · exact ⟨scripts, by rw [hstats]⟩
      · exact ⟨scripts, by rw [hstats]⟩

theorem rejectedFiles_readScripts (state : Consolidation) (files : List CoverageFile) :
    (files.foldl readScript state).stats.rejectedFiles = state.stats.rejectedFiles := by
  obtain ⟨scripts, hstats⟩ := stats_readScripts state files
  rw [hstats]

theorem scripts_readTraces (state : Consolidation) (files : List CoverageFile) :
    (files.foldl readTrace state).stats.scripts = state.stats.scripts := by
  induction files generalizing state with
  | nil => rfl
  | cons file rest ih => rw [List.foldl_cons, ih, scripts_readTrace]

theorem rejectedFiles_readTraces (state : Consolidation) (files : List CoverageFile) :
    (files.foldl readTrace state).stats.rejectedFiles + (state.accepted files).length =
      state.stats.rejectedFiles + files.length := by
  induction files generalizing state with
  | nil => rfl
  | cons file rest ih =>
      have hrest := ih (state.readTrace file)
      rw [accepted] at hrest
      rw [List.foldl_cons, accepted, List.length_cons]
      rcases readTrace_cases state file with ⟨_, -, -, hstats⟩ | ⟨-, -, hstats⟩
      · rw [hstats, SessionStats.withAccepted_rejectedFiles] at hrest
        rw [filesMoving_of_moves (by simp [hstats]), List.length_cons]
        omega
      · rw [hstats, SessionStats.withRejected_rejectedFiles] at hrest
        rw [filesMoving_of_not_moves (by simp [hstats])]
        omega

/-- The files that are accepted are those that are taken in. -/
theorem exists_takesIn_accepted (state : Consolidation) (files : List CoverageFile) :
    ∃ traces, state.collector.TakesIn files (state.accepted files) traces
      (files.foldl readTrace state).collector := by
  induction files generalizing state with
  | nil => exact ⟨[], .done⟩
  | cons file rest ih =>
      obtain ⟨traces, htaken⟩ := ih (state.readTrace file)
      rw [List.foldl_cons, accepted]
      rcases readTrace_cases state file with
        ⟨records, hread, happlied, hstats⟩ | ⟨hrefused, hsame, hstats⟩
      · rw [filesMoving_of_moves (by simp [hstats])]
        exact ⟨records :: traces, .accept hread happlied htaken⟩
      · rw [filesMoving_of_not_moves (by simp [hstats])]
        rw [hsame] at htaken
        exact ⟨traces, .reject hrefused htaken⟩

end Consolidation

end ScriptCoverage
