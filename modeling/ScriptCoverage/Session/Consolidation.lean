import ScriptCoverage.Files.Path
import ScriptCoverage.Nef.Reader
import ScriptCoverage.Recording.Collector

/-!
Reading a coverage directory into a collector. Scripts come first, then traces, each
in the order of their names. A file that cannot be used leaves a warning and changes
nothing else: a script is attached only when it loads as a whole, and a trace counts
as a whole or not at all.
-/

namespace ScriptCoverage

/-- A file of the coverage directory; without content if it cannot be read. -/
structure CoverageFile where
  path : Path
  content : Option (List UInt8)
  deriving DecidableEq

namespace CoverageFile

def scriptExtension : String := "nef"

def traceExtension : String := "trace"

def isScript (file : CoverageFile) : Bool :=
  file.path.extension? == some scriptExtension

def isTrace (file : CoverageFile) : Bool :=
  file.path.extension? == some traceExtension

def name (file : CoverageFile) : String :=
  file.path.name?.getD ""

def sorted (files : List CoverageFile) : List CoverageFile :=
  files.mergeSort fun x y => x.name ≤ y.name

/-- The contract that a script file is named for. -/
def scriptHash? (file : CoverageFile) : Option ContractHash :=
  file.path.stem?.bind fun stem => ContractHash.parse? stem.toList

end CoverageFile

inductive ScriptError where
  | unreadable
  | container (cause : FormatError)
  | decode (cause : DecodeError)
  deriving DecidableEq

def ScriptError.message : ScriptError → String
  | .unreadable => "the file cannot be read"
  | .container cause => cause.message
  | .decode cause => cause.message

/-- The script in a file: a container or bare instructions. -/
def Script.ofFile (file : CoverageFile) : Except ScriptError Script :=
  match file.content with
  | none => .error .unreadable
  | some content => do
      let bytes ← (Nef.scriptBytes content).mapError .container
      (Script.ofBytes bytes).mapError .decode

inductive TraceFileError where
  | unreadable (path : Path)
  | parse (cause : Trace.ParseError)
  | apply (path : Path) (cause : CoverageError)
  deriving DecidableEq

def TraceFileError.message : TraceFileError → String
  | .unreadable path => "Failed to read trace file " ++ path.text
  | .parse cause => cause.message
  | .apply path cause => "Failed to apply trace " ++ path.text ++ ": " ++ cause.message

/-- The records of a trace file, which must be UTF-8, and the warnings about its lines. -/
def Trace.ofFile (file : CoverageFile) :
    Except TraceFileError (List TraceRecord) × List Warning :=
  match file.content.bind Utf8.decode with
  | none => (.error (.unreadable file.path), [])
  | some text =>
      let reading := Trace.parse text file.path.text
      (reading.records.mapError .parse, reading.warnings)

structure SessionStats where
  contracts : Nat
  scripts : Nat
  traceFiles : Nat
  rejectedFiles : Nat
  hits : Nat
  branches : Nat
  ignoredRecords : Nat
  deriving DecidableEq

namespace SessionStats

def ofContracts (contracts : Nat) : SessionStats := ⟨contracts, 0, 0, 0, 0, 0, 0⟩

def addTrace (stats : SessionStats) (trace : TraceStats) : SessionStats :=
  { stats with
    hits := stats.hits + trace.hits
    branches := stats.branches + trace.branches
    ignoredRecords := stats.ignoredRecords + trace.ignored }

end SessionStats

structure Consolidation where
  collector : Collector
  stats : SessionStats
  log : WarningLog

namespace Consolidation

def start (collector : Collector) : Consolidation :=
  ⟨collector, .ofContracts collector.size, .empty⟩

def warn (state : Consolidation) (code : WarningCode) (message : String) :
    Consolidation :=
  { state with log := state.log.emit ⟨some code, message⟩ }

def attach (state : Consolidation) (hash : ContractHash) (script : Script) :
    Consolidation :=
  match (Collector.registerScript hash script).run state.collector with
  | (.ok (), collector) =>
      { state with collector, stats.scripts := state.stats.scripts + 1 }
  | (.error e, collector) => { state with collector }.warn .internal e.message

/-- A file named for no tracked contract is passed over. -/
def readScript (state : Consolidation) (file : CoverageFile) : Consolidation :=
  match file.scriptHash? with
  | none =>
      state.warn .parsing ("Script file name is not a contract hash: " ++ file.path.text)
  | some hash =>
      match state.collector.get? hash with
      | none => state
      | some recording =>
          if recording.script.isSome then
            state.warn .duplicateScript
              ("Ignoring second script for " ++ hash.text ++ ": " ++ file.path.text)
          else
            match Script.ofFile file with
            | .ok script => state.attach hash script
            | .error e =>
                state.warn .decode ("No instruction coverage for " ++ hash.text ++ " (" ++
                  file.path.text ++ "): " ++ e.message)

def unknownWarning (hash : ContractHash) : Warning :=
  ⟨some .unknownContract, "Ignoring trace data for unknown contract " ++ hash.text⟩

def warnUnregistered (state : Consolidation) (hashes : List ContractHash) : Consolidation :=
  { state with
    log := hashes.foldl (fun log hash => log.emitUnique (unknownWarning hash)) state.log }

def reject (state : Consolidation) (cause : TraceFileError) : Consolidation :=
  { state with stats.rejectedFiles := state.stats.rejectedFiles + 1 }.warn .parsing
    ("Skipping trace file: " ++ cause.message)

def accept (state : Consolidation) (stats : TraceStats) : Consolidation :=
  { state with stats := state.stats.addTrace stats }

/-- Whether a trace counts or not, the contracts it names in vain are warned of. -/
def readTrace (state : Consolidation) (file : CoverageFile) : Consolidation :=
  let (records, warnings) := Trace.ofFile file
  let state := { state with
    stats.traceFiles := state.stats.traceFiles + 1
    log := state.log.emitAll warnings }
  match records with
  | .error cause => state.reject cause
  | .ok records =>
      let state := state.warnUnregistered (state.collector.unregistered records)
      match (Collector.applyTrace records).run state.collector with
      | (.ok (stats, _), collector) => { state with collector }.accept stats
      | (.error e, collector) => { state with collector }.reject (.apply file.path e)

/-- Reads all files of a directory; those that are neither script nor trace do not
count. -/
def readAll (state : Consolidation) (files : List CoverageFile) : Consolidation :=
  let files := CoverageFile.sorted files
  let state := (files.filter CoverageFile.isScript).foldl readScript state
  (files.filter CoverageFile.isTrace).foldl readTrace state

end Consolidation

end ScriptCoverage
