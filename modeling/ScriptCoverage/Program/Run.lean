import ScriptCoverage.Config.CommandLine
import ScriptCoverage.Config.ConfigFile
import ScriptCoverage.Program.Console
import ScriptCoverage.Program.Host
import ScriptCoverage.Report.Sink
import ScriptCoverage.Session.Session

/-!
One run of the program: it reads its configuration, runs one session over a coverage
directory that is filled already, writes the artifacts and prints a summary. The first
error ends the run; what was written or printed before it stays.
-/

namespace ScriptCoverage

inductive RunError where
  | usage (cause : UsageError)
  | unreadableConfig (path : Path)
  | config (cause : ConfigError)
  | session (cause : SessionError)
  | sink (cause : SinkError)
  | unwritableSummary (path : Path)

namespace RunError

def message : RunError → String
  | .usage cause => cause.name
  | .unreadableConfig path => "Failed to read config file: " ++ Quoted.quote path.text
  | .config cause => cause.message
  | .session cause => cause.message
  | .sink cause => "Failed to write artifacts: " ++ cause.message
  | .unwritableSummary path => "Failed to write " ++ path.text

/-- Asking for help or for the version is no failure. -/
def exitCode : RunError → Nat
  | .usage .displayHelp | .usage .displayVersion => 0
  | .usage _ => 2
  | _ => 1

end RunError

namespace Run

variable {m : Type → Type} [Monad m] [Host m]

private def check {ε α : Type} (wrap : ε → RunError) (result : Except ε α) :
    ExceptT RunError m α :=
  ExceptT.mk (pure (result.mapError wrap))

/-- The file that the user named, or the one in the root if there is one. -/
private def configFile? (commandLine : Config) : m (Option Path) :=
  match commandLine.config with
  | some path => return some path
  | none => do
      let path := commandLine.defaultFile
      return if ← FileStore.isPresent path then some path else none

private def readConfig (path : Path) : ExceptT RunError m Config := do
  let bytes ← (FileStore.content? path : m _)
  match bytes.bind Utf8.decode with
  | none => throw (.unreadableConfig path)
  | some text => check .config (Config.ofToml text)

/-- The settings of the file, overridden by those of the command line. -/
def loadConfig (commandLine : Config) : ExceptT RunError m Config := do
  match ← (configFile? commandLine : m _) with
  | none => return Config.default.merge commandLine
  | some path => return (← readConfig path).merge commandLine

private def register (source : ContractSource) : ExceptT RunError m Registration := do
  let declared ← check .config source.declared
  let content ← (FileStore.content? source.debugInfo : m _)
  return .ofFile source.name source.debugInfo content declared

private def readCoverageFile (dir : Path) (name : String) : m CoverageFile := do
  let file : CoverageFile := ⟨dir.join ⟨name⟩, none⟩
  if file.isScript || file.isTrace then
    return { file with content := ← FileStore.content? file.path }
  else return file

/-- The coverage directory, with the content of the scripts and traces in it. -/
def readListing (dir : Path) : m Listing := do
  if !(← FileStore.isPresent dir) then return .missing
  match ← FileStore.fileNames? dir with
  | none => return .unreadable
  | some names => return .files (← names.mapM (readCoverageFile dir))

private def sessionOptions (config : Config) : Except ConfigError SessionOptions := do
  let formats ← ReportFormat.ofNames (← config.formatNames)
  return ⟨config.coveragePath, formats, config.sourceRoots⟩

private def summarize (report : SessionReport) (written : List Path) (duration : Duration) :
    Summary where
  contracts := report.trees.map .ofTree
  traceFiles := report.stats.traceFiles
  rejectedFiles := report.stats.rejectedFiles
  artifacts := written.map (·.text)
  duration := duration

private def conclude {α : Type} (step : SessionOutcome α) :
    ExceptT RunError m (α × Session) := do
  step.warnings.forM fun warning => (Host.warn warning : m _)
  let answer ← check .session step.result
  return (answer, step.session)

private def collect (config : Config) (hasColours : Bool) : ExceptT RunError m SessionReport := do
  let sources ← check .config config.sources
  let options ← check .config (sessionOptions config)
  let registrations ← sources.mapM register
  let timestamp ← (Host.now : m _)
  let (registered, session) ←
    conclude ((Session.new options).start registrations timestamp)
  (Host.printLine
    (Console.startLine hasColours registered sources.length config.coveragePath) : m _)
  let listing ← (readListing config.coveragePath : m _)
  let (report, _) ← conclude (session.finish listing)
  return report

private def writeSummary (path : Path) (summary : Summary) : ExceptT RunError m Unit := do
  if ← (FileStore.write path (Utf8.encode summary.jsonText) : m _) then
    (Host.printLine (Console.jsonLine path) : m _)
  else throw (.unwritableSummary path)

/-- Runs the program on its arguments. -/
def run (arguments : List String) (hasColours : Bool) : ExceptT RunError m Summary := do
  let line ← check .usage (CommandLine.parse arguments)
  let config ← loadConfig line.config
  let report ← collect config hasColours
  let stored ← ((DirectorySink.new config.outputPath).storeAll report.artifacts : m _)
  let sink ← check .sink stored
  let summary := summarize report sink.written (← (Host.elapsed : m _))
  (Console.summaryLines hasColours summary).forM fun text => (Host.printLine text : m _)
  match config.jsonOutput with
  | some path => writeSummary path summary
  | none => pure ()
  return summary

end Run

end ScriptCoverage
