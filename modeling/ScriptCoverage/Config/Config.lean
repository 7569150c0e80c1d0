import ScriptCoverage.Config.ContractSource
import ScriptCoverage.Report.Format

/-!
The configuration of a run. A configuration from another origin is merged into one by
taking over each setting that is not the default; lists are appended.
-/

namespace ScriptCoverage

structure Config where
  root : Path
  /-- The configuration file that the user named. -/
  config : Option Path
  coverageDir : Path
  output : Path
  /-- Contracts as arguments of the command line. -/
  contracts : List String
  fileContracts : List ContractSource
  format : String
  sourceRoots : List String
  verbose : UInt8
  jsonOutput : Option Path
  deriving DecidableEq

namespace Config

def default : Config where
  root := ⟨"."⟩
  config := none
  coverageDir := ⟨"coverage"⟩
  output := ⟨"coverage-report"⟩
  contracts := []
  fileContracts := []
  format := "raw,cobertura"
  sourceRoots := []
  verbose := 0
  jsonOutput := none

instance : Inhabited Config := ⟨default⟩

/-- The configuration file that is looked for in the root. -/
def fileName : String := "nvcov.toml"

def mergePath (current other standard : Path) : Path :=
  if other.agrees standard then current else other

def merge (config other : Config) : Config where
  root := mergePath config.root other.root default.root
  config := other.config <|> config.config
  coverageDir := mergePath config.coverageDir other.coverageDir default.coverageDir
  output := mergePath config.output other.output default.output
  contracts := config.contracts ++ other.contracts
  fileContracts := config.fileContracts ++ other.fileContracts
  format := if other.format = default.format then config.format else other.format
  sourceRoots := config.sourceRoots ++ other.sourceRoots
  verbose := if 0 < other.verbose then other.verbose else config.verbose
  jsonOutput := other.jsonOutput <|> config.jsonOutput

def coveragePath (config : Config) : Path :=
  config.root.join config.coverageDir

def outputPath (config : Config) : Path :=
  config.root.join config.output

/-- Where the configuration file lies if the user named none. -/
def defaultFile (config : Config) : Path :=
  config.root.join ⟨fileName⟩

/-- All contracts, those of the file first, with their paths seen from the root. -/
def sources (config : Config) : Except ConfigError (List ContractSource) := do
  let arguments ← config.contracts.mapM ContractSource.parse
  let sources := config.fileContracts ++ arguments
  sources.forM fun source => source.declared.map fun _ => ()
  return sources.map (ContractSource.resolved config.root)

/-- The names in the format list; blanks and empty names do not count. -/
def formatNames (config : Config) : Except ConfigError (List String) :=
  let names := (config.format.toList.splitOn ',').map Text.trim
  match names.filter fun name => !name.isEmpty with
  | [] => .error .noFormat
  | names => .ok (names.map String.ofList)

end Config

/-- Formats by their names. -/
def ReportFormat.ofNames (names : List String) : Except ConfigError (List ReportFormat) :=
  names.mapM fun name =>
    match ReportFormat.ofName? name with
    | some format => .ok format
    | none => .error (.unknownFormat name)

end ScriptCoverage
