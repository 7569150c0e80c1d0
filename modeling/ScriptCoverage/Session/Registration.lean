import ScriptCoverage.Files.Path
import ScriptCoverage.Recording.Collector
import ScriptCoverage.Symbols.DebugInfo

/-!
Contracts that a session is asked to track. A registration whose symbols cannot be
used is passed over with a warning; of those with one hash the first counts.
-/

namespace ScriptCoverage

inductive SymbolsError where
  | unreadable (path : Path)
  | invalid (path : Path) (cause : DebugInfo.LoadError)
  deriving DecidableEq

def SymbolsError.message : SymbolsError → String
  | .unreadable path => "Failed to open debug info " ++ path.text
  | .invalid path cause => "Failed to parse debug info " ++ path.text ++ ": " ++ cause.message

structure Registration where
  name : String
  symbols : Except SymbolsError SymbolTable
  declared : Option ContractHash

namespace Registration

/-- A contract with the content of its debug information, if that can be read. -/
def ofFile (name : String) (path : Path) (content : Option (List UInt8))
    (declared : Option ContractHash) : Registration where
  name := name
  symbols :=
    match content with
    | none => .error (.unreadable path)
    | some bytes => (DebugInfo.parse bytes).mapError (.invalid path)
  declared := declared

end Registration

/-- The contracts tracked so far, and the warnings about those that are not. -/
structure Tracking where
  collector : Collector
  warnings : List Warning

namespace Tracking

def empty : Tracking := ⟨.empty, []⟩

def skip (tracking : Tracking) (code : WarningCode) (name problem : String) : Tracking :=
  { tracking with
    warnings :=
      tracking.warnings ++ [⟨some code, "Skipping contract " ++ name ++ ": " ++ problem⟩] }

def codeOf : CoverageError → WarningCode
  | .identityMismatch .. => .identityMismatch
  | _ => .internal

def add (tracking : Tracking) (registration : Registration) : Tracking :=
  match registration.symbols with
  | .error e => tracking.skip .parsing registration.name e.message
  | .ok symbols =>
      match (Collector.addContract registration.name symbols registration.declared).run
          tracking.collector with
      | (.ok _, collector) => { tracking with collector }
      | (.error e, collector) =>
          { tracking with collector }.skip (codeOf e) registration.name e.message

def addAll (tracking : Tracking) (registrations : List Registration) : Tracking :=
  registrations.foldl add tracking

end Tracking

end ScriptCoverage
