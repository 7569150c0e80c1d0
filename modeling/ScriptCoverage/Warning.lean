/-!
Warnings for the user. A log keeps what was emitted, in order; a message that is
emitted as unique is left out when an earlier unique one had the same text.
-/

namespace ScriptCoverage

inductive WarningCode where
  | parsing
  | unknownContract
  | identityMismatch
  | decode
  | duplicateScript
  | internal
  deriving DecidableEq

namespace WarningCode

def all : List WarningCode :=
  [.parsing, .unknownContract, .identityMismatch, .decode, .duplicateScript, .internal]

def name : WarningCode → String
  | .parsing => "parsing-error"
  | .unknownContract => "unknown-contract"
  | .identityMismatch => "identity-mismatch"
  | .decode => "decode-error"
  | .duplicateScript => "duplicate-script"
  | .internal => "internal-error"

end WarningCode

/-- A notice about the run as a whole has no code. -/
structure Warning where
  code : Option WarningCode
  message : String
  deriving DecidableEq

structure WarningLog where
  emitted : List Warning
  unique : List String

namespace WarningLog

def empty : WarningLog := ⟨[], []⟩

def emit (log : WarningLog) (warning : Warning) : WarningLog :=
  { log with emitted := log.emitted ++ [warning] }

def emitAll (log : WarningLog) (warnings : List Warning) : WarningLog :=
  { log with emitted := log.emitted ++ warnings }

def emitUnique (log : WarningLog) (warning : Warning) : WarningLog :=
  if log.unique.contains warning.message then log
  else { log.emit warning with unique := warning.message :: log.unique }

end WarningLog

/-- The least severe messages shown when the user asks for more `verbose` times. -/
def logLevel (verbose : UInt8) : String :=
  match verbose.toNat with
  | 0 => "warn"
  | 1 => "info"
  | 2 => "debug"
  | _ => "trace"

end ScriptCoverage
