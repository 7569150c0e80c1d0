import ScriptCoverage.Data.Toml
import ScriptCoverage.FormatError

/-!
What can be wrong with a configuration.
-/

namespace ScriptCoverage

inductive ConfigError where
  /-- A contract argument without an equals sign. -/
  | missingPath (argument : String)
  | emptyName (argument : String)
  | emptyPath (argument : String)
  | invalidHash (contract : String) (cause : FormatError)
  | notString (value : Toml)
  | notByte (value : Toml)
  | noFormat
  | unknownFormat (name : String)
  /-- A text that is no TOML, or whose tables have another shape. -/
  | toml
  /-- JSON of another shape. -/
  | json

namespace ConfigError

private def argumentText (argument problem : String) : String :=
  "Invalid contract argument " ++ Quoted.quote argument ++ ": " ++ problem

def message : ConfigError → String
  | .missingPath argument => argumentText argument "expected NAME=PATH"
  | .emptyName argument => argumentText argument "empty name"
  | .emptyPath argument => argumentText argument "empty path"
  | .invalidHash contract cause =>
      "Invalid hash for contract " ++ contract ++ ": " ++ cause.message
  | .notString value => "Expected string, got " ++ value.text
  | .notByte value => "Expected u8, got " ++ value.text
  | .noFormat => "Format list cannot be empty"
  | .unknownFormat name => "Unknown report format: " ++ name
  | .toml => "invalid TOML"
  | .json => "invalid JSON"

end ConfigError

end ScriptCoverage
