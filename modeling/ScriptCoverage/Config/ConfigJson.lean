import ScriptCoverage.Config.Config
import ScriptCoverage.Data.Json

/-!
Configurations as JSON: an object whose missing fields have their defaults, or the
list of all fields in order.
-/

namespace ScriptCoverage

/-- Null stands for a field that is not given. -/
private def Json.optionalString (json : Json) : Option (Option String) :=
  match json with
  | .null => some none
  | _ => json.string?.map some

private def ContractSource.ofJson? (json : Json) : Option ContractSource := do
  let fields ← match json with
    | .array items => if items.length ≤ 3 then some (.ofList items) else none
    | .object _ => Fields.ofNames? json.field?
    | _ => none
  fields.read? Json.string? Json.optionalString

private def Json.list? {α : Type} (item? : Json → Option α) (json : Json) : Option (List α) :=
  json.array?.bind fun items => items.mapM item?

private def Json.byte? : Json → Option UInt8
  | .number (.natural n) => if n < 256 then some (UInt8.ofNat n) else none
  | _ => none

namespace Config

private def fieldNames : List String :=
  ["root", "config", "coverage_dir", "output", "contracts", "file_contracts", "format",
    "source_roots", "verbose", "json_output"]

/-- The value of a field, or its default if it is not given. -/
private def fieldOr {α : Type} (json : Json) (name : String) (standard : α)
    (read : Json → Option α) : Option α :=
  match json.field? name with
  | none => some standard
  | some given => read given

private def ofFields? (json : Json) : Option Config := do
  let path (given : Json) : Option Path := given.string?.map Path.mk
  let optionalPath (given : Json) : Option (Option Path) :=
    given.optionalString.map (·.map Path.mk)
  let strings := Json.list? Json.string?
  some {
    root := ← fieldOr json "root" default.root path
    config := ← fieldOr json "config" none optionalPath
    coverageDir := ← fieldOr json "coverage_dir" default.coverageDir path
    output := ← fieldOr json "output" default.output path
    contracts := ← fieldOr json "contracts" [] strings
    fileContracts := ← fieldOr json "file_contracts" [] (Json.list? ContractSource.ofJson?)
    format := ← fieldOr json "format" default.format Json.string?
    sourceRoots := ← fieldOr json "source_roots" [] strings
    verbose := ← fieldOr json "verbose" 0 Json.byte?
    jsonOutput := ← fieldOr json "json_output" none optionalPath }

private def ofJson? : Json → Option Config
  | .array items =>
      if items.length = fieldNames.length then ofFields? (.object (fieldNames.zip items))
      else none
  | .object fields => ofFields? (.object fields)
  | _ => none

def ofJson (json : Json) : Except ConfigError Config :=
  match ofJson? json with
  | some config => .ok config
  | none => .error .json

end Config

end ScriptCoverage
