import ScriptCoverage.Config.Config
import ScriptCoverage.Data.TomlReader

/-!
Configurations from a file. The file is TOML: a table `global` of settings, and a list
`contract` of contracts. A contract is a table, or the list of its fields in order.
Settings of other names are ignored, and so are other tables.
-/

namespace ScriptCoverage

def ContractSource.ofToml? (toml : Toml) : Option ContractSource := do
  let fields ← match toml with
    | .array items => some (.ofList items)
    | .table _ => Fields.ofNames? toml.entry?
    | _ => none
  fields.read? Toml.string? fun given => given.string?.map some

def Toml.stringOrError (toml : Toml) : Except ConfigError String :=
  match toml.string? with
  | some s => .ok s
  | none => .error (.notString toml)

def Toml.pathOrError (toml : Toml) : Except ConfigError Path :=
  toml.stringOrError.map Path.mk

/-- A string alone stands for a list of one. -/
def Toml.stringsOrError (toml : Toml) : Except ConfigError (List String) :=
  match toml with
  | .array items => items.mapM Toml.stringOrError
  | _ => toml.stringOrError.map ([·])

def Toml.byteOrError (toml : Toml) : Except ConfigError UInt8 :=
  match toml with
  | .integer n =>
      if 0 ≤ n ∧ n < 256 then .ok (UInt8.ofNat n.toNat) else .error (.notByte toml)
  | _ => .error (.notByte toml)

namespace Config

def settingName (key : String) : String :=
  String.ofList (key.toList.map fun c => if c = '-' then '_' else c)

/-- Applies one setting. Hyphens and underscores in its name count the same. -/
def set (config : Config) (key : String) (value : Toml) : Except ConfigError Config :=
  match settingName key with
  | "root" => value.pathOrError.map fun path => { config with root := path }
  | "coverage_dir" => value.pathOrError.map fun path => { config with coverageDir := path }
  | "output" => value.pathOrError.map fun path => { config with output := path }
  | "format" => value.stringOrError.map fun text => { config with format := text }
  | "source_root" | "source_roots" =>
      value.stringsOrError.map fun roots => { config with sourceRoots := roots }
  | "verbose" => value.byteOrError.map fun n => { config with verbose := n }
  | "json_output" => value.pathOrError.map fun path => { config with jsonOutput := some path }
  | _ => .ok config

/-- Applies settings from left to right. -/
def setAll (config : Config) (settings : List (String × Toml)) : Except ConfigError Config :=
  settings.foldlM (fun config (key, value) => config.set key value) config

def settings? (document : Toml) : Option (List (String × Toml)) :=
  match document.entry? "global" with
  | none => some []
  | some (.table settings) => some settings
  | some _ => none

def fileContracts? (document : Toml) : Option (List ContractSource) :=
  match document.entry? "contract" with
  | none => some []
  | some (.array items) => items.mapM ContractSource.ofToml?
  | some _ => none

def ofDocument (document : Toml) : Except ConfigError Config :=
  match settings? document, fileContracts? document with
  | some settings, some contracts =>
      { default with fileContracts := contracts }.setAll settings
  | _, _ => .error .toml

def ofToml (text : List Char) : Except ConfigError Config :=
  match Toml.parse? text with
  | some entries => ofDocument (.table entries)
  | none => .error .toml

end Config

end ScriptCoverage
