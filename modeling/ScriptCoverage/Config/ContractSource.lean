import ScriptCoverage.Config.ConfigError
import ScriptCoverage.ContractHash
import ScriptCoverage.Files.Path
import ScriptCoverage.Text.Blank

/-!
A contract to collect coverage for: its name, the path of its debug information, and
perhaps the hash it is expected to have. On the command line it is written
`NAME=PATH` or `NAME=PATH@0xHASH`.
-/

namespace ScriptCoverage

structure ContractSource where
  name : String
  debugInfo : Path
  hash : Option String
  deriving DecidableEq

namespace ContractSource

/-- The hash as a value; a text that is none is refused. -/
def declared (source : ContractSource) : Except ConfigError (Option ContractHash) :=
  match source.hash with
  | none => .ok none
  | some text => ((ContractHash.parse text).map some).mapError (.invalidHash source.name)

/-- Everything after the last `@` is a hash if it starts as one. -/
def splitHash (text : List Char) : List Char × Option (List Char) :=
  match Text.splitLast '@' text with
  | some (path, hash) =>
      if ContractHash.isMarked hash then (path, some (Text.trim hash)) else (text, none)
  | none => (text, none)

/-- Reads an argument of the command line. Blanks around each part do not count. -/
def parse (argument : String) : Except ConfigError ContractSource := do
  let some (name, rest) := Text.splitFirst '=' argument.toList
    | .error (.missingPath argument)
  let name := Text.trim name
  if name.isEmpty then .error (.emptyName argument)
  let (path, hash) := splitHash rest
  let path := Text.trim path
  if path.isEmpty then .error (.emptyPath argument)
  let source : ContractSource :=
    ⟨String.ofList name, ⟨String.ofList path⟩, hash.map String.ofList⟩
  let _ ← source.declared
  return source

/-- The argument that stands for the source. -/
def argument (source : ContractSource) : String :=
  source.name ++ "=" ++ source.debugInfo.text ++
    match source.hash with
    | some hash => "@" ++ hash
    | none => ""

def resolved (root : Path) (source : ContractSource) : ContractSource :=
  { source with debugInfo := root.join source.debugInfo }

/-- The fields of a source in a configuration file, before they are checked. -/
structure Fields (α : Type) where
  name : Option α
  debugInfo : Option α
  hash : Option α

namespace Fields

variable {α : Type}

def ofList (items : List α) : Fields α :=
  ⟨items[0]?, items[1]?, items[2]?⟩

/-- The field of the path has two spellings, of which one may be given. -/
def ofNames? (field? : String → Option α) : Option (Fields α) :=
  match field? "debug-info", field? "debug_info" with
  | some _, some _ => none
  | hyphened, underscored => some ⟨field? "name", hyphened <|> underscored, field? "hash"⟩

/-- The hash may be left out; `optional` tells how one that is given is read. -/
def read? (string? : α → Option String) (optional : α → Option (Option String))
    (fields : Fields α) : Option ContractSource := do
  let name ← fields.name.bind string?
  let debugInfo ← fields.debugInfo.bind string?
  let hash ← match fields.hash with
    | none => some none
    | some given => optional given
  some ⟨name, ⟨debugInfo⟩, hash⟩

end Fields

end ContractSource

end ScriptCoverage
