import ScriptCoverage.Binary.ZipArchive
import ScriptCoverage.Data.JsonReader
import ScriptCoverage.Symbols.Table
import ScriptCoverage.Text.Utf8

/-!
Debug information as a file: a JSON text, or a zip archive with the text as the
first entry whose name ends in `.debug.json`, or as its only entry.
-/

namespace ScriptCoverage

namespace DebugInfo

inductive LoadError where
  | archive
  | noEntry
  | json
  | format (cause : FormatError)
  deriving DecidableEq

def LoadError.message : LoadError → String
  | .archive => "invalid archive"
  | .noEntry => "No .debug.json entry in debug info archive"
  | .json => "invalid JSON"
  | .format cause => cause.message

private def jsonSuffix : List UInt8 :=
  Utf8.encode ".debug.json".toList

/-- An entry that cannot be opened is passed over. -/
private def chooseEntry (archive : List UInt8) (entries : List ZipEntry) : Option ZipEntry :=
  let isText (entry : ZipEntry) : Bool :=
    (entry.packed? archive).isSome && entry.endsWith jsonSuffix
  match entries.find? isText, entries with
  | some entry, _ => some entry
  | none, [entry] => some entry
  | none, _ => none

private def extract (archive : List UInt8) : Except LoadError (List UInt8) :=
  match ZipArchive.entries? archive with
  | none => .error .archive
  | some entries =>
      match chooseEntry archive entries with
      | none => .error .noEntry
      | some entry =>
          match entry.content? archive with
          | none => .error .archive
          | some content => .ok content

/-- How deep brackets may nest in the text. -/
def maxDepth : Nat := 127

private def jsonOfBytes (bytes : List UInt8) : Except LoadError Json :=
  match (Utf8.decode bytes).bind (Json.parse? maxDepth) with
  | some json => .ok json
  | none => .error .json

def parse (bytes : List UInt8) : Except LoadError SymbolTable := do
  let text ← if ZipArchive.isArchive bytes then extract bytes else .ok bytes
  let json ← jsonOfBytes text
  (SymbolTable.ofJson json).mapError .format

end DebugInfo

end ScriptCoverage
