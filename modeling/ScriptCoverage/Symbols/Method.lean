import ScriptCoverage.Data.Json
import ScriptCoverage.Symbols.SequencePoint
import ScriptCoverage.Text.Blank

/-!
Methods of a contract as debug information describes them. The first field that is
missing or malformed refuses the method, in the order id, name, range, parameters,
sequence points.
-/

namespace ScriptCoverage

structure Parameter where
  name : String
  typeName : String
  index : UInt32
  deriving DecidableEq

namespace Parameter

def named (name typeName : List Char) (index : UInt32) : Option Parameter :=
  if name.isEmpty || typeName.isEmpty then none
  else some ⟨String.ofList name, String.ofList typeName, index⟩

/-- `name,type` or `name,type,index`; without an index the position counts. -/
def parse? (text : List Char) (position : Nat) : Option Parameter :=
  match text.splitOn ',' with
  | [name, typeName] => named name typeName (UInt32.ofNat position)
  | [name, typeName, index] => do
      let index ← Decimal.signedWord? (Text.trim index)
      named name typeName index
  | _ => none

def parse (text : String) (position : Nat) : Except FormatError Parameter :=
  match parse? text.toList position with
  | some parameter => .ok parameter
  | none => .error (.invalidParameter text)

end Parameter

namespace Field

def string (json : Json) (name : String) : Except FormatError String :=
  match (json.field? name).bind Json.string? with
  | some s => .ok s
  | none => .error (.missingField name)

def array (json : Json) (name : String) : Except FormatError (List Json) :=
  match (json.field? name).bind Json.array? with
  | some items => .ok items
  | none => .error (.missingField name)

def strings (json : Json) (name : String) : Except FormatError (List String) := do
  let items ← array json name
  match items.mapM Json.string? with
  | some texts => .ok texts
  | none => .error (.missingField name)

/-- A list that may be left out or null. -/
def optionalStrings (json : Json) (name : String) : Except FormatError (List String) :=
  match json.field? name with
  | none | some .null => .ok []
  | some _ => strings json name

end Field

structure Method where
  id : String
  «namespace» : String
  name : String
  range : AddressRange
  parameters : List Parameter
  returnType : Option String
  /-- By ascending address. -/
  points : List SequencePoint
  deriving DecidableEq

namespace Method

/-- Splits at the first comma; what follows it is the name and has no other. -/
def splitName? (full : List Char) : Option (List Char × List Char) :=
  match Text.splitFirst ',' full with
  | some (space, name) => if name.isEmpty || name.contains ',' then none else some (space, name)
  | none => none

/-- Points of equal address keep their order. -/
def sortPoints (points : List SequencePoint) : List SequencePoint :=
  points.mergeSort fun p q => p.address ≤ q.address

def ofJson (json : Json) : Except FormatError Method := do
  let id ← Field.string json "id"
  let full ← Field.string json "name"
  let (space, name) ← match splitName? full.toList with
    | some parts => .ok parts
    | none => .error (FormatError.invalidMethodName full)
  let range ← AddressRange.parse (← Field.string json "range")
  let texts ← Field.optionalStrings json "params"
  let parameters ← texts.zipIdx.mapM fun (text, position) => Parameter.parse text position
  let points ← (← Field.optionalStrings json "sequence-points").mapM SequencePoint.parse
  return {
    id
    «namespace» := String.ofList space
    name := String.ofList name
    range
    parameters
    returnType := (json.field? "return").bind Json.string?
    points := sortPoints points }

end Method

end ScriptCoverage
