import ScriptCoverage.ContractHash
import ScriptCoverage.Symbols.Method

/-!
The symbol table of one contract: its hash, its source documents and its methods.
Every sequence point of a table that was read names one of the documents.
-/

namespace ScriptCoverage

structure SymbolTable where
  hash : ContractHash
  documentRoot : Option String
  documents : List String
  methods : List Method
  deriving DecidableEq

namespace SymbolTable

/-- The first point, in the order of the methods, that names no document. -/
def strayPoint? (documents : List String) (methods : List Method) : Option SequencePoint :=
  (methods.flatMap (·.points)).find? fun point => documents.length ≤ point.document.toNat

def nonempty (root : String) : Option String :=
  if root.isEmpty then none else some root

def ofJson (json : Json) : Except FormatError SymbolTable := do
  let hash ← ContractHash.parse (← Field.string json "hash")
  let documents ← Field.strings json "documents"
  let documentRoot := ((json.field? "document-root").bind Json.string?).bind nonempty
  let methods ← (← Field.array json "methods").mapM Method.ofJson
  match strayPoint? documents methods with
  | some point =>
      .error (.documentIndexOutOfRange point.document.toNat documents.length)
  | none => return { hash, documentRoot, documents, methods }

/-- A path from a root of a file system, or from a drive named by one letter. -/
def isAbsolute : List Char → Bool
  | '/' :: _ | '\\' :: _ => true
  | c :: ':' :: _ => c.val < 0x80
  | _ => false

def isSlash (c : Char) : Bool :=
  c == '/' || c == '\\'

/-- A document under the root, unless its path is absolute or no root is declared. -/
def joinRoot (root : Option String) (document : String) : String :=
  match root with
  | some root =>
      if isAbsolute document.toList then document
      else
        String.ofList (Text.dropTrailing isSlash root.toList ++ '/' :: document.toList)
  | none => document

def documentPath? (symbols : SymbolTable) (index : Nat) : Option String :=
  (symbols.documents[index]?).map (joinRoot symbols.documentRoot)

end SymbolTable

end ScriptCoverage
