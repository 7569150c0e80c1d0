import ScriptCoverage.Text.Blank

/-!
Paths as texts, with `/` between their names. Spellings that differ in doubled or
trailing separators, or in a `.` after the first name, have the same parts.
-/

namespace ScriptCoverage

structure Path where
  text : String
  deriving DecidableEq

namespace Path

inductive Part where
  | root
  /-- A `.` at the front. -/
  | current
  | parent
  | name (s : String)
  deriving DecidableEq

def pieces (path : Path) : List (List Char) :=
  path.text.toList.splitOn '/'

def ofPieces (pieces : List (List Char)) : Path :=
  ⟨String.ofList (List.intercalate ['/'] pieces)⟩

def leadingPart : List (List Char) → List Part
  | [] :: _ :: _ => [.root]
  | ['.'] :: _ => [.current]
  | _ => []

def isSkipped (piece : List Char) : Bool :=
  piece == [] || piece == ['.']

def partOfPiece? (piece : List Char) : Option Part :=
  if isSkipped piece then none
  else if piece = ['.', '.'] then some .parent
  else some (.name (String.ofList piece))

def parts (path : Path) : List Part :=
  leadingPart path.pieces ++ path.pieces.filterMap partOfPiece?

/-- Whether two spellings have the same parts. -/
def agrees (path other : Path) : Bool :=
  path.parts = other.parts

def isAbsolute (path : Path) : Bool :=
  path.text.toList.head? = some '/'

/-- The path `other` seen from `path`; an absolute path stays as it is. -/
def join (path other : Path) : Path :=
  if other.isAbsolute || path.text.isEmpty then other
  else if path.text.toList.getLast? = some '/' then ⟨path.text ++ other.text⟩
  else ⟨path.text ++ "/" ++ other.text⟩

/-- Whether the path ends in a name, and not in a separator or in dots: only such a
path can be that of a file. -/
def endsInName (path : Path) : Bool :=
  match path.pieces.getLast? with
  | some piece => !isSkipped piece && piece != ['.', '.']
  | none => false

/-- The directory that holds the path. -/
def parent? (path : Path) : Option Path :=
  match path.pieces.reverse.dropWhile isSkipped with
  | [] => none
  | [_] => some ⟨""⟩
  | [_, []] => some ⟨"/"⟩
  | _ :: before => some (ofPieces before.reverse)

/-- The last name of the path. -/
def name? (path : Path) : Option String :=
  match path.parts.getLast? with
  | some (.name s) => some s
  | _ => none

/-- A name cut before its last dot. A name with no other dot than its first character
has no extension. -/
def splitName (name : List Char) : List Char × Option (List Char) :=
  match Text.splitLast '.' name with
  | some ([], _) | none => (name, none)
  | some (stem, ending) => (stem, some ending)

def stem? (path : Path) : Option String :=
  path.name?.map fun name => String.ofList (splitName name.toList).1

def extension? (path : Path) : Option String :=
  path.name?.bind fun name => (splitName name.toList).2.map String.ofList

/-- The parts of `path` that come after those of `root`. -/
def piecesBelow? : List Part → List (List Char) → Option (List (List Char))
  | [], pieces => some (pieces.dropWhile isSkipped)
  | _, [] => none
  | part :: parts, piece :: pieces =>
      match partOfPiece? piece with
      | none => piecesBelow? (part :: parts) pieces
      | some found => if found = part then piecesBelow? parts pieces else none

/-- The path as it is spelled below a directory. -/
def below? (root path : Path) : Option Path :=
  match root.parts, path.pieces with
  | .root :: parts, [] :: pieces => (piecesBelow? parts pieces).map ofPieces
  | .current :: parts, ['.'] :: pieces => (piecesBelow? parts pieces).map ofPieces
  | parts, pieces => (piecesBelow? parts pieces).map ofPieces

end Path

end ScriptCoverage
