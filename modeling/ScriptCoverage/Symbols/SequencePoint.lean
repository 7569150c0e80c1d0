import ScriptCoverage.FormatError
import ScriptCoverage.Text.Decimal

/-!
Two texts of debug information with their readers and printers. A sequence point
`address[document]line:column-line:column` ties an address to a span of a source
document; a range `first-last` holds the addresses of a method.
-/

namespace ScriptCoverage

namespace Reading

/-- Takes a word off the front of a text. -/
def word (text : List Char) : Option (UInt32 × List Char) :=
  let isDigit (c : Char) : Bool := (Decimal.digitValue? c).isSome
  (Decimal.word? (text.takeWhile isDigit)).map fun n => (n, text.dropWhile isDigit)

/-- Takes a given character off the front of a text. -/
def mark (c : Char) : List Char → Option (List Char)
  | [] => none
  | d :: rest => if d = c then some rest else none

end Reading

structure SourcePosition where
  line : UInt32
  column : UInt32
  deriving DecidableEq

structure SequencePoint where
  address : UInt32
  /-- Index into the documents of the symbols. -/
  document : UInt32
  start : SourcePosition
  stop : SourcePosition
  deriving DecidableEq

def SourcePosition.chars (position : SourcePosition) : List Char :=
  Decimal.digits position.line.toNat ++ ':' :: Decimal.digits position.column.toNat

namespace SequencePoint

def chars (point : SequencePoint) : List Char :=
  Decimal.digits point.address.toNat ++ '[' :: Decimal.digits point.document.toNat ++
    ']' :: point.start.chars ++ '-' :: point.stop.chars

def position? (text : List Char) : Option (SourcePosition × List Char) := do
  let (line, rest) ← Reading.word text
  let rest ← Reading.mark ':' rest
  let (column, rest) ← Reading.word rest
  some (⟨line, column⟩, rest)

def parse? (text : List Char) : Option SequencePoint := do
  let (address, rest) ← Reading.word text
  let rest ← Reading.mark '[' rest
  let (document, rest) ← Reading.word rest
  let rest ← Reading.mark ']' rest
  let (start, rest) ← position? rest
  let rest ← Reading.mark '-' rest
  let (stop, rest) ← position? rest
  if rest.isEmpty then some ⟨address, document, start, stop⟩ else none

def parse (text : String) : Except FormatError SequencePoint :=
  match parse? text.toList with
  | some point => .ok point
  | none => .error (.invalidSequencePoint text)

end SequencePoint

/-- Addresses from `first` to `last`, both included. -/
structure AddressRange where
  first : UInt32
  last : UInt32
  ordered : first ≤ last
  deriving DecidableEq

namespace AddressRange

def chars (range : AddressRange) : List Char :=
  Decimal.digits range.first.toNat ++ '-' :: Decimal.digits range.last.toNat

def parse? (text : List Char) : Option AddressRange := do
  let (first, rest) ← Reading.word text
  let rest ← Reading.mark '-' rest
  let (last, rest) ← Reading.word rest
  if h : rest = [] ∧ first ≤ last then some ⟨first, last, h.2⟩ else none

def parse (text : String) : Except FormatError AddressRange :=
  match parse? text.toList with
  | some range => .ok range
  | none => .error (.invalidRange text)

end AddressRange

end ScriptCoverage
