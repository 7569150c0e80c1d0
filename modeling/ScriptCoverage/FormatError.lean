import ScriptCoverage.Text.Hex

/-!
Why an external record is refused: one constructor for each cause, and the text
that reports it.
-/

namespace ScriptCoverage

/-- Why bytes are not a NEF container. -/
inductive NefError where
  | endOfData (offset needed : Nat)
  | lengthExceedsLimit (length limit : Nat)
  | notUtf8
  | reservedMethodName (name : String)
  | invalidBoolean (byte : UInt8)
  | badMagic (found : Nat)
  | reservedByteSet
  | reservedWordSet
  | emptyScript
  | trailingBytes
  | checksumMismatch (expected found : Nat)
  deriving DecidableEq

def word (n : Nat) : String :=
  "0x" ++ String.ofList (Hex.padded 8 n)

def NefError.message : NefError → String
  | .endOfData offset needed => s!"unexpected end of data at {offset} (need {needed} bytes)"
  | .lengthExceedsLimit length limit => s!"length {length} exceeds limit {limit}"
  | .notUtf8 => "string is not valid UTF-8"
  | .reservedMethodName name => s!"method token name {name} is reserved"
  | .invalidBoolean byte => s!"invalid boolean {byte.toNat}"
  | .badMagic found => "bad magic " ++ word found
  | .reservedByteSet => "reserved byte is not zero"
  | .reservedWordSet => "reserved word is not zero"
  | .emptyScript => "script is empty"
  | .trailingBytes => "trailing bytes after checksum"
  | .checksumMismatch expected found =>
      "checksum mismatch: expected " ++ word expected ++ ", found " ++ word found

inductive FormatError where
  | branchResultMismatch (address offset result : UInt32)
  | invalidHash (text : String)
  | wrongHashLength (bytes : Nat)
  | invalidRange (text : String)
  | invalidMethodName (text : String)
  | invalidParameter (text : String)
  | invalidSequencePoint (text : String)
  | documentIndexOutOfRange (index count : Nat)
  | missingField (name : String)
  | invalidNef (cause : NefError)
  | invalidRawLine (line : Nat) (text : String)
  deriving DecidableEq

def FormatError.message : FormatError → String
  | .branchResultMismatch address offset result =>
      s!"Branch result {result} at {address} matches neither the address nor the offset {offset}"
  | .invalidHash text => s!"Invalid contract hash: {text}"
  | .wrongHashLength bytes => s!"Invalid contract hash: expected 20 bytes, got {bytes}"
  | .invalidRange text => s!"Invalid method range: {text}"
  | .invalidMethodName text => s!"Invalid method name: {text}"
  | .invalidParameter text => s!"Invalid parameter: {text}"
  | .invalidSequencePoint text => s!"Invalid sequence point: {text}"
  | .documentIndexOutOfRange index count =>
      s!"Sequence point document index {index} out of range ({count} documents)"
  | .missingField name => s!"Missing field: {name}"
  | .invalidNef cause => "Invalid NEF file: " ++ cause.message
  | .invalidRawLine line text => s!"Invalid raw coverage line {line}: {text}"

end ScriptCoverage
