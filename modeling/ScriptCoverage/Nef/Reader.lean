import ScriptCoverage.Nef.Container

/-!
Reading a NEF3 container. A field is read off a cursor, which keeps the offset for
the report of a container that ends too soon. Lengths may use any form that holds
them; everything else has one spelling.
-/

namespace ScriptCoverage.Nef

structure Cursor where
  offset : Nat
  rest : List UInt8

abbrev Read := StateT Cursor (Except NefError)

namespace Read

def bytes (count : Nat) : Read (List UInt8) := fun cursor =>
  let taken := cursor.rest.take count
  if taken.length < count then .error (.endOfData cursor.offset count)
  else .ok (taken, ⟨cursor.offset + count, cursor.rest.drop count⟩)

def number (width : Nat) : Read Nat := do
  let read ← bytes width
  return LittleEndian.decode read

/-- A count of any form, refused above `limit`. -/
def count (limit : Nat) : Read Nat := do
  let first ← number 1
  let n ← match VarInt.markedWidth? (UInt8.ofNat first) with
    | some width => number width
    | none => pure first
  if limit < n then throw (.lengthExceedsLimit n limit)
  return n

def string (limit : Nat) : Read String := do
  let length ← count limit
  let read ← bytes length
  match Utf8.decode read with
  | some text => return String.ofList text
  | none => throw .notUtf8

def boolean : Read Bool := do
  let n ← number 1
  if n = 0 then return false
  else if n = 1 then return true
  else throw (.invalidBoolean (UInt8.ofNat n))

def methodToken : Read MethodToken := do
  let hash ← bytes ContractHash.byteCount
  let method ← string maxMethodName
  if method.toList.head? = some '_' then throw (.reservedMethodName method)
  let parameterCount ← number 2
  let hasReturnValue ← boolean
  let callFlags ← number 1
  return {
    hash := ContractHash.ofBytes hash
    method
    parameterCount := UInt16.ofNat parameterCount
    hasReturnValue
    callFlags := UInt8.ofNat callFlags }

def methodTokens : (count : Nat) → Read (List MethodToken)
  | 0 => return []
  | count + 1 => do
      let token ← methodToken
      let tokens ← methodTokens count
      return token :: tokens

def zero (width : Nat) (otherwise : NefError) : Read Unit := do
  if (← number width) ≠ 0 then throw otherwise

/-- Everything before the checksum; the checksum of the result is not yet known. -/
def body : Read Container := do
  let found ← number 4
  if found ≠ magic then throw (.badMagic found)
  let compiler ← bytes compilerWidth
  let source ← string maxSource
  zero 1 .reservedByteSet
  let tokenCount ← count maxTokens
  let tokens ← methodTokens tokenCount
  zero 2 .reservedWordSet
  let scriptLength ← count maxScript
  if scriptLength = 0 then throw .emptyScript
  let script ← bytes scriptLength
  return {
    compiler := String.ofList (Text.dropTrailing (· == '\x00') (Utf8.decodeLossy compiler))
    source, tokens, script, checksum := 0 }

end Read

def parseContainer (data : List UInt8) : Except NefError Container := do
  let (nef, afterBody) ← Read.body ⟨0, data⟩
  let (found, afterChecksum) ← Read.number 4 afterBody
  if afterChecksum.rest ≠ [] then throw .trailingBytes
  let expected := checksumOf (data.take afterBody.offset)
  if found ≠ expected.toNat then throw (.checksumMismatch expected.toNat found)
  return { nef with checksum := expected }

/-- Checks every field and the checksum. -/
def Container.parse (data : List UInt8) : Except FormatError Container :=
  (parseContainer data).mapError .invalidNef

/-- The script in a container, or bare script bytes as they are. -/
def scriptBytes (data : List UInt8) : Except FormatError (List UInt8) :=
  if isContainer data then (Container.parse data).map (·.script) else .ok data

end ScriptCoverage.Nef
