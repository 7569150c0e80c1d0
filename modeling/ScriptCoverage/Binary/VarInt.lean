import ScriptCoverage.Binary.LittleEndian

/-!
Counts of variable length: one byte below 0xFD, or a mark byte and two, four or
eight bytes. Writing takes the shortest form that holds the count.
-/

namespace ScriptCoverage.VarInt

def encode (n : Nat) : List UInt8 :=
  if n < 0xFD then [UInt8.ofNat n]
  else if n < UInt16.size then 0xFD :: LittleEndian.encode 2 n
  else if n < UInt32.size then 0xFE :: LittleEndian.encode 4 n
  else 0xFF :: LittleEndian.encode 8 n

/-- How many bytes follow the first byte of a count, when it is a mark. -/
def markedWidth? (first : UInt8) : Option Nat :=
  if first = 0xFD then some 2
  else if first = 0xFE then some 4
  else if first = 0xFF then some 8
  else none

/-- A byte list preceded by its length. -/
def encodeBytes (bytes : List UInt8) : List UInt8 :=
  encode bytes.length ++ bytes

end ScriptCoverage.VarInt
