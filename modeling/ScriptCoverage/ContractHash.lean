import ScriptCoverage.Binary.LittleEndian
import ScriptCoverage.FormatError
import ScriptCoverage.Text.Blank

/-!
The hash that names a contract: 160 bits in three little-endian words. Its text
is `0x` and forty hexadecimal digits, the last byte first, so that comparing the
words from the top agrees with comparing the texts.
-/

namespace ScriptCoverage

structure ContractHash where
  low : UInt64
  mid : UInt64
  high : UInt32
  deriving DecidableEq

namespace ContractHash

def byteCount : Nat := 20

def zero : ContractHash := ⟨0, 0, 0⟩

def ofBytes (bytes : List UInt8) : ContractHash where
  low := UInt64.ofNat (LittleEndian.decode (bytes.take 8))
  mid := UInt64.ofNat (LittleEndian.decode ((bytes.drop 8).take 8))
  high := UInt32.ofNat (LittleEndian.decode ((bytes.drop 16).take 4))

def ofBytes? (bytes : List UInt8) : Except FormatError ContractHash :=
  if bytes.length = byteCount then .ok (ofBytes bytes)
  else .error (.wrongHashLength bytes.length)

def toBytes (hash : ContractHash) : List UInt8 :=
  LittleEndian.encode 8 hash.low.toNat ++ LittleEndian.encode 8 hash.mid.toNat ++
    LittleEndian.encode 4 hash.high.toNat

def chars (hash : ContractHash) : List Char :=
  '0' :: 'x' :: Hex.encode hash.toBytes.reverse

def text (hash : ContractHash) : String :=
  String.ofList hash.chars

/-- Whether a text starts as a contract hash does. -/
def isMarked : List Char → Bool
  | '0' :: 'x' :: _ | '0' :: 'X' :: _ => true
  | _ => false

def withoutMark (text : List Char) : List Char :=
  if isMarked text then text.drop 2 else text

/-- Forty digits of either case, with or without the mark, between blanks. -/
def parse? (text : List Char) : Option ContractHash :=
  let body := withoutMark (Text.trim text)
  if body.length = 2 * byteCount then (Hex.decode body).map fun bytes => ofBytes bytes.reverse
  else none

def parse (text : String) : Except FormatError ContractHash :=
  match parse? text.toList with
  | some hash => .ok hash
  | none => .error (.invalidHash text)

instance : Ord ContractHash where
  compare x y :=
    (compare x.high y.high).then ((compare x.mid y.mid).then (compare x.low y.low))

instance : Std.TransOrd ContractHash :=
  inferInstanceAs (Std.TransCmp (compareLex (compareOn high)
    (compareLex (compareOn mid) (compareOn low))))

instance : Std.LawfulEqOrd ContractHash where
  eq_of_compare {x y} h := by
    have words : (compare x.high y.high).then
        ((compare x.mid y.mid).then (compare x.low y.low)) = .eq := h
    simp only [Ordering.then_eq_eq, Std.LawfulEqOrd.compare_eq_iff_eq] at words
    cases x
    cases y
    simp_all

end ContractHash

end ScriptCoverage
