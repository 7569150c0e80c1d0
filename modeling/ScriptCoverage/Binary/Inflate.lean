/-!
Inflating a DEFLATE stream (RFC 1951). The stream is read as a list of bits, the
lowest bit of a byte first. Codes are canonical: only the length of each symbol's
code is stored, and codes of one length follow the order of their symbols.
-/

namespace ScriptCoverage.Inflate

abbrev Bits := List Bool

def bitsOfByte (b : UInt8) : Bits :=
  (List.range 8).map fun i => b.toNat.testBit i

/-- A number of `width` bits, the lowest bit first. -/
def takeNumber : (width : Nat) → Bits → Option (Nat × Bits)
  | 0, bits => some (0, bits)
  | _ + 1, [] => none
  | width + 1, bit :: bits => do
      let (high, rest) ← takeNumber width bits
      some (bit.toNat + 2 * high, rest)

/-- How many codes each length from 1 to 15 has, and the symbols in code order. -/
structure Code where
  counts : List Nat
  symbols : List Nat

/-- The code with these lengths, by symbol; 0 leaves a symbol out. Refused unless
the lengths use up all codes or there is one symbol at most. -/
def Code.ofLengths? (lengths : List Nat) : Option Code :=
  let indexed := lengths.zipIdx
  let ofLength (length : Nat) : List Nat :=
    (indexed.filter fun (l, _) => l == length).map (·.2)
  let groups := (List.range 15).map fun i => ofLength (i + 1)
  let counts := groups.map List.length
  let symbols := groups.flatten
  let used := counts.zipIdx.foldr (fun (count, i) used => count * Nat.pow 2 (14 - i) + used) 0
  if used == 32768 || symbols.length ≤ 1 then some ⟨counts, symbols⟩ else none

/-- `code` is the value of the bits so far, `first` the least code of this length
and `index` the number of shorter codes. -/
private def findSymbol (symbols : List Nat) :
    (counts : List Nat) → (code first index : Nat) → Bits → Option (Nat × Bits)
  | [], _, _, _, _ => none
  | _ :: _, _, _, _, [] => none
  | count :: counts, code, first, index, bit :: bits =>
      let code := code + bit.toNat
      if code < first + count then
        (symbols[index + (code - first)]?).map fun symbol => (symbol, bits)
      else
        findSymbol symbols counts (2 * code) (2 * (first + count)) (index + count) bits

def Code.take (code : Code) (bits : Bits) : Option (Nat × Bits) :=
  findSymbol code.symbols code.counts 0 0 0 bits

/-- Base value and number of extra bits of each length symbol from 257 on. -/
private def lengthForms : List (Nat × Nat) := [
  (3, 0), (4, 0), (5, 0), (6, 0), (7, 0), (8, 0), (9, 0), (10, 0), (11, 1), (13, 1),
  (15, 1), (17, 1), (19, 2), (23, 2), (27, 2), (31, 2), (35, 3), (43, 3), (51, 3),
  (59, 3), (67, 4), (83, 4), (99, 4), (115, 4), (131, 5), (163, 5), (195, 5), (227, 5),
  (258, 0)]

/-- Base value and number of extra bits of each distance symbol. -/
private def distanceForms : List (Nat × Nat) := [
  (1, 0), (2, 0), (3, 0), (4, 0), (5, 1), (7, 1), (9, 2), (13, 2), (17, 3), (25, 3),
  (33, 4), (49, 4), (65, 5), (97, 5), (129, 6), (193, 6), (257, 7), (385, 7), (513, 8),
  (769, 8), (1025, 9), (1537, 9), (2049, 10), (3073, 10), (4097, 11), (6145, 11),
  (8193, 12), (12289, 12), (16385, 13), (24577, 13)]

private def takeForm (forms : List (Nat × Nat)) (symbol : Nat) (bits : Bits) :
    Option (Nat × Bits) := do
  let (base, extra) ← forms[symbol]?
  let (more, rest) ← takeNumber extra bits
  some (base + more, rest)

/-- Appends `length` bytes, each the one that stands `distance` before the end. -/
private def copyBack (distance : Nat) : (length : Nat) → Array UInt8 → Array UInt8
  | 0, out => out
  | length + 1, out => copyBack distance length (out.push (out.getD (out.size - distance) 0))

/-- Symbols up to the end of the block; every symbol takes a bit at least, so the
number of bits is fuel enough. -/
private def inflateSymbols (literals distances : Code) :
    (fuel : Nat) → Array UInt8 → Bits → Option (Array UInt8 × Bits)
  | 0, _, _ => none
  | fuel + 1, out, bits => do
      let (symbol, bits) ← literals.take bits
      if symbol < 256 then
        inflateSymbols literals distances fuel (out.push (UInt8.ofNat symbol)) bits
      else if symbol = 256 then some (out, bits)
      else
        let (length, bits) ← takeForm lengthForms (symbol - 257) bits
        let (symbol, bits) ← distances.take bits
        let (distance, bits) ← takeForm distanceForms symbol bits
        if out.size < distance then none
        else inflateSymbols literals distances fuel (copyBack distance length out) bits

private def fixedLiterals : List Nat :=
  List.replicate 144 8 ++ List.replicate 112 9 ++ List.replicate 24 7 ++ List.replicate 8 8

private def fixedDistances : List Nat :=
  List.replicate 32 5

/-- The order in which the lengths of the length code are stored. -/
private def lengthOrder : List Nat :=
  [16, 17, 18, 0, 8, 7, 9, 6, 10, 5, 11, 4, 12, 3, 13, 2, 14, 1, 15]

private def takeNumbers (width : Nat) : (count : Nat) → Bits → Option (List Nat × Bits)
  | 0, bits => some ([], bits)
  | count + 1, bits => do
      let (n, bits) ← takeNumber width bits
      let (ns, bits) ← takeNumbers width count bits
      some (n :: ns, bits)

/-- Code lengths, run-length coded, until there are `total` of them. -/
private def takeLengths (code : Code) (total : Nat) :
    (fuel : Nat) → List Nat → Bits → Option (List Nat × Bits)
  | 0, _, _ => none
  | fuel + 1, read, bits =>
      if read.length = total then some (read.reverse, bits)
      else if total < read.length then none
      else do
        let (symbol, bits) ← code.take bits
        if symbol < 16 then takeLengths code total fuel (symbol :: read) bits
        else
          let (repeated, base, width) ←
            if symbol = 16 then read.head?.map fun last => (last, 3, 2)
            else if symbol = 17 then some (0, 3, 3)
            else some (0, 11, 7)
          let (more, bits) ← takeNumber width bits
          takeLengths code total fuel (List.replicate (base + more) repeated ++ read) bits

private def takeCodes (bits : Bits) : Option (Code × Code × Bits) := do
  let (literalCount, bits) ← takeNumber 5 bits
  let (distanceCount, bits) ← takeNumber 5 bits
  let (lengthCount, bits) ← takeNumber 4 bits
  if 29 < literalCount ∨ 29 < distanceCount then none
  let (stored, bits) ← takeNumbers 3 (lengthCount + 4) bits
  let stored := lengthOrder.zip stored
  let lengthCode ← Code.ofLengths? ((List.range 19).map fun s => (stored.lookup s).getD 0)
  let total := literalCount + 257 + distanceCount + 1
  let (lengths, bits) ← takeLengths lengthCode total (total + 1) [] bits
  let literals ← Code.ofLengths? (lengths.take (literalCount + 257))
  let distances ← Code.ofLengths? (lengths.drop (literalCount + 257))
  some (literals, distances, bits)

/-- The bits from the next byte boundary on, when the stream ends at one. -/
private def alignByte (bits : Bits) : Bits :=
  bits.drop (bits.length % 8)

private def takeStored (out : Array UInt8) (bits : Bits) : Option (Array UInt8 × Bits) := do
  let (length, bits) ← takeNumber 16 (alignByte bits)
  let (complement, bits) ← takeNumber 16 bits
  if length + complement ≠ 0xFFFF then none
  let (bytes, bits) ← takeNumbers 8 length bits
  some (out ++ (bytes.map UInt8.ofNat).toArray, bits)

private def inflateBlock (out : Array UInt8) (bits : Bits) : Option (Array UInt8 × Bits) := do
  let (kind, bits) ← takeNumber 2 bits
  match kind with
  | 0 => takeStored out bits
  | 1 =>
      let literals ← Code.ofLengths? fixedLiterals
      let distances ← Code.ofLengths? fixedDistances
      inflateSymbols literals distances (bits.length + 1) out bits
  | 2 =>
      let (literals, distances, bits) ← takeCodes bits
      inflateSymbols literals distances (bits.length + 1) out bits
  | _ => none

/-- Blocks up to the one marked as the last. -/
private def inflateBlocks : (fuel : Nat) → Array UInt8 → Bits → Option (Array UInt8)
  | 0, _, _ => none
  | fuel + 1, out, bits => do
      let (isLast, bits) ← takeNumber 1 bits
      let (out, bits) ← inflateBlock out bits
      if isLast = 1 then some out else inflateBlocks fuel out bits

/-- What follows the last block is ignored; a stream that ends before it is refused. -/
def inflate? (bytes : List UInt8) : Option (List UInt8) :=
  let bits := bytes.flatMap bitsOfByte
  (inflateBlocks (bits.length + 1) #[] bits).map Array.toList

end ScriptCoverage.Inflate
