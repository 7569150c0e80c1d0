import ScriptCoverage.Recording.Counters
import ScriptCoverage.Text.Blank
import ScriptCoverage.Text.Decimal

/-!
Dumps of counters: the contract's hash, then a line `address hits` or
`address taken continued` for each counter. A zero counter is not kept, and of two
lines for one address the later counts.
-/

namespace ScriptCoverage

structure RawDump where
  hash : ContractHash
  counters : Counters
  deriving DecidableEq

namespace RawDump

inductive Line where
  | hits (address count : UInt32)
  | branch (address : UInt32) (count : BranchCount)
  deriving DecidableEq

def Line.parse? (line : List Char) : Option Line := do
  match ← (Text.words line).mapM Decimal.signedWord? with
  | [address, count] => some (.hits address count)
  | [address, taken, continued] => some (.branch address ⟨taken, continued⟩)
  | _ => none

def Line.chars : Line → List Char
  | .hits address count =>
      Decimal.digits address.toNat ++ ' ' :: Decimal.digits count.toNat
  | .branch address count =>
      Decimal.digits address.toNat ++ ' ' :: Decimal.digits count.taken.toNat ++
        ' ' :: Decimal.digits count.continued.toNat

def Line.store (counters : Counters) : Line → Counters
  | .hits address count =>
      if count = 0 then counters
      else { counters with hits := counters.hits.insert address count }
  | .branch address count =>
      if count.isEmpty then counters
      else { counters with branches := counters.branches.insert address count }

def storeLines : Counters → List (List Char × Nat) → Except FormatError Counters
  | counters, [] => .ok counters
  | counters, (line, number) :: rest =>
      match Line.parse? line with
      | some entry => storeLines (entry.store counters) rest
      | none => .error (.invalidRawLine number (String.ofList line))

/-- Blank lines are skipped, but count in the numbers of lines. -/
def contentLines (text : List Char) : List (List Char × Nat) :=
  (((Text.lines text).map Text.trim).zipIdx 1).filter fun (line, _) => !line.isEmpty

def parse (text : List Char) : Except FormatError RawDump :=
  match contentLines text with
  | [] => .error (.missingField "identity")
  | (header, _) :: rest => do
      let hash ← ContractHash.parse (String.ofList header)
      let counters ← storeLines .empty rest
      return ⟨hash, counters⟩

/-- The dump of the given lines. -/
def print (hash : ContractHash) (lines : List Line) : List Char :=
  hash.chars ++ '\n' :: lines.flatMap fun line => line.chars ++ ['\n']

end RawDump

end ScriptCoverage
