import ScriptCoverage.ContractHash
import ScriptCoverage.Text.Decimal
import ScriptCoverage.Text.Quoted
import ScriptCoverage.Warning

/-!
Traces of an execution. A line that starts as a contract hash does selects the
contract of the lines after it, `address` is a hit and `address offset result` a
branch. Other lines are skipped with a warning. A branch whose result is neither its
address nor its offset refuses the whole trace.
-/

namespace ScriptCoverage

inductive TraceRecord where
  | contract (hash : ContractHash)
  /-- A line that starts as a hash and is none: the contract before it ends. -/
  | unknownContract
  | hit (address : UInt32)
  | branch (address offset result : UInt32)
  deriving DecidableEq

namespace Trace

def ofNumbers : List UInt32 → Except FormatError (Option TraceRecord)
  | [address] => .ok (some (.hit address))
  | [address, offset, result] =>
      if result = address ∨ result = offset then .ok (some (.branch address offset result))
      else .error (.branchResultMismatch address offset result)
  | _ => .ok none

/-- The record of a line, or none for a blank line and for one of another form. -/
def parseLine (line : List Char) : Except FormatError (Option TraceRecord) :=
  let line := Text.trim line
  if ContractHash.isMarked line then
    match ContractHash.parse? line with
    | some hash => .ok (some (.contract hash))
    | none => .ok (some .unknownContract)
  else
    match (Text.words line).mapM Decimal.signedWord? with
    | some numbers => ofNumbers numbers
    | none => .ok none

/-- A refused line, by its number. -/
structure ParseError where
  source : String
  line : Nat
  cause : FormatError
  deriving DecidableEq

def ParseError.message (e : ParseError) : String :=
  s!"{e.source}:{e.line}: " ++ e.cause.message

/-- Warnings come in the order of the lines, those before a refused line included. -/
structure Reading where
  records : Except ParseError (List TraceRecord)
  warnings : List Warning

namespace Reading

def pushRecord (record : TraceRecord) (rest : Reading) : Reading :=
  { rest with records := rest.records.map (record :: ·) }

def pushWarning (warning : Warning) (rest : Reading) : Reading :=
  { rest with warnings := warning :: rest.warnings }

end Reading

def lineWarning (source : String) (number : Nat) (problem : String)
    (line : List Char) : Warning :=
  ⟨some .parsing, s!"{source}:{number}: {problem} " ++ Quoted.quote (String.ofList line)⟩

/-- Reads lines, the first of which has the given number. -/
def parseLines (source : String) : (number : Nat) → List (List Char) → Reading
  | _, [] => ⟨.ok [], []⟩
  | number, line :: rest =>
      match parseLine line with
      | .error cause => ⟨.error ⟨source, number, cause⟩, []⟩
      | .ok (some .unknownContract) =>
          ((parseLines source (number + 1) rest).pushRecord .unknownContract).pushWarning
            (lineWarning source number "invalid contract hash" line)
      | .ok (some record) => (parseLines source (number + 1) rest).pushRecord record
      | .ok none =>
          if (Text.trim line).isEmpty then parseLines source (number + 1) rest
          else
            (parseLines source (number + 1) rest).pushWarning
              (lineWarning source number "ignoring unparseable line" line)

/-- The source only labels warnings and errors. -/
def parse (text : List Char) (source : String) : Reading :=
  parseLines source 1 (Text.lines text)

end Trace

end ScriptCoverage
