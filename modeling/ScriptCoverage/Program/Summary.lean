import ScriptCoverage.Coverage.Tree
import ScriptCoverage.Data.Json
import ScriptCoverage.Program.Duration

/-!
What a run found, for the console and as JSON.
-/

namespace ScriptCoverage

structure ContractSummary where
  name : String
  hash : ContractHash
  methods : Nat
  lines : Rate
  branches : Rate
  deriving DecidableEq

namespace ContractSummary

def ofTree (tree : CoverageTree) : ContractSummary where
  name := tree.name
  hash := tree.hash
  methods := tree.methods.length
  lines := tree.lineRate
  branches := tree.branchRate

def json (summary : ContractSummary) : Json :=
  .object [
    ("name", .string summary.name),
    ("hash", .string summary.hash.text),
    ("methods", .ofNat summary.methods),
    ("lines_covered", .ofNat summary.lines.covered.toNat),
    ("lines_valid", .ofNat summary.lines.total.toNat),
    ("branches_covered", .ofNat summary.branches.covered.toNat),
    ("branches_valid", .ofNat summary.branches.total.toNat),
    ("line_percent", .string summary.lines.percent),
    ("branch_percent", .string summary.branches.percent)]

end ContractSummary

structure Summary where
  contracts : List ContractSummary
  traceFiles : Nat
  rejectedFiles : Nat
  /-- Paths of the artifacts that were written. -/
  artifacts : List String
  duration : Duration
  deriving DecidableEq

namespace Summary

def hasRejections (summary : Summary) : Bool :=
  0 < summary.rejectedFiles

def json (summary : Summary) : Json :=
  .object [
    ("exitcode", .ofNat 0),
    ("contracts", .array (summary.contracts.map ContractSummary.json)),
    ("trace_files", .ofNat summary.traceFiles),
    ("rejected_files", .ofNat summary.rejectedFiles),
    ("artifacts", .array (summary.artifacts.map Json.string)),
    ("duration", .string summary.duration.text)]

/-- The summary as a JSON text over several lines. -/
def jsonText (summary : Summary) : List Char :=
  summary.json.pretty 0

end Summary

end ScriptCoverage
