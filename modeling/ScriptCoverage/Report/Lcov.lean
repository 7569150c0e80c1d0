import ScriptCoverage.Coverage.Tree

/-!
The LCOV report: for every contract, a record for each source document that has
methods. A record lists its methods, both outcomes of every branch and, by ascending
number, its source lines; points that share a line report the largest count.
-/

namespace ScriptCoverage.Lcov

inductive Line where
  | testName (name : String)
  | sourceFile (path : String)
  | function (line : UInt32) (name : String)
  | functionData (hits : UInt32) (name : String)
  | functionsFound (count : Nat)
  | functionsHit (count : Nat)
  /-- The count is missing when neither the line nor the branch was reached. -/
  | branchData (line : UInt32) (block outcome : Nat) (count : Option UInt32)
  | branchesFound (count : Nat)
  | branchesHit (count : Nat)
  | lineData (line count : UInt32)
  | linesFound (count : Nat)
  | linesHit (count : Nat)
  | endOfRecord
  deriving DecidableEq

def tagged (tag : String) (fields : List (List Char)) : List Char :=
  tag.toList ++ ':' :: [','].intercalate fields

def word (n : UInt32) : List Char :=
  Decimal.digits n.toNat

def Line.chars : Line → List Char
  | .testName name => tagged "TN" [name.toList]
  | .sourceFile path => tagged "SF" [path.toList]
  | .function line name => tagged "FN" [word line, name.toList]
  | .functionData hits name => tagged "FNDA" [word hits, name.toList]
  | .functionsFound count => tagged "FNF" [Decimal.digits count]
  | .functionsHit count => tagged "FNH" [Decimal.digits count]
  | .branchData line block outcome count =>
      tagged "BRDA" [word line, Decimal.digits block, Decimal.digits outcome,
        match count with
        | some count => word count
        | none => ['-']]
  | .branchesFound count => tagged "BRF" [Decimal.digits count]
  | .branchesHit count => tagged "BRH" [Decimal.digits count]
  | .lineData line count => tagged "DA" [word line, word count]
  | .linesFound count => tagged "LF" [Decimal.digits count]
  | .linesHit count => tagged "LH" [Decimal.digits count]
  | .endOfRecord => "end_of_record".toList

def functionName (method : MethodCoverage) : String :=
  method.method.namespace ++ "." ++ method.method.name

/-- The line and the hit count of the first point. -/
def entry (method : MethodCoverage) : UInt32 × UInt32 :=
  match method.lines with
  | [] => (0, 0)
  | first :: _ => (first.line, first.hitCount)

def functionLines (methods : List MethodCoverage) : List Line :=
  methods.map (fun method => .function (entry method).1 (functionName method)) ++
    methods.map (fun method => .functionData (entry method).2 (functionName method)) ++
    [.functionsFound methods.length, .functionsHit (methods.filter (·.isHit)).length]

/-- Outcomes of branches that were listed, how many these are and how many were seen. -/
structure Outcomes where
  listed : Array Line
  found : Nat
  hit : Nat

namespace Outcomes

def add (outcomes : Outcomes) (line : LineCoverage) (site : BranchSite) (block outcome : Nat)
    (count : UInt32) : Outcomes where
  listed := outcomes.listed.push (.branchData line.line block outcome
    (if line.hitCount = 0 ∧ site.counts.isEmpty then none else some count))
  found := outcomes.found + 1
  hit := if 0 < count then outcomes.hit + 1 else outcomes.hit

/-- The taken outcome of a branch, then the other. -/
def addSite (outcomes : Outcomes) (line : LineCoverage) (site : BranchSite) (block : Nat) :
    Outcomes :=
  (outcomes.add line site block 0 site.counts.taken).add line site block 1 site.counts.continued

def addLine (outcomes : Outcomes) (line : LineCoverage) : Outcomes :=
  line.branches.zipIdx.foldl (fun outcomes (site, block) => outcomes.addSite line site block)
    outcomes

def ofLines (lines : List LineCoverage) : Outcomes :=
  lines.foldl addLine ⟨#[], 0, 0⟩

end Outcomes

def branchLines (lines : List LineCoverage) : List Line :=
  let outcomes := Outcomes.ofLines lines
  outcomes.listed.toList ++ [.branchesFound outcomes.found, .branchesHit outcomes.hit]

/-- Source lines with the largest hit count of their points. -/
def lineCounts (lines : List LineCoverage) : OrderedMap UInt32 UInt32 :=
  lines.foldl (fun counts line =>
    counts.insert line.line (max ((counts.get? line.line).getD 0) line.hitCount)) ∅

def dataLines (lines : List LineCoverage) : List Line :=
  let counts := lineCounts lines
  counts.entries.map (fun (line, count) => .lineData line count) ++
    [.linesFound counts.size, .linesHit (counts.values.filter (0 < ·)).length]

def record (name : String) (group : MethodGroup) : List Line :=
  let lines := group.methods.flatMap (·.lines)
  [.testName name, .sourceFile group.key] ++ functionLines group.methods ++
    branchLines lines ++ dataLines lines ++ [.endOfRecord]

def lines (trees : List CoverageTree) : List Line :=
  trees.flatMap fun tree => tree.documentGroups.flatMap (record tree.name)

/-- The lines of a report as texts; the report has a newline behind each of them. -/
def texts (trees : List CoverageTree) : List (List Char) :=
  (lines trees).map Line.chars

def print (trees : List CoverageTree) : List Char :=
  (texts trees).flatMap (· ++ ['\n'])

end ScriptCoverage.Lcov
