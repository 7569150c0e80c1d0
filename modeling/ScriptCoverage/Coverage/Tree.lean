import ScriptCoverage.Coverage.Rate
import ScriptCoverage.Recording.Recording

/-!
The coverage of a contract, read off its recording: counters by method and line,
and by address. A sequence point is a line. Its branches are the jumps and calls
from its address up to the next point's or up to the end of the method, whichever
comes first.
-/

namespace ScriptCoverage

/-- One jump or call of a line. -/
structure BranchSite where
  address : UInt32
  opcode : UInt8
  target : Option UInt32
  counts : BranchCount
  deriving DecidableEq

/-- Distinct outcomes over all the branches. -/
def BranchSite.outcomePaths (sites : List BranchSite) : Nat :=
  sites.foldr (fun site paths => site.counts.outcomes + paths) 0

structure LineCoverage where
  point : SequencePoint
  hitCount : UInt32
  branches : List BranchSite
  deriving DecidableEq

namespace LineCoverage

def line (line : LineCoverage) : UInt32 :=
  line.point.start.line

def isCovered (line : LineCoverage) : Bool :=
  0 < line.hitCount

def hasBranches (line : LineCoverage) : Bool :=
  !line.branches.isEmpty

/-- Distinct outcomes over all branches of the line. -/
def outcomePaths (line : LineCoverage) : Nat :=
  BranchSite.outcomePaths line.branches

def isBranchCovered (line : LineCoverage) : Bool :=
  1 < line.outcomePaths

/-- Outcomes seen over outcomes possible, two for each branch. -/
def branchRate (line : LineCoverage) : Rate :=
  .ofCounts line.outcomePaths (2 * line.branches.length)

end LineCoverage

/-- A method that has lines. -/
structure MethodCoverage where
  method : Method
  /-- Index and path of the document of the first line. -/
  documentIndex : UInt32
  document : String
  lines : List LineCoverage
  deriving DecidableEq

namespace MethodCoverage

def lineRate (method : MethodCoverage) : Rate :=
  .ofCounts (method.lines.filter (·.isCovered)).length method.lines.length

def branchRate (method : MethodCoverage) : Rate :=
  .sum (method.lines.map (·.branchRate))

/-- Whether the method was entered. -/
def isHit (method : MethodCoverage) : Bool :=
  match method.lines with
  | [] => false
  | first :: _ => first.isCovered

def signature (method : MethodCoverage) : String :=
  method.method.name ++ "(" ++
    String.intercalate ", " (method.method.parameters.map (·.typeName)) ++ ")"

end MethodCoverage

/-- Counters at one address. The opcode is missing where no instruction starts, and
the outcomes where neither a branch stands nor an outcome was recorded. -/
structure AddressCoverage where
  address : UInt32
  opcode : Option UInt8
  hitCount : UInt32
  branch : Option BranchCount
  deriving DecidableEq

/-- Methods under one name. -/
structure MethodGroup where
  key : String
  methods : List MethodCoverage

namespace MethodGroup

def lineRate (group : MethodGroup) : Rate :=
  .sum (group.methods.map (·.lineRate))

def branchRate (group : MethodGroup) : Rate :=
  .sum (group.methods.map (·.branchRate))

/-- Groups by ascending key; methods of a group keep their order. -/
def groupBy (key : MethodCoverage → String) (methods : List MethodCoverage) :
    List MethodGroup :=
  let keys := (methods.map key).eraseDups.mergeSort fun s t => decide (s ≤ t)
  keys.map fun k => ⟨k, methods.filter fun method => key method == k⟩

end MethodGroup

structure CoverageTree where
  hash : ContractHash
  name : String
  documents : List String
  methods : List MethodCoverage
  addresses : List AddressCoverage

namespace CoverageTree

/-- The jumps and calls from address `first` to address `last`. -/
def branchSites (counters : Counters) (script : Script) (first last : UInt32) :
    List BranchSite :=
  ((script.window first last).filter fun (_, insn) => insn.isBranch).map fun (address, insn) =>
    { address
      opcode := insn.opcode
      target := insn.target? address
      counts := counters.branchCount address }

/-- The last address of a line; none if the next point stands at address 0. -/
def windowEnd? (range : AddressRange) : (next : Option SequencePoint) → Option UInt32
  | none => some range.last
  | some next => if next.address = 0 then none else some (min (next.address - 1) range.last)

def lineOf (recording : Recording) (range : AddressRange) (point : SequencePoint)
    (next : Option SequencePoint) : LineCoverage where
  point
  hitCount := recording.counters.hitCount point.address
  branches :=
    match recording.script, windowEnd? range next with
    | some script, some last => branchSites recording.counters script point.address last
    | _, _ => []

def linesOf (recording : Recording) (range : AddressRange) :
    List SequencePoint → List LineCoverage
  | [] => []
  | point :: rest => lineOf recording range point rest.head? :: linesOf recording range rest

def methodOf? (recording : Recording) (method : Method) : Option MethodCoverage :=
  method.points.head?.map fun first =>
    { method
      documentIndex := first.document
      document := (recording.symbols.documentPath? first.document.toNat).getD ""
      lines := linesOf recording method.range method.points }

def addressOfInstruction (counters : Counters) (address : UInt32) (insn : Instruction) :
    AddressCoverage where
  address
  opcode := some insn.opcode
  hitCount := counters.hitCount address
  branch :=
    if insn.isBranch || counters.branches.contains address then
      some (counters.branchCount address)
    else none

def addressOfRecord (counters : Counters) (address : UInt32) : AddressCoverage where
  address
  opcode := none
  hitCount := counters.hitCount address
  branch := counters.branches.get? address

/-- Adds the recorded addresses that an ascending table lacks. -/
def mergeRecorded (counters : Counters) :
    List AddressCoverage → List UInt32 → List AddressCoverage
  | table, [] => table
  | [], addresses => addresses.map (addressOfRecord counters)
  | entry :: table, address :: addresses =>
      if entry.address < address then
        entry :: mergeRecorded counters table (address :: addresses)
      else if address < entry.address then
        addressOfRecord counters address ::
          mergeRecorded counters (entry :: table) addresses
      else mergeRecorded counters (entry :: table) addresses
termination_by table addresses => table.length + addresses.length

/-- Every address where an instruction starts or something was recorded. -/
def addressTable (recording : Recording) : List AddressCoverage :=
  let counters := recording.counters
  let instructions := match recording.script with
    | some script => script.listing.map fun (address, insn) =>
        addressOfInstruction counters address insn
    | none => []
  mergeRecorded counters (mergeRecorded counters instructions counters.hits.keys)
    counters.branches.keys

def ofRecording (recording : Recording) : CoverageTree where
  hash := recording.hash
  name := recording.name
  documents := recording.symbols.documents.map (SymbolTable.joinRoot recording.symbols.documentRoot)
  methods := recording.symbols.methods.filterMap (methodOf? recording)
  addresses := addressTable recording

def lineRate (tree : CoverageTree) : Rate :=
  .sum (tree.methods.map (·.lineRate))

def branchRate (tree : CoverageTree) : Rate :=
  .sum (tree.methods.map (·.branchRate))

/-- Methods by namespace. -/
def classes (tree : CoverageTree) : List MethodGroup :=
  MethodGroup.groupBy (·.method.namespace) tree.methods

/-- Methods by source document. -/
def documentGroups (tree : CoverageTree) : List MethodGroup :=
  MethodGroup.groupBy (·.document) tree.methods

end CoverageTree

end ScriptCoverage
