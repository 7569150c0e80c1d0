import ScriptCoverage.ContractHash
import ScriptCoverage.Data.OrderedMap
import ScriptCoverage.Vm.Instruction

/-!
Counters by address: how often an instruction ran, and how often a branch was taken
or passed. Counters have 32 bits and adding never wraps: a sum that does not fit is
refused with its address. A merge computes every sum before it writes one, so it
adds all counters or none.
-/

namespace ScriptCoverage

inductive CoverageError where
  | scriptAlreadyRegistered (contract : ContractHash)
  | unknownContract (contract : ContractHash)
  | duplicateContract (contract : ContractHash)
  | identityMismatch (declared actual : ContractHash)
  | counterOverflow (address : UInt32)
  | format (cause : FormatError)
  deriving DecidableEq

def CoverageError.message : CoverageError → String
  | .scriptAlreadyRegistered contract =>
      "Script already registered for contract " ++ contract.text
  | .unknownContract contract => "Unknown contract " ++ contract.text
  | .duplicateContract contract => "Contract " ++ contract.text ++ " is registered twice"
  | .identityMismatch declared actual =>
      "Identity mismatch: declared " ++ declared.text ++ ", debug info has " ++ actual.text
  | .counterOverflow address => s!"Counter overflow at address {address}"
  | .format cause => "Format error: " ++ cause.message

/-- A step on a state that may fail; what it changed before failing stays changed. -/
abbrev Step (σ α : Type) := ExceptT CoverageError (StateM σ) α

namespace Step

/-- The result of a step, and the state that it leaves. -/
def run {σ α : Type} (step : Step σ α) (state : σ) : Except CoverageError α × σ :=
  step state

/-- Runs a step on one part of a state. -/
def zoom {σ τ α : Type} (view : τ → σ) (update : τ → σ → τ) (step : Step σ α) : Step τ α :=
  fun state =>
    let (result, part) := step (view state)
    (result, update state part)

/-- A step that only looks at the state. -/
def inspect {σ α : Type} (look : σ → Except CoverageError α) : Step σ α :=
  fun state => (look state, state)

end Step

/-- Outcomes of one branch instruction. -/
structure BranchCount where
  taken : UInt32
  continued : UInt32
  deriving DecidableEq

namespace BranchCount

def zero : BranchCount := ⟨0, 0⟩

/-- The number of distinct outcomes that were seen. -/
def outcomes (count : BranchCount) : Nat :=
  (if 0 < count.taken then 1 else 0) + (if 0 < count.continued then 1 else 0)

def isEmpty (count : BranchCount) : Bool :=
  count.taken == 0 && count.continued == 0

/-- One execution of a branch: it ended at the branch's own address when execution
went on behind it, and at the offset when the branch was taken. -/
def classify (address offset result : UInt32) : Except CoverageError BranchCount :=
  if result = address then .ok ⟨0, 1⟩
  else if result = offset then .ok ⟨1, 0⟩
  else .error (.format (.branchResultMismatch address offset result))

end BranchCount

def sumHits (address current count : UInt32) : Except CoverageError UInt32 :=
  if current.toNat + count.toNat < UInt32.size then .ok (current + count)
  else .error (.counterOverflow address)

def sumBranch (address : UInt32) (current count : BranchCount) :
    Except CoverageError BranchCount := do
  let taken ← sumHits address current.taken count.taken
  let continued ← sumHits address current.continued count.continued
  return ⟨taken, continued⟩

structure Counters where
  hits : OrderedMap UInt32 UInt32
  branches : OrderedMap UInt32 BranchCount
  deriving DecidableEq

namespace Counters

def empty : Counters := ⟨∅, ∅⟩

instance : Inhabited Counters := ⟨empty⟩

def hitCount (counters : Counters) (address : UInt32) : UInt32 :=
  (counters.hits.get? address).getD 0

def branchCount (counters : Counters) (address : UInt32) : BranchCount :=
  (counters.branches.get? address).getD .zero

def addHits (address count : UInt32) : Step Counters Unit := do
  let counters ← get
  let total ← sumHits address (counters.hitCount address) count
  set { counters with hits := counters.hits.insert address total }

def addBranch (address : UInt32) (count : BranchCount) : Step Counters Unit := do
  let counters ← get
  let total ← sumBranch address (counters.branchCount address) count
  set { counters with branches := counters.branches.insert address total }

def recordHit (address : UInt32) : Step Counters Unit :=
  addHits address 1

def recordBranch (address offset result : UInt32) : Step Counters Unit := do
  let outcome ← BranchCount.classify address offset result
  addBranch address outcome

/-- The sums that adding `more` to `counters` needs, by ascending address: hits
first, then branches. -/
def merged (counters more : Counters) :
    Except CoverageError (List (UInt32 × UInt32) × List (UInt32 × BranchCount)) := do
  let hits ← more.hits.entries.mapM fun (address, count) => do
    let total ← sumHits address (counters.hitCount address) count
    return (address, total)
  let branches ← more.branches.entries.mapM fun (address, count) => do
    let total ← sumBranch address (counters.branchCount address) count
    return (address, total)
  return (hits, branches)

def checkMerge (counters more : Counters) : Except CoverageError Unit :=
  (merged counters more).map fun _ => ()

def merge (more : Counters) : Step Counters Unit := do
  let counters ← get
  let (hits, branches) ← merged counters more
  set (⟨counters.hits.insertAll hits, counters.branches.insertAll branches⟩ : Counters)

end Counters

end ScriptCoverage
