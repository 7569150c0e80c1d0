import ScriptCoverage.Recording.Counters
import ScriptCoverage.Symbols.Table
import ScriptCoverage.Vm.Script

/-!
What is recorded about one contract: its symbols, its script once one is attached,
and its counters.
-/

namespace ScriptCoverage

structure Recording where
  name : String
  symbols : SymbolTable
  script : Option Script
  counters : Counters

namespace Recording

def new (name : String) (symbols : SymbolTable) : Recording :=
  ⟨name, symbols, none, .empty⟩

def hash (recording : Recording) : ContractHash :=
  recording.symbols.hash

/-- A script can be attached once. -/
def registerScript (script : Script) : Step Recording Unit := do
  let recording ← get
  if recording.script.isSome then throw (.scriptAlreadyRegistered recording.hash)
  set { recording with script := some script }

def onCounters {α : Type} (step : Step Counters α) : Step Recording α :=
  step.zoom counters fun recording counters => { recording with counters }

def recordHit (address : UInt32) : Step Recording Unit :=
  onCounters (Counters.recordHit address)

def recordBranch (address offset result : UInt32) : Step Recording Unit :=
  onCounters (Counters.recordBranch address offset result)

def addHits (address count : UInt32) : Step Recording Unit :=
  onCounters (Counters.addHits address count)

def addBranch (address : UInt32) (count : BranchCount) : Step Recording Unit :=
  onCounters (Counters.addBranch address count)

def checkMerge (recording : Recording) (more : Counters) : Except CoverageError Unit :=
  recording.counters.checkMerge more

def merge (more : Counters) : Step Recording Unit :=
  onCounters (Counters.merge more)

end Recording

end ScriptCoverage
