import ScriptCoverage.Recording.RawDump
import ScriptCoverage.Recording.Recording
import ScriptCoverage.Recording.Trace

/-!
All contracts of a session, by hash. Records of a trace are staged by contract and
then committed: every contract's sums are checked before the first is written, so a
trace counts as a whole or not at all.
-/

namespace ScriptCoverage

/-- What one trace contributed; records without a registered contract are ignored. -/
structure TraceStats where
  hits : Nat
  branches : Nat
  ignored : Nat
  deriving DecidableEq

def TraceStats.zero : TraceStats := ⟨0, 0, 0⟩

structure Collector where
  contracts : OrderedMap ContractHash Recording

abbrev Staged := OrderedMap ContractHash Counters

/-- A trace on its way into the collector. -/
structure Staging where
  current : Option ContractHash
  staged : Staged
  stats : TraceStats
  /-- Contracts that the trace names and nobody registered, in its order. -/
  unknown : List ContractHash

namespace Staging

def empty : Staging := ⟨none, ∅, .zero, []⟩

/-- Runs a step on the counters staged for a contract. -/
def count (staging : Staging) (hash : ContractHash) (step : Step Counters Unit) :
    Except CoverageError Staging :=
  match step ((staging.staged.get? hash).getD .empty) with
  | (.ok (), counters) => .ok { staging with staged := staging.staged.insert hash counters }
  | (.error e, _) => .error e

def ignore (staging : Staging) : Staging :=
  { staging with stats.ignored := staging.stats.ignored + 1 }

def push (isRegistered : ContractHash → Bool) (staging : Staging) :
    TraceRecord → Except CoverageError Staging
  | .contract hash =>
      .ok (if isRegistered hash then { staging with current := some hash }
        else { staging with current := none, unknown := staging.unknown ++ [hash] })
  | .unknownContract => .ok { staging with current := none }
  | .hit address =>
      match staging.current with
      | none => .ok staging.ignore
      | some hash => do
          let staging ← staging.count hash (Counters.recordHit address)
          return { staging with stats.hits := staging.stats.hits + 1 }
  | .branch address offset result =>
      match staging.current with
      | none => .ok staging.ignore
      | some hash => do
          let staging ← staging.count hash (Counters.recordBranch address offset result)
          return { staging with stats.branches := staging.stats.branches + 1 }

/-- Pushes records up to the first that fails. -/
def pushWhile (isRegistered : ContractHash → Bool) : Staging → List TraceRecord → Staging
  | staging, [] => staging
  | staging, record :: rest =>
      match staging.push isRegistered record with
      | .ok next => next.pushWhile isRegistered rest
      | .error _ => staging

end Staging

namespace Collector

def empty : Collector := ⟨∅⟩

def contains (collector : Collector) (hash : ContractHash) : Bool :=
  collector.contracts.contains hash

def get? (collector : Collector) (hash : ContractHash) : Option Recording :=
  collector.contracts.get? hash

/-- By ascending hash. -/
def recordings (collector : Collector) : List Recording :=
  collector.contracts.values

def size (collector : Collector) : Nat :=
  collector.contracts.size

/-- Registers a contract under the hash in its symbols, which must be the declared
one if there is one. -/
def addContract (name : String) (symbols : SymbolTable) (declared : Option ContractHash) :
    Step Collector ContractHash := do
  let collector ← get
  let hash := symbols.hash
  match declared with
  | some expected => if expected ≠ hash then throw (.identityMismatch expected hash)
  | none => pure ()
  if collector.contains hash then throw (.duplicateContract hash)
  set (⟨collector.contracts.insert hash (.new name symbols)⟩ : Collector)
  return hash

/-- Runs a step on one registered contract. -/
def onContract {α : Type} (hash : ContractHash) (step : Step Recording α) :
    Step Collector α := fun collector =>
  match collector.get? hash with
  | none => (.error (.unknownContract hash), collector)
  | some recording =>
      let (result, recording) := step recording
      (result, ⟨collector.contracts.insert hash recording⟩)

def registerScript (hash : ContractHash) (script : Script) : Step Collector Unit :=
  onContract hash (Recording.registerScript script)

def checkAll (staged : Staged) : Step Collector Unit :=
  staged.entries.forM fun (hash, counters) =>
    onContract hash (Step.inspect fun recording => recording.checkMerge counters)

def mergeAll (staged : Staged) : Step Collector Unit :=
  staged.entries.forM fun (hash, counters) => onContract hash (Recording.merge counters)

/-- Checks every contract's counters before it writes any. -/
def commit (staged : Staged) : Step Collector Unit := do
  checkAll staged
  mergeAll staged

def stage (collector : Collector) (records : List TraceRecord) :
    Except CoverageError Staging :=
  records.foldlM (Staging.push collector.contains) .empty

/-- The contracts that a trace names and nobody registered, up to the record at which staging
fails. -/
def unregistered (collector : Collector) (records : List TraceRecord) : List ContractHash :=
  (Staging.empty.pushWhile collector.contains records).unknown

/-- Answers the statistics and the contracts that nobody registered. An error names no
contracts; those that were met before it are `unregistered`. -/
def applyTrace (records : List TraceRecord) :
    Step Collector (TraceStats × List ContractHash) := do
  let staging ← (← get).stage records
  commit staging.staged
  return (staging.stats, staging.unknown)

def applyRaw (dump : RawDump) : Step Collector Unit :=
  commit ((∅ : Staged).insert dump.hash dump.counters)

end Collector

end ScriptCoverage
