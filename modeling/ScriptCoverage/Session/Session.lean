import ScriptCoverage.Report.Format
import ScriptCoverage.Session.Consolidation
import ScriptCoverage.Session.Registration

/-!
A coverage session. It is idle until it starts, collects until it ends, and then is
finished; a step out of turn is an error and changes nothing. A session whose coverage
directory cannot be listed goes on collecting, so its end can be tried again.
-/

namespace ScriptCoverage

structure SessionOptions where
  coverageDir : Path
  formats : List ReportFormat
  sourceRoots : List String
  deriving DecidableEq

inductive SessionState where
  | idle
  | collecting (collector : Collector) (timestamp : Nat)
  | finished

def SessionState.name : SessionState → String
  | .idle => "idle"
  | .collecting .. => "collecting"
  | .finished => "finished"

inductive SessionError where
  | cannotStart (state : String)
  | cannotEnd (state : String)
  | unreadableDirectory (path : Path)
  deriving DecidableEq

def SessionError.message : SessionError → String
  | .cannotStart state => "Session cannot start while " ++ state
  | .cannotEnd state => "Session cannot end while " ++ state
  | .unreadableDirectory path => "Failed to read coverage directory " ++ path.text

/-- What the coverage directory holds. -/
inductive Listing where
  | missing
  | unreadable
  | files (files : List CoverageFile)
  deriving DecidableEq

structure SessionReport where
  artifacts : List Artifact
  trees : List CoverageTree
  stats : SessionStats

structure Session where
  options : SessionOptions
  state : SessionState

/-- What a step of a session answers, the session after it, and what it warns of. -/
structure SessionOutcome (α : Type) where
  result : Except SessionError α
  session : Session
  warnings : List Warning

namespace Session

def new (options : SessionOptions) : Session := ⟨options, .idle⟩

def refuse {α : Type} (session : Session) (e : SessionError) : SessionOutcome α :=
  ⟨.error e, session, []⟩

/-- Tracks the contracts and answers how many there are. -/
def start (session : Session) (registrations : List Registration) (timestamp : Nat) :
    SessionOutcome Nat :=
  match session.state with
  | .idle =>
      let tracking := Tracking.empty.addAll registrations
      { result := .ok tracking.collector.size
        session := { session with state := .collecting tracking.collector timestamp }
        warnings := tracking.warnings }
  | state => session.refuse (.cannotStart state.name)

def missingWarning (path : Path) : Warning :=
  ⟨none, "Coverage directory does not exist: " ++ path.text⟩

/-- Trees by ascending hash, and the artifacts of every format in turn. -/
def report (options : SessionOptions) (timestamp : Nat) (state : Consolidation) :
    SessionReport :=
  let trees := state.collector.recordings.map CoverageTree.ofRecording
  let context : ReportContext := ⟨timestamp, options.sourceRoots⟩
  { artifacts := options.formats.flatMap fun format => format.artifacts context trees
    trees := trees
    stats := state.stats }

def complete (session : Session) (collector : Collector) (timestamp : Nat)
    (files : List CoverageFile) (notices : List Warning) : SessionOutcome SessionReport :=
  let state := (Consolidation.start collector).readAll files
  { result := .ok (report session.options timestamp state)
    session := { session with state := .finished }
    warnings := notices ++ state.log.emitted }

/-- Reads the coverage directory and reports. -/
def finish (session : Session) (listing : Listing) : SessionOutcome SessionReport :=
  match session.state with
  | .collecting collector timestamp =>
      match listing with
      | .unreadable => session.refuse (.unreadableDirectory session.options.coverageDir)
      | .missing =>
          session.complete collector timestamp [] [missingWarning session.options.coverageDir]
      | .files files => session.complete collector timestamp files []
  | state => session.refuse (.cannotEnd state.name)

end Session

end ScriptCoverage
