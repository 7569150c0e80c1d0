import ScriptCoverage.Proofs.Session.Isolation
import ScriptCoverage.Report.Sink

/-!
The life of a session over any sequence of calls. A call succeeds when it moves the session
on, and otherwise leaves it as it was, so calls that failed might as well not have been
made. Once an end has given the contracts away nothing can fail any more: the formats write
their artifacts into memory.
-/

namespace ScriptCoverage

inductive SessionCall where
  | start (registrations : List Registration) (timestamp : Nat)
  | finish (listing : Listing)

inductive SessionAnswer where
  | started (contracts : Nat)
  | finished (report : SessionReport)

/-- The files of a directory that can be listed; a missing one holds none. -/
def Listing.files? : Listing → Option (List CoverageFile)
  | .missing => some []
  | .unreadable => none
  | .files held => some held

namespace MemorySink

/-- Writes the artifacts of each format in turn. -/
def writeAll (sink : MemorySink) (context : ReportContext) (trees : List CoverageTree)
    (formats : List ReportFormat) : Except SinkError MemorySink :=
  formats.foldlM (fun sink format =>
    (format.artifacts context trees).foldlM (fun sink artifact =>
      sink.attach artifact.name (.whole artifact.bytes)) sink) sink

theorem attachAll_eq (sink : MemorySink) (artifacts : List Artifact) :
    artifacts.foldlM (fun sink artifact =>
      sink.attach artifact.name (.whole artifact.bytes)) sink =
      .ok ⟨sink.artifacts ++ artifacts⟩ := by
  induction artifacts generalizing sink with
  | nil => rw [List.append_nil]; rfl
  | cons artifact rest ih =>
      rw [List.foldlM_cons, attach, Emission.whole, Except.ok_bind, ih, List.append_assoc]
      rfl

/-- Writing into memory cannot fail. -/
theorem writeAll_eq (sink : MemorySink) (context : ReportContext) (trees : List CoverageTree)
    (formats : List ReportFormat) :
    sink.writeAll context trees formats =
      .ok ⟨sink.artifacts ++ formats.flatMap fun format => format.artifacts context trees⟩ := by
  induction formats generalizing sink with
  | nil => rw [List.flatMap_nil, List.append_nil]; rfl
  | cons format rest ih =>
      unfold writeAll at ih ⊢
      rw [List.foldlM_cons, attachAll_eq, Except.ok_bind, ih, List.flatMap_cons,
        List.append_assoc]

end MemorySink

namespace Session

variable {session : Session} {call : SessionCall} {calls fewer : List SessionCall}

/-- The answer to a call, and the session after it. -/
def handle (session : Session) : SessionCall → Except SessionError SessionAnswer × Session
  | .start registrations timestamp =>
      ((session.start registrations timestamp).result.map .started,
        (session.start registrations timestamp).session)
  | .finish listing =>
      ((session.finish listing).result.map .finished, (session.finish listing).session)

/-- All that a call can move: a session starts when it is idle, and ends when it collects and
its directory can be listed. -/
inductive Moves : Session → SessionCall → SessionAnswer → Session → Prop where
  | start (options : SessionOptions) (registrations : List Registration) (timestamp : Nat) :
      Moves ⟨options, .idle⟩ (.start registrations timestamp)
        (.started (tracked registrations).size)
        ⟨options, .collecting (tracked registrations) timestamp⟩
  | finish (options : SessionOptions) (collector : Collector) (timestamp : Nat)
      {listing : Listing} {files : List CoverageFile} (listed : listing.files? = some files) :
      Moves ⟨options, .collecting collector timestamp⟩ (.finish listing)
        (.finished (report options timestamp ((Consolidation.start collector).readAll files)))
        ⟨options, .finished⟩

/-- A call moves the session on, or is refused and leaves it as it was. -/
theorem handle_cases (session : Session) (call : SessionCall) :
    (∃ answer after, session.handle call = (.ok answer, after) ∧
      Moves session call answer after) ∨
    ∃ e, session.handle call = (.error e, session) := by
  obtain ⟨options, state⟩ := session
  cases call with
  | start registrations timestamp =>
      cases state with
      | idle => exact .inl ⟨_, _, rfl, .start options registrations timestamp⟩
      | collecting collector began => exact .inr ⟨_, rfl⟩
      | finished => exact .inr ⟨_, rfl⟩
  | finish listing =>
      cases state with
      | idle => exact .inr ⟨_, rfl⟩
      | collecting collector timestamp =>
          cases listing with
          | missing => exact .inl ⟨_, _, rfl, .finish options collector timestamp rfl⟩
          | unreadable => exact .inr ⟨_, rfl⟩
          | files files => exact .inl ⟨_, _, rfl, .finish options collector timestamp rfl⟩
      | finished => exact .inr ⟨_, rfl⟩

theorem handle_atomic {e : SessionError} (h : (session.handle call).1 = .error e) :
    (session.handle call).2 = session := by
  rcases handle_cases session call with ⟨answer, after, hcall, -⟩ | ⟨e', hcall⟩
  · rw [hcall] at h
    cases h
  · rw [hcall]

/-- What the calls that succeed answer, in their order. -/
def answers : Session → List SessionCall → List SessionAnswer
  | _, [] => []
  | session, call :: rest =>
      match session.handle call with
      | (.ok answer, after) => answer :: answers after rest
      | (.error _, after) => answers after rest

/-- The session when all calls have been made. -/
def handleAll (session : Session) (calls : List SessionCall) : Session :=
  calls.foldl (fun session call => (session.handle call).2) session

theorem answers_of_ok {answer : SessionAnswer} {after : Session}
    (h : session.handle call = (.ok answer, after)) (rest : List SessionCall) :
    session.answers (call :: rest) = answer :: after.answers rest := by
  rw [answers, h]

theorem answers_of_error {e : SessionError} {after : Session}
    (h : session.handle call = (.error e, after)) (rest : List SessionCall) :
    session.answers (call :: rest) = after.answers rest := by
  rw [answers, h]

/-- Some of the calls that fail are taken out. -/
inductive DropsFailed : Session → List SessionCall → List SessionCall → Prop where
  | nil (session : Session) : DropsFailed session [] []
  | keep {session : Session} {call : SessionCall} {rest fewer : List SessionCall}
      (kept : DropsFailed (session.handle call).2 rest fewer) :
      DropsFailed session (call :: rest) (call :: fewer)
  | drop {session : Session} {call : SessionCall} {rest fewer : List SessionCall}
      {e : SessionError} (failed : (session.handle call).1 = .error e)
      (kept : DropsFailed (session.handle call).2 rest fewer) :
      DropsFailed session (call :: rest) fewer

/-- Without calls that failed all others answer the same, and the session comes out the
same. -/
theorem DropsFailed.same (h : DropsFailed session calls fewer) :
    session.answers fewer = session.answers calls ∧
      session.handleAll fewer = session.handleAll calls := by
  induction h with
  | nil session => exact ⟨rfl, rfl⟩
  | @keep session call rest fewer kept ih =>
      obtain ⟨hanswers, hafter⟩ := ih
      refine ⟨?_, hafter⟩
      cases hcall : session.handle call with
      | mk result after =>
          rw [hcall] at hanswers
          cases result with
          | ok answer => rw [answers_of_ok hcall, answers_of_ok hcall, hanswers]
          | error e => rw [answers_of_error hcall, answers_of_error hcall, hanswers]
  | @drop session call rest fewer e failed kept ih =>
      have hcall : session.handle call = (.error e, session) :=
        Prod.ext failed (handle_atomic failed)
      obtain ⟨hanswers, hafter⟩ := ih
      rw [hcall] at hanswers hafter
      rw [answers_of_error hcall]
      refine ⟨hanswers, hafter.trans ?_⟩
      rw [handleAll, handleAll, List.foldl_cons, hcall]

theorem DropsFailed.refused {e : SessionError} (h : session.handle call = (.error e, session))
    (hrest : DropsFailed session calls fewer) : DropsFailed session (call :: calls) fewer := by
  refine .drop (congrArg Prod.fst h) ?_
  rw [h]
  exact hrest

theorem DropsFailed.moved {answer : SessionAnswer} {after : Session}
    (h : session.handle call = (.ok answer, after)) (hrest : DropsFailed after calls fewer) :
    DropsFailed session (call :: calls) (call :: fewer) := by
  refine .keep ?_
  rw [h]
  exact hrest

theorem dropsFailed_of_finished (options : SessionOptions) (calls : List SessionCall) :
    DropsFailed ⟨options, .finished⟩ calls [] := by
  induction calls with
  | nil => exact .nil _
  | cons call rest ih =>
      rcases handle_cases ⟨options, .finished⟩ call with ⟨answer, after, -, hmoves⟩ | ⟨e, hcall⟩
      · cases hmoves
      · exact ih.refused hcall

/-- A session that collects ends at most once. -/
theorem dropsFailed_of_collecting (options : SessionOptions) (collector : Collector)
    (timestamp : Nat) (calls : List SessionCall) :
    DropsFailed ⟨options, .collecting collector timestamp⟩ calls [] ∨
      ∃ listing files, listing.files? = some files ∧
        DropsFailed ⟨options, .collecting collector timestamp⟩ calls [.finish listing] := by
  induction calls with
  | nil => exact .inl (.nil _)
  | cons call rest ih =>
      rcases handle_cases ⟨options, .collecting collector timestamp⟩ call with
        ⟨answer, after, hcall, hmoves⟩ | ⟨e, hcall⟩
      · cases hmoves with
        | finish _ _ _ listed =>
            exact .inr ⟨_, _, listed, (dropsFailed_of_finished options rest).moved hcall⟩
      · rcases ih with hnone | ⟨listing, files, listed, hone⟩
        · exact .inl (hnone.refused hcall)
        · exact .inr ⟨listing, files, listed, hone.refused hcall⟩

/-- A session starts at most once, and ends only after that. -/
theorem dropsFailed_of_idle (options : SessionOptions) (calls : List SessionCall) :
    DropsFailed (new options) calls [] ∨
      (∃ registrations timestamp,
        DropsFailed (new options) calls [.start registrations timestamp]) ∨
      ∃ registrations timestamp listing files, listing.files? = some files ∧
        DropsFailed (new options) calls
          [.start registrations timestamp, .finish listing] := by
  induction calls with
  | nil => exact .inl (.nil _)
  | cons call rest ih =>
      rcases handle_cases (new options) call with ⟨answer, after, hcall, hmoves⟩ | ⟨e, hcall⟩
      · cases hmoves with
        | start _ registrations timestamp =>
            rcases dropsFailed_of_collecting options (tracked registrations) timestamp rest with
              hnone | ⟨listing, files, listed, hone⟩
            · exact .inr (.inl ⟨registrations, timestamp, hnone.moved hcall⟩)
            · exact .inr (.inr
                ⟨registrations, timestamp, listing, files, listed, hone.moved hcall⟩)
      · rcases ih with hnone | ⟨registrations, timestamp, hone⟩ |
          ⟨registrations, timestamp, listing, files, listed, hboth⟩
        · exact .inl (hnone.refused hcall)
        · exact .inr (.inl ⟨registrations, timestamp, hone.refused hcall⟩)
        · exact .inr (.inr
            ⟨registrations, timestamp, listing, files, listed, hboth.refused hcall⟩)

/-- An end that gives the contracts away before it writes its report, one format after the
other, into memory. -/
def finishWriting (session : Session) (listing : Listing) :
    Except (SessionError ⊕ SinkError) SessionReport × Session :=
  match session.state with
  | .collecting collector timestamp =>
      match listing.files? with
      | none => (.error (.inl (.unreadableDirectory session.options.coverageDir)), session)
      | some files =>
          let session := { session with state := .finished }
          let state := (Consolidation.start collector).readAll files
          let trees := state.collector.recordings.map CoverageTree.ofRecording
          let context : ReportContext := ⟨timestamp, session.options.sourceRoots⟩
          match MemorySink.empty.writeAll context trees session.options.formats with
          | .ok sink => (.ok ⟨sink.artifacts, trees, state.stats⟩, session)
          | .error e => (.error (.inr e), session)
  | state => (.error (.inl (.cannotEnd state.name)), session)

/-- Writing into memory adds no way to fail. -/
theorem finishWriting_eq (session : Session) (listing : Listing) :
    session.finishWriting listing =
      ((session.finish listing).result.mapError .inl, (session.finish listing).session) := by
  obtain ⟨options, state⟩ := session
  cases state with
  | idle => rfl
  | collecting collector timestamp =>
      cases listing with
      | unreadable => rfl
      | missing | files =>
          simp only [finishWriting, Listing.files?, MemorySink.writeAll_eq]
          rfl
  | finished => rfl

/-- Over any sequence of calls a session starts at most once and ends at most once, after
its start. A call that is refused leaves it as it was, with all that it has collected, so
such calls can be taken out, all of them or some, and neither the other answers nor the
session at the end change: a report is that of the one start and the one end that succeeded.
That the report is written after the session has been moved on makes no difference. -/
theorem session_lifecycle (options : SessionOptions) (calls : List SessionCall) :
    (∀ (session : Session) (call : SessionCall) (e : SessionError),
      (session.handle call).1 = .error e → (session.handle call).2 = session) ∧
    (DropsFailed (new options) calls [] ∧ (new options).answers calls = [] ∨
      (∃ registrations timestamp,
        DropsFailed (new options) calls [.start registrations timestamp] ∧
        (new options).answers calls = [.started (tracked registrations).size]) ∨
      ∃ registrations timestamp listing files report,
        DropsFailed (new options) calls [.start registrations timestamp, .finish listing] ∧
        listing.files? = some files ∧
        outcome options registrations timestamp files = .ok report ∧
        (new options).answers calls =
          [.started (tracked registrations).size, .finished report]) ∧
    (∀ fewer, DropsFailed (new options) calls fewer →
      (new options).answers fewer = (new options).answers calls ∧
        (new options).handleAll fewer = (new options).handleAll calls) ∧
    ∀ (session : Session) (listing : Listing), session.finishWriting listing =
      ((session.finish listing).result.mapError .inl, (session.finish listing).session) := by
  refine ⟨fun _ _ _ => handle_atomic, ?_, fun fewer h => h.same, finishWriting_eq⟩
  rcases dropsFailed_of_idle options calls with
    hnone | ⟨registrations, timestamp, hone⟩ |
      ⟨registrations, timestamp, listing, files, listed, hboth⟩
  · exact .inl ⟨hnone, hnone.same.1.symm⟩
  · exact .inr (.inl ⟨registrations, timestamp, hone, hone.same.1.symm⟩)
  · refine .inr (.inr ⟨registrations, timestamp, listing, files, _, hboth, listed,
      outcome_eq options registrations timestamp files, hboth.same.1.symm.trans ?_⟩)
    cases listing with
    | missing | files =>
        cases listed
        rfl
    | unreadable => cases listed

/-- An end too soon, a second start and an end over a directory that cannot be listed are
refused; the session ends as if they had not been tried. -/
theorem session_lifecycle_retried :
    DropsFailed (new ⟨⟨"coverage"⟩, [.raw], []⟩)
        [.finish .missing, .start [] 7, .start [] 9, .finish .unreadable, .finish (.files [])]
        [.start [] 7, .finish (.files [])] ∧
      (new ⟨⟨"coverage"⟩, [.raw], []⟩).answers
          [.finish .missing, .start [] 7, .start [] 9, .finish .unreadable, .finish (.files [])] =
        [.started 0, .finished (report ⟨⟨"coverage"⟩, [.raw], []⟩ 7 (allRead [] []))] := by
  have hdropped : DropsFailed (new ⟨⟨"coverage"⟩, [.raw], []⟩)
      [.finish .missing, .start [] 7, .start [] 9, .finish .unreadable, .finish (.files [])]
      [.start [] 7, .finish (.files [])] :=
    .drop rfl (.keep (.drop rfl (.drop rfl (.keep (.nil _)))))
  exact ⟨hdropped, ((session_lifecycle _ _).2.2.1 _ hdropped).1.symm⟩

end Session

end ScriptCoverage
