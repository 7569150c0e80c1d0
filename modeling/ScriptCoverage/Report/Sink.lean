import ScriptCoverage.Files.FileStore
import ScriptCoverage.Report.Artifact

/-!
Where artifacts go. A writer fills an artifact and may fail after some bytes. In
memory such an artifact is dropped; in a directory the bytes are in the file by then,
and only its path is not listed as written. A directory takes no name that could lead
out of it.
-/

namespace ScriptCoverage

/-- What a writer did: the bytes it gave, and why it stopped if it failed. -/
structure Emission where
  bytes : List UInt8
  failure : Option String
  deriving DecidableEq

def Emission.whole (bytes : List UInt8) : Emission := ⟨bytes, none⟩

inductive SinkError where
  | escapes (name : String)
  | writer (reason : String)
  | files
  deriving DecidableEq

def SinkError.message : SinkError → String
  | .escapes name => "Artifact name " ++ name ++ " escapes the output directory"
  | .writer reason => reason
  | .files => "the file cannot be written"

/-- Artifacts in the order in which they were attached. -/
structure MemorySink where
  artifacts : List Artifact
  deriving DecidableEq

namespace MemorySink

def empty : MemorySink := ⟨[]⟩

def attach (sink : MemorySink) (name : String) (emission : Emission) :
    Except SinkError MemorySink :=
  match emission.failure with
  | none => .ok ⟨sink.artifacts ++ [⟨name, emission.bytes⟩]⟩
  | some reason => .error (.writer reason)

/-- The first artifact of a name. -/
def get? (sink : MemorySink) (name : String) : Option Artifact :=
  sink.artifacts.find? fun artifact => artifact.name == name

end MemorySink

structure DirectorySink where
  root : Path
  written : List Path
  deriving DecidableEq

namespace DirectorySink

def new (root : Path) : DirectorySink := ⟨root, []⟩

def hasDoubleDot : List Char → Bool
  | '.' :: '.' :: _ => true
  | _ :: rest => hasDoubleDot rest
  | [] => false

/-- Whether a name could lead out of the directory: it has two dots in a row
somewhere, or is absolute. -/
def escapes (name : String) : Bool :=
  hasDoubleDot name.toList || (Path.mk name).isAbsolute

def makeParent {m : Type → Type} [Monad m] [FileStore m] (path : Path) : m Bool :=
  match path.parent? with
  | some parent => if parent.text.isEmpty then pure true else FileStore.makeDirectories parent
  | none => pure true

/-- Writes an artifact as a file, whose path is listed if all went well. -/
def attach {m : Type → Type} [Monad m] [FileStore m] (sink : DirectorySink) (name : String)
    (emission : Emission) : m (Except SinkError DirectorySink) := do
  if escapes name then return .error (.escapes name)
  let path := sink.root.join ⟨name⟩
  if !(← makeParent path) then return .error .files
  if !(← FileStore.write path emission.bytes) then return .error .files
  match emission.failure with
  | some reason => return .error (.writer reason)
  | none => return .ok { sink with written := sink.written ++ [path] }

def store {m : Type → Type} [Monad m] [FileStore m] (sink : DirectorySink)
    (artifact : Artifact) : m (Except SinkError DirectorySink) :=
  sink.attach artifact.name (.whole artifact.bytes)

/-- Stores artifacts in turn, up to the first that fails. -/
def storeAll {m : Type → Type} [Monad m] [FileStore m] :
    DirectorySink → List Artifact → m (Except SinkError DirectorySink)
  | sink, [] => return .ok sink
  | sink, artifact :: rest => do
      match ← sink.store artifact with
      | .ok sink => storeAll sink rest
      | .error e => return .error e

end DirectorySink

end ScriptCoverage
