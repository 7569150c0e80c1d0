import ScriptCoverage.Files.FileTree

/-!
What a program needs of a file system. An operation that the system refuses answers
`none` or `false`; why it was refused is not told. A file tree is such a system.
-/

namespace ScriptCoverage

class FileStore (m : Type → Type) where
  content? : Path → m (Option (List UInt8))
  isPresent : Path → m Bool
  /-- The names of the files of a directory, in no particular order. -/
  fileNames? : Path → m (Option (List String))
  /-- Makes a directory and those on the way to it; they may be there already. -/
  makeDirectories : Path → m Bool
  /-- Makes or empties a file and writes its content. -/
  write : Path → List UInt8 → m Bool

namespace FileTree

/-- Keeps the tree when a change of it is refused. -/
def attempt (change : FileTree → Option FileTree) : StateM FileTree Bool := fun tree =>
  match change tree with
  | some changed => (true, changed)
  | none => (false, tree)

instance : FileStore (StateM FileTree) where
  content? path := return (← get).content? path
  isPresent path := return ((← get).lookup? path).isSome
  fileNames? path := return (← get).fileNames? path
  makeDirectories path := attempt fun tree => tree.makeDirectories? path
  write path bytes := attempt fun tree => tree.write? path bytes

end FileTree

end ScriptCoverage
