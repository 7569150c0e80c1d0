import ScriptCoverage.Files.FileStore
import ScriptCoverage.Program.Duration
import ScriptCoverage.Warning

/-!
What the program needs of its surroundings: files, a console and a clock. A desk is
such a host as a value: a file tree, the lines printed so far, and a clock that
stands at zero.
-/

namespace ScriptCoverage

class Host (m : Type → Type) extends FileStore m where
  printLine : String → m Unit
  warn : Warning → m Unit
  /-- Seconds since the start of 1970. -/
  now : m Nat
  /-- The time since the program started. -/
  elapsed : m Duration

structure Desk where
  files : FileTree
  printed : List String
  warnings : List Warning

namespace Desk

def ofFiles (files : FileTree) : Desk := ⟨files, [], []⟩

private def onFiles {α : Type} (action : StateM FileTree α) : StateM Desk α := fun desk =>
  let (result, files) := action.run desk.files
  (result, { desk with files })

instance : Host (StateM Desk) where
  content? path := onFiles (FileStore.content? path)
  isPresent path := onFiles (FileStore.isPresent path)
  fileNames? path := onFiles (FileStore.fileNames? path)
  makeDirectories path := onFiles (FileStore.makeDirectories path)
  write path bytes := onFiles (FileStore.write path bytes)
  printLine line := modify fun desk => { desk with printed := desk.printed ++ [line] }
  warn warning := modify fun desk => { desk with warnings := desk.warnings ++ [warning] }
  now := return 0
  elapsed := return ⟨0⟩

end Desk

end ScriptCoverage
