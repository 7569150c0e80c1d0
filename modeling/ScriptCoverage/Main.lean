import ScriptCoverage.Program.Run
import Std.Time.DateTime.Timestamp

/-!
The program on the files, the console and the clock of the machine.
-/

namespace ScriptCoverage

/-- Actions of a program that started at a reading of the machine's steady clock. -/
abbrev Machine := ReaderT Nat IO

namespace Machine

private def succeeds (action : IO Unit) : Machine Bool := do
  try
    action
    return true
  catch _ => return false

private def attempt {α : Type} (action : IO α) : Machine (Option α) := do
  try
    return some (← action)
  catch _ => return none

private def entry (path : Path) : IO.FS.DirEntry :=
  ⟨path.text, ""⟩

private def isFile (entry : IO.FS.DirEntry) : IO Bool := do
  try
    return (← entry.path.metadata).type matches .file
  catch _ => return false

private def fileNames (path : Path) : IO (List String) := do
  let entries ← (entry path).root.readDir
  let files ← entries.filterM isFile
  return files.toList.map (·.fileName)

instance : Host Machine where
  content? path := attempt (return (← IO.FS.readBinFile path.text).toList)
  isPresent path := (entry path).root.pathExists
  fileNames? path := attempt (fileNames path)
  makeDirectories path := succeeds (IO.FS.createDirAll path.text)
  write path bytes := succeeds (IO.FS.writeBinFile path.text ⟨bytes.toArray⟩)
  printLine line := IO.println line
  warn warning := IO.eprintln ("WARN " ++ warning.message)
  now := return (← Std.Time.Timestamp.now).toSecondsSinceUnixEpoch.val.toNat
  elapsed := return ⟨(← IO.monoNanosNow) - (← read)⟩

/-- A switch in the environment: off if it is `0`. -/
private def switch? (name : String) : IO (Option Bool) :=
  return (← IO.getEnv name).map (· != "0")

/-- Colours show on a terminal; the environment can force them on or off. -/
private def hasColours : IO Bool := do
  if (← switch? "CLICOLOR_FORCE") = some true then return true
  if (← switch? "NO_COLOR").isSome then return false
  return (← switch? "CLICOLOR").getD true && (← (← IO.getStdout).isTty)

private def explain : RunError → IO Unit
  | .usage .displayHelp => IO.print CommandLine.help
  | .usage .displayVersion => IO.println "nvcov 0.0.1"
  | e => IO.eprintln ("Error: " ++ e.message)

def runProgram (arguments : List String) : IO UInt32 := do
  let colours ← hasColours
  match ← ((Run.run arguments colours).run : Machine _).run (← IO.monoNanosNow) with
  | .ok _ => return 0
  | .error e => do
      explain e
      return UInt32.ofNat e.exitCode

end Machine

end ScriptCoverage

def main (arguments : List String) : IO UInt32 :=
  ScriptCoverage.Machine.runProgram arguments
