import ScriptCoverage.Config.Config

/-!
The command line. An option has its value behind an equals sign or in the argument
after it; a value of the second kind does not start with a hyphen, and it is checked
when the next option comes or the arguments end. So an argument that is no option is
reported before a fault in the value before it.
-/

namespace ScriptCoverage

inductive UsageError where
  | unknownArgument
  | invalidValue
  | argumentConflict
  | tooManyValues
  | displayHelp
  | displayVersion
  deriving DecidableEq

def UsageError.name : UsageError → String
  | .unknownArgument => "UnknownArgument"
  | .invalidValue => "InvalidValue"
  | .argumentConflict => "ArgumentConflict"
  | .tooManyValues => "TooManyValues"
  | .displayHelp => "DisplayHelp"
  | .displayVersion => "DisplayVersion"

/-- An option that takes a value. -/
inductive ValueOption where
  | root
  | config
  | coverageDir
  | output
  | contract
  | format
  | sourceRoot
  | jsonOutput
  deriving DecidableEq

namespace ValueOption

def all : List ValueOption :=
  [.root, .config, .coverageDir, .output, .contract, .format, .sourceRoot, .jsonOutput]

def name : ValueOption → String
  | .root => "root"
  | .config => "config"
  | .coverageDir => "coverage-dir"
  | .output => "output"
  | .contract => "contract"
  | .format => "format"
  | .sourceRoot => "source-root"
  | .jsonOutput => "json-output"

def isRepeatable : ValueOption → Bool
  | .contract | .sourceRoot => true
  | _ => false

/-- A path must not be empty. -/
def isPath : ValueOption → Bool
  | .root | .config | .coverageDir | .output | .jsonOutput => true
  | .contract | .format | .sourceRoot => false

end ValueOption

/-- An option without a value. -/
inductive Flag where
  | verbose
  | help
  | version
  deriving DecidableEq

inductive CommandOption where
  | takesValue (option : ValueOption)
  | flag (flag : Flag)
  deriving DecidableEq

namespace CommandOption

def ofName? (name : List Char) : Option CommandOption :=
  match ValueOption.all.find? fun option => option.name.toList == name with
  | some option => some (.takesValue option)
  | none =>
      match String.ofList name with
      | "verbose" => some (.flag .verbose)
      | "help" => some (.flag .help)
      | "version" => some (.flag .version)
      | _ => none

def ofLetter? : Char → Option CommandOption
  | 'o' => some (.takesValue .output)
  | 'v' => some (.flag .verbose)
  | 'h' => some (.flag .help)
  | 'V' => some (.flag .version)
  | _ => none

end CommandOption

/-- What the arguments set, in their order. -/
structure CommandLine where
  values : List (ValueOption × String)
  verbose : Nat
  deriving DecidableEq

namespace CommandLine

def empty : CommandLine := ⟨[], 0⟩

/-- The values of an option, in their order. -/
def valuesOf (line : CommandLine) (option : ValueOption) : List String :=
  line.values.filterMap fun (given, value) => if given = option then some value else none

def accept (line : CommandLine) (option : ValueOption) (value : String) :
    Except UsageError CommandLine :=
  if !option.isRepeatable && !(line.valuesOf option).isEmpty then .error .argumentConflict
  else if option.isPath && value.isEmpty then .error .invalidValue
  else .ok { line with values := line.values ++ [(option, value)] }

/-- The arguments so far, and the option whose value is read or may come next. -/
structure Progress where
  line : CommandLine
  pending : Option (ValueOption × Option String)

namespace Progress

def start : Progress := ⟨empty, none⟩

/-- Checks the value of the pending option. -/
def settle (progress : Progress) : Except UsageError CommandLine :=
  match progress.pending with
  | none => .ok progress.line
  | some (_, none) => .error .invalidValue
  | some (option, some value) => progress.line.accept option value

def setFlag (progress : Progress) (flag : Flag) : Except UsageError Progress := do
  let line ← progress.settle
  match flag with
  | .help => .error .displayHelp
  | .version => .error .displayVersion
  | .verbose => .ok ⟨{ line with verbose := line.verbose + 1 }, none⟩

def setValue (progress : Progress) (option : ValueOption) (value : Option (List Char)) :
    Except UsageError Progress := do
  let line ← progress.settle
  match value with
  | none => .ok ⟨line, some (option, none)⟩
  | some value => (line.accept option (String.ofList value)).map fun line => ⟨line, none⟩

/-- An argument after two hyphens. -/
def takeLong (progress : Progress) (body : List Char) : Except UsageError Progress :=
  let (name, value) := match Text.splitFirst '=' body with
    | some (name, value) => (name, some value)
    | none => (body, none)
  match CommandOption.ofName? name, value with
  | none, _ => .error .unknownArgument
  | some (.takesValue option), value => progress.setValue option value
  | some (.flag flag), none => progress.setFlag flag
  | some (.flag _), some _ => .error .tooManyValues

/-- The letters after one hyphen. What follows a letter that takes a value is its
value, an equals sign before it apart. -/
def takeLetters : Progress → List Char → Except UsageError Progress
  | progress, [] => .ok progress
  | progress, letter :: rest =>
      match CommandOption.ofLetter? letter with
      | none => .error .unknownArgument
      | some (.flag flag) => do
          let progress ← progress.setFlag flag
          takeLetters progress rest
      | some (.takesValue option) =>
          match rest with
          | [] => progress.setValue option none
          | '=' :: value => progress.setValue option (some value)
          | value => progress.setValue option (some value)

/-- An argument that is no option: the value of the option before it. -/
def takeValue (progress : Progress) (value : List Char) :
    Except UsageError Progress :=
  match progress.pending with
  | some (option, none) =>
      .ok { progress with pending := some (option, some (String.ofList value)) }
  | _ => .error .unknownArgument

def takeAll : Progress → List (List Char) → Except UsageError Progress
  | progress, [] => .ok progress
  | progress, argument :: rest => do
      match argument with
      | ['-', '-'] => if rest.isEmpty then .ok progress else .error .unknownArgument
      | '-' :: '-' :: body => takeAll (← progress.takeLong body) rest
      | '-' :: letter :: letters => takeAll (← progress.takeLetters (letter :: letters)) rest
      | value => takeAll (← progress.takeValue value) rest

end Progress

/-- What the program shows when it is asked for help. -/
def help : String :=
  "Code coverage for NeoVM smart contracts\n\nOptions:\n" ++
    String.join (ValueOption.all.map fun option => "  --" ++ option.name ++ " <VALUE>\n") ++
    "  -v, --verbose\n  -h, --help\n  -V, --version\n"

/-- Reads the arguments after the program's name. -/
def parse (arguments : List String) : Except UsageError CommandLine := do
  let progress ← Progress.start.takeAll (arguments.map String.toList)
  progress.settle

def pathOf? (line : CommandLine) (option : ValueOption) : Option Path :=
  ((line.valuesOf option).head?).map Path.mk

/-- The configuration with everything that was not given at its default. -/
def config (line : CommandLine) : Config where
  root := (line.pathOf? .root).getD Config.default.root
  config := line.pathOf? .config
  coverageDir := (line.pathOf? .coverageDir).getD Config.default.coverageDir
  output := (line.pathOf? .output).getD Config.default.output
  contracts := line.valuesOf .contract
  fileContracts := []
  format := ((line.valuesOf .format).head?).getD Config.default.format
  sourceRoots := line.valuesOf .sourceRoot
  verbose := UInt8.ofNat (min line.verbose 255)
  jsonOutput := line.pathOf? .jsonOutput

end CommandLine

end ScriptCoverage
