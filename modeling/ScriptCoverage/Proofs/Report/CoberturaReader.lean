import ScriptCoverage.Report.Cobertura
import ScriptCoverage.Proofs.Report.XmlReader

/-!
What a Cobertura report says, read from its XML text. Every element has to stand where the
report format puts it, with blanks but no text around it, and every number has to be one.
-/

namespace ScriptCoverage

namespace Xml.Node

def attribute? (node : Node) (name : String) : Option (List Char) :=
  match node with
  | .element _ attributes _ => attributes.lookup name
  | .char _ => none

def string? (node : Node) (name : String) : Option String :=
  (node.attribute? name).map String.ofList

def number? (node : Node) (name : String) : Option Nat :=
  (node.attribute? name).bind Decimal.value?

/-- What stands in the element of this tag, apart from blanks. -/
def children? (node : Node) (tag : String) : Option (List Node) :=
  match node with
  | .element found _ content =>
      if found = tag then some (content.filter fun node => !node.isBlank) else none
  | .char _ => none

def char? : Node → Option Char
  | .char c => some c
  | .element .. => none

/-- The text of the element of this tag, which holds nothing else. -/
def text? (node : Node) (tag : String) : Option String :=
  match node with
  | .element found _ content =>
      if found = tag then (content.mapM char?).map String.ofList else none
  | .char _ => none

end Xml.Node

namespace Cobertura

structure LineEntry where
  number : Nat
  hits : Nat
  branch : Bool
  /-- The outcomes that were seen and those that are possible. -/
  condition : Option (Nat × Nat)
  deriving DecidableEq

structure MethodEntry where
  name : String
  signature : String
  lines : List LineEntry
  deriving DecidableEq

structure ClassEntry where
  name : String
  filename : String
  methods : List MethodEntry
  lines : List LineEntry
  deriving DecidableEq

structure PackageEntry where
  name : String
  classes : List ClassEntry
  deriving DecidableEq

structure Report where
  timestamp : Nat
  linesCovered : Nat
  linesValid : Nat
  branchesCovered : Nat
  branchesValid : Nat
  sources : List String
  packages : List PackageEntry
  deriving DecidableEq

def flag? (text : List Char) : Option Bool :=
  if text = "true".toList then some true
  else if text = "false".toList then some false
  else none

/-- The two numbers of a condition coverage such as `50% (1/2)`. -/
def condition? (text : List Char) : Option (Nat × Nat) := do
  let (percent, rest) ← Text.splitFirst '%' text
  let _ ← Decimal.value? percent
  let (blank, rest) ← Text.splitFirst '(' rest
  let (covered, rest) ← Text.splitFirst '/' rest
  let (total, rest) ← Text.splitFirst ')' rest
  if blank = [' '] ∧ rest = [] then some (← Decimal.value? covered, ← Decimal.value? total)
  else none

def LineEntry.ofNode? (node : Xml.Node) : Option LineEntry := do
  let [] ← node.children? "line" | none
  let number ← node.number? "number"
  let hits ← node.number? "hits"
  let branch ← (node.attribute? "branch").bind flag?
  let condition ← (node.attribute? "condition-coverage").mapM condition?
  some { number, hits, branch, condition }

def MethodEntry.ofNode? (node : Xml.Node) : Option MethodEntry := do
  let [lines] ← node.children? "method" | none
  let name ← node.string? "name"
  let signature ← node.string? "signature"
  let lines ← (← lines.children? "lines").mapM LineEntry.ofNode?
  some { name, signature, lines }

def ClassEntry.ofNode? (node : Xml.Node) : Option ClassEntry := do
  let [methods, lines] ← node.children? "class" | none
  let name ← node.string? "name"
  let filename ← node.string? "filename"
  let methods ← (← methods.children? "methods").mapM MethodEntry.ofNode?
  let lines ← (← lines.children? "lines").mapM LineEntry.ofNode?
  some { name, filename, methods, lines }

def PackageEntry.ofNode? (node : Xml.Node) : Option PackageEntry := do
  let [classes] ← node.children? "package" | none
  let name ← node.string? "name"
  let classes ← (← classes.children? "classes").mapM ClassEntry.ofNode?
  some { name, classes }

namespace Report

def ofNode? (node : Xml.Node) : Option Report := do
  let [sources, packages] ← node.children? "coverage" | none
  let timestamp ← node.number? "timestamp"
  let linesCovered ← node.number? "lines-covered"
  let linesValid ← node.number? "lines-valid"
  let branchesCovered ← node.number? "branches-covered"
  let branchesValid ← node.number? "branches-valid"
  let sources ← (← sources.children? "sources").mapM (·.text? "source")
  let packages ← (← packages.children? "packages").mapM PackageEntry.ofNode?
  some { timestamp, linesCovered, linesValid, branchesCovered, branchesValid, sources, packages }

def read? (text : List Char) : Option Report :=
  (Xml.root? text).bind ofNode?

/-- The lines of the classes that are ascribed to a file. -/
def linesIn (report : Report) (filename : String) : List LineEntry :=
  ((report.packages.flatMap (·.classes)).filter (·.filename == filename)).flatMap (·.lines)

end Report

end Cobertura

end ScriptCoverage
