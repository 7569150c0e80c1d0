import ScriptCoverage.Coverage.Tree
import ScriptCoverage.Report.Xml

/-!
The Cobertura report: a package for each contract, a class for each namespace, and
the lines of each method once under the method and once under the class. A line
states its condition coverage exactly when it has branches.
-/

namespace ScriptCoverage

structure ReportContext where
  /-- Seconds since the start of 1970. -/
  timestamp : Nat
  sourceRoots : List String

namespace Cobertura

open Xml

def number (n : Nat) : List Char :=
  Decimal.digits n

def rates (lineRate branchRate : Rate) : List Attribute :=
  [("line-rate", lineRate.chars), ("branch-rate", branchRate.chars)]

def complexity : Attribute := ("complexity", ['0'])

def conditionCoverage (rate : Rate) : List Char :=
  number (rate.basisPoints.toNat / 100) ++ "% (".toList ++ number rate.covered.toNat ++
    '/' :: number rate.total.toNat ++ [')']

def lineElement (line : LineCoverage) : Element :=
  .leaf "line" ([
    ("number", number line.line.toNat),
    ("hits", number line.hitCount.toNat),
    ("branch", (toString line.isBranchCovered).toList)] ++
    if line.hasBranches then [("condition-coverage", conditionCoverage line.branchRate)] else [])

def methodElement (method : MethodCoverage) : Element :=
  .group "method" (
    [("name", method.method.name.toList), ("signature", method.signature.toList)] ++
      rates method.lineRate method.branchRate ++ [complexity])
    [.group "lines" [] (method.lines.map lineElement)]

/-- A class is ascribed to the document of its first method. -/
def classElement (group : MethodGroup) : Element :=
  let filename := match group.methods with
    | [] => ""
    | first :: _ => first.document
  .group "class" (
    [("name", group.key.toList), ("filename", filename.toList)] ++
      rates group.lineRate group.branchRate ++ [complexity])
    [.group "methods" [] (group.methods.map methodElement),
      .group "lines" [] ((group.methods.flatMap (·.lines)).map lineElement)]

def packageElement (tree : CoverageTree) : Element :=
  .group "package" (
    ("name", tree.name.toList) :: rates tree.lineRate tree.branchRate ++ [complexity])
    [.group "classes" [] (tree.classes.map classElement)]

def document (context : ReportContext) (trees : List CoverageTree) : Element :=
  let lineRate := Rate.sum (trees.map (·.lineRate))
  let branchRate := Rate.sum (trees.map (·.branchRate))
  .group "coverage" (
    rates lineRate branchRate ++ [
      ("lines-covered", number lineRate.covered.toNat),
      ("lines-valid", number lineRate.total.toNat),
      ("branches-covered", number branchRate.covered.toNat),
      ("branches-valid", number branchRate.total.toNat),
      complexity, ("version", "1.9".toList), ("timestamp", number context.timestamp)])
    [.group "sources" [] (context.sourceRoots.map fun root => .text "source" root.toList),
      .group "packages" [] (trees.map packageElement)]

def prolog : String :=
  "<?xml version=\"1.0\" encoding=\"UTF-8\"?>\n" ++
    "<!DOCTYPE coverage SYSTEM \"http://cobertura.sourceforge.net/xml/coverage-04.dtd\">\n"

def print (context : ReportContext) (trees : List CoverageTree) : List Char :=
  prolog.toList ++ (document context trees).chars 0

end Cobertura

end ScriptCoverage
