import ScriptCoverage.Recording.RawDump
import ScriptCoverage.Report.Artifact
import ScriptCoverage.Report.Cobertura
import ScriptCoverage.Report.Lcov
import ScriptCoverage.Text.Blank

/-!
Report formats and the artifacts they write: a dump for each contract, one Cobertura
document, one LCOV file.
-/

namespace ScriptCoverage

namespace RawDump

/-- A branch has its own line, and one for its hits if it has any. -/
def linesOfAddress (entry : AddressCoverage) : List Line :=
  match entry.branch with
  | some count =>
      .branch entry.address count ::
        if 0 < entry.hitCount then [.hits entry.address entry.hitCount] else []
  | none => [.hits entry.address entry.hitCount]

/-- The dump of a contract: every known address, in ascending order. -/
def ofTree (tree : CoverageTree) : List Char :=
  print tree.hash (tree.addresses.flatMap linesOfAddress)

end RawDump

inductive ReportFormat where
  | raw
  | cobertura
  | lcov
  deriving DecidableEq

namespace ReportFormat

def all : List ReportFormat := [.raw, .cobertura, .lcov]

def name : ReportFormat → String
  | .raw => "raw"
  | .cobertura => "cobertura"
  | .lcov => "lcov"

/-- Blanks around a name and the case of its letters do not count. -/
def ofName? (name : String) : Option ReportFormat :=
  let wanted := Text.toLowerAscii (Text.trim name.toList)
  all.find? fun format => format.name.toList == wanted

def artifacts (format : ReportFormat) (context : ReportContext) (trees : List CoverageTree) :
    List Artifact :=
  match format with
  | .raw => trees.map fun tree => .ofChars (tree.hash.text ++ ".raw.txt") (RawDump.ofTree tree)
  | .cobertura => [.ofChars "coverage.cobertura.xml" (Cobertura.print context trees)]
  | .lcov => [.ofChars "coverage.lcov" (Lcov.print trees)]

end ReportFormat

end ScriptCoverage
