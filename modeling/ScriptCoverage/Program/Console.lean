import ScriptCoverage.Config.Config
import ScriptCoverage.Program.Summary

/-!
The lines that a run prints. Each style is a code that is switched on before a text
and off after it; without colours a text stands alone.
-/

namespace ScriptCoverage

inductive Style where
  | green
  | yellow
  | red
  | bold
  | dimmed
  | boldYellow
  deriving DecidableEq

namespace Style

def code : Style → String
  | .green => "32"
  | .yellow => "33"
  | .red => "31"
  | .bold => "1"
  | .dimmed => "2"
  | .boldYellow => "1;33"

private def start (style : Style) : String :=
  "\x1b[" ++ style.code ++ "m"

private def stop : String := "\x1b[0m"

/-- Where the text itself switches styles off, this one is switched on again. -/
def apply (style : Style) (hasColours : Bool) (text : String) : String :=
  if hasColours then style.start ++ text.replace stop (stop ++ style.start) ++ stop else text

/-- A rate is good from 80 percent and fair from 50. -/
def ofRate (rate : Rate) : Style :=
  if 8000 ≤ rate.basisPoints then .green
  else if 5000 ≤ rate.basisPoints then .yellow
  else .red

end Style

namespace Console

def startLine (hasColours : Bool) (registered sources : Nat) (coverageDir : Path) : String :=
  Style.green.apply hasColours "Collecting" ++
    s!" {registered} of {sources} contracts from " ++ coverageDir.text

private def rateText (hasColours : Bool) (rate : Rate) : String :=
  (Style.ofRate rate).apply hasColours (rate.percent ++ "%") ++
    s!" ({rate.covered}/{rate.total})"

private def contractLine (hasColours : Bool) (contract : ContractSummary) : String :=
  "  " ++ Style.bold.apply hasColours contract.name ++ " " ++
    Style.dimmed.apply hasColours contract.hash.text ++
    " lines " ++ rateText hasColours contract.lines ++
    ", branches " ++ rateText hasColours contract.branches

private def rejectedText (hasColours : Bool) (summary : Summary) : String :=
  let style := if summary.hasRejections then Style.red else .green
  style.apply hasColours s!"{summary.rejectedFiles}"

private def totalLine (hasColours : Bool) (summary : Summary) : String :=
  Style.boldYellow.apply hasColours "Summary:" ++
    s!" {summary.contracts.length} contracts, {summary.traceFiles} trace files (" ++
    rejectedText hasColours summary ++
    s!" rejected), {summary.artifacts.length} artifacts ({summary.duration.milliseconds}ms)"

def summaryLines (hasColours : Bool) (summary : Summary) : List String :=
  summary.contracts.map (contractLine hasColours) ++ ["", totalLine hasColours summary]

def jsonLine (path : Path) : String :=
  "JSON output written to: " ++ path.text

end Console

end ScriptCoverage
