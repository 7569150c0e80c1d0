import ScriptCoverage.Text.Decimal

/-!
Spans of time, written as counts of units from years down to nanoseconds. A year has
365.25 days and a month 30.44; units that do not occur are left out.
-/

namespace ScriptCoverage

structure Duration where
  nanoseconds : Nat
  deriving DecidableEq

namespace Duration

def ofSeconds (seconds nanoseconds : Nat) : Duration :=
  ⟨seconds * 1000000000 + nanoseconds⟩

def milliseconds (d : Duration) : Nat :=
  d.nanoseconds / 1000000

private structure TimeUnit where
  name : String
  nanoseconds : Nat
  hasPlural : Bool

private def units : List TimeUnit := [
  ⟨"year", 31557600000000000, true⟩,
  ⟨"month", 2630016000000000, true⟩,
  ⟨"day", 86400000000000, true⟩,
  ⟨"h", 3600000000000, false⟩,
  ⟨"m", 60000000000, false⟩,
  ⟨"s", 1000000000, false⟩,
  ⟨"ms", 1000000, false⟩,
  ⟨"us", 1000, false⟩,
  ⟨"ns", 1, false⟩]

private def countText (unit : TimeUnit) (count : Nat) : String :=
  String.ofList (Decimal.digits count) ++ unit.name ++
    if unit.hasPlural && 1 < count then "s" else ""

/-- The counts of the units, each from what the ones before it leave. -/
private def counts : Nat → List TimeUnit → List String
  | _, [] => []
  | left, unit :: rest =>
      let others := counts (left % unit.nanoseconds) rest
      match left / unit.nanoseconds with
      | 0 => others
      | count => countText unit count :: others

def text (d : Duration) : String :=
  if d.nanoseconds = 0 then "0s" else String.intercalate " " (counts d.nanoseconds units)

end Duration

end ScriptCoverage
