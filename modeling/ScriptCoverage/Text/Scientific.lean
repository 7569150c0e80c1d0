import ScriptCoverage.Text.Decimal

/-!
Decimal numerals with an exponent, and doubles. A numeral is exact; `toFloat` rounds
it to the nearest double, and `ofFloat` finds the shortest numeral that rounds back
to a double: for 1, 2, ... digits it tests the two neighbours of the double on the
grid of numerals of that length, and of two that round back it takes the nearer.
-/

namespace ScriptCoverage

/-- The number `coefficient * 10 ^ exponent`, with its sign. -/
structure Scientific where
  isNegative : Bool
  coefficient : Nat
  exponent : Int
  deriving DecidableEq

namespace Scientific

/-- The position of the first digit: the magnitude lies below `10 ^ size`. -/
def size (n : Scientific) : Int :=
  (Decimal.digits n.coefficient).length + n.exponent

/-- The smallest magnitude that rounds to infinity. -/
private def overflowBound : Nat := Nat.pow 2 1024 - Nat.pow 2 970

/-- Whether the number rounds to a finite double. The size is compared first, so that
no large power is computed. -/
def isFinite (n : Scientific) : Bool :=
  if n.coefficient = 0 ∨ n.size ≤ 308 then true
  else if 310 ≤ n.size then false
  else if 0 ≤ n.exponent then
    decide (n.coefficient * Nat.pow 10 n.exponent.toNat < overflowBound)
  else decide (n.coefficient < overflowBound * Nat.pow 10 (-n.exponent).toNat)

private def infinity : Float := 1.0 / 0.0

private def magnitude (n : Scientific) : Float :=
  if n.coefficient = 0 ∨ n.size < -330 then 0.0
  else if !n.isFinite then infinity
  else if 0 ≤ n.exponent then Float.ofScientific n.coefficient false n.exponent.toNat
  else Float.ofScientific n.coefficient true (-n.exponent).toNat

def toFloat (n : Scientific) : Float :=
  if n.isNegative then -n.magnitude else n.magnitude

/-- A positive double as `mantissa * 2 ^ exponent`, and whether it is the first of its
binade, where the gap below is half the gap above. -/
private structure Binary where
  mantissa : Nat
  exponent : Int
  isFirst : Bool

private def Binary.ofFloat (x : Float) : Binary :=
  let bits := x.toBits.toNat
  let field : Nat := bits / Nat.pow 2 52 % Nat.pow 2 11
  let low : Nat := bits % Nat.pow 2 52
  if field = 0 then ⟨low, -1074, false⟩
  else ⟨Nat.pow 2 52 + low, (field : Int) - 1075, low = 0 && 1 < field⟩

/-- A positive double and the ends of the interval that rounds to it, as fractions
with one denominator. -/
private structure Interval where
  low : Nat
  value : Nat
  high : Nat
  denominator : Nat
  isClosed : Bool

private def Interval.ofBinary (b : Binary) : Interval :=
  let scale := Nat.pow 2 (b.exponent - 2).toNat
  { low := (4 * b.mantissa - if b.isFirst then 1 else 2) * scale
    value := 4 * b.mantissa * scale
    high := (4 * b.mantissa + 2) * scale
    denominator := Nat.pow 2 (2 - b.exponent).toNat
    isClosed := b.mantissa % 2 = 0 }

/-- `c * 10 ^ exponent` and `x / denominator` over one denominator. -/
private def Interval.common (i : Interval) (c x : Nat) (exponent : Int) : Nat × Nat :=
  (c * Nat.pow 10 exponent.toNat * i.denominator, x * Nat.pow 10 (-exponent).toNat)

private def Interval.holds (i : Interval) (c : Nat) (exponent : Int) : Bool :=
  let (point, low) := i.common c i.low exponent
  let (_, high) := i.common c i.high exponent
  if i.isClosed then low ≤ point && point ≤ high else low < point && point < high

/-- The numeral with this exponent that rounds to the value, the nearer of two. -/
private def Interval.pointOnGrid? (i : Interval) (exponent : Int) : Option Nat :=
  let (unit, value) := i.common 1 i.value exponent
  let below := value / unit
  match i.holds below exponent, i.holds (below + 1) exponent with
  | true, true => some (if 2 * (value % unit) ≤ unit then below else below + 1)
  | true, false => some below
  | false, true => some (below + 1)
  | false, false => none

/-- The least `j` up to a bound for which `value * 10 ^ j` has a whole part. -/
private def Interval.leadingZeros (i : Interval) : (bound : Nat) → Nat → Nat
  | 0, j => j
  | bound + 1, j =>
      if i.denominator ≤ i.value * Nat.pow 10 j then j else i.leadingZeros bound (j + 1)

private def Interval.size (i : Interval) : Int :=
  if i.denominator ≤ i.value then (Decimal.digits (i.value / i.denominator)).length
  else 1 - (i.leadingZeros 400 0 : Int)

/-- The shortest numeral that rounds to a positive double. The upper neighbour may
be the next power of ten, which has a digit more than it needs. -/
private def shortest (x : Float) : Nat × Int :=
  let interval := Interval.ofBinary (Binary.ofFloat x)
  let tries := (List.range 17).map fun n => interval.size - (n + 1 : Nat)
  let point := tries.findSome? fun exponent =>
    (interval.pointOnGrid? exponent).map fun c => (c, exponent)
  match point with
  | some (c, exponent) => if c % 10 = 0 then (c / 10, exponent + 1) else (c, exponent)
  | none => (0, 0)

/-- The shortest numeral that rounds to a finite double. -/
def ofFloat (x : Float) : Scientific :=
  let isNegative := Nat.pow 2 63 ≤ x.toBits.toNat
  if x == 0.0 then ⟨isNegative, 0, 0⟩
  else
    let (coefficient, exponent) := shortest x.abs
    ⟨isNegative, coefficient, exponent⟩

/-- Positional notation with at least one decimal. -/
private def positional (n : Scientific) : List Char :=
  let decimals := (-n.exponent).toNat
  let whole := n.coefficient * Nat.pow 10 n.exponent.toNat
  if decimals = 0 then Decimal.digits whole ++ ['.', '0']
  else
    Decimal.digits (whole / Nat.pow 10 decimals) ++
      '.' :: Decimal.padded decimals (whole % Nat.pow 10 decimals)

private def exponential (n : Scientific) : List Char :=
  let power := n.size - 1
  let mark := 'e' :: (if power < 0 then ['-'] else []) ++ Decimal.digits power.natAbs
  match Decimal.digits n.coefficient with
  | first :: second :: rest => first :: '.' :: second :: rest ++ mark
  | digits => digits ++ mark

/-- Positional from 0.0001 to below 10 ^ 16, and for zero; else one digit before the
point and an exponent. -/
def chars (n : Scientific) : List Char :=
  let isSmall := n.size < -3 || 16 < n.size
  (if n.isNegative then ['-'] else []) ++
    if n.coefficient ≠ 0 && isSmall then n.exponential else n.positional

end Scientific

/-- A double in the fewest digits that read back; a sign of not-a-number is dropped. -/
def floatChars (x : Float) : List Char :=
  if x.isNaN then "NaN".toList
  else if x.isInf then (if x < 0.0 then "-inf" else "inf").toList
  else (Scientific.ofFloat x).chars

end ScriptCoverage
