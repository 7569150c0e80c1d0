import ScriptCoverage.Text.Decimal

/-!
Coverage rates as exact ratios. Numerators and denominators are summed apart, so a
sum does not depend on how its terms are grouped.
-/

namespace ScriptCoverage

structure Rate where
  covered : UInt64
  total : UInt64
  deriving DecidableEq

namespace Rate

def zero : Rate := ⟨0, 0⟩

instance : Add Rate := ⟨fun x y => ⟨x.covered + y.covered, x.total + y.total⟩⟩

def ofCounts (covered total : Nat) : Rate :=
  ⟨UInt64.ofNat covered, UInt64.ofNat total⟩

def sum (rates : List Rate) : Rate :=
  rates.foldl (· + ·) zero

/-- The nearest float; an empty scope counts as covered. -/
def value (rate : Rate) : Float :=
  if rate.total = 0 then 1.0 else rate.covered.toFloat / rate.total.toFloat

/-- The ratio in steps of 1/10000, a half rounded up; an empty scope counts as
covered. -/
def basisPoints (rate : Rate) : UInt64 :=
  if rate.total = 0 then 10000
  else
    UInt64.ofNat
      ((rate.covered.toNat * 20000 + rate.total.toNat) / (2 * rate.total.toNat))

/-- The ratio with four decimals. -/
def chars (rate : Rate) : List Char :=
  let points := rate.basisPoints.toNat
  Decimal.digits (points / 10000) ++ '.' :: Decimal.padded 4 (points % 10000)

def text (rate : Rate) : String :=
  String.ofList rate.chars

/-- The percentage with two decimals. -/
def percent (rate : Rate) : String :=
  let points := rate.basisPoints.toNat
  String.ofList (Decimal.digits (points / 100) ++ '.' :: Decimal.padded 2 (points % 100))

end Rate

end ScriptCoverage
