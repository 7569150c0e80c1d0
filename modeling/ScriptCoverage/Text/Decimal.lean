/-!
Decimal numerals. `digits` writes a number without leading zeros; `value?` reads
a nonempty run of the digits 0 to 9, leading zeros allowed. A word is a number
below 2 ^ 32, the range of an address and of a counter.
-/

namespace ScriptCoverage.Decimal

def digit (n : Nat) : Char :=
  Char.ofNat ('0'.toNat + n % 10)

def digits (n : Nat) : List Char :=
  if n < 10 then [digit n] else digits (n / 10) ++ [digit n]
termination_by n

/-- The numeral of `n` with at least `width` digits, zeros in front. -/
def padded (width n : Nat) : List Char :=
  let text := digits n
  List.replicate (width - text.length) '0' ++ text

/-- The value of one of the digits 0 to 9; other scripts' digits have none here. -/
def digitValue? (c : Char) : Option Nat :=
  if '0' ≤ c ∧ c ≤ '9' then some (c.toNat - '0'.toNat) else none

def valueFrom? : Nat → List Char → Option Nat
  | read, [] => some read
  | read, c :: rest => do
      let d ← digitValue? c
      valueFrom? (10 * read + d) rest

def value? : List Char → Option Nat
  | [] => none
  | text => valueFrom? 0 text

def word? (text : List Char) : Option UInt32 := do
  let n ← value? text
  if n < UInt32.size then some (UInt32.ofNat n) else none

/-- A word that may carry a plus sign. -/
def signedWord? : List Char → Option UInt32
  | '+' :: text => word? text
  | text => word? text

end ScriptCoverage.Decimal
