/-!
Hexadecimal text: two digits for a byte, the high one first. Writing uses lower
case; reading takes either case.
-/

namespace ScriptCoverage.Hex

def digit (n : Nat) : Char :=
  if n < 10 then Char.ofNat ('0'.toNat + n) else Char.ofNat ('a'.toNat + n % 16 - 10)

def digitValue? (c : Char) : Option Nat :=
  if '0' ≤ c ∧ c ≤ '9' then some (c.toNat - '0'.toNat)
  else if 'a' ≤ c ∧ c ≤ 'f' then some (c.toNat - 'a'.toNat + 10)
  else if 'A' ≤ c ∧ c ≤ 'F' then some (c.toNat - 'A'.toNat + 10)
  else none

def byteText (b : UInt8) : List Char :=
  [digit (b.toNat / 16), digit (b.toNat % 16)]

def encode (bytes : List UInt8) : List Char :=
  bytes.flatMap byteText

/-- Refuses an odd number of digits. -/
def decode : List Char → Option (List UInt8)
  | [] => some []
  | [_] => none
  | high :: low :: rest => do
      let h ← digitValue? high
      let l ← digitValue? low
      let bytes ← decode rest
      some (UInt8.ofNat (16 * h + l) :: bytes)

/-- The number `n` in at least `width` digits, zeros in front. -/
def padded (width n : Nat) : List Char :=
  let text := (Nat.toDigits 16 n)
  List.replicate (width - text.length) '0' ++ text

end ScriptCoverage.Hex
