import ScriptCoverage.Data.Json

/-!
Reading JSON (RFC 8259) from a text. Refused are brackets nested deeper than a
limit, surrogate escapes that form no pair, and numbers beyond the range of a
double.
-/

namespace ScriptCoverage.Json

/-- Takes a value off the front of a text, or refuses the text. -/
abbrev Reader (α : Type) := List Char → Option (α × List Char)

def isSpace (c : Char) : Bool :=
  c == ' ' || c == '\t' || c == '\n' || c == '\r'

def skipSpace (text : List Char) : List Char :=
  text.dropWhile isSpace

private def isDigit (c : Char) : Bool :=
  (Decimal.digitValue? c).isSome

private def digitRun (text : List Char) : Option (List Char × List Char) :=
  match text.takeWhile isDigit with
  | [] => none
  | run => some (run, text.dropWhile isDigit)

private def fractionDigits : Reader (List Char)
  | '.' :: text => digitRun text
  | text => some ([], text)

private def exponentValue (text : List Char) : Option (Option Int × List Char) :=
  let signed (text : List Char) : Option (Option Int × List Char) := do
    let (isNegative, text) := match text with
      | '-' :: rest => (true, rest)
      | '+' :: rest => (false, rest)
      | rest => (false, rest)
    let (run, rest) ← digitRun text
    let n ← Decimal.value? run
    some (some (if isNegative then -(n : Int) else n), rest)
  match text with
  | 'e' :: rest | 'E' :: rest => signed rest
  | rest => some (none, rest)

private def isLeadingZero : List Char → Bool
  | '0' :: _ :: _ => true
  | _ => false

private def magnitude (isNegative : Bool) (text : List Char) : Option (Json × List Char) := do
  let (whole, rest) ← digitRun text
  if isLeadingZero whole then none
  let (decimals, rest) ← fractionDigits rest
  let (power, rest) ← exponentValue rest
  let coefficient ← Decimal.value? (whole ++ decimals)
  let exponent := power.getD 0 - decimals.length
  let exact : Scientific := ⟨isNegative, coefficient, exponent⟩
  if !exact.isFinite then none
  let isWhole := decimals.isEmpty && power.isNone
  let number :=
    if isWhole && !isNegative && coefficient < UInt64.size then .natural coefficient
    else if isWhole && isNegative && 0 < coefficient && coefficient ≤ Nat.pow 2 63 then
      .negative coefficient
    else .fraction exact
  some (.number number, rest)

private def hexFour : Reader Nat
  | a :: b :: c :: d :: rest => do
      let digits ← [a, b, c, d].mapM Hex.digitValue?
      some (digits.foldl (fun n digit => 16 * n + digit) 0, rest)
  | _ => none

/-- The character after `\u`: one unit, or a high and a low surrogate. -/
private def unicodeEscape (text : List Char) : Option (Char × List Char) := do
  let (unit, rest) ← hexFour text
  if 0xD800 ≤ unit ∧ unit < 0xDC00 then
    match rest with
    | '\\' :: 'u' :: rest => do
        let (low, rest) ← hexFour rest
        if 0xDC00 ≤ low ∧ low < 0xE000 then
          some (Char.ofNat (0x10000 + (unit - 0xD800) * 0x400 + (low - 0xDC00)), rest)
        else none
    | _ => none
  else if 0xDC00 ≤ unit ∧ unit < 0xE000 then none
  else some (Char.ofNat unit, rest)

private def escaped : Reader Char
  | '"' :: rest => some ('"', rest)
  | '\\' :: rest => some ('\\', rest)
  | '/' :: rest => some ('/', rest)
  | 'b' :: rest => some ('\x08', rest)
  | 'f' :: rest => some ('\x0c', rest)
  | 'n' :: rest => some ('\n', rest)
  | 'r' :: rest => some ('\r', rest)
  | 't' :: rest => some ('\t', rest)
  | 'u' :: rest => unicodeEscape rest
  | _ => none

private def isPlain (c : Char) : Bool :=
  c != '"' && c != '\\' && 0x20 ≤ c.val

/-- The characters up to the closing quote; `fuel` bounds the number of escapes. -/
private def stringBody : (fuel : Nat) → Reader (List Char)
  | 0, _ => none
  | fuel + 1, text =>
      let plain := text.takeWhile isPlain
      match text.dropWhile isPlain with
      | '"' :: rest => some (plain, rest)
      | '\\' :: rest => do
          let (c, rest) ← escaped rest
          let (after, rest) ← stringBody fuel rest
          some (plain ++ c :: after, rest)
      | _ => none

private def quoted (fuel : Nat) (text : List Char) : Option (String × List Char) :=
  (stringBody fuel text).map fun (chars, rest) => (String.ofList chars, rest)

private def scalar (fuel : Nat) : Reader Json
  | 'n' :: 'u' :: 'l' :: 'l' :: rest => some (.null, rest)
  | 't' :: 'r' :: 'u' :: 'e' :: rest => some (.bool true, rest)
  | 'f' :: 'a' :: 'l' :: 's' :: 'e' :: rest => some (.bool false, rest)
  | '"' :: rest => (quoted fuel rest).map fun (s, rest) => (.string s, rest)
  | '-' :: rest => magnitude true rest
  | text => magnitude false text

/-- Items with commas between them, up to the bracket `close`. -/
private def separated {α : Type} (item : Reader α) (close : Char) :
    (fuel : Nat) → Reader (List α)
  | 0, _ => none
  | fuel + 1, text => do
      let (x, rest) ← item (skipSpace text)
      match skipSpace rest with
      | ',' :: rest =>
          let (xs, rest) ← separated item close fuel rest
          some (x :: xs, rest)
      | c :: rest => if c = close then some ([x], rest) else none
      | [] => none

/-- Everything after an opening bracket. -/
private def bracketed {α : Type} (item : Reader α) (close : Char) (fuel : Nat)
    (text : List Char) : Option (List α × List Char) :=
  match skipSpace text with
  | [] => none
  | c :: rest =>
      if c = close then some ([], rest) else separated item close fuel (c :: rest)

private def field (value : Reader Json) (fuel : Nat) : Reader (String × Json)
  | '"' :: text => do
      let (name, rest) ← quoted fuel text
      match skipSpace rest with
      | ':' :: rest =>
          let (json, rest) ← value (skipSpace rest)
          some ((name, json), rest)
      | _ => none
  | _ => none

/-- A value whose brackets nest at most `depth` levels. The fuel, more than the length
of the text, bounds the items of a bracket and the escapes of a string. -/
def value (fuel : Nat) : (depth : Nat) → Reader Json
  | 0, text => scalar fuel text
  | depth + 1, text =>
      match text with
      | '[' :: rest =>
          (bracketed (value fuel depth) ']' fuel rest).map fun (items, rest) =>
            (.array items, rest)
      | '{' :: rest =>
          (bracketed (field (value fuel depth) fuel) '}' fuel rest).map fun (fields, rest) =>
            (.object fields, rest)
      | text => scalar fuel text

/-- Reads a whole text as one value. -/
def parse? (depth : Nat) (text : List Char) : Option Json :=
  match value (text.length + 1) depth (skipSpace text) with
  | some (json, rest) => if (skipSpace rest).isEmpty then some json else none
  | none => none

end ScriptCoverage.Json
