import ScriptCoverage.Data.TomlTree

/-!
Reading TOML 1.0 from a text. Integers have 64 bits; a float beyond the greatest
double is refused unless it is negative. Brackets nest at most 79 deep, and a dotted
key has at most 79 parts.
-/

namespace ScriptCoverage.Toml

/-- Takes a value off the front of a text, or refuses the text. -/
abbrev Reader (α : Type) := List Char → Option (α × List Char)

private def isBlank (c : Char) : Bool :=
  c == ' ' || c == '\t'

private def skipBlanks (text : List Char) : List Char :=
  text.dropWhile isBlank

private def newline? : List Char → Option (List Char)
  | '\n' :: rest | '\r' :: '\n' :: rest => some rest
  | _ => none

/-- A character that may stand as it is: no control but the tab. -/
private def isVisible (c : Char) : Bool :=
  c == '\t' || (0x20 ≤ c.val && c.val != 0x7F)

private def skipComment : List Char → List Char
  | '#' :: rest => rest.dropWhile isVisible
  | text => text

/-- The rest of a line after its content: blanks and a comment. -/
private def lineEnd (text : List Char) : Option (List Char) :=
  match skipComment (skipBlanks text) with
  | [] => some []
  | rest => newline? rest

/-- Skips blanks, comments and line ends; the fuel bounds the lines. -/
private def skipLines : (fuel : Nat) → List Char → List Char
  | 0, text => text
  | fuel + 1, text =>
      match newline? (skipComment (skipBlanks text)) with
      | some rest => skipLines fuel rest
      | none => skipBlanks text

private def skipBlankLines : (fuel : Nat) → List Char → List Char
  | 0, text => text
  | fuel + 1, text =>
      match newline? (skipBlanks text) with
      | some rest => skipBlankLines fuel rest
      | none => skipBlanks text

/-! Strings -/

private def scalarValue? (digits : List Char) : Option Char := do
  let values ← digits.mapM Hex.digitValue?
  let n := values.foldl (fun n digit => 16 * n + digit) 0
  if n < 0xD800 ∨ (0xDFFF < n ∧ n < 0x110000) then some (Char.ofNat n) else none

private def escape : Reader Char
  | 'b' :: rest => some ('\x08', rest)
  | 't' :: rest => some ('\t', rest)
  | 'n' :: rest => some ('\n', rest)
  | 'f' :: rest => some ('\x0c', rest)
  | 'r' :: rest => some ('\r', rest)
  | '"' :: rest => some ('"', rest)
  | '\\' :: rest => some ('\\', rest)
  | 'u' :: a :: b :: c :: d :: rest =>
      (scalarValue? [a, b, c, d]).map fun char => (char, rest)
  | 'U' :: a :: b :: c :: d :: e :: f :: g :: h :: rest =>
      (scalarValue? [a, b, c, d, e, f, g, h]).map fun char => (char, rest)
  | _ => none

/-- A string on one line, after its opening quote. -/
private def basicBody : (fuel : Nat) → Reader (List Char)
  | 0, _ => none
  | fuel + 1, text =>
      let isPlain (c : Char) : Bool := isVisible c && c != '"' && c != '\\'
      let plain := text.takeWhile isPlain
      match text.dropWhile isPlain with
      | '"' :: rest => some (plain, rest)
      | '\\' :: rest => do
          let (c, rest) ← escape rest
          let (after, rest) ← basicBody fuel rest
          some (plain ++ c :: after, rest)
      | _ => none

/-- A run of quotes in a string over several lines: up to two are content, from three
on the last three close the string, and there may be two before them. -/
private def quoteRun (quote : Char) (text : List Char) : Option (List Char × Bool × List Char) :=
  let run := text.takeWhile (· == quote)
  let rest := text.dropWhile (· == quote)
  if run.length < 3 then some (run, false, rest)
  else if run.length < 6 then some (run.drop 3, true, rest)
  else none

/-- A string over several lines, after its opening quotes. A line end counts as one
newline; a backslash at the end of a line takes away all blank space after it. -/
private def longBody (quote : Char) (hasEscapes : Bool) : (fuel : Nat) → Reader (List Char)
  | 0, _ => none
  | fuel + 1, text =>
      let isPlain (c : Char) : Bool :=
        isVisible c && c != quote && !(hasEscapes && c == '\\')
      let plain := text.takeWhile isPlain
      let next (inner : List Char) (rest : List Char) : Option (List Char × List Char) :=
        (longBody quote hasEscapes fuel rest).map fun (after, rest) =>
          (plain ++ inner ++ after, rest)
      match text.dropWhile isPlain with
      | [] => none
      | '\\' :: rest =>
          match newline? (skipBlanks rest) with
          | some rest => next [] (skipBlankLines fuel rest)
          | none => do
              let (c, rest) ← escape rest
              next [c] rest
      | c :: rest =>
          if c = quote then
            match quoteRun quote (c :: rest) with
            | none => none
            | some (inner, true, rest) => some (plain ++ inner, rest)
            | some (inner, false, rest) => next inner rest
          else
            match newline? (c :: rest) with
            | some rest => next ['\n'] rest
            | none => none

private def literalBody (text : List Char) : Option (List Char × List Char) :=
  let isPlain (c : Char) : Bool := isVisible c && c != '\''
  match text.dropWhile isPlain with
  | '\'' :: rest => some (text.takeWhile isPlain, rest)
  | _ => none

private def longString (quote : Char) (hasEscapes : Bool) (fuel : Nat) (text : List Char) :
    Option (List Char × List Char) :=
  longBody quote hasEscapes fuel ((newline? text).getD text)

private def shortString (fuel : Nat) : Reader (List Char)
  | '"' :: rest => basicBody fuel rest
  | '\'' :: rest => literalBody rest
  | _ => none

private def stringValue (fuel : Nat) : Reader (List Char)
  | '"' :: '"' :: '"' :: rest => longString '"' true fuel rest
  | '\'' :: '\'' :: '\'' :: rest => longString '\'' false fuel rest
  | text => shortString fuel text

/-! Keys -/

private def isBareChar (c : Char) : Bool :=
  c.isAlphanum || c == '-' || c == '_'

private def simpleKey (fuel : Nat) (text : List Char) : Option (String × List Char) :=
  match text with
  | '"' :: _ | '\'' :: _ =>
      (shortString fuel text).map fun (key, rest) => (String.ofList key, rest)
  | _ =>
      match text.takeWhile isBareChar with
      | [] => none
      | key => some (String.ofList key, text.dropWhile isBareChar)

/-- At most `count` keys with dots between them. -/
private def dottedKey (fuel : Nat) : (count : Nat) → Reader (List String)
  | 0, _ => none
  | count + 1, text => do
      let (key, rest) ← simpleKey fuel (skipBlanks text)
      match skipBlanks rest with
      | '.' :: rest => do
          let (keys, rest) ← dottedKey fuel count rest
          some (key :: keys, rest)
      | rest => some ([key], rest)

/-- How deep brackets may nest and how many parts a key may have. -/
def maxDepth : Nat := 79

/-- A key: the path to a table, and the name in it. -/
private def keyPath (fuel : Nat) (text : List Char) :
    Option ((List String × String) × List Char) := do
  let (keys, rest) ← dottedKey fuel maxDepth text
  let name ← keys.getLast?
  some ((keys.dropLast, name), rest)

/-! Numbers and dates -/

private def isDigit (c : Char) : Bool :=
  (Decimal.digitValue? c).isSome

/-- A digit, then digits that may have an underscore before them. -/
private def digitRun (isDigit : Char → Bool) : Reader (List Char)
  | c :: rest => if isDigit c then some (tail c rest) else none
  | [] => none
where
  tail (c : Char) : List Char → List Char × List Char
    | '_' :: d :: rest =>
        if isDigit d then
          let (run, rest) := tail d rest
          (c :: run, rest)
        else ([c], '_' :: d :: rest)
    | d :: rest =>
        if isDigit d then
          let (run, rest) := tail d rest
          (c :: run, rest)
        else ([c], d :: rest)
    | [] => ([c], [])

private def sign : List Char → Bool × List Char
  | '-' :: rest => (true, rest)
  | '+' :: rest => (false, rest)
  | text => (false, text)

private def wholeDigits : Reader (List Char)
  | '0' :: rest => some (['0'], rest)
  | text => digitRun isDigit text

private def integer? (n : Int) : Option Toml :=
  if -(Nat.pow 2 63 : Int) ≤ n ∧ n < Nat.pow 2 63 then some (.integer n) else none

private def float? (n : Scientific) : Option Toml :=
  if n.isNegative || n.isFinite then some (.float n.toFloat) else none

private def exponent (text : List Char) : Option (Option Int × List Char) :=
  match text with
  | 'e' :: rest | 'E' :: rest => do
      let (isNegative, rest) := sign rest
      let (run, rest) ← digitRun isDigit rest
      let n ← Decimal.value? run
      some (some (if isNegative then -(n : Int) else n), rest)
  | _ => some (none, text)

private def decimals : Reader (List Char)
  | '.' :: rest => digitRun isDigit rest
  | text => some ([], text)

private def decimalNumber (text : List Char) : Option (Toml × List Char) := do
  let (isNegative, rest) := sign text
  let (whole, rest) ← wholeDigits rest
  let (fraction, rest) ← decimals rest
  let (power, rest) ← exponent rest
  let n ← Decimal.value? (whole ++ fraction)
  let value ←
    if fraction.isEmpty && power.isNone then integer? (if isNegative then -(n : Int) else n)
    else float? ⟨isNegative, n, power.getD 0 - fraction.length⟩
  some (value, rest)

private def radixNumber (radix : Nat) (text : List Char) : Option (Toml × List Char) := do
  let value? (c : Char) : Option Nat := (Hex.digitValue? c).filter (· < radix)
  let (run, rest) ← digitRun (fun c => (value? c).isSome) text
  let values ← run.mapM value?
  let n := values.foldl (fun n digit => radix * n + digit) 0
  let value ← integer? n
  some (value, rest)

private def number (text : List Char) : Option (Toml × List Char) :=
  match text with
  | '0' :: 'x' :: rest => radixNumber 16 rest
  | '0' :: 'o' :: rest => radixNumber 8 rest
  | '0' :: 'b' :: rest => radixNumber 2 rest
  | _ =>
      match sign text with
      | (isNegative, 'i' :: 'n' :: 'f' :: rest) =>
          some (.float (if isNegative then -1.0 / 0.0 else 1.0 / 0.0), rest)
      | (_, 'n' :: 'a' :: 'n' :: rest) => some (.float (0.0 / 0.0), rest)
      | _ => decimalNumber text

/-- A number of exactly `count` digits. -/
private def fixedDigits (count : Nat) (text : List Char) : Option (Nat × List Char) := do
  let run := text.take count
  if run.length < count then none
  let n ← Decimal.value? run
  some (n, text.drop count)

private def expect (mark : Char) : List Char → Option (List Char)
  | c :: rest => if c = mark then some rest else none
  | [] => none

private def isLeapYear (year : Nat) : Bool :=
  year % 4 == 0 && (year % 100 != 0 || year % 400 == 0)

private def daysOfMonth (year month : Nat) : Nat :=
  if month = 2 then (if isLeapYear year then 29 else 28)
  else if month = 4 ∨ month = 6 ∨ month = 9 ∨ month = 11 then 30
  else 31

private def date (text : List Char) : Option (Date × List Char) := do
  let (year, rest) ← fixedDigits 4 text
  let (month, rest) ← fixedDigits 2 (← expect '-' rest)
  let (day, rest) ← fixedDigits 2 (← expect '-' rest)
  if 1 ≤ month ∧ month ≤ 12 ∧ 1 ≤ day ∧ day ≤ daysOfMonth year month then
    some (⟨year, month, day⟩, rest)
  else none

/-- Digits after the ninth do not count. -/
private def nanoseconds : Reader Nat
  | '.' :: rest => do
      let run := (rest.takeWhile isDigit).take 9
      let n ← Decimal.value? run
      some (n * Nat.pow 10 (9 - run.length), rest.dropWhile isDigit)
  | text => some (0, text)

private def time (text : List Char) : Option (Time × List Char) := do
  let (hour, rest) ← fixedDigits 2 text
  let (minute, rest) ← fixedDigits 2 (← expect ':' rest)
  let (second, rest) ← fixedDigits 2 (← expect ':' rest)
  let (nanosecond, rest) ← nanoseconds rest
  if hour < 24 ∧ minute < 60 ∧ second ≤ 60 then
    some (⟨hour, minute, second, nanosecond⟩, rest)
  else none

private def offset (text : List Char) : Option (Option Offset × List Char) :=
  match text with
  | 'Z' :: rest | 'z' :: rest => some (some .universal, rest)
  | '+' :: rest | '-' :: rest => do
      let (hours, rest) ← fixedDigits 2 rest
      let (minutes, rest) ← fixedDigits 2 (← expect ':' rest)
      let east : Int := 60 * hours + minutes
      if hours < 24 ∧ minutes < 60 then
        some (some (.minutes (if text.head? = some '-' then -east else east)), rest)
      else none
  | _ => some (none, text)

/-- Whether a time follows: a mark between date and time, and the start of an hour. -/
private def startsTime : List Char → Bool
  | mark :: a :: b :: ':' :: _ =>
      (mark == 'T' || mark == 't' || mark == ' ') && isDigit a && isDigit b
  | _ => false

private def dateTime (text : List Char) : Option (Toml × List Char) := do
  let (date, rest) ← date text
  if startsTime rest then
    let (time, rest) ← time (rest.drop 1)
    let (offset, rest) ← offset rest
    some (.moment ⟨some date, some time, offset⟩, rest)
  else some (.moment ⟨some date, none, none⟩, rest)

private def timeOfDay (text : List Char) : Option (Toml × List Char) :=
  (time text).map fun (time, rest) => (.moment ⟨none, some time, none⟩, rest)

private def startsDate (text : List Char) : Bool :=
  match fixedDigits 4 text with
  | some (_, '-' :: _) => true
  | _ => false

private def isTimeOfDay (text : List Char) : Bool :=
  match fixedDigits 2 text with
  | some (_, ':' :: _) => true
  | _ => false

private def atom (fuel : Nat) (text : List Char) : Option (Toml × List Char) :=
  match text with
  | '"' :: _ | '\'' :: _ =>
      (stringValue fuel text).map fun (s, rest) => (.string (String.ofList s), rest)
  | 't' :: 'r' :: 'u' :: 'e' :: rest => some (.boolean true, rest)
  | 'f' :: 'a' :: 'l' :: 's' :: 'e' :: rest => some (.boolean false, rest)
  | _ =>
      if startsDate text then dateTime text
      else if isTimeOfDay text then timeOfDay text
      else number text

/-! Arrays and tables -/

/-- Items up to the closing bracket; a comma may follow the last one. -/
private def itemList (value : Reader Toml) : (fuel : Nat) → Reader (List Toml)
  | 0, _ => none
  | fuel + 1, text =>
      match skipLines (fuel + 1) text with
      | ']' :: rest => some ([], rest)
      | text => do
          let (item, rest) ← value text
          match skipLines fuel rest with
          | ',' :: rest => do
              let (items, rest) ← itemList value fuel rest
              some (item :: items, rest)
          | ']' :: rest => some ([item], rest)
          | _ => none

private def assignment (value : Reader Toml) (fuel : Nat) (text : List Char) :
    Option ((List String × String × Toml) × List Char) := do
  let ((path, key), rest) ← keyPath fuel text
  let (v, rest) ← value (skipBlanks (← expect '=' rest))
  some ((path, key, v), rest)

/-- Entries on one line up to the closing brace; no comma follows the last one. -/
private def entryList (value : Reader Toml) :
    (fuel : Nat) → Reader (List (List String × String × Toml))
  | 0, _ => none
  | fuel + 1, text => do
      let (entry, rest) ← assignment value (fuel + 1) text
      match skipBlanks rest with
      | ',' :: rest => do
          let (entries, rest) ← entryList value fuel rest
          some (entry :: entries, rest)
      | '\x7d' :: rest => some ([entry], rest)
      | _ => none

private def inlineTable (value : Reader Toml) (fuel : Nat) (text : List Char) :
    Option (Toml × List Char) := do
  let (entries, rest) ← match skipBlanks text with
    | '\x7d' :: rest => some ([], rest)
    | rest => entryList value fuel rest
  let table ← entries.foldlM (fun table (path, key, v) =>
    Entries.insertDotted path key v table) []
  some (.table (tomlEntries table), rest)

/-- A value whose brackets nest at most `depth` levels. The fuel, more than the length
of the text, bounds what is repeated within brackets and strings. -/
def value (fuel : Nat) : (depth : Nat) → Reader Toml
  | 0, text => atom fuel text
  | depth + 1, text =>
      match text with
      | '[' :: rest =>
          (itemList (value fuel depth) fuel rest).map fun (items, rest) => (.array items, rest)
      | '\x7b' :: rest => inlineTable (value fuel depth) fuel rest
      | text => atom fuel text

/-! Documents -/

/-- A document so far: its tables, and the header that the next line stands under. -/
private structure Draft where
  tables : Entries
  header : List String

private def Draft.start : Draft := ⟨[], []⟩

private def Draft.assign (draft : Draft) (path : List String) (key : String) (v : Toml) :
    Option Draft :=
  (draft.tables.insertUnder draft.header path key v).map fun tables => { draft with tables }

private def Draft.openTable (draft : Draft) (path : List String) (key : String) :
    Option Draft :=
  (draft.tables.openTable path key).map fun tables => ⟨tables, path ++ [key]⟩

private def Draft.openItem (draft : Draft) (path : List String) (key : String) :
    Option Draft :=
  (draft.tables.openItem path key).map fun tables => ⟨tables, path ++ [key]⟩

/-- One header or one assignment, with the rest of its line. -/
private def statement (fuel : Nat) (draft : Draft) (text : List Char) :
    Option (Draft × List Char) :=
  match text with
  | '[' :: '[' :: rest => do
      let ((path, key), rest) ← keyPath fuel rest
      let rest ← lineEnd (← expect ']' (← expect ']' rest))
      some (← draft.openItem path key, rest)
  | '[' :: rest => do
      let ((path, key), rest) ← keyPath fuel rest
      let rest ← lineEnd (← expect ']' rest)
      some (← draft.openTable path key, rest)
  | _ => do
      let ((path, key, v), rest) ← assignment (value fuel maxDepth) fuel text
      some (← draft.assign path key v, ← lineEnd rest)

private def statements : (fuel : Nat) → Draft → List Char → Option Draft
  | 0, _, _ => none
  | fuel + 1, draft, text =>
      match skipLines (fuel + 1) text with
      | [] => some draft
      | '#' :: rest => if (rest.dropWhile isVisible).isEmpty then some draft else none
      | text => do
          let (draft, rest) ← statement (fuel + 1) draft text
          statements fuel draft rest

private def withoutMark : List Char → List Char
  | '\uFEFF' :: text => text
  | text => text

/-- The entries of a whole document; a byte order mark before it does not count. -/
def parse? (text : List Char) : Option (List (String × Toml)) :=
  let text := withoutMark text
  (statements (text.length + 1) .start text).map fun draft => tomlEntries draft.tables

end ScriptCoverage.Toml
