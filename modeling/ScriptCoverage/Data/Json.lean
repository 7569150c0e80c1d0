import ScriptCoverage.Text.Hex
import ScriptCoverage.Text.Scientific

/-!
JSON values. A number keeps apart whether it was written as a whole number, since
a field that counts refuses `1.0`. Fields keep the order in which they were
written; of a repeated name the last field counts.
-/

namespace ScriptCoverage

namespace Json

/-- `fraction` is any number written with a point, an exponent or a minus sign
before a zero. -/
inductive Number where
  | natural (n : Nat)
  | negative (n : Nat)
  | fraction (n : Scientific)
  deriving DecidableEq

end Json

inductive Json where
  | null
  | bool (b : Bool)
  | number (n : Json.Number)
  | string (s : String)
  | array (items : List Json)
  | object (fields : List (String × Json))

namespace Json

def field? (json : Json) (name : String) : Option Json :=
  match json with
  | .object fields => fields.reverse.lookup name
  | _ => none

def string? : Json → Option String
  | .string s => some s
  | _ => none

def array? : Json → Option (List Json)
  | .array items => some items
  | _ => none

def ofNat (n : Nat) : Json :=
  .number (.natural n)

private def escape (c : Char) : List Char :=
  match c with
  | '"' => ['\\', '"']
  | '\\' => ['\\', '\\']
  | '\n' => ['\\', 'n']
  | '\r' => ['\\', 'r']
  | '\t' => ['\\', 't']
  | '\x08' => ['\\', 'b']
  | '\x0c' => ['\\', 'f']
  | c => if c.val < 0x20 then '\\' :: 'u' :: Hex.padded 4 c.toNat else [c]

def quote (s : String) : List Char :=
  '"' :: s.toList.flatMap escape ++ ['"']

private def numberText : Number → List Char
  | .natural n => Decimal.digits n
  | .negative n => '-' :: Decimal.digits n
  | .fraction n => floatChars n.toFloat

private def newline (indent : Nat) : List Char :=
  '\n' :: List.replicate (2 * indent) ' '

mutual

/-- The text over several lines, two blanks for each level. -/
def pretty (indent : Nat) : Json → List Char
  | .null => "null".toList
  | .bool b => (toString b).toList
  | .number n => numberText n
  | .string s => quote s
  | .array [] => ['[', ']']
  | .array (item :: items) =>
      '[' :: newline (indent + 1) ++ pretty (indent + 1) item ++
        prettyItems (indent + 1) items ++ newline indent ++ [']']
  | .object [] => ['{', '}']
  | .object ((name, value) :: fields) =>
      '{' :: newline (indent + 1) ++ quote name ++ [':', ' '] ++ pretty (indent + 1) value ++
        prettyFields (indent + 1) fields ++ newline indent ++ ['}']

def prettyItems (indent : Nat) : List Json → List Char
  | [] => []
  | item :: items => ',' :: newline indent ++ pretty indent item ++ prettyItems indent items

def prettyFields (indent : Nat) : List (String × Json) → List Char
  | [] => []
  | (name, value) :: fields =>
      ',' :: newline indent ++ quote name ++ [':', ' '] ++ pretty indent value ++
        prettyFields indent fields

end

end Json

end ScriptCoverage
