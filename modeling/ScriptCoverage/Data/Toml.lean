import ScriptCoverage.Text.Quoted
import ScriptCoverage.Text.Scientific

/-!
TOML values, and the text in which a message shows one: the kind of the value with
its content in parentheses, the entries of a table by ascending key.
-/

namespace ScriptCoverage

namespace Toml

structure Date where
  year : Nat
  month : Nat
  day : Nat
  deriving DecidableEq

structure Time where
  hour : Nat
  minute : Nat
  second : Nat
  nanosecond : Nat
  deriving DecidableEq

/-- The distance of a local time from universal time, east of it positive. -/
inductive Offset where
  | universal
  | minutes (east : Int)
  deriving DecidableEq

/-- A date, a time of day, or both; an offset only with both. -/
structure Moment where
  date : Option Date
  time : Option Time
  offset : Option Offset
  deriving DecidableEq

end Toml

inductive Toml where
  | string (s : String)
  | integer (n : Int)
  | float (x : Float)
  | boolean (b : Bool)
  | moment (m : Toml.Moment)
  | array (items : List Toml)
  | table (entries : List (String × Toml))

namespace Toml

def entry? (toml : Toml) (key : String) : Option Toml :=
  match toml with
  | .table entries => entries.lookup key
  | _ => none

def string? : Toml → Option String
  | .string s => some s
  | _ => none

def array? : Toml → Option (List Toml)
  | .array items => some items
  | _ => none

private def showOption {α : Type} (text : α → String) : Option α → String
  | some a => "Some(" ++ text a ++ ")"
  | none => "None"

private def record (name : String) (fields : List (String × String)) : String :=
  name ++ " \x7b " ++ String.intercalate ", " (fields.map fun (f, v) => f ++ ": " ++ v) ++ " \x7d"

private def natText (n : Nat) : String :=
  String.ofList (Decimal.digits n)

private def intText (n : Int) : String :=
  (if n < 0 then "-" else "") ++ natText n.natAbs

private def Date.text (d : Date) : String :=
  record "Date" [("year", natText d.year), ("month", natText d.month), ("day", natText d.day)]

private def Time.text (t : Time) : String :=
  record "Time" [("hour", natText t.hour), ("minute", natText t.minute),
    ("second", natText t.second), ("nanosecond", natText t.nanosecond)]

private def Offset.text : Offset → String
  | .universal => "Z"
  | .minutes east => record "Custom" [("minutes", intText east)]

private def Moment.text (m : Moment) : String :=
  record "Datetime" [("date", showOption Date.text m.date),
    ("time", showOption Time.text m.time), ("offset", showOption Offset.text m.offset)]

private def entryText (entry : String × String) : String :=
  Quoted.quote entry.1 ++ ": " ++ entry.2

mutual

def text : Toml → String
  | .string s => "String(" ++ Quoted.quote s ++ ")"
  | .integer n => "Integer(" ++ intText n ++ ")"
  | .float x => "Float(" ++ String.ofList (floatChars x) ++ ")"
  | .boolean b => "Boolean(" ++ (if b then "true" else "false") ++ ")"
  | .moment m => "Datetime(" ++ m.text ++ ")"
  | .array items => "Array([" ++ String.intercalate ", " (itemTexts items) ++ "])"
  | .table entries =>
      let shown := (entryTexts entries).mergeSort fun x y => x.1 ≤ y.1
      "Table(\x7b" ++ String.intercalate ", " (shown.map entryText) ++ "\x7d)"

def itemTexts : List Toml → List String
  | [] => []
  | item :: items => item.text :: itemTexts items

def entryTexts : List (String × Toml) → List (String × String)
  | [] => []
  | (key, value) :: entries => (key, value.text) :: entryTexts entries

end

end Toml

end ScriptCoverage
