import ScriptCoverage.Data.Toml

/-!
The tables of a TOML document while it is read. What may still be added to a table
depends on how it came to be: a table with a header of its own is closed to other
headers and to dotted keys, one that only led to another table may yet get a header,
and one made by dotted keys takes more of them. An array or a table written as a
value is complete.
-/

namespace ScriptCoverage.Toml

inductive Origin where
  | header
  | passage
  | dotted
  deriving DecidableEq

inductive Node where
  | value (v : Toml)
  | table (origin : Origin) (entries : List (String × Node))
  /-- Tables that share a header in double brackets. -/
  | tables (items : List (List (String × Node)))

abbrev Entries := List (String × Node)

namespace Entries

/-- Replaces or adds one entry; the change may refuse what is there. -/
private def update (key : String) (change : Option Node → Option Node) :
    Entries → Option Entries
  | [] => (change none).map fun node => [(key, node)]
  | (k, node) :: rest =>
      if k = key then (change (some node)).map fun node => (k, node) :: rest
      else (update key change rest).map ((k, node) :: ·)

/-- Changes the table at a path, and makes the tables that are missing on the way.
Of tables that share a header the last one is meant. -/
def atPath (origin : Origin) (isDotted : Bool) (change : Origin → Entries → Option Entries) :
    (path : List String) → Entries → Option Entries
  | [], entries => change origin entries
  | key :: path, entries =>
      let missing := if isDotted then Origin.dotted else .passage
      update key (fun
        | none => (atPath missing isDotted change path []).map (.table missing)
        | some (.table origin inner) =>
            if isDotted && origin = .header then none
            else (atPath origin isDotted change path inner).map (.table origin)
        | some (.tables items) =>
            match items.getLast? with
            | none => none
            | some last =>
                (atPath .header isDotted change path last).map fun inner =>
                  .tables (items.dropLast ++ [inner])
        | some (.value _) => none) entries

private def insertNew (key : String) (value : Toml) : Entries → Option Entries :=
  update key fun
    | none => some (.value value)
    | some _ => none

/-- Adds `path.key = value` to a table. The path must end in a table of dotted keys. -/
def insertDotted (path : List String) (key : String) (value : Toml) :
    Entries → Option Entries :=
  atPath .header true (fun origin inner =>
    if path.isEmpty || origin = .dotted then insertNew key value inner else none) path

/-- Adds `path.key = value` under a header. -/
def insertUnder (header path : List String) (key : String) (value : Toml) :
    Entries → Option Entries :=
  atPath .header false (fun _ inner => insertDotted path key value inner) header

/-- The header `[path.key]`. -/
def openTable (path : List String) (key : String) : Entries → Option Entries :=
  atPath .header false (fun _ inner => update key (fun
    | none => some (.table .header [])
    | some (.table .passage inner) => some (.table .header inner)
    | some _ => none) inner) path

/-- The header `[[path.key]]`. -/
def openItem (path : List String) (key : String) : Entries → Option Entries :=
  atPath .header false (fun _ inner => update key (fun
    | none => some (.tables [[]])
    | some (.tables items) => some (.tables (items ++ [[]]))
    | some _ => none) inner) path

end Entries

mutual

def Node.toToml : Node → Toml
  | .value v => v
  | .table _ entries => .table (tomlEntries entries)
  | .tables items => .array (tomlItems items)

def tomlEntries : List (String × Node) → List (String × Toml)
  | [] => []
  | (key, node) :: rest => (key, node.toToml) :: tomlEntries rest

def tomlItems : List (List (String × Node)) → List Toml
  | [] => []
  | entries :: rest => .table (tomlEntries entries) :: tomlItems rest

end

end ScriptCoverage.Toml
