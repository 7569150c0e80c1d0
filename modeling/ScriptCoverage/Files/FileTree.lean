import ScriptCoverage.Data.OrderedMap
import ScriptCoverage.Files.Path

/-!
A tree of files as a value: which names, seen from the root, are files and which are
directories. Paths are followed as a file system does it: every part but the last
must be a directory, and a path that leaves the root leads nowhere.
-/

namespace ScriptCoverage

/-- Names from the root down. -/
abbrev Location := List String

inductive FileNode where
  | file (bytes : List UInt8)
  | directory
  deriving DecidableEq

structure FileTree where
  nodes : OrderedMap Location FileNode

namespace FileTree

def empty : FileTree := ⟨∅⟩

/-- The longest name, in bytes. -/
def maxName : Nat := 255

def isValidName (name : String) : Bool :=
  name.utf8ByteSize ≤ maxName && !name.toList.contains '\x00'

def node? (tree : FileTree) (location : Location) : Option FileNode :=
  if location.isEmpty then some .directory else tree.nodes.get? location

def set (tree : FileTree) (location : Location) (node : FileNode) : FileTree :=
  ⟨tree.nodes.insert location node⟩

/-- Follows the parts of a path from a location on. -/
def follow? (tree : FileTree) : Location → List Path.Part → Option Location
  | here, [] => some here
  | here, part :: parts =>
      if tree.node? here ≠ some .directory then none
      else
        match part with
        | .root => none
        | .current => follow? tree here parts
        | .parent => if here.isEmpty then none else follow? tree here.dropLast parts
        | .name s => if isValidName s then follow? tree (here ++ [s]) parts else none

/-- Where a path leads; there need not be anything yet. -/
def locate? (tree : FileTree) (path : Path) : Option Location :=
  if path.text.isEmpty then none else follow? tree [] path.parts

/-- What a path names. A path that does not end in a name can only be a directory. -/
def lookup? (tree : FileTree) (path : Path) : Option FileNode :=
  match (tree.locate? path).bind tree.node? with
  | some (.file bytes) => if path.endsInName then some (.file bytes) else none
  | node => node

def content? (tree : FileTree) (path : Path) : Option (List UInt8) :=
  match tree.lookup? path with
  | some (.file bytes) => some bytes
  | _ => none

/-- The names of the files of a directory. -/
def fileNames? (tree : FileTree) (path : Path) : Option (List String) :=
  match tree.lookup? path, tree.locate? path with
  | some .directory, some here =>
      some (tree.nodes.entries.filterMap fun (location, node) =>
        match node, location.getLast? with
        | .file _, some name => if location = here ++ [name] then some name else none
        | _, _ => none)
  | _, _ => none

def grow? : FileTree → Location → List Path.Part → Option FileTree
  | tree, _, [] => some tree
  | _, _, .root :: _ => none
  | tree, here, .current :: parts => grow? tree here parts
  | tree, here, .parent :: parts =>
      if here.isEmpty then none else grow? tree here.dropLast parts
  | tree, here, .name s :: parts =>
      let there := here ++ [s]
      match tree.node? there with
      | some .directory => grow? tree there parts
      | some (.file _) => none
      | none => if isValidName s then grow? (tree.set there .directory) there parts else none

/-- The tree with all directories of a path, unless a file is in the way. -/
def makeDirectories? (tree : FileTree) (path : Path) : Option FileTree :=
  grow? tree [] path.parts

/-- The tree with a new content in a file of an existing directory. -/
def write? (tree : FileTree) (path : Path) (bytes : List UInt8) : Option FileTree :=
  match tree.locate? path with
  | none => none
  | some location =>
      match location.getLast? with
      | none => none
      | some _ =>
          if !path.endsInName || tree.node? location.dropLast ≠ some .directory
              || tree.node? location = some .directory then none
          else some (tree.set location (.file bytes))

/-- The tree without one file. -/
def remove (tree : FileTree) (path : Path) : FileTree :=
  match tree.locate? path with
  | some location => ⟨tree.nodes.erase location⟩
  | none => tree

/-- All files, by ascending location. -/
def files (tree : FileTree) : List (Location × List UInt8) :=
  tree.nodes.entries.filterMap fun (location, node) =>
    match node with
    | .file bytes => some (location, bytes)
    | .directory => none

end FileTree

end ScriptCoverage
