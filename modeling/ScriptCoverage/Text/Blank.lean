/-!
Blanks, words and lines of a text. A blank is a character with the Unicode
property White_Space. Every reader of this library that skips blanks uses this
one class, so that a no-break space separates two words just as a space does.
-/

namespace ScriptCoverage.Text

/-- The Unicode property White_Space. -/
def isBlank (c : Char) : Bool :=
  (9 ≤ c.val && c.val ≤ 13) || c.val == 0x20 || c.val == 0x85 || c.val == 0xA0 ||
    c.val == 0x1680 || (0x2000 ≤ c.val && c.val ≤ 0x200A) || c.val == 0x2028 ||
    c.val == 0x2029 || c.val == 0x202F || c.val == 0x205F || c.val == 0x3000

def dropTrailing (p : Char → Bool) (text : List Char) : List Char :=
  (text.reverse.dropWhile p).reverse

def trimStart (text : List Char) : List Char :=
  text.dropWhile isBlank

def trim (text : List Char) : List Char :=
  dropTrailing isBlank (trimStart text)

/-- The maximal runs of characters that are not blanks. -/
def words (text : List Char) : List (List Char) :=
  (text.splitOnP isBlank).filter fun word => !word.isEmpty

def withoutReturn (line : List Char) : List Char :=
  match line.getLast? with
  | some '\r' => line.dropLast
  | _ => line

/-- A line ends with a newline, with or without a carriage return before it. The
last line needs no end; without one it keeps its carriage return. -/
def lines (text : List Char) : List (List Char) :=
  let parts := text.splitOn '\n'
  let last := parts.getLast?.getD []
  parts.dropLast.map withoutReturn ++ if last.isEmpty then [] else [last]

/-- Lower case of the letters a to z; every other character is kept. -/
def toLowerAscii (text : List Char) : List Char :=
  text.map Char.toLower

/-- The parts before and after the first `mark`. -/
def splitFirst (mark : Char) (text : List Char) : Option (List Char × List Char) :=
  match text.dropWhile (· != mark) with
  | [] => none
  | _ :: after => some (text.takeWhile (· != mark), after)

/-- The parts before and after the last `mark`. -/
def splitLast (mark : Char) (text : List Char) : Option (List Char × List Char) :=
  (splitFirst mark text.reverse).map fun (after, before) =>
    (before.reverse, after.reverse)

end ScriptCoverage.Text
