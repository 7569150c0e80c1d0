import ScriptCoverage.Text.Hex

/-!
Text in double quotes, for messages. A quote and a backslash get a backslash, a few
controls have names, and characters that would not show are written by number.
-/

namespace ScriptCoverage.Quoted

/-- Ranges of characters that do not show: controls, blanks other than the space,
format characters, characters for private use, and some of the marks that join the
character before them. -/
private def hiddenRanges : List (Nat × Nat) := [
  (0x00, 0x1F), (0x7F, 0xA0), (0xAD, 0xAD), (0x300, 0x36F), (0x600, 0x605), (0x61C, 0x61C),
  (0x6DD, 0x6DD), (0x70F, 0x70F), (0x890, 0x891), (0x8E2, 0x8E2), (0x1680, 0x1680),
  (0x180E, 0x180E), (0x2000, 0x200F), (0x2028, 0x202F), (0x205F, 0x206F), (0x3000, 0x3000),
  (0xE000, 0xF8FF), (0xFE00, 0xFE0F), (0xFEFF, 0xFEFF), (0xFFF9, 0xFFFB),
  (0x110BD, 0x110BD), (0x110CD, 0x110CD), (0x13430, 0x1343F), (0x1BCA0, 0x1BCA3),
  (0x1D173, 0x1D17A), (0xE0000, 0x10FFFF)]

/-- Whether a character is written by number. This approximates the characters that do not
show: of the marks with the property Grapheme_Extend only those from U+0300 to U+036F, from
U+FE00 to U+FE0F and above U+E0000 are hidden, and an unassigned character below U+E0000
is not, since each version of Unicode assigns others. Other marks, such as U+0483 or U+20D0,
stand in the text as they are. -/
def isHidden (c : Char) : Bool :=
  hiddenRanges.any fun (first, last) => first ≤ c.toNat && c.toNat ≤ last

def escape (c : Char) : List Char :=
  match c with
  | '"' => ['\\', '"']
  | '\\' => ['\\', '\\']
  | '\t' => ['\\', 't']
  | '\r' => ['\\', 'r']
  | '\n' => ['\\', 'n']
  | '\x00' => ['\\', '0']
  | c =>
      if isHidden c then '\\' :: 'u' :: '\x7b' :: Hex.padded 1 c.toNat ++ ['\x7d'] else [c]

def encode (text : List Char) : List Char :=
  '"' :: text.flatMap escape ++ ['"']

def quote (text : String) : String :=
  String.ofList (encode text.toList)

end ScriptCoverage.Quoted
