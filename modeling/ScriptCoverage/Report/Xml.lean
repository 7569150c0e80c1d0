/-!
XML elements and their text, one element on a line and two blanks for each level.
The five characters with a meaning of their own are written as entities in every
attribute and text, so that no content can end an attribute or open an element.
-/

namespace ScriptCoverage.Xml

def escapeChar (c : Char) : List Char :=
  match c with
  | '&' => "&amp;".toList
  | '<' => "&lt;".toList
  | '>' => "&gt;".toList
  | '"' => "&quot;".toList
  | '\'' => "&apos;".toList
  | c => [c]

def escape (text : List Char) : List Char :=
  text.flatMap escapeChar

abbrev Attribute := String × List Char

inductive Element where
  | leaf (tag : String) (attributes : List Attribute)
  | text (tag : String) (content : List Char)
  | group (tag : String) (attributes : List Attribute) (children : List Element)

def attributeChars (entry : Attribute) : List Char :=
  ' ' :: entry.1.toList ++ "=\"".toList ++ escape entry.2 ++ ['"']

def openChars (tag : String) (attributes : List Attribute) : List Char :=
  '<' :: tag.toList ++ attributes.flatMap attributeChars

def closeChars (tag : String) : List Char :=
  "</".toList ++ tag.toList ++ ['>', '\n']

def indentation (level : Nat) : List Char :=
  List.replicate (2 * level) ' '

mutual

def Element.chars (level : Nat) : Element → List Char
  | .leaf tag attributes =>
      indentation level ++ openChars tag attributes ++ ['/', '>', '\n']
  | .text tag content =>
      indentation level ++ openChars tag [] ++ '>' :: escape content ++ closeChars tag
  | .group tag attributes children =>
      indentation level ++ openChars tag attributes ++ ['>', '\n'] ++
        Element.listChars (level + 1) children ++ indentation level ++ closeChars tag

def Element.listChars (level : Nat) : List Element → List Char
  | [] => []
  | element :: elements => element.chars level ++ Element.listChars level elements

end

end ScriptCoverage.Xml
