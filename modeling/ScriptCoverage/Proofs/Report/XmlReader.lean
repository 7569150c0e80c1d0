import ScriptCoverage.Report.Xml

/-!
A reader of XML text. It takes one character after the other and keeps the elements that
are open. Attributes stand in double quotes, the five predefined entities are decoded,
declarations are skipped, and no blank is dropped or changed. A text is refused when a tag
is malformed, an attribute is repeated, an entity has no meaning, a tag closes another
element than the last that was opened, or something is left open.
-/

namespace ScriptCoverage.Xml

/-- What stands in a document: elements, and text one character after the other. -/
inductive Node where
  | char (c : Char)
  | element (tag : String) (attributes : List Attribute) (content : List Node)

def isSpace (c : Char) : Bool :=
  c == ' ' || c == '\t' || c == '\r' || c == '\n'

def isNameStart (c : Char) : Bool :=
  c.isAlpha || c == '_' || c == ':' || 0x80 ≤ c.val

def isNameChar (c : Char) : Bool :=
  isNameStart c || c.isDigit || c == '-' || c == '.'

/-- The predefined entities by their names. -/
def entity? (name : List Char) : Option Char :=
  if name = "amp".toList then some '&'
  else if name = "lt".toList then some '<'
  else if name = "gt".toList then some '>'
  else if name = "quot".toList then some '"'
  else if name = "apos".toList then some '\''
  else none

/-- As much of a start tag as has been read. -/
structure Head where
  tag : String
  attributes : List Attribute

def Head.add? (head : Head) (name : String) (value : List Char) : Option Head :=
  if name ∈ head.attributes.map (·.1) then none
  else some { head with attributes := head.attributes ++ [(name, value)] }

/-- An open element, and what its parent holds in front of it. -/
structure Frame where
  head : Head
  before : List Node

/-- Where a reader stands. -/
inductive Place where
  | content
  /-- Behind the bracket that starts a tag or a declaration. -/
  | bracket
  | declaration
  | startTag (name : List Char)
  | endTag (name : List Char)
  /-- Behind a part of a start tag. A further attribute needs a blank in front of it. -/
  | head (head : Head) (apart : Bool)
  | attributeName (head : Head) (name : List Char)
  | quote (head : Head) (name : String)
  | value (head : Head) (name : String) (value : List Char)
  /-- Behind the slash of a start tag that closes itself. -/
  | slash (head : Head)

structure Reader where
  /-- The open elements, the innermost first. -/
  frames : List Frame
  /-- What the innermost open element holds so far. -/
  content : List Node
  place : Place
  /-- The name of an entity as far as it has been read, inside one. -/
  entity : Option (List Char)

namespace Reader

def start : Reader := ⟨[], [], .content, none⟩

def goTo (reader : Reader) (place : Place) : Reader :=
  { reader with place }

/-- Goes on behind an element. -/
def push (reader : Reader) (head : Head) (content : List Node) : Reader :=
  { reader with
    content := reader.content ++ [.element head.tag head.attributes content]
    place := .content }

def openElement (reader : Reader) (head : Head) : Reader :=
  { reader with
    frames := ⟨head, reader.content⟩ :: reader.frames
    content := []
    place := .content }

/-- The tag has to name the innermost open element. -/
def closeElement (reader : Reader) (name : List Char) : Option Reader :=
  match reader.frames with
  | [] => none
  | frame :: frames =>
      if frame.head.tag.toList = name then
        some ({ reader with frames, content := frame.before }.push frame.head reader.content)
      else none

/-- A character that is no markup: part of a text or of the value of an attribute. -/
def data (reader : Reader) (c : Char) : Option Reader :=
  match reader.place with
  | .content => some { reader with content := reader.content ++ [.char c] }
  | .value head name value => some (reader.goTo (.value head name (value ++ [c])))
  | _ => none

/-- A character between the attributes of a start tag. -/
def inHead (reader : Reader) (head : Head) (apart : Bool) (c : Char) : Option Reader :=
  if c = '>' then some (reader.openElement head)
  else if c = '/' then some (reader.goTo (.slash head))
  else if isSpace c then some (reader.goTo (.head head true))
  else if apart && isNameStart c then some (reader.goTo (.attributeName head [c]))
  else none

/-- A character behind the bracket that starts a tag. -/
def inBracket (reader : Reader) (c : Char) : Option Reader :=
  if c = '/' then some (reader.goTo (.endTag []))
  else if isNameStart c then some (reader.goTo (.startTag [c]))
  else if reader.frames.isEmpty && (c == '?' || c == '!') then some (reader.goTo .declaration)
  else none

/-- A character that is not part of an entity. -/
def plain (reader : Reader) (c : Char) : Option Reader :=
  match reader.place with
  | .content => if c = '<' then some (reader.goTo .bracket) else reader.data c
  | .bracket => reader.inBracket c
  | .declaration => some (if c = '>' then reader.goTo .content else reader)
  | .startTag name =>
      if isNameChar c then some (reader.goTo (.startTag (name ++ [c])))
      else reader.inHead ⟨String.ofList name, []⟩ false c
  | .endTag name =>
      if isNameChar c then some (reader.goTo (.endTag (name ++ [c])))
      else if c = '>' then reader.closeElement name
      else none
  | .head head apart => reader.inHead head apart c
  | .attributeName head name =>
      if isNameChar c then some (reader.goTo (.attributeName head (name ++ [c])))
      else if c = '=' then some (reader.goTo (.quote head (String.ofList name)))
      else none
  | .quote head name => if c = '"' then some (reader.goTo (.value head name [])) else none
  | .value head name value =>
      if c = '"' then (head.add? name value).map fun head => reader.goTo (.head head false)
      else if c = '<' then none
      else reader.data c
  | .slash head => if c = '>' then some (reader.push head []) else none

def step (reader : Reader) (c : Char) : Option Reader :=
  match reader.entity with
  | none => if c = '&' then some { reader with entity := some [] } else reader.plain c
  | some name =>
      if c = ';' then (entity? name).bind { reader with entity := none }.data
      else some { reader with entity := some (name ++ [c]) }

def run (reader : Reader) (text : List Char) : Option Reader :=
  text.foldlM step reader

/-- What has been read, if nothing is open. -/
def finish? (reader : Reader) : Option (List Node) :=
  match reader with
  | ⟨[], content, .content, none⟩ => some content
  | _ => none

end Reader

def Node.isBlank : Node → Bool
  | .char c => isSpace c
  | .element .. => false

/-- The root element of a document, which holds nothing else but blanks. -/
def root? (text : List Char) : Option Node := do
  let nodes ← (← Reader.start.run text).finish?
  match nodes.filter fun node => !node.isBlank with
  | [.element tag attributes content] => some (.element tag attributes content)
  | _ => none

end ScriptCoverage.Xml
