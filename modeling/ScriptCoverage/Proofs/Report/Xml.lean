import Mathlib.Data.List.Nodup
import ScriptCoverage.Proofs.Report.XmlEscape

/-!
Elements are read back from their text. The reader takes the text of an element from one
place of a document to the place behind it, and holds the element's node by then, whatever
its attributes and texts contain.
-/

namespace ScriptCoverage.Xml

/-- The name of an element or of an attribute. -/
def IsName (name : String) : Prop :=
  ∃ first rest, name.toList = first :: rest ∧ isNameStart first = true ∧
    ∀ c ∈ rest, isNameChar c = true

instance (name : String) : Decidable (IsName name) :=
  match h : name.toList with
  | [] => .isFalse fun ⟨_, _, hname, _⟩ => by simp [h] at hname
  | first :: rest =>
      decidable_of_iff (isNameStart first = true ∧ rest.all isNameChar = true) (by
        rw [List.all_eq_true]
        constructor
        · intro hname
          exact ⟨first, rest, h, hname⟩
        · rintro ⟨first', rest', hname, hchars⟩
          obtain ⟨rfl, rfl⟩ := List.cons.inj (h.symm.trans hname)
          exact hchars)

/-- Attributes with proper names, no two of them alike. -/
structure AreAttributes (attributes : List Attribute) : Prop where
  names : ∀ entry ∈ attributes, IsName entry.1
  distinct : (attributes.map (·.1)).Nodup

mutual

/-- An element whose tags and attributes have proper names, at every depth. -/
def Element.IsProper : Element → Prop
  | .leaf tag attributes => IsName tag ∧ AreAttributes attributes
  | .text tag _ => IsName tag
  | .group tag attributes children =>
      IsName tag ∧ AreAttributes attributes ∧ Element.AreProper children

def Element.AreProper : List Element → Prop
  | [] => True
  | element :: elements => element.IsProper ∧ Element.AreProper elements

end

def blanks (level : Nat) : List Node :=
  (indentation level).map .char

mutual

/-- What the text of an element is read as: its attributes and text as they are, and its
children with the line breaks and the indentation around them. -/
def Element.node (level : Nat) : Element → Node
  | .leaf tag attributes => .element tag attributes []
  | .text tag content => .element tag [] (content.map .char)
  | .group tag attributes children =>
      .element tag attributes
        (.char '\n' :: Element.listNodes (level + 1) children ++ blanks level)

def Element.listNodes (level : Nat) : List Element → List Node
  | [] => []
  | element :: elements =>
      blanks level ++ element.node level :: .char '\n' :: Element.listNodes level elements

end

/-- No character that means something in a tag is part of a name. -/
theorem not_mem_markup_of_isNameChar {c : Char} (h : isNameChar c = true) :
    c ∉ ['&', '>', '/', '=', ' ', '\t', '\r', '\n'] := by
  intro hc
  have hmarkup : ['&', '>', '/', '=', ' ', '\t', '\r', '\n'].all (!isNameChar ·) = true := by
    decide
  have hnot := List.all_eq_true.mp hmarkup c hc
  rw [h] at hnot
  cases hnot

theorem isNameChar_of_isNameStart {c : Char} (h : isNameStart c = true) : isNameChar c = true := by
  simp [isNameChar, h]

namespace Reader

variable {frames : List Frame} {nodes : List Node} {head : Head}

theorem run_cons (reader : Reader) (c : Char) (rest : List Char) :
    reader.run (c :: rest) = (reader.step c).bind (·.run rest) :=
  List.foldlM_cons

theorem run_append {reader middle : Reader} {first : List Char}
    (h : reader.run first = some middle) (rest : List Char) :
    reader.run (first ++ rest) = middle.run rest := by
  rw [run, List.foldlM_append]
  exact congrArg (· >>= _) h

theorem step_of_ne {reader : Reader} (hentity : reader.entity = none) {c : Char}
    (hc : c ≠ '&') : reader.step c = reader.plain c := by
  rw [step, hentity, if_neg hc]

/-- The name of an entity is read up to the semicolon. -/
theorem run_entityName {reader : Reader} {read name : List Char}
    (hentity : reader.entity = some read) (hname : ';' ∉ name) :
    reader.run name = some { reader with entity := some (read ++ name) } := by
  induction name generalizing reader read with
  | nil =>
      obtain ⟨frames, nodes, place, entity⟩ := reader
      cases hentity
      rw [List.append_nil]
      rfl
  | cons c rest ih =>
      rw [List.mem_cons, not_or] at hname
      obtain ⟨hc, hrest⟩ := hname
      have hstep : reader.step c = some { reader with entity := some (read ++ [c]) } := by
        rw [step, hentity]
        exact if_neg (Ne.symm hc)
      rw [run_cons, hstep, Option.bind_some, ih rfl hrest, List.append_assoc,
        List.singleton_append]

/-- A reference to an entity is read as the character of the entity. -/
theorem run_reference {reader after : Reader} (hentity : reader.entity = none) {name : List Char}
    {c : Char} (hname : entity? name = some c) (hplain : ';' ∉ name)
    (hdata : reader.data c = some after) :
    reader.run ('&' :: name ++ [';']) = some after := by
  have hstart : reader.step '&' = some { reader with entity := some [] } := by
    rw [step, hentity]
    rfl
  have hend : { reader with entity := some name }.step ';' = some after := by
    obtain ⟨frames, nodes, place, entity⟩ := reader
    cases hentity
    change (entity? name).bind _ = some after
    rw [hname, Option.bind_some]
    exact hdata
  rw [List.cons_append, run_cons, hstart, Option.bind_some, run_append (run_entityName rfl hplain),
    List.nil_append, run_cons, hend]
  rfl

/-- Characters without a meaning in markup are read as they are. -/
theorem plain_eq_data {reader after : Reader} {c : Char} (hdata : reader.data c = some after)
    (hopen : c ≠ '<') (hquote : c ≠ '"') : reader.plain c = some after := by
  obtain ⟨frames, nodes, place, entity⟩ := reader
  cases place with
  | content =>
      simp only [plain, if_neg hopen]
      exact hdata
  | value head name value =>
      simp only [plain, if_neg hquote, if_neg hopen]
      exact hdata
  | bracket => cases hdata
  | declaration => cases hdata
  | startTag name => cases hdata
  | endTag name => cases hdata
  | head head apart => cases hdata
  | attributeName head name => cases hdata
  | quote head name => cases hdata
  | slash head => cases hdata

/-- A character is read from its escaped form wherever it can stand. -/
theorem run_escapeChar {reader after : Reader} (hentity : reader.entity = none) {c : Char}
    (hdata : reader.data c = some after) : reader.run (escapeChar c) = some after := by
  rcases escapeChar_cases c with ⟨name, hname, hchars⟩ | ⟨hplain, hchars⟩
  · have hsemicolon : ';' ∉ name := notMem_of_entity?_eq_some hname _ List.mem_cons_self
    rw [hchars]
    exact run_reference hentity hname hsemicolon hdata
  · simp only [List.mem_cons, List.not_mem_nil, or_false, not_or] at hplain
    obtain ⟨hamp, hopen, -, hquote, -⟩ := hplain
    rw [hchars, run_cons, step_of_ne hentity hamp, plain_eq_data hdata hopen hquote]
    rfl

theorem run_escape_content (frames : List Frame) (nodes : List Node) (text : List Char) :
    (⟨frames, nodes, .content, none⟩ : Reader).run (escape text) =
      some ⟨frames, nodes ++ text.map .char, .content, none⟩ := by
  induction text generalizing nodes with
  | nil =>
      rw [List.map_nil, List.append_nil]
      rfl
  | cons c rest ih =>
      have hchar : (⟨frames, nodes, .content, none⟩ : Reader).run (escapeChar c) =
          some ⟨frames, nodes ++ [.char c], .content, none⟩ := run_escapeChar rfl rfl
      rw [escape_cons, run_append hchar]
      exact (ih _).trans (by simp)

theorem run_escape_value (frames : List Frame) (nodes : List Node) (head : Head) (name : String)
    (read text : List Char) :
    (⟨frames, nodes, .value head name read, none⟩ : Reader).run (escape text) =
      some ⟨frames, nodes, .value head name (read ++ text), none⟩ := by
  induction text generalizing read with
  | nil =>
      rw [List.append_nil]
      rfl
  | cons c rest ih =>
      have hchar : (⟨frames, nodes, .value head name read, none⟩ : Reader).run (escapeChar c) =
          some ⟨frames, nodes, .value head name (read ++ [c]), none⟩ := run_escapeChar rfl rfl
      rw [escape_cons, run_append hchar]
      exact (ih _).trans (by simp)

/-- The blanks in front of an element are kept as text. -/
theorem run_indentation (frames : List Frame) (nodes : List Node) (level : Nat) :
    (⟨frames, nodes, .content, none⟩ : Reader).run (indentation level) =
      some ⟨frames, nodes ++ blanks level, .content, none⟩ := by
  have hescape : escape (indentation level) = indentation level := by
    have hblank : ∀ c ∈ indentation level, escapeChar c = [c] := by
      intro c hc
      rw [List.eq_of_mem_replicate hc]
      rfl
    rw [escape, List.flatMap_congr hblank]
    exact List.flatMap_singleton' _
  rw [← hescape, run_escape_content]
  rfl

/-- A place that collects the characters of a name. -/
theorem run_nameChars {place : List Char → Place}
    (hplace : ∀ read c, isNameChar c = true →
      (⟨frames, nodes, place read, none⟩ : Reader).plain c =
        some ⟨frames, nodes, place (read ++ [c]), none⟩)
    {read name : List Char} (hname : ∀ c ∈ name, isNameChar c = true) :
    (⟨frames, nodes, place read, none⟩ : Reader).run name =
      some ⟨frames, nodes, place (read ++ name), none⟩ := by
  induction name generalizing read with
  | nil =>
      rw [List.append_nil]
      rfl
  | cons c rest ih =>
      obtain ⟨hc, hrest⟩ := List.forall_mem_cons.mp hname
      have hne : c ≠ '&' := fun heq => not_mem_markup_of_isNameChar hc (by simp [heq])
      rw [run_cons, step_of_ne rfl hne, hplace read c hc, Option.bind_some, ih hrest,
        List.append_assoc, List.singleton_append]

/-- Behind a blank a start tag takes the next attribute. -/
theorem step_head_of_isNameStart {c : Char} (h : isNameStart c = true) :
    (⟨frames, nodes, .head head true, none⟩ : Reader).step c =
      some ⟨frames, nodes, .attributeName head [c], none⟩ := by
  have hmarkup := not_mem_markup_of_isNameChar (isNameChar_of_isNameStart h)
  simp only [List.mem_cons, List.not_mem_nil, or_false, not_or] at hmarkup
  obtain ⟨hamp, hclose, hslash, -, hspace⟩ := hmarkup
  have hnospace : isSpace c = false := by simp [isSpace, hspace]
  rw [step_of_ne rfl hamp]
  simp [plain, inHead, goTo, hclose, hslash, hnospace, h]

/-- A name that is not in use yet becomes an attribute with the value between the quotes. -/
theorem run_attributeChars {name : String} (hname : IsName name)
    (hfresh : name ∉ head.attributes.map (·.1)) (value : List Char) :
    (⟨frames, nodes, .head head false, none⟩ : Reader).run (attributeChars (name, value)) =
      some ⟨frames, nodes, .head ⟨head.tag, head.attributes ++ [(name, value)]⟩ false, none⟩ := by
  obtain ⟨first, rest, hchars, hfirst, hrest⟩ := hname
  have hopen : (⟨frames, nodes, .head head false, none⟩ : Reader).run [' ', first] =
      some ⟨frames, nodes, .attributeName head [first], none⟩ := by
    have hblank : (⟨frames, nodes, .head head false, none⟩ : Reader).step ' ' =
        some ⟨frames, nodes, .head head true, none⟩ := rfl
    rw [run_cons, hblank, Option.bind_some, run_cons, step_head_of_isNameStart hfirst]
    rfl
  have hcollect : (⟨frames, nodes, .attributeName head [first], none⟩ : Reader).run rest =
      some ⟨frames, nodes, .attributeName head name.toList, none⟩ := by
    rw [hchars]
    refine run_nameChars ?_ hrest
    intro read c hc
    simp only [plain, hc, if_true]
    rfl
  have hquote : (⟨frames, nodes, .attributeName head name.toList, none⟩ : Reader).run
      "=\"".toList = some ⟨frames, nodes, .value head name [], none⟩ := by
    have hmark : (⟨frames, nodes, .attributeName head name.toList, none⟩ : Reader).step '=' =
        some ⟨frames, nodes, .quote head (String.ofList name.toList), none⟩ := rfl
    change Reader.run _ ['=', '"'] = _
    rw [run_cons, hmark, String.ofList_toList]
    rfl
  have hend : (⟨frames, nodes, .value head name value, none⟩ : Reader).run ['"'] =
      some ⟨frames, nodes, .head ⟨head.tag, head.attributes ++ [(name, value)]⟩ false, none⟩ := by
    have hadd : head.add? name value = some ⟨head.tag, head.attributes ++ [(name, value)]⟩ :=
      if_neg hfresh
    change (((head.add? name value).map _).bind _) = _
    rw [hadd]
    rfl
  have hsplit : attributeChars (name, value) =
      [' ', first] ++ (rest ++ ("=\"".toList ++ (escape value ++ ['"']))) := by
    simp [attributeChars, hchars]
  rw [hsplit, run_append hopen, run_append hcollect, run_append hquote,
    run_append (run_escape_value _ _ _ _ _ _)]
  exact hend

/-- A start tag takes its attributes in turn, as long as no name comes twice. -/
theorem run_attributes {attributes : List Attribute}
    (hproper : ∀ entry ∈ attributes, IsName entry.1)
    (hdistinct : ((head.attributes ++ attributes).map (·.1)).Nodup) :
    (⟨frames, nodes, .head head false, none⟩ : Reader).run
        (attributes.flatMap attributeChars) =
      some ⟨frames, nodes, .head ⟨head.tag, head.attributes ++ attributes⟩ false, none⟩ := by
  induction attributes generalizing head with
  | nil =>
      rw [List.append_nil]
      rfl
  | cons entry rest ih =>
      obtain ⟨hname, hrest⟩ := List.forall_mem_cons.mp hproper
      rw [List.append_cons] at hdistinct ⊢
      have hfresh : entry.1 ∉ head.attributes.map (·.1) := by
        rw [List.map_append, List.map_append, List.nodup_append] at hdistinct
        have hfront := (List.nodup_append.mp hdistinct.1).2.2
        intro hmem
        exact hfront _ hmem _ List.mem_cons_self rfl
      rw [List.flatMap_cons, run_append (run_attributeChars hname hfresh entry.2)]
      exact ih hrest hdistinct

/-- Behind its name a start tag goes on as it does between two attributes. -/
theorem run_startTag {tag : String} {c : Char} (hname : isNameChar c = false) (hamp : c ≠ '&')
    (rest : List Char) :
    (⟨frames, nodes, .startTag tag.toList, none⟩ : Reader).run (c :: rest) =
      (⟨frames, nodes, .head ⟨tag, []⟩ false, none⟩ : Reader).run (c :: rest) := by
  have hstep : (⟨frames, nodes, .startTag tag.toList, none⟩ : Reader).step c =
      (⟨frames, nodes, .head ⟨tag, []⟩ false, none⟩ : Reader).step c := by
    rw [step_of_ne rfl hamp, step_of_ne rfl hamp]
    simp [plain, inHead, goTo, openElement, hname]
  rw [run_cons, run_cons, hstep]

theorem run_bracket {tag : String} (htag : IsName tag) :
    (⟨frames, nodes, .content, none⟩ : Reader).run ('<' :: tag.toList) =
      some ⟨frames, nodes, .startTag tag.toList, none⟩ := by
  obtain ⟨first, rest, hchars, hfirst, hrest⟩ := htag
  have hmarkup := not_mem_markup_of_isNameChar (isNameChar_of_isNameStart hfirst)
  simp only [List.mem_cons, List.not_mem_nil, or_false, not_or] at hmarkup
  obtain ⟨hamp, -, hslash, -⟩ := hmarkup
  have hbracket : (⟨frames, nodes, .content, none⟩ : Reader).step '<' =
      some ⟨frames, nodes, .bracket, none⟩ := rfl
  have hopen : (⟨frames, nodes, .bracket, none⟩ : Reader).step first =
      some ⟨frames, nodes, .startTag [first], none⟩ := by
    rw [step_of_ne rfl hamp]
    simp [plain, inBracket, goTo, hslash, hfirst]
  rw [hchars, run_cons, hbracket, Option.bind_some, run_cons, hopen, Option.bind_some]
  refine run_nameChars ?_ hrest
  intro read c hc
  simp only [plain, hc, if_true]
  rfl

/-- A start tag is read up to the character that closes it. -/
theorem run_openChars {tag : String} {attributes : List Attribute} (htag : IsName tag)
    (hattributes : AreAttributes attributes) {c : Char} (hc : c = '>' ∨ c = '/')
    (rest : List Char) :
    (⟨frames, nodes, .content, none⟩ : Reader).run (openChars tag attributes ++ c :: rest) =
      (⟨frames, nodes, .head ⟨tag, attributes⟩ false, none⟩ : Reader).run (c :: rest) := by
  have hsplit : openChars tag attributes ++ c :: rest =
      ('<' :: tag.toList) ++ (attributes.flatMap attributeChars ++ c :: rest) := by
    simp [openChars]
  have hhead : (⟨frames, nodes, .startTag tag.toList, none⟩ : Reader).run
        (attributes.flatMap attributeChars ++ c :: rest) =
      (⟨frames, nodes, .head ⟨tag, []⟩ false, none⟩ : Reader).run
        (attributes.flatMap attributeChars ++ c :: rest) := by
    cases attributes with
    | nil =>
        rcases hc with rfl | rfl
        · exact run_startTag (by decide) (by decide) rest
        · exact run_startTag (by decide) (by decide) rest
    | cons entry others => exact run_startTag (by decide) (by decide) _
  have hread : (⟨frames, nodes, .head ⟨tag, []⟩ false, none⟩ : Reader).run
      (attributes.flatMap attributeChars) =
        some ⟨frames, nodes, .head ⟨tag, attributes⟩ false, none⟩ :=
    run_attributes hattributes.names hattributes.distinct
  rw [hsplit, run_append (run_bracket htag), hhead, run_append hread]

theorem run_lineBreak (frames : List Frame) (nodes : List Node) (rest : List Char) :
    (⟨frames, nodes, .content, none⟩ : Reader).run ('\n' :: rest) =
      (⟨frames, nodes ++ [.char '\n'], .content, none⟩ : Reader).run rest :=
  rfl

/-- A declaration in front of the root leaves nothing but the line break behind it. -/
theorem run_declaration {mark : Char} (hmark : mark = '?' ∨ mark = '!') {text : List Char}
    (hclose : '>' ∉ text) (hamp : '&' ∉ text) (nodes : List Node) :
    (⟨[], nodes, .content, none⟩ : Reader).run ('<' :: mark :: text ++ ['>', '\n']) =
      some ⟨[], nodes ++ [.char '\n'], .content, none⟩ := by
  have hopen : (⟨[], nodes, .content, none⟩ : Reader).run ['<', mark] =
      some ⟨[], nodes, .declaration, none⟩ := by
    rcases hmark with rfl | rfl <;> rfl
  have hskip : (⟨[], nodes, .declaration, none⟩ : Reader).run text =
      some ⟨[], nodes, .declaration, none⟩ := by
    induction text with
    | nil => rfl
    | cons c rest ih =>
        rw [List.mem_cons, not_or] at hclose hamp
        rw [run_cons, step_of_ne rfl (Ne.symm hamp.1), plain, if_neg (Ne.symm hclose.1),
          Option.bind_some, ih hclose.2 hamp.2]
  have hsplit : '<' :: mark :: text ++ ['>', '\n'] = ['<', mark] ++ (text ++ ['>', '\n']) := rfl
  rw [hsplit, run_append hopen, run_append hskip]
  rfl

theorem run_closeChars {tag : String} (htag : IsName tag) (attributes : List Attribute)
    (before : List Node) :
    (⟨⟨⟨tag, attributes⟩, before⟩ :: frames, nodes, .content, none⟩ : Reader).run
        (closeChars tag) =
      some ⟨frames, before ++ [.element tag attributes nodes, .char '\n'], .content, none⟩ := by
  obtain ⟨first, rest, hchars, hfirst, hrest⟩ := htag
  have hslash : (⟨⟨⟨tag, attributes⟩, before⟩ :: frames, nodes, .content, none⟩ : Reader).run
        "</".toList =
      some ⟨⟨⟨tag, attributes⟩, before⟩ :: frames, nodes, .endTag [], none⟩ := rfl
  have hname : (⟨⟨⟨tag, attributes⟩, before⟩ :: frames, nodes, .endTag [], none⟩ : Reader).run
        tag.toList =
      some ⟨⟨⟨tag, attributes⟩, before⟩ :: frames, nodes, .endTag tag.toList, none⟩ := by
    refine run_nameChars ?_ ?_
    · intro read c hc
      simp only [plain, hc, if_true]
      rfl
    · rw [hchars]
      exact List.forall_mem_cons.mpr ⟨isNameChar_of_isNameStart hfirst, hrest⟩
  have hend : (⟨⟨⟨tag, attributes⟩, before⟩ :: frames, nodes, .endTag tag.toList, none⟩ :
        Reader).step '>' =
      some ⟨frames, before ++ [.element tag attributes nodes], .content, none⟩ :=
    if_pos rfl
  rw [closeChars, List.append_assoc, run_append hslash, run_append hname, run_cons, hend,
    Option.bind_some, run_lineBreak, List.append_assoc]
  rfl

end Reader

mutual

/-- The text of an element is read as its node. -/
theorem Element.run_chars {frames : List Frame} {nodes : List Node} (level : Nat) :
    ∀ {element : Element}, element.IsProper →
      (⟨frames, nodes, .content, none⟩ : Reader).run (element.chars level) =
        some ⟨frames, nodes ++ blanks level ++ [element.node level, .char '\n'], .content, none⟩
  | .leaf tag attributes, ⟨htag, hattributes⟩ => by
      rw [chars, List.append_assoc, Reader.run_append (Reader.run_indentation _ _ _),
        Reader.run_openChars htag hattributes (.inr rfl)]
      simp [Reader.run, Reader.step, Reader.plain, Reader.inHead, Reader.goTo, Reader.push,
        Reader.data, Element.node]
  | .text tag content, htag => by
      have hattributes : AreAttributes [] := ⟨by simp, List.nodup_nil⟩
      have hopen : (⟨frames, nodes ++ blanks level, .head ⟨tag, []⟩ false, none⟩ :
            Reader).step '>' =
          some ⟨⟨⟨tag, []⟩, nodes ++ blanks level⟩ :: frames, [], .content, none⟩ := rfl
      rw [chars, List.append_assoc, List.append_assoc, List.cons_append,
        Reader.run_append (Reader.run_indentation _ _ _),
        Reader.run_openChars htag hattributes (.inl rfl), Reader.run_cons, hopen, Option.bind_some,
        Reader.run_append (Reader.run_escape_content _ _ _), List.nil_append,
        Reader.run_closeChars htag, Element.node]
  | .group tag attributes children, ⟨htag, hattributes, hchildren⟩ => by
      have hopen : (⟨frames, nodes ++ blanks level, .head ⟨tag, attributes⟩ false, none⟩ :
            Reader).step '>' =
          some ⟨⟨⟨tag, attributes⟩, nodes ++ blanks level⟩ :: frames, [], .content, none⟩ := rfl
      rw [chars]
      simp only [List.append_assoc, List.cons_append, List.nil_append]
      rw [Reader.run_append (Reader.run_indentation _ _ _),
        Reader.run_openChars htag hattributes (.inl rfl), Reader.run_cons, hopen, Option.bind_some,
        Reader.run_lineBreak, Reader.run_append (Element.run_listChars (level + 1) hchildren),
        Reader.run_append (Reader.run_indentation _ _ _), Reader.run_closeChars htag,
        Element.node, List.nil_append, List.singleton_append, List.append_assoc]

theorem Element.run_listChars {frames : List Frame} {nodes : List Node} (level : Nat) :
    ∀ {elements : List Element}, Element.AreProper elements →
      (⟨frames, nodes, .content, none⟩ : Reader).run (Element.listChars level elements) =
        some ⟨frames, nodes ++ Element.listNodes level elements, .content, none⟩
  | [], _ => by
      rw [listNodes, List.append_nil]
      rfl
  | element :: elements, ⟨helement, helements⟩ => by
      rw [listChars, Reader.run_append (Element.run_chars level helement),
        Element.run_listChars level helements, listNodes]
      simp only [List.append_assoc, List.cons_append, List.nil_append]

end

theorem isBlank_of_mem_blanks {level : Nat} {node : Node} (h : node ∈ blanks level) :
    node.isBlank = true := by
  obtain ⟨c, hc, rfl⟩ := List.mem_map.mp h
  rw [List.eq_of_mem_replicate hc]
  rfl

theorem filter_of_isBlank {nodes : List Node} (h : ∀ node ∈ nodes, node.isBlank = true) :
    nodes.filter (fun node => !node.isBlank) = [] := by
  rw [List.filter_eq_nil_iff]
  intro node hnode
  simp [h node hnode]

theorem filter_blanks (level : Nat) :
    (blanks level).filter (fun node => !node.isBlank) = [] :=
  filter_of_isBlank fun _ hnode => isBlank_of_mem_blanks hnode

theorem isBlank_node (level : Nat) (element : Element) : (element.node level).isBlank = false := by
  cases element <;> rw [Element.node] <;> rfl

/-- Without the blanks around them, the children of an element are their nodes. -/
theorem filter_listNodes (level : Nat) (elements : List Element) :
    ((Element.listNodes level elements).filter fun node => !node.isBlank) =
      elements.map (·.node level) := by
  induction elements with
  | nil => rw [Element.listNodes, List.filter_nil, List.map_nil]
  | cons element rest ih =>
      rw [Element.listNodes, List.filter_append, filter_blanks, List.nil_append,
        List.filter_cons_of_pos (by simp [isBlank_node]), List.filter_cons_of_neg (by decide), ih,
        List.map_cons]

/-- An element is the root of the document that consists of it and a prolog. -/
theorem root?_append_chars {prolog : List Char} {nodes : List Node} {element : Element}
    (hprolog : Reader.start.run prolog = some ⟨[], nodes, .content, none⟩)
    (hblank : ∀ node ∈ nodes, node.isBlank = true) (hproper : element.IsProper) :
    root? (prolog ++ element.chars 0) = some (element.node 0) := by
  have hfilter : (nodes ++ blanks 0 ++ [element.node 0, .char '\n']).filter
      (fun node => !node.isBlank) = [element.node 0] := by
    rw [List.append_assoc, List.filter_append, filter_of_isBlank hblank, List.nil_append]
    change ([element.node 0, .char '\n'].filter fun node => !node.isBlank) = _
    rw [List.filter_cons_of_pos (by simp [isBlank_node]), List.filter_cons_of_neg (by decide),
      List.filter_nil]
  have hread : Reader.start.run (prolog ++ element.chars 0) =
      some ⟨[], nodes ++ blanks 0 ++ [element.node 0, .char '\n'], .content, none⟩ := by
    rw [Reader.run_append hprolog, Element.run_chars 0 hproper]
  rw [root?, hread, Option.bind_eq_bind, Option.bind_some, Reader.finish?, Option.bind_eq_bind,
    Option.bind_some, hfilter]
  cases element <;> rw [Element.node]

end ScriptCoverage.Xml
