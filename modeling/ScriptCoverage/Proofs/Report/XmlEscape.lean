import ScriptCoverage.Proofs.Report.XmlReader
import ScriptCoverage.Proofs.Text.Lines

/-!
Escaping loses nothing. Replacements over the whole text, one after the other, come to the same
as all of them at once when no text that an earlier one writes holds a character that a later
one looks for; for the five characters of markup this holds with the ampersand in front. The
escaped texts are those without markup in which every ampersand starts a predefined entity, and
one pass from left to right reads them back.
-/

namespace ScriptCoverage.Xml

section Replacements

variable {table : List (Char × List Char)} {c : Char}

/-- Every `mark` of a text replaced. -/
def replaceAll (mark : Char) (replacement text : List Char) : List Char :=
  text.flatMap fun c => if c = mark then replacement else [c]

/-- Replacements that are made one after the other, each over what the last one left. -/
def replaceInTurn (table : List (Char × List Char)) (text : List Char) : List Char :=
  table.foldl (fun text entry => replaceAll entry.1 entry.2 text) text

/-- What a table has in place of a character. -/
def substitute (table : List (Char × List Char)) (c : Char) : List Char :=
  (table.lookup c).getD [c]

theorem substitute_of_notMem (h : ∀ entry ∈ table, entry.1 ≠ c) : substitute table c = [c] := by
  have hnone : table.lookup c = none := by
    rw [List.lookup_eq_none_iff]
    intro entry hentry
    exact bne_iff_ne.mpr (h entry hentry).symm
  rw [substitute, hnone, Option.getD_none]

theorem flatMap_substitute_of_notMem {text : List Char} (h : ∀ entry ∈ table, entry.1 ∉ text) :
    text.flatMap (substitute table) = text := by
  have hkept : ∀ c ∈ text, substitute table c = [c] := by
    intro c hc
    apply substitute_of_notMem
    rintro entry hentry rfl
    exact h entry hentry hc
  rw [List.flatMap_congr hkept]
  exact List.flatMap_singleton' text

/-- Replacements in turn are one substitution, if none of them replaces what an earlier one
has written. -/
theorem replaceInTurn_eq_flatMap (h : table.Pairwise fun earlier later => later.1 ∉ earlier.2)
    (text : List Char) : replaceInTurn table text = text.flatMap (substitute table) := by
  induction table generalizing text with
  | nil => exact (List.flatMap_singleton' text).symm
  | cons entry rest ih =>
      obtain ⟨mark, replacement⟩ := entry
      obtain ⟨hwritten, hrest⟩ := List.pairwise_cons.mp h
      have hstep : replaceInTurn ((mark, replacement) :: rest) text =
          replaceInTurn rest (replaceAll mark replacement text) := rfl
      rw [hstep, ih hrest, replaceAll, List.flatMap_assoc]
      apply List.flatMap_congr
      intro c _
      by_cases hc : c = mark
      · rw [if_pos hc, flatMap_substitute_of_notMem hwritten, substitute, hc,
          List.lookup_cons_self, Option.getD_some]
      · have hlater : substitute ((mark, replacement) :: rest) c = substitute rest c := by
          rw [substitute, List.lookup_cons, beq_false_of_ne hc]
          rfl
        rw [if_neg hc, List.flatMap_singleton, hlater]

end Replacements

/-- The characters of markup with their references. -/
def predefined : List (Char × List Char) :=
  [('&', "&amp;".toList), ('<', "&lt;".toList), ('>', "&gt;".toList), ('"', "&quot;".toList),
    ('\'', "&apos;".toList)]

theorem substitute_predefined (c : Char) : substitute predefined c = escapeChar c := by
  unfold escapeChar
  split
  · rfl
  · rfl
  · rfl
  · rfl
  · rfl
  · rename_i hamp hlt hgt hquot hapos
    apply substitute_of_notMem
    simp only [predefined, List.forall_mem_cons]
    exact ⟨Ne.symm hamp, Ne.symm hlt, Ne.symm hgt, Ne.symm hquot, Ne.symm hapos,
      fun _ hnone => absurd hnone List.not_mem_nil⟩

/-- Escaping is to replace the characters of markup in turn. -/
theorem replaceInTurn_predefined (text : List Char) :
    replaceInTurn predefined text = escape text := by
  rw [replaceInTurn_eq_flatMap (by decide), escape]
  exact List.flatMap_congr fun c _ => substitute_predefined c

theorem escape_cons (c : Char) (rest : List Char) :
    escape (c :: rest) = escapeChar c ++ escape rest :=
  List.flatMap_cons

section Entities

variable {c : Char} {name text : List Char}

/-- The name of an entity is written with letters. -/
theorem notMem_of_entity?_eq_some (h : entity? name = some c) :
    ∀ x ∈ [';', '&', '<', '>', '"', '\''], x ∉ name := by
  have hletters : name.all Char.isAlpha = true := by
    unfold entity? at h
    split_ifs at h with hname hname hname hname hname
    all_goals
      rw [hname]
      decide
  have hmarks : [';', '&', '<', '>', '"', '\''].all (!Char.isAlpha ·) = true := by decide
  intro x hx hmem
  have hmark := List.all_eq_true.mp hmarks x hx
  rw [List.all_eq_true.mp hletters x hmem] at hmark
  cases hmark

theorem escapeChar_of_notMem (h : c ∉ ['&', '<', '>', '"', '\'']) : escapeChar c = [c] := by
  rw [← substitute_predefined]
  apply substitute_of_notMem
  rintro entry hentry rfl
  exact h (List.mem_map_of_mem (f := Prod.fst) hentry)

theorem escapeChar_of_entity? (h : entity? name = some c) :
    escapeChar c = '&' :: name ++ [';'] := by
  unfold entity? at h
  split_ifs at h with hname hname hname hname hname
  all_goals
    subst hname
    cases h
    rfl

/-- A character is escaped as a reference to its entity, or stays as it is. -/
theorem escapeChar_cases (c : Char) :
    (∃ name, entity? name = some c ∧ escapeChar c = '&' :: name ++ [';']) ∨
      c ∉ ['&', '<', '>', '"', '\''] ∧ escapeChar c = [c] := by
  by_cases hmarkup : c ∈ ['&', '<', '>', '"', '\'']
  · left
    simp only [List.mem_cons, List.not_mem_nil, or_false] at hmarkup
    rcases hmarkup with rfl | rfl | rfl | rfl | rfl
    · exact ⟨"amp".toList, rfl, rfl⟩
    · exact ⟨"lt".toList, rfl, rfl⟩
    · exact ⟨"gt".toList, rfl, rfl⟩
    · exact ⟨"quot".toList, rfl, rfl⟩
    · exact ⟨"apos".toList, rfl, rfl⟩
  · exact .inr ⟨hmarkup, escapeChar_of_notMem hmarkup⟩

/-- The character of the entity whose name is next, and what stands behind its semicolon. -/
def reference? (text : List Char) : Option (Char × List Char) := do
  let (name, behind) ← Text.splitFirst ';' text
  let c ← entity? name
  return (c, behind)

theorem reference?_eq_some_iff {behind : List Char} :
    reference? text = some (c, behind) ↔
      ∃ name, entity? name = some c ∧ text = name ++ ';' :: behind := by
  simp only [reference?, Option.bind_eq_bind, Option.bind_eq_some_iff, Option.pure_def,
    Option.some_inj, Prod.mk.injEq, Prod.exists]
  constructor
  · rintro ⟨name, _, hsplit, _, hentity, rfl, rfl⟩
    exact ⟨name, hentity, (Text.splitFirst_eq_some_iff.mp hsplit).1⟩
  · rintro ⟨name, hentity, rfl⟩
    have hplain : ';' ∉ name := notMem_of_entity?_eq_some hentity _ List.mem_cons_self
    exact ⟨name, behind, Text.splitFirst_append hplain behind, c, hentity, rfl, rfl⟩

theorem length_lt_of_reference? {behind : List Char} (h : reference? text = some (c, behind)) :
    behind.length < text.length := by
  obtain ⟨name, -, rfl⟩ := reference?_eq_some_iff.mp h
  rw [List.length_append, List.length_cons]
  omega

/-- One pass from left to right that puts the character of every entity in its place. What it
has put is not read again, and an ampersand that starts no entity is kept. -/
def unescape : List Char → List Char
  | [] => []
  | c :: rest =>
      if c = '&' then
        match h : reference? rest with
        | some (decoded, behind) =>
            have : behind.length < rest.length := length_lt_of_reference? h
            decoded :: unescape behind
        | none => '&' :: unescape rest
      else c :: unescape rest
termination_by text => text.length
decreasing_by all_goals simp only [List.length_cons]; omega

theorem unescape_reference (h : entity? name = some c) (rest : List Char) :
    unescape ('&' :: name ++ ';' :: rest) = c :: unescape rest := by
  have href : reference? (name ++ ';' :: rest) = some (c, rest) :=
    reference?_eq_some_iff.mpr ⟨name, h, rfl⟩
  rw [List.cons_append, unescape, if_pos rfl]
  split
  · rename_i decoded behind hfound
    cases hfound.symm.trans href
    rfl
  · rename_i hnone
    cases hnone.symm.trans href

theorem unescape_cons_of_ne (h : c ≠ '&') (rest : List Char) :
    unescape (c :: rest) = c :: unescape rest := by
  rw [unescape, if_neg h]

theorem unescape_escape (text : List Char) : unescape (escape text) = text := by
  induction text with
  | nil => rw [escape, List.flatMap_nil, unescape]
  | cons c rest ih =>
      rw [escape_cons]
      rcases escapeChar_cases c with ⟨name, hentity, hchars⟩ | ⟨hplain, hchars⟩
      · rw [hchars, List.append_assoc, List.singleton_append, unescape_reference hentity, ih]
      · have hc : c ≠ '&' := fun heq => hplain (heq ▸ List.mem_cons_self)
        rw [hchars, List.singleton_append, unescape_cons_of_ne hc, ih]

end Entities

/-- No markup, and no ampersand but at the start of a predefined entity. -/
structure IsEscaped (text : List Char) : Prop where
  unmarked : ∀ c ∈ ['<', '>', '"', '\''], c ∉ text
  references : ∀ before after, text = before ++ '&' :: after →
    ∃ c name rest, entity? name = some c ∧ after = name ++ ';' :: rest

namespace IsEscaped

variable {first second : List Char}

theorem append (hfirst : IsEscaped first) (hsecond : IsEscaped second) :
    IsEscaped (first ++ second) := by
  refine ⟨?unmarked, ?references⟩
  case unmarked =>
    intro c hc hmem
    rcases List.mem_append.mp hmem with hmem | hmem
    · exact hfirst.unmarked c hc hmem
    · exact hsecond.unmarked c hc hmem
  case references =>
    intro before after hsplit
    rcases List.append_eq_append_iff.mp hsplit with ⟨middle, -, hlater⟩ | ⟨middle, hearlier, htail⟩
    · exact hsecond.references middle after hlater
    · cases middle with
      | nil => exact hsecond.references [] after htail.symm
      | cons mark inside =>
          -- the entity starts in the first text, and ends there
          obtain ⟨rfl, rfl⟩ := List.cons.inj htail
          obtain ⟨c, name, rest, hentity, rfl⟩ := hfirst.references before inside hearlier
          exact ⟨c, name, rest ++ second, hentity, by simp⟩

theorem of_append_right (h : IsEscaped (first ++ second)) : IsEscaped second := by
  refine ⟨?unmarked, ?references⟩
  case unmarked =>
    intro c hc hmem
    exact h.unmarked c hc (List.mem_append_right first hmem)
  case references =>
    rintro before after rfl
    exact h.references (first ++ before) after (List.append_assoc _ _ _).symm

end IsEscaped

theorem isEscaped_reference {c : Char} {name : List Char} (h : entity? name = some c) :
    IsEscaped ('&' :: name ++ [';']) := by
  have hplain := notMem_of_entity?_eq_some h
  refine ⟨?unmarked, ?references⟩
  case unmarked =>
    intro x hx hmem
    have hname : x ∉ name := hplain x (List.mem_cons_of_mem _ (List.mem_cons_of_mem _ hx))
    simp only [List.cons_append, List.mem_cons, List.mem_append, List.not_mem_nil,
      or_false] at hmem
    rcases hmem with rfl | hmem | rfl
    · exact absurd hx (by decide)
    · exact hname hmem
    · exact absurd hx (by decide)
  case references =>
    intro before after hsplit
    rw [List.cons_append] at hsplit
    cases before with
    | nil => exact ⟨c, name, [], h, (List.cons.inj hsplit).2.symm⟩
    | cons mark before =>
        -- behind the first character there is no ampersand
        have hmem : '&' ∈ name ++ [';'] := by
          rw [(List.cons.inj hsplit).2]
          exact List.mem_append_right before List.mem_cons_self
        rcases List.mem_append.mp hmem with hmem | hmem
        · exact absurd hmem (hplain '&' (by decide))
        · exact absurd hmem (by decide)

theorem isEscaped_escapeChar (c : Char) : IsEscaped (escapeChar c) := by
  rcases escapeChar_cases c with ⟨name, hentity, hchars⟩ | ⟨hplain, hchars⟩
  · rw [hchars]
    exact isEscaped_reference hentity
  · rw [hchars]
    refine ⟨?unmarked, ?references⟩
    case unmarked =>
      intro x hx hmem
      rw [List.mem_singleton] at hmem
      exact hplain (hmem ▸ List.mem_cons_of_mem _ hx)
    case references =>
      intro before after hsplit
      have hmem : '&' ∈ [c] := by
        rw [hsplit]
        simp
      rw [List.mem_singleton] at hmem
      exact absurd (hmem ▸ List.mem_cons_self) hplain

theorem isEscaped_escape (text : List Char) : IsEscaped (escape text) := by
  induction text with
  | nil => exact ⟨by simp [escape], by simp [escape]⟩
  | cons c rest ih =>
      rw [escape_cons]
      exact (isEscaped_escapeChar c).append ih

/-- An escaped text is written again from what it is read as. -/
theorem escape_unescape {text : List Char} (h : IsEscaped text) :
    escape (unescape text) = text := by
  fun_induction unescape text with
  | case1 => rfl
  | case2 rest decoded behind hfound _ ih =>
      obtain ⟨name, hentity, rfl⟩ := reference?_eq_some_iff.mp hfound
      have hsplit : '&' :: (name ++ ';' :: behind) = ('&' :: name ++ [';']) ++ behind := by simp
      rw [hsplit] at h ⊢
      rw [escape_cons, ih h.of_append_right, escapeChar_of_entity? hentity]
  | case3 rest hnone ih =>
      obtain ⟨c, name, behind, hentity, rfl⟩ := h.references [] rest rfl
      cases hnone.symm.trans (reference?_eq_some_iff.mpr ⟨name, hentity, rfl⟩)
  | case4 c rest hamp ih =>
      have hplain : c ∉ ['&', '<', '>', '"', '\''] := by
        intro hmarkup
        rcases List.mem_cons.mp hmarkup with rfl | hmarkup
        · exact hamp rfl
        · exact h.unmarked c hmarkup List.mem_cons_self
      rw [← List.singleton_append] at h
      rw [escape_cons, ih h.of_append_right, escapeChar_of_notMem hplain, List.singleton_append]

/-- The escaped texts, and no others, come back when they are read and escaped again. -/
theorem isEscaped_iff {text : List Char} : IsEscaped text ↔ escape (unescape text) = text := by
  constructor
  · exact escape_unescape
  · intro h
    exact h ▸ isEscaped_escape (unescape text)

/-- Escaping by one replacement after the other loses nothing and leaves no markup. What it gives
holds ampersands only where an entity starts, one pass over the entities gives back the text, and
two texts escape alike only if they are one. Every text without markup in which ampersands start
entities is escaped from the text that it is read as. -/
theorem escape_lossless_closed (text : List Char) :
    replaceInTurn predefined text = escape text ∧ IsEscaped (escape text) ∧
      unescape (escape text) = text ∧ (∀ other, escape other = escape text ↔ other = text) ∧
      (IsEscaped text ↔ escape (unescape text) = text) := by
  refine ⟨replaceInTurn_predefined text, isEscaped_escape text, unescape_escape text, ?injective,
    isEscaped_iff⟩
  case injective =>
    intro other
    constructor
    · intro h
      calc
        other = unescape (escape other) := (unescape_escape other).symm
        _ = unescape (escape text) := by rw [h]
        _ = text := unescape_escape text
    · rintro rfl
      rfl

/-- A text that looks like an entity is not taken for one. -/
example : escape "&lt;".toList = "&amp;lt;".toList := by decide

end ScriptCoverage.Xml
