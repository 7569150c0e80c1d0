import ScriptCoverage.Proofs.Data.Except
import ScriptCoverage.Proofs.Text.Decimal
import ScriptCoverage.Report.Lcov

/-!
What an LCOV report says, read from the texts of its lines. A line is known by the tag in front
of its first colon. Fields behind the tag end at a comma, but the last one takes all that is left,
so a name may hold commas and colons. Every line is read back from its text.
-/

namespace ScriptCoverage.Lcov

/-- A field that ends at a comma, and what stands behind it. -/
def field? {α : Type} (read? : List Char → Option α) (text : List Char) :
    Option (α × List Char) := do
  let (front, rest) ← Text.splitFirst ',' text
  some (← read? front, rest)

/-- The count of an outcome, or the dash in its place. -/
def count? (text : List Char) : Option (Option UInt32) :=
  if text = ['-'] then some none else (Decimal.word? text).map some

def Line.ofFields? (tag : String) (text : List Char) : Option Line :=
  match tag with
  | "TN" => some (.testName (String.ofList text))
  | "SF" => some (.sourceFile (String.ofList text))
  | "FN" => do
      let (line, name) ← field? Decimal.word? text
      some (.function line (String.ofList name))
  | "FNDA" => do
      let (hits, name) ← field? Decimal.word? text
      some (.functionData hits (String.ofList name))
  | "FNF" => (Decimal.value? text).map .functionsFound
  | "FNH" => (Decimal.value? text).map .functionsHit
  | "BRDA" => do
      let (line, text) ← field? Decimal.word? text
      let (block, text) ← field? Decimal.value? text
      let (outcome, text) ← field? Decimal.value? text
      some (.branchData line block outcome (← count? text))
  | "BRF" => (Decimal.value? text).map .branchesFound
  | "BRH" => (Decimal.value? text).map .branchesHit
  | "DA" => do
      let (line, text) ← field? Decimal.word? text
      some (.lineData line (← Decimal.word? text))
  | "LF" => (Decimal.value? text).map .linesFound
  | "LH" => (Decimal.value? text).map .linesHit
  | _ => none

def Line.ofChars? (text : List Char) : Option Line :=
  if text = "end_of_record".toList then some .endOfRecord
  else do
    let (tag, fields) ← Text.splitFirst ':' text
    Line.ofFields? (String.ofList tag) fields

/-- The lines of a report; a text that is none spoils it. -/
def read? (texts : List (List Char)) : Option (List Line) :=
  texts.mapM Line.ofChars?

theorem field?_append {α : Type} {read? : List Char → Option α} {front : List Char} {x : α}
    (hread : read? front = some x) (hmark : ',' ∉ front) (rest : List Char) :
    field? read? (front ++ ',' :: rest) = some (x, rest) := by
  simp [field?, Text.splitFirst_append hmark, hread]

@[simp]
theorem word?_word (n : UInt32) : Decimal.word? (word n) = some n :=
  Decimal.word?_digits n

@[simp]
theorem field?_word (n : UInt32) (rest : List Char) :
    field? Decimal.word? (word n ++ ',' :: rest) = some (n, rest) :=
  field?_append (word?_word n) (Decimal.notMem_digits rfl _) rest

@[simp]
theorem field?_digits (n : Nat) (rest : List Char) :
    field? Decimal.value? (Decimal.digits n ++ ',' :: rest) = some (n, rest) :=
  field?_append (Decimal.value?_digits n) (Decimal.notMem_digits rfl n) rest

theorem count?_word (n : UInt32) : count? (word n) = some (some n) := by
  have hdash : word n ≠ ['-'] := by
    intro heq
    have hmem : '-' ∈ word n := by simp [heq]
    exact Decimal.notMem_digits rfl _ hmem
  rw [count?, if_neg hdash, word?_word, Option.map_some]

namespace Line

/-- A line with a tag is read by its tag. -/
theorem ofChars?_tagged {tag : String} (htag : ':' ∉ tag.toList) (fields : List (List Char)) :
    ofChars? (tagged tag fields) = ofFields? tag ([','].intercalate fields) := by
  have hend : tagged tag fields ≠ "end_of_record".toList := by
    intro heq
    have hcolon : ':' ∈ tagged tag fields := List.mem_append_right _ List.mem_cons_self
    rw [heq] at hcolon
    exact absurd hcolon (by decide)
  rw [ofChars?, if_neg hend, tagged, Text.splitFirst_append htag]
  simp

theorem ofChars?_chars (line : Line) : ofChars? line.chars = some line := by
  cases line with
  | endOfRecord =>
      have htext : chars .endOfRecord = "end_of_record".toList := rfl
      rw [ofChars?, if_pos htext]
  | branchData line block outcome count =>
      refine (ofChars?_tagged (by decide) _).trans ?_
      cases count with
      | none => simp [ofFields?, count?]
      | some count => simp [ofFields?, count?_word]
  | _ =>
      refine (ofChars?_tagged (by decide) _).trans ?_
      simp [ofFields?, Decimal.value?_digits]

end Line

/-- A reader has the lines of a report from their texts. -/
theorem read?_texts (trees : List CoverageTree) : read? (texts trees) = some (lines trees) := by
  rw [read?, texts, Option.mapM_map_eq_some Line.ofChars?_chars, List.map_id']

end ScriptCoverage.Lcov
