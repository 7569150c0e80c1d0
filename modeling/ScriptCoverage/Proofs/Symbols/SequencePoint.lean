import ScriptCoverage.Proofs.Text.Decimal
import ScriptCoverage.Symbols.SequencePoint

/-!
The grammars of sequence points and of ranges. A number ends where its digits do, and a mark
that is no digit stands behind each number but the last, so a text is taken apart in one way.
The readers accept exactly the texts of the grammars.
-/

namespace ScriptCoverage

open Decimal (Denotes)

/-- `line:column` -/
def SourcePosition.EncodedBy (position : SourcePosition) (text : List Char) : Prop :=
  ∃ line column, text = line ++ ':' :: column ∧
    Denotes line position.line.toNat ∧ Denotes column position.column.toNat

/-- `address[document]line:column-line:column` -/
def SequencePoint.EncodedBy (point : SequencePoint) (text : List Char) : Prop :=
  ∃ address document start stop,
    text = address ++ '[' :: document ++ ']' :: start ++ '-' :: stop ∧
    Denotes address point.address.toNat ∧ Denotes document point.document.toNat ∧
    point.start.EncodedBy start ∧ point.stop.EncodedBy stop

/-- `first-last`; that the first address does not exceed the last is part of the range. -/
def AddressRange.EncodedBy (range : AddressRange) (text : List Char) : Prop :=
  ∃ first last, text = first ++ '-' :: last ∧
    Denotes first range.first.toNat ∧ Denotes last range.last.toNat

namespace Reading

/-- No digit comes next. -/
def AtEnd (rest : List Char) : Prop :=
  ∀ c ∈ rest.head?, Decimal.digitValue? c = none

@[simp] theorem atEnd_nil : AtEnd [] := by
  simp [AtEnd]

@[simp] theorem atEnd_cons {c : Char} {rest : List Char} :
    AtEnd (c :: rest) ↔ Decimal.digitValue? c = none := by
  simp [AtEnd]

variable {text rest : List Char}

theorem isSome_digitValue?_of_denotes {n : ℕ} (h : Denotes text n) :
    ∀ c ∈ text, (Decimal.digitValue? c).isSome = true := by
  obtain ⟨ds, -, -, rfl, -⟩ := h
  intro c hc
  obtain ⟨d, -, rfl⟩ := List.mem_map.mp hc
  rw [Decimal.digitValue?_digit]
  rfl

/-- A word is the whole run of digits in front. -/
theorem word_eq_some_iff {n : UInt32} : word text = some (n, rest) ↔
    ∃ run, text = run ++ rest ∧ Denotes run n.toNat ∧ AtEnd rest := by
  simp only [word, Option.map_eq_some_iff, Prod.mk.injEq, Decimal.word?_eq_some_iff]
  constructor
  · rintro ⟨_, hrun, rfl, rfl⟩
    refine ⟨_, List.takeWhile_append_dropWhile.symm, hrun, fun c hc => ?_⟩
    have hnot := List.head?_dropWhile_not (fun c => (Decimal.digitValue? c).isSome) text
    rw [Option.mem_def.mp hc] at hnot
    simpa using hnot
  · rintro ⟨run, rfl, hrun, hend⟩
    have hdigits := isSome_digitValue?_of_denotes hrun
    have hstop : ∀ c, rest.head? = some c → (Decimal.digitValue? c).isSome = false := by
      intro c hc
      rw [hend c hc]
      rfl
    refine ⟨n, ?_, rfl, ?_⟩
    · rw [List.takeWhile_append_of_pos hdigits, Text.takeWhile_of_head? hstop, List.append_nil]
      exact hrun
    · rw [List.dropWhile_append_of_pos hdigits, Text.dropWhile_of_head? hstop]

@[simp] theorem mark_eq_some_iff {c : Char} : mark c text = some rest ↔ text = c :: rest := by
  cases text with
  | nil => simp [mark]
  | cons d text => simp [mark]

end Reading

namespace SequencePoint

variable {text rest : List Char}

theorem position?_eq_some_iff {position : SourcePosition} :
    position? text = some (position, rest) ↔
      ∃ front, text = front ++ rest ∧ position.EncodedBy front ∧ Reading.AtEnd rest := by
  simp only [position?, Option.bind_eq_bind, Option.bind_eq_some_iff, Prod.exists,
    Reading.word_eq_some_iff, Reading.mark_eq_some_iff, Option.some.injEq, Prod.mk.injEq]
  constructor
  · rintro ⟨_, _, ⟨line, rfl, hline, -⟩, _, rfl, _, _, ⟨column, rfl, hcolumn, hend⟩, rfl, rfl⟩
    exact ⟨line ++ ':' :: column, by simp, ⟨line, column, rfl, hline, hcolumn⟩, hend⟩
  · rintro ⟨_, rfl, ⟨line, column, rfl, hline, hcolumn⟩, hend⟩
    rw [List.append_assoc, List.cons_append]
    exact ⟨_, _, ⟨line, rfl, hline, Reading.atEnd_cons.mpr (by decide)⟩, _, rfl,
      _, _, ⟨column, rfl, hcolumn, hend⟩, rfl, rfl⟩

/-- Exactly the texts of the grammar are read as sequence points. -/
theorem parse?_eq_some_iff {point : SequencePoint} :
    parse? text = some point ↔ point.EncodedBy text := by
  simp only [parse?, Option.bind_eq_bind, Option.bind_eq_some_iff, Prod.exists,
    Reading.word_eq_some_iff, Reading.mark_eq_some_iff, position?_eq_some_iff]
  constructor
  · rintro ⟨_, _, ⟨address, rfl, haddress, -⟩, _, rfl, _, _, ⟨document, rfl, hdocument, -⟩, _, rfl,
      _, _, ⟨start, rfl, hstart, -⟩, _, rfl, _, rest, ⟨stop, rfl, hstop, -⟩, hpoint⟩
    split at hpoint
    · rename_i hrest
      cases hpoint
      rw [List.isEmpty_iff.mp hrest]
      exact ⟨address, document, start, stop, by simp, haddress, hdocument, hstart, hstop⟩
    · cases hpoint
  · rintro ⟨address, document, start, stop, rfl, haddress, hdocument, hstart, hstop⟩
    simp only [List.append_assoc, List.cons_append]
    exact ⟨_, _, ⟨address, rfl, haddress, Reading.atEnd_cons.mpr (by decide)⟩, _, rfl,
      _, _, ⟨document, rfl, hdocument, Reading.atEnd_cons.mpr (by decide)⟩, _, rfl,
      _, _, ⟨start, rfl, hstart, Reading.atEnd_cons.mpr (by decide)⟩, _, rfl,
      _, _, ⟨stop, (List.append_nil stop).symm, hstop, Reading.atEnd_nil⟩, rfl⟩

theorem parse_eq_ok_iff {text : String} {point : SequencePoint} :
    parse text = .ok point ↔ point.EncodedBy text.toList := by
  rw [← parse?_eq_some_iff, parse]
  cases parse? text.toList <;> simp

end SequencePoint

namespace AddressRange

/-- Exactly the texts of the grammar are read as ranges. -/
theorem parse?_eq_some_iff {text : List Char} {range : AddressRange} :
    parse? text = some range ↔ range.EncodedBy text := by
  simp only [parse?, Option.bind_eq_bind, Option.bind_eq_some_iff, Prod.exists,
    Reading.word_eq_some_iff, Reading.mark_eq_some_iff]
  constructor
  · rintro ⟨_, _, ⟨first, rfl, hfirst, -⟩, _, rfl, _, _, ⟨last, rfl, hlast, -⟩, hrange⟩
    split at hrange
    · rename_i hend
      cases hrange
      exact ⟨first, last, by rw [hend.1, List.append_nil], hfirst, hlast⟩
    · cases hrange
  · rintro ⟨first, last, rfl, hfirst, hlast⟩
    exact ⟨_, _, ⟨first, rfl, hfirst, Reading.atEnd_cons.mpr (by decide)⟩, _, rfl,
      _, _, ⟨last, (List.append_nil last).symm, hlast, Reading.atEnd_nil⟩,
      dif_pos ⟨rfl, range.ordered⟩⟩

theorem parse_eq_ok_iff {text : String} {range : AddressRange} :
    parse text = .ok range ↔ range.EncodedBy text.toList := by
  rw [← parse?_eq_some_iff, parse]
  cases parse? text.toList <;> simp

end AddressRange

end ScriptCoverage
