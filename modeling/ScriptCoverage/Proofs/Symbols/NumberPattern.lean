import ScriptCoverage.Proofs.Data.Except
import ScriptCoverage.Proofs.Symbols.SequencePoint

/-!
Sequence points and ranges, read in two passes. A pattern of marks first cuts a text into runs
of decimal digits of any script; each run is then read as a word by a reader that knows the
digits 0 to 9 alone and would take a plus sign. A pattern cuts a text in at most one way, and
both passes together accept what the grammars say: no digit of another script passes the
second, and no sign the first.
-/

namespace ScriptCoverage

open Decimal (Denotes)

/-- The decimal digits of some scripts. Of the ASCII characters it holds 0 to 9. -/
structure DigitClass where
  contains : Char → Bool
  contains_ascii : ∀ c : Char, c.toNat < 128 → contains c = decide ('0' ≤ c ∧ c ≤ '9')

namespace DigitClass

def ascii : DigitClass where
  contains c := decide ('0' ≤ c ∧ c ≤ '9')
  contains_ascii _ _ := rfl

instance : Inhabited DigitClass := ⟨ascii⟩

variable (digits : DigitClass)

def IsRun (run : List Char) : Prop :=
  run ≠ [] ∧ ∀ c ∈ run, digits.contains c = true

/-- The text consists of runs of digits with the marks between them. -/
inductive Cuts : (marks text : List Char) → (runs : List (List Char)) → Prop where
  | last {run : List Char} (isRun : digits.IsRun run) : Cuts [] run [run]
  | mark {mark : Char} {marks run rest : List Char} {runs : List (List Char)}
      (isRun : digits.IsRun run) (cut : Cuts marks rest runs) :
      Cuts (mark :: marks) (run ++ mark :: rest) (run :: runs)

/-- What the runs say that the pattern finds. -/
def Yields (marks text : List Char) (words : List UInt32) : Prop :=
  ∃ runs, digits.Cuts marks text runs ∧
    List.Forall₂ (fun run word => Decimal.signedWord? run = some word) runs words

variable {digits} {marks text : List Char} {runs : List (List Char)}

theorem contains_digit (d : ℕ) : digits.contains (Decimal.digit d) = true := by
  have hdigit : ∀ d < 10, (Decimal.digit d).toNat < 128 ∧
      '0' ≤ Decimal.digit d ∧ Decimal.digit d ≤ '9' := by decide
  obtain ⟨hascii, hrange⟩ := hdigit (d % 10) (Nat.mod_lt d (by decide))
  rw [← Decimal.digit_mod, digits.contains_ascii _ hascii]
  exact decide_eq_true hrange

theorem contains_eq_false {c : Char} (hascii : c.toNat < 128) (h : ¬ ('0' ≤ c ∧ c ≤ '9')) :
    digits.contains c = false := by
  rw [digits.contains_ascii c hascii]
  exact decide_eq_false h

theorem isRun_of_denotes {run : List Char} {n : ℕ} (h : Denotes run n) : digits.IsRun run := by
  obtain ⟨ds, hne, -, rfl, -⟩ := h
  refine ⟨by simpa using hne, fun c hc => ?_⟩
  obtain ⟨d, -, rfl⟩ := List.mem_map.mp hc
  exact contains_digit d

/-- A run has no sign, so it is read as a word only if its digits are 0 to 9. -/
theorem isRun_and_signedWord?_iff {run : List Char} {word : UInt32} :
    digits.IsRun run ∧ Decimal.signedWord? run = some word ↔ Denotes run word.toNat := by
  rw [Decimal.signedWord?_eq_some_iff]
  constructor
  · rintro ⟨hrun, run, rfl | rfl, hdenotes⟩
    · exact hdenotes
    · have hplus : digits.contains '+' = false := contains_eq_false (by decide) (by decide)
      rw [hrun.2 '+' List.mem_cons_self] at hplus
      cases hplus
  · intro hdenotes
    exact ⟨isRun_of_denotes hdenotes, run, .inl rfl, hdenotes⟩

/-- A run ends at its mark. -/
theorem IsRun.takeWhile_append {run : List Char} (hrun : digits.IsRun run) {mark : Char}
    (hmark : digits.contains mark = false) (rest : List Char) :
    (run ++ mark :: rest).takeWhile digits.contains = run := by
  rw [List.takeWhile_append_of_pos hrun.2, List.takeWhile_cons_of_neg (by simp [hmark]),
    List.append_nil]

/-- Marks that are no digits cut a text in one way. -/
theorem Cuts.unique (h : digits.Cuts marks text runs)
    (hmarks : ∀ mark ∈ marks, digits.contains mark = false) {others : List (List Char)}
    (hothers : digits.Cuts marks text others) : others = runs := by
  induction h generalizing others with
  | last hrun =>
      cases hothers
      rfl
  | @mark m marks run rest runs hrun _ ih =>
      obtain ⟨hmark, hmarks⟩ := List.forall_mem_cons.mp hmarks
      generalize htext : run ++ m :: rest = text at hothers
      cases hothers with
      | @mark _ _ run' rest' runs' hrun' hcut' =>
          have hsame : run' = run := by
            rw [← hrun'.takeWhile_append hmark rest', ← htext, hrun.takeWhile_append hmark]
          subst hsame
          obtain rfl : rest = rest' := List.tail_eq_of_cons_eq (List.append_cancel_left htext)
          rw [ih hmarks hcut']

theorem Cuts.mem (h : digits.Cuts marks text runs) {c : Char} (hc : c ∈ text) :
    digits.contains c = true ∨ c ∈ marks := by
  induction h with
  | last hrun => exact .inl (hrun.2 c hc)
  | mark hrun _ ih =>
      rcases List.mem_append.mp hc with hfront | hrest
      · exact .inl (hrun.2 c hfront)
      · rcases List.mem_cons.mp hrest with rfl | hrest
        · exact .inr List.mem_cons_self
        · exact (ih hrest).imp_right (List.mem_cons_of_mem _)

theorem yields_nil_iff {words : List UInt32} :
    digits.Yields [] text words ↔ ∃ word, words = [word] ∧ Denotes text word.toNat := by
  simp only [Yields, ← @isRun_and_signedWord?_iff digits]
  constructor
  · rintro ⟨runs, hcut, hwords⟩
    cases hcut with
    | last hrun =>
        obtain ⟨word, others, hword, hothers, rfl⟩ := List.forall₂_cons_left_iff.mp hwords
        rw [List.forall₂_nil_left_iff.mp hothers]
        exact ⟨word, rfl, hrun, hword⟩
  · rintro ⟨word, rfl, hrun, hword⟩
    exact ⟨[text], .last hrun, .cons hword .nil⟩

theorem yields_cons_iff {mark : Char} {words : List UInt32} :
    digits.Yields (mark :: marks) text words ↔ ∃ run rest word others,
      text = run ++ mark :: rest ∧ words = word :: others ∧ Denotes run word.toNat ∧
        digits.Yields marks rest others := by
  simp only [Yields, ← @isRun_and_signedWord?_iff digits]
  constructor
  · rintro ⟨runs, hcut, hwords⟩
    cases hcut with
    | @mark _ _ run rest runs hrun hcut =>
        obtain ⟨word, others, hword, hothers, rfl⟩ := List.forall₂_cons_left_iff.mp hwords
        exact ⟨run, rest, word, others, rfl, rfl, ⟨hrun, hword⟩, runs, hcut, hothers⟩
  · rintro ⟨run, rest, word, others, rfl, rfl, ⟨hrun, hword⟩, runs, hcut, hothers⟩
    exact ⟨run :: runs, .mark hrun hcut, .cons hword hothers⟩

theorem Cuts.isRun (h : digits.Cuts marks text runs) : ∀ run ∈ runs, digits.IsRun run := by
  induction h with
  | last hrun => exact List.forall_mem_singleton.mpr hrun
  | mark hrun _ ih => exact List.forall_mem_cons.mpr ⟨hrun, ih⟩

/-- A text that the pattern cuts says what its runs denote. -/
theorem Cuts.yields_iff (h : digits.Cuts marks text runs)
    (hmarks : ∀ mark ∈ marks, digits.contains mark = false) {words : List UInt32} :
    digits.Yields marks text words ↔
      List.Forall₂ (fun run word => Denotes run word.toNat) runs words := by
  simp only [← @isRun_and_signedWord?_iff digits, List.forall₂_and_left]
  constructor
  · rintro ⟨found, hcut, hwords⟩
    obtain rfl := h.unique hmarks hcut
    exact ⟨h.isRun, hwords⟩
  · rintro ⟨-, hwords⟩
    exact ⟨runs, h, hwords⟩

/-- A text that says something holds digits 0 to 9 and marks, and nothing else. -/
theorem mem_of_yields {words : List UInt32} (h : ascii.Yields marks text words) :
    ∀ c ∈ text, '0' ≤ c ∧ c ≤ '9' ∨ c ∈ marks := by
  obtain ⟨runs, hcut, -⟩ := h
  intro c hc
  exact (hcut.mem hc).imp_left of_decide_eq_true

end DigitClass

namespace SequencePoint

/-- The marks between the numbers of a sequence point. -/
def marks : List Char := ['[', ']', ':', '-', ':']

def words (point : SequencePoint) : List UInt32 :=
  [point.address, point.document, point.start.line, point.start.column, point.stop.line,
    point.stop.column]

variable {digits : DigitClass} {text : List Char} {point : SequencePoint}

theorem contains_marks : ∀ mark ∈ marks, digits.contains mark = false := by
  simp only [marks, List.forall_mem_cons]
  refine ⟨?_, ?_, ?_, ?_, ?_, List.forall_mem_nil _⟩
  all_goals exact DigitClass.contains_eq_false (by decide) (by decide)

theorem yields_iff_encodedBy : digits.Yields marks text point.words ↔ point.EncodedBy text := by
  simp only [marks, words, DigitClass.yields_cons_iff, DigitClass.yields_nil_iff]
  constructor
  · rintro ⟨address, _, _, _, rfl, hwords, haddress, document, _, _, _, rfl, rfl, hdocument,
      line, _, _, _, rfl, rfl, hline, column, _, _, _, rfl, rfl, hcolumn,
      stopLine, stopColumn, _, _, rfl, rfl, hstopLine, _, rfl, hstopColumn⟩
    cases hwords
    exact ⟨address, document, line ++ ':' :: column, stopLine ++ ':' :: stopColumn, by simp,
      haddress, hdocument, ⟨line, column, rfl, hline, hcolumn⟩,
      ⟨stopLine, stopColumn, rfl, hstopLine, hstopColumn⟩⟩
  · rintro ⟨address, document, _, _, rfl, haddress, hdocument,
      ⟨line, column, rfl, hline, hcolumn⟩, ⟨stopLine, stopColumn, rfl, hstopLine, hstopColumn⟩⟩
    exact ⟨address, _, _, _, by simp, rfl, haddress, document, _, _, _, rfl, rfl, hdocument,
      line, _, _, _, rfl, rfl, hline, column, _, _, _, rfl, rfl, hcolumn,
      stopLine, stopColumn, _, _, rfl, rfl, hstopLine, _, rfl, hstopColumn⟩

/-- Six words are a sequence point. -/
theorem exists_words_eq {words : List UInt32} (h : digits.Yields marks text words) :
    ∃ point : SequencePoint, words = point.words := by
  simp only [marks, DigitClass.yields_cons_iff, DigitClass.yields_nil_iff] at h
  obtain ⟨_, _, address, _, -, rfl, -, _, _, document, _, -, rfl, -, _, _, line, _, -, rfl, -,
    _, _, column, _, -, rfl, -, _, _, stopLine, _, -, rfl, -, stopColumn, rfl, -⟩ := h
  exact ⟨⟨address, document, ⟨line, column⟩, ⟨stopLine, stopColumn⟩⟩, rfl⟩

theorem parse_eq_ok_iff_yields {text : String} :
    parse text = .ok point ↔ digits.Yields marks text.toList point.words :=
  parse_eq_ok_iff.trans yields_iff_encodedBy.symm

/-- Of the texts that the pattern cuts, those are read whose runs are numbers of 32 bits. -/
theorem exists_parse_iff_of_cuts {text : String} {runs : List (List Char)}
    (h : digits.Cuts marks text.toList runs) :
    (∃ point, parse text = .ok point) ↔ ∀ run ∈ runs, ∃ n < UInt32.size, Denotes run n := by
  simp only [@parse_eq_ok_iff_yields digits, h.yields_iff contains_marks]
  constructor
  · rintro ⟨point, hwords⟩ run hrun
    obtain ⟨word, -, hword⟩ := Forall₂.exists_of_mem_left hwords hrun
    exact ⟨word.toNat, word.toNat_lt, hword⟩
  · intro hruns
    have hword : ∀ run ∈ runs, ∃ word : UInt32, Denotes run word.toNat := by
      intro run hrun
      obtain ⟨n, hsmall, hdenotes⟩ := hruns run hrun
      exact ⟨.ofNat n, by rwa [UInt32.toNat_ofNat_of_lt' hsmall]⟩
    obtain ⟨words, hwords⟩ := Forall₂.exists_of_forall_mem hword
    obtain ⟨point, rfl⟩ := exists_words_eq ((h.yields_iff contains_marks).mpr hwords)
    exact ⟨point, hwords⟩

theorem encodedBy_chars (point : SequencePoint) : point.EncodedBy point.chars :=
  ⟨_, _, _, _, rfl, Decimal.denotes_digits _, Decimal.denotes_digits _,
    ⟨_, _, rfl, Decimal.denotes_digits _, Decimal.denotes_digits _⟩,
    ⟨_, _, rfl, Decimal.denotes_digits _, Decimal.denotes_digits _⟩⟩

end SequencePoint

namespace AddressRange

/-- The mark between the addresses of a range. -/
def marks : List Char := ['-']

def words (range : AddressRange) : List UInt32 :=
  [range.first, range.last]

variable {digits : DigitClass} {text : List Char} {range : AddressRange}

theorem contains_marks : ∀ mark ∈ marks, digits.contains mark = false :=
  List.forall_mem_singleton.mpr (DigitClass.contains_eq_false (by decide) (by decide))

theorem yields_iff_encodedBy : digits.Yields marks text range.words ↔ range.EncodedBy text := by
  simp only [marks, words, DigitClass.yields_cons_iff, DigitClass.yields_nil_iff]
  constructor
  · rintro ⟨first, last, _, _, rfl, hwords, hfirst, _, rfl, hlast⟩
    cases hwords
    exact ⟨first, last, rfl, hfirst, hlast⟩
  · rintro ⟨first, last, rfl, hfirst, hlast⟩
    exact ⟨first, last, _, _, rfl, rfl, hfirst, _, rfl, hlast⟩

theorem parse_eq_ok_iff_yields {text : String} :
    parse text = .ok range ↔ digits.Yields marks text.toList range.words :=
  parse_eq_ok_iff.trans yields_iff_encodedBy.symm

/-- Of the texts that the pattern cuts, those are read whose runs are ascending numbers of 32
bits. -/
theorem exists_parse_iff_of_cuts {text : String} {runs : List (List Char)}
    (h : digits.Cuts marks text.toList runs) :
    (∃ range, parse text = .ok range) ↔
      ∃ first last, List.Forall₂ Denotes runs [first, last] ∧ first ≤ last ∧
        last < UInt32.size := by
  simp only [@parse_eq_ok_iff_yields digits, h.yields_iff contains_marks]
  constructor
  · rintro ⟨range, hwords⟩
    exact ⟨range.first.toNat, range.last.toNat, List.forall₂_map_right_iff.mpr hwords,
      range.ordered, range.last.toNat_lt⟩
  · rintro ⟨first, last, hdenotes, hordered, hsmall⟩
    have hfirst := UInt32.toNat_ofNat_of_lt' (Nat.lt_of_le_of_lt hordered hsmall)
    have hlast := UInt32.toNat_ofNat_of_lt' hsmall
    let range : AddressRange := ⟨.ofNat first, .ofNat last, by
      rwa [UInt32.le_iff_toNat_le, hfirst, hlast]⟩
    have hwords : List.Forall₂ Denotes runs (range.words.map UInt32.toNat) := by
      rwa [words, List.map_cons, List.map_singleton, hfirst, hlast]
    exact ⟨range, List.forall₂_map_right_iff.mp hwords⟩

theorem encodedBy_chars (range : AddressRange) : range.EncodedBy range.chars :=
  ⟨_, _, rfl, Decimal.denotes_digits _, Decimal.denotes_digits _⟩

end AddressRange

/-- Sequence points and ranges are exactly the texts of their grammars, and each says the numbers
that stand in it. Reading in two passes comes to the same whatever other digits the pattern
takes: of the texts that it cuts, those are read whose runs are numbers of 32 bits, those of a
range not descending. So nothing but the digits 0 to 9 and the marks stands in a text that is
read, and what is printed is read back. -/
theorem points_and_ranges_exact (digits : DigitClass) (text : String) :
    (∀ point, SequencePoint.parse text = .ok point ↔ point.EncodedBy text.toList) ∧
    (∀ point, SequencePoint.parse text = .ok point ↔
      digits.Yields SequencePoint.marks text.toList point.words) ∧
    (∀ runs, digits.Cuts SequencePoint.marks text.toList runs →
      ((∃ point, SequencePoint.parse text = .ok point) ↔
        ∀ run ∈ runs, ∃ n < 2 ^ 32, Denotes run n)) ∧
    (∀ point, SequencePoint.parse text = .ok point →
      ∀ c ∈ text.toList, '0' ≤ c ∧ c ≤ '9' ∨ c ∈ SequencePoint.marks) ∧
    (∀ point : SequencePoint, SequencePoint.parse (String.ofList point.chars) = .ok point) ∧
    (∀ range, AddressRange.parse text = .ok range ↔ range.EncodedBy text.toList) ∧
    (∀ range, AddressRange.parse text = .ok range ↔
      digits.Yields AddressRange.marks text.toList range.words) ∧
    (∀ runs, digits.Cuts AddressRange.marks text.toList runs →
      ((∃ range, AddressRange.parse text = .ok range) ↔
        ∃ first last, List.Forall₂ Denotes runs [first, last] ∧ first ≤ last ∧ last < 2 ^ 32)) ∧
    (∀ range, AddressRange.parse text = .ok range →
      ∀ c ∈ text.toList, '0' ≤ c ∧ c ≤ '9' ∨ c ∈ AddressRange.marks) ∧
    ∀ range : AddressRange, AddressRange.parse (String.ofList range.chars) = .ok range := by
  refine ⟨fun _ => SequencePoint.parse_eq_ok_iff, fun _ => SequencePoint.parse_eq_ok_iff_yields,
    fun _ => SequencePoint.exists_parse_iff_of_cuts, ?pointChars, ?pointBack,
    fun _ => AddressRange.parse_eq_ok_iff, fun _ => AddressRange.parse_eq_ok_iff_yields,
    fun _ => AddressRange.exists_parse_iff_of_cuts, ?rangeChars, ?rangeBack⟩
  case pointChars =>
    intro point hpoint
    exact DigitClass.mem_of_yields (SequencePoint.parse_eq_ok_iff_yields.mp hpoint)
  case pointBack =>
    intro point
    rw [SequencePoint.parse_eq_ok_iff, String.toList_ofList]
    exact point.encodedBy_chars
  case rangeChars =>
    intro range hrange
    exact DigitClass.mem_of_yields (AddressRange.parse_eq_ok_iff_yields.mp hrange)
  case rangeBack =>
    intro range
    rw [AddressRange.parse_eq_ok_iff, String.toList_ofList]
    exact range.encodedBy_chars

end ScriptCoverage
