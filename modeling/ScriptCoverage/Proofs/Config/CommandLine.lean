import ScriptCoverage.Config.CommandLine
import ScriptCoverage.Proofs.Data.Except

/-!
What the parser of the command line keeps. A line grows in two ways only, by a value that is
accepted and by a count of the verbose flag; what both keep holds of every line that is parsed.
So an option that may not be repeated has one value at most.
-/

namespace ScriptCoverage.CommandLine

variable {line next : CommandLine} {option : ValueOption} {value : String}

theorem mem_valuesOf_iff : value ∈ line.valuesOf option ↔ (option, value) ∈ line.values := by
  simp only [valuesOf, List.mem_filterMap, Option.ite_none_right_eq_some, Option.some.injEq,
    Prod.exists]
  constructor
  · rintro ⟨_, _, hmem, rfl, rfl⟩
    exact hmem
  · exact fun hmem => ⟨option, value, hmem, rfl, rfl⟩

/-- What the two ways in which a line grows keep. -/
structure Preserved (P : CommandLine → Prop) : Prop where
  accept : ∀ {line next : CommandLine} {option : ValueOption} {value : String},
    P line → line.accept option value = .ok next → P next
  count : ∀ {line : CommandLine}, P line → P { line with verbose := line.verbose + 1 }

namespace Preserved

open Progress

variable {P : CommandLine → Prop} {progress last : Progress}

theorem settle (hP : Preserved P) (h : P progress.line) (hsettle : progress.settle = .ok line) :
    P line := by
  unfold Progress.settle at hsettle
  split at hsettle
  · cases hsettle
    exact h
  · cases hsettle
  · exact hP.accept h hsettle

theorem setFlag (hP : Preserved P) {flag : Flag} (h : P progress.line)
    (hset : progress.setFlag flag = .ok last) : P last.line := by
  obtain ⟨line, hsettle, hflag⟩ := Except.bind_eq_ok_iff.mp hset
  cases flag with
  | help => cases hflag
  | version => cases hflag
  | verbose =>
      cases hflag
      exact hP.count (hP.settle h hsettle)

theorem setValue (hP : Preserved P) {value : Option (List Char)} (h : P progress.line)
    (hset : progress.setValue option value = .ok last) : P last.line := by
  obtain ⟨line, hsettle, hvalue⟩ := Except.bind_eq_ok_iff.mp hset
  cases value with
  | none =>
      cases hvalue
      exact hP.settle h hsettle
  | some value =>
      obtain ⟨next, haccept, rfl⟩ := Except.map_eq_ok_iff.mp hvalue
      exact hP.accept (hP.settle h hsettle) haccept

theorem takeLong (hP : Preserved P) {body : List Char} (h : P progress.line)
    (htake : progress.takeLong body = .ok last) : P last.line := by
  unfold Progress.takeLong at htake
  split at htake
  split at htake
  · cases htake
  · exact hP.setValue h htake
  · exact hP.setFlag h htake
  · cases htake

/-- Flags come one after another; a letter that takes a value ends the argument. -/
theorem takeLetters (hP : Preserved P) {letters : List Char} (h : P progress.line)
    (htake : progress.takeLetters letters = .ok last) : P last.line := by
  induction letters generalizing progress with
  | nil =>
      cases htake
      exact h
  | cons letter rest ih =>
      unfold Progress.takeLetters at htake
      split at htake
      · cases htake
      · obtain ⟨next, hset, hrest⟩ := Except.bind_eq_ok_iff.mp htake
        exact ih (hP.setFlag h hset) hrest
      · split at htake <;> exact hP.setValue h htake

theorem takeValue {value : List Char} (h : P progress.line)
    (htake : progress.takeValue value = .ok last) : P last.line := by
  unfold Progress.takeValue at htake
  split at htake
  · cases htake
    exact h
  · cases htake

theorem takeAll (hP : Preserved P) {arguments : List (List Char)} (h : P progress.line)
    (htake : progress.takeAll arguments = .ok last) : P last.line := by
  induction arguments generalizing progress with
  | nil =>
      cases htake
      exact h
  | cons argument rest ih =>
      unfold Progress.takeAll at htake
      split at htake
      · split at htake
        · cases htake
          exact h
        · cases htake
      · obtain ⟨next, hlong, hrest⟩ := Except.bind_eq_ok_iff.mp htake
        exact ih (hP.takeLong h hlong) hrest
      · obtain ⟨next, hletters, hrest⟩ := Except.bind_eq_ok_iff.mp htake
        exact ih (hP.takeLetters h hletters) hrest
      · obtain ⟨next, hvalue, hrest⟩ := Except.bind_eq_ok_iff.mp htake
        exact ih (takeValue h hvalue) hrest

theorem parse (hP : Preserved P) (hempty : P empty) {arguments : List String}
    (hparse : CommandLine.parse arguments = .ok line) : P line := by
  obtain ⟨progress, htake, hsettle⟩ := Except.bind_eq_ok_iff.mp hparse
  exact hP.settle (hP.takeAll hempty htake) hsettle

end Preserved

/-- No option but those that may be repeated has two values. -/
def SingleValued (line : CommandLine) : Prop :=
  ∀ option : ValueOption, option.isRepeatable = false → (line.valuesOf option).length ≤ 1

/-- A value is added at the end, to an option that had none unless it may be repeated. -/
theorem of_accept_eq_ok (h : line.accept option value = .ok next) :
    (option.isRepeatable = false → line.valuesOf option = []) ∧
      ∀ other, next.valuesOf other =
        line.valuesOf other ++ if option = other then [value] else [] := by
  unfold accept at h
  split at h
  · cases h
  · rename_i hconflict
    split at h
    · cases h
    · cases h
      refine ⟨fun hrepeatable => ?_, fun other => ?_⟩
      · simpa [hrepeatable] using hconflict
      · by_cases hother : option = other
        · simp [valuesOf, hother]
        · simp [valuesOf, hother]

theorem preserved_singleValued : Preserved SingleValued where
  accept := by
    intro line next option value h haccept other hother
    obtain ⟨hnone, hvalues⟩ := of_accept_eq_ok haccept
    rw [hvalues]
    by_cases hoption : option = other
    · subst hoption
      simp [hnone hother]
    · simpa [hoption] using h other hother
  count h := h

theorem singleValued_empty : SingleValued empty :=
  fun _ _ => Nat.zero_le 1

theorem singleValued_of_parse {arguments : List String} (h : parse arguments = .ok line) :
    SingleValued line :=
  preserved_singleValued.parse singleValued_empty h

/-- The value that is given for an option is its first one, as there is no other. -/
theorem SingleValued.head?_valuesOf (h : line.SingleValued) (hoption : option.isRepeatable = false)
    (hmem : (option, value) ∈ line.values) : (line.valuesOf option).head? = some value := by
  have hvalue := mem_valuesOf_iff.mpr hmem
  have hlength := h option hoption
  cases hvalues : line.valuesOf option with
  | nil => simp [hvalues] at hvalue
  | cons first rest =>
      rw [hvalues] at hvalue hlength
      obtain rfl : rest = [] := List.length_eq_zero_iff.mp (by simpa using hlength)
      rw [List.mem_singleton.mp hvalue, List.head?_cons]

end ScriptCoverage.CommandLine
