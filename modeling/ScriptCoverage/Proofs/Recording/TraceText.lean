import Mathlib.Data.List.ReduceOption
import ScriptCoverage.Proofs.Data.Except
import ScriptCoverage.Proofs.Text.Decimal
import ScriptCoverage.Recording.Trace

/-!
The text of a trace, line by line. A line is refused if it is a branch that ends neither at its
own address nor at its offset; every other line yields at most one record and at most one
warning, whatever stands around it. The first line that is refused decides that the trace is,
and a trace without one gives what its lines yield.
-/

namespace ScriptCoverage.Trace

/-- A line of numbers with blanks between them, which does not start as a hash does. -/
structure ConsistsOf (line : List Char) (numbers : List UInt32) : Prop where
  unmarked : ContractHash.isMarked (Text.trim line) = false
  numerals : List.Forall₂ Decimal.IsNumeral (Text.words line) numbers

/-- Why a line refuses its trace. -/
inductive Refuses (line : List Char) : FormatError → Prop where
  | mismatch {address offset result : UInt32}
      (numbers : ConsistsOf line [address, offset, result])
      (neither : result ≠ address ∧ result ≠ offset) :
      Refuses line (.branchResultMismatch address offset result)

/-- What a line adds to a reading. -/
structure Yield where
  record : Option TraceRecord
  warning : Option Warning

/-- What each form of a line yields; a line that is refused yields nothing, not even this. -/
inductive Yields (source : String) (number : Nat) (line : List Char) : Yield → Prop where
  | contract {hash : ContractHash} (marked : ContractHash.isMarked (Text.trim line) = true)
      (reads : ContractHash.parse? (Text.trim line) = some hash) :
      Yields source number line ⟨some (.contract hash), none⟩
  | unknownContract (marked : ContractHash.isMarked (Text.trim line) = true)
      (unread : ContractHash.parse? (Text.trim line) = none) :
      Yields source number line
        ⟨some .unknownContract, some (lineWarning source number "invalid contract hash" line)⟩
  | hit {address : UInt32} (numbers : ConsistsOf line [address]) :
      Yields source number line ⟨some (.hit address), none⟩
  | branch {address offset result : UInt32}
      (numbers : ConsistsOf line [address, offset, result])
      (either : result = address ∨ result = offset) :
      Yields source number line ⟨some (.branch address offset result), none⟩
  | other (unmarked : ContractHash.isMarked (Text.trim line) = false)
      (notBlank : ¬∀ c ∈ line, Text.isBlank c = true)
      (notHit : ∀ address, ¬ConsistsOf line [address])
      (notBranch : ∀ address offset result, ¬ConsistsOf line [address, offset, result]) :
      Yields source number line
        ⟨none, some (lineWarning source number "ignoring unparseable line" line)⟩
  | blank (blank : ∀ c ∈ line, Text.isBlank c = true) : Yields source number line ⟨none, none⟩

/-- Lines yield one after the other, the first of them with the given number. -/
def YieldAll (source : String) (number : Nat) (lines : List (List Char))
    (yields : List Yield) : Prop :=
  List.Forall₂ (fun (line, number) yield => Yields source number line yield)
    (lines.zipIdx number) yields

variable {source : String} {number : Nat} {line : List Char}

theorem consistsOf_iff {numbers : List UInt32} :
    ConsistsOf line numbers ↔ ContractHash.isMarked (Text.trim line) = false ∧
      (Text.words (Text.trim line)).mapM Decimal.signedWord? = some numbers := by
  have hnumerals : (Text.words (Text.trim line)).mapM Decimal.signedWord? = some numbers ↔
      List.Forall₂ Decimal.IsNumeral (Text.words line) numbers := by
    rw [Text.words_trim, Option.mapM_eq_some_iff]
    simp only [Decimal.signedWord?_eq_some_iff]
  rw [hnumerals]
  exact ⟨fun ⟨hunmarked, hwords⟩ => ⟨hunmarked, hwords⟩,
    fun ⟨hunmarked, hwords⟩ => ⟨hunmarked, hwords⟩⟩

theorem parseLine_of_consistsOf {numbers : List UInt32} (h : ConsistsOf line numbers) :
    parseLine line = ofNumbers numbers := by
  obtain ⟨hunmarked, hnumbers⟩ := consistsOf_iff.mp h
  simp only [parseLine, hunmarked, hnumbers, Bool.false_eq_true, if_false]

theorem parseLine_of_refuses {cause : FormatError} (h : Refuses line cause) :
    parseLine line = .error cause := by
  cases h with
  | mismatch numbers neither =>
      rw [parseLine_of_consistsOf numbers, ofNumbers, if_neg (not_or.mpr neither)]

theorem parseLine_of_other (unmarked : ContractHash.isMarked (Text.trim line) = false)
    (notHit : ∀ address, ¬ConsistsOf line [address])
    (notBranch : ∀ address offset result, ¬ConsistsOf line [address, offset, result]) :
    parseLine line = .ok none := by
  cases hnumbers : (Text.words (Text.trim line)).mapM Decimal.signedWord? with
  | none => simp only [parseLine, unmarked, hnumbers, Bool.false_eq_true, if_false]
  | some numbers =>
      have hconsists : ConsistsOf line numbers := consistsOf_iff.mpr ⟨unmarked, hnumbers⟩
      rw [parseLine_of_consistsOf hconsists]
      unfold ofNumbers
      split
      · exact absurd hconsists (notHit _)
      · exact absurd hconsists (notBranch _ _ _)
      · rfl

theorem parseLine_of_blank (h : ∀ c ∈ line, Text.isBlank c = true) :
    parseLine line = .ok none := by
  have htrim : Text.trim line = [] := Text.trim_eq_nil_iff.mpr h
  rw [parseLine, htrim]
  rfl

/-- A line that yields something is read as its record. -/
theorem parseLine_of_yields {yield : Yield} (h : Yields source number line yield) :
    parseLine line = .ok yield.record := by
  cases h with
  | contract marked reads => simp only [parseLine, marked, reads, if_true]
  | unknownContract marked unread => simp only [parseLine, marked, unread, if_true]
  | hit numbers => exact parseLine_of_consistsOf numbers
  | branch numbers either => rw [parseLine_of_consistsOf numbers, ofNumbers, if_pos either]
  | other unmarked notBlank notHit notBranch =>
      exact parseLine_of_other unmarked notHit notBranch
  | blank blank => exact parseLine_of_blank blank

theorem Yields.not_refuses {yield : Yield} (h : Yields source number line yield)
    (cause : FormatError) : ¬Refuses line cause := by
  intro hrefuses
  have hok := parseLine_of_yields h
  rw [parseLine_of_refuses hrefuses] at hok
  cases hok

/-- Every line is refused or yields something. -/
theorem refuses_or_yields (source : String) (number : Nat) (line : List Char) :
    (∃ cause, Refuses line cause) ∨ ∃ yield, Yields source number line yield := by
  by_cases hmarked : ContractHash.isMarked (Text.trim line) = true
  · right
    cases hhash : ContractHash.parse? (Text.trim line) with
    | none => exact ⟨_, .unknownContract hmarked hhash⟩
    | some hash => exact ⟨_, .contract hmarked hhash⟩
  rw [Bool.not_eq_true] at hmarked
  by_cases hhit : ∃ address, ConsistsOf line [address]
  · obtain ⟨address, hnumbers⟩ := hhit
    exact .inr ⟨_, .hit hnumbers⟩
  by_cases hbranch : ∃ address offset result, ConsistsOf line [address, offset, result]
  · obtain ⟨address, offset, result, hnumbers⟩ := hbranch
    by_cases heither : result = address ∨ result = offset
    · exact .inr ⟨_, .branch hnumbers heither⟩
    · exact .inl ⟨_, .mismatch hnumbers (not_or.mp heither)⟩
  right
  by_cases hblank : ∀ c ∈ line, Text.isBlank c = true
  · exact ⟨_, .blank hblank⟩
  · refine ⟨_, .other hmarked hblank (not_exists.mp hhit) fun address offset result h => ?_⟩
    exact hbranch ⟨address, offset, result, h⟩

/-- A reading with what some lines before it yielded. -/
def Reading.after (yields : List Yield) (rest : Reading) : Reading where
  records := rest.records.map (yields.filterMap (·.record) ++ ·)
  warnings := yields.filterMap (·.warning) ++ rest.warnings

theorem Reading.after_cons (yield : Yield) (yields : List Yield) (rest : Reading) :
    rest.after (yield :: yields) = (rest.after yields).after [yield] := by
  obtain ⟨records, warnings⟩ := rest
  obtain ⟨record, warning⟩ := yield
  cases records <;> cases record <;> cases warning <;> rfl

theorem Reading.after_nil (rest : Reading) : rest.after [] = rest := by
  obtain ⟨records, warnings⟩ := rest
  cases records <;> rfl

/-- A line puts what it yields in front of what the lines behind it give. -/
theorem parseLines_cons {yield : Yield} (h : Yields source number line yield)
    (rest : List (List Char)) :
    parseLines source number (line :: rest) =
      (parseLines source (number + 1) rest).after [yield] := by
  rw [parseLines, parseLine_of_yields h]
  cases h with
  | contract marked reads => rfl
  | unknownContract marked unread => rfl
  | hit numbers => rfl
  | branch numbers either => rfl
  | other unmarked notBlank notHit notBranch =>
      have hvisible : (Text.trim line).isEmpty = false := by
        rw [List.isEmpty_eq_false_iff]
        exact fun htrim => notBlank (Text.trim_eq_nil_iff.mp htrim)
      simp only [hvisible]
      cases hrest : (parseLines source (number + 1) rest).records <;>
        simp [Reading.after, Reading.pushWarning, hrest, Except.map]
  | blank blank =>
      rw [Text.trim_eq_nil_iff.mpr blank]
      exact (Reading.after_nil _).symm

theorem Reading.after_ok (yields : List Yield) :
    Reading.after yields ⟨.ok [], []⟩ =
      ⟨.ok (yields.filterMap (·.record)), yields.filterMap (·.warning)⟩ := by
  simp [Reading.after, Except.map]

/-- Lines put what they yield in front of what the lines behind them give. -/
theorem parseLines_append {before : List (List Char)} {yields : List Yield}
    (h : YieldAll source number before yields) (rest : List (List Char)) :
    parseLines source number (before ++ rest) =
      (parseLines source (number + before.length) rest).after yields := by
  induction before generalizing number yields with
  | nil =>
      cases h
      exact (Reading.after_nil _).symm
  | cons line before ih =>
      obtain _ | ⟨hline, hbefore⟩ := h
      rw [List.cons_append, parseLines_cons hline, ih hbefore, ← Reading.after_cons,
        List.length_cons, Nat.add_assoc, Nat.add_comm 1]

theorem parseLines_of_yieldAll {lines : List (List Char)} {yields : List Yield}
    (h : YieldAll source number lines yields) :
    parseLines source number lines =
      ⟨.ok (yields.filterMap (·.record)), yields.filterMap (·.warning)⟩ := by
  rw [← List.append_nil lines, parseLines_append h, parseLines, Reading.after_ok]

theorem parseLines_of_refuses {before after : List (List Char)} {yields : List Yield}
    {cause : FormatError} (h : YieldAll source number before yields)
    (hrefuses : Refuses line cause) :
    parseLines source number (before ++ line :: after) =
      ⟨.error ⟨source, number + before.length, cause⟩, yields.filterMap (·.warning)⟩ := by
  rw [parseLines_append h, parseLines, parseLine_of_refuses hrefuses]
  simp [Reading.after, Except.map]

/-- All lines yield something, or there is a first one that is refused. -/
theorem yieldAll_or_refused (source : String) (number : Nat) (lines : List (List Char)) :
    (∃ yields, YieldAll source number lines yields) ∨
      ∃ before line after yields cause, lines = before ++ line :: after ∧
        YieldAll source number before yields ∧ Refuses line cause := by
  induction lines generalizing number with
  | nil => exact .inl ⟨[], .nil⟩
  | cons line rest ih =>
      rcases refuses_or_yields source number line with ⟨cause, hline⟩ | ⟨yield, hline⟩
      · exact .inr ⟨[], line, rest, [], cause, rfl, .nil, hline⟩
      · rcases ih (number + 1) with
          ⟨yields, hrest⟩ | ⟨before, refused, after, yields, cause, rfl, hbefore, hrefuses⟩
        · exact .inl ⟨yield :: yields, .cons hline hrest⟩
        · exact .inr ⟨line :: before, refused, after, yield :: yields, cause, rfl,
            .cons hline hbefore, hrefuses⟩

theorem YieldAll.not_refuses {lines : List (List Char)} {yields : List Yield}
    (h : YieldAll source number lines yields) :
    ∀ line ∈ lines, ∀ cause, ¬Refuses line cause := by
  induction lines generalizing number yields with
  | nil => simp
  | cons line rest ih =>
      obtain _ | ⟨hline, hrest⟩ := h
      exact List.forall_mem_cons.mpr ⟨hline.not_refuses, ih hrest⟩

/-- A trace is refused for its first line that is. -/
structure RefusedAt (source : String) (before : List (List Char)) (line : List Char)
    (e : ParseError) : Prop where
  first : ∀ earlier ∈ before, ∀ cause, ¬Refuses earlier cause
  refuses : Refuses line e.cause
  number : e.line = before.length + 1
  source : e.source = source

theorem exists_yieldAll_of_not_refuses (source : String) (number : Nat)
    {lines : List (List Char)} (h : ∀ line ∈ lines, ∀ cause, ¬Refuses line cause) :
    ∃ yields, YieldAll source number lines yields := by
  rcases yieldAll_or_refused source number lines with
    hyields | ⟨before, line, after, yields, cause, rfl, -, hrefuses⟩
  · exact hyields
  · have hmem : line ∈ before ++ line :: after :=
      List.mem_append_right _ List.mem_cons_self
    exact absurd hrefuses (h line hmem cause)

theorem records_parse_eq_error_iff {text : List Char} {e : ParseError} :
    (parse text source).records = .error e ↔ ∃ before line after,
      Text.lines text = before ++ line :: after ∧ RefusedAt source before line e := by
  unfold parse
  constructor
  · intro herror
    rcases yieldAll_or_refused source 1 (Text.lines text) with
      ⟨yields, hyields⟩ | ⟨before, line, after, yields, cause, hlines, hbefore, hrefuses⟩
    · rw [parseLines_of_yieldAll hyields] at herror
      cases herror
    · rw [hlines, parseLines_of_refuses hbefore hrefuses] at herror
      cases herror
      exact ⟨before, line, after, hlines,
        ⟨hbefore.not_refuses, hrefuses, Nat.add_comm _ _, rfl⟩⟩
  · rintro ⟨before, line, after, hlines, hfirst, hrefuses, hnumber, hsource⟩
    obtain ⟨yields, hbefore⟩ := exists_yieldAll_of_not_refuses source 1 hfirst
    rw [hlines, parseLines_of_refuses hbefore hrefuses]
    obtain ⟨source', number, cause⟩ := e
    cases hnumber
    cases hsource
    rw [Nat.add_comm]

theorem parse_eq_ok_iff {text : List Char} {records : List TraceRecord}
    {warnings : List Warning} :
    parse text source = ⟨.ok records, warnings⟩ ↔ ∃ yields,
      YieldAll source 1 (Text.lines text) yields ∧
        records = yields.filterMap (·.record) ∧ warnings = yields.filterMap (·.warning) := by
  unfold parse
  constructor
  · intro hok
    rcases yieldAll_or_refused source 1 (Text.lines text) with
      ⟨yields, hyields⟩ | ⟨before, line, after, yields, cause, hlines, hbefore, hrefuses⟩
    · rw [parseLines_of_yieldAll hyields] at hok
      cases hok
      exact ⟨yields, hyields, rfl, rfl⟩
    · rw [hlines, parseLines_of_refuses hbefore hrefuses] at hok
      cases hok
  · rintro ⟨yields, hyields, rfl, rfl⟩
    exact parseLines_of_yieldAll hyields

/-- The records of a trace are those of its lines, whose numbers only show in warnings. -/
theorem records_parseLines_eq_ok_iff {lines : List (List Char)} {records : List TraceRecord} :
    (parseLines source number lines).records = .ok records ↔
      ∃ found, lines.mapM parseLine = .ok found ∧ records = found.reduceOption := by
  induction lines generalizing number records with
  | nil =>
      constructor
      · intro hok
        cases hok
        exact ⟨[], rfl, rfl⟩
      · rintro ⟨found, hfound, rfl⟩
        cases hfound
        rfl
  | cons line rest ih =>
      rw [List.mapM_cons]
      rcases refuses_or_yields source number line with ⟨cause, hline⟩ | ⟨yield, hline⟩
      · rw [parseLines, parseLine_of_refuses hline]
        constructor
        · intro hok
          cases hok
        · rintro ⟨found, hfound, -⟩
          cases hfound
      · rw [parseLines_cons hline, parseLine_of_yields hline, Except.ok_bind]
        have hrecords (found : List (Option TraceRecord)) :
            [yield].filterMap (·.record) ++ found.reduceOption =
              (yield.record :: found).reduceOption := by
          cases hrecord : yield.record <;> simp [hrecord]
        change Except.map _ _ = _ ↔ _
        rw [Except.map_eq_ok_iff]
        simp only [ih]
        constructor
        · rintro ⟨_, ⟨found, hfound, rfl⟩, rfl⟩
          exact ⟨yield.record :: found, by rw [hfound]; rfl, hrecords found⟩
        · rintro ⟨_, hcons, rfl⟩
          obtain ⟨found, hfound, hpure⟩ := Except.bind_eq_ok_iff.mp hcons
          cases hpure
          exact ⟨_, ⟨found, hfound, rfl⟩, hrecords found⟩

/-- A trace with an inconsistent branch is not read. -/
theorem either_of_mem_parse {text : List Char} {records : List TraceRecord}
    (accepted : (parse text source).records = .ok records) {address offset result : UInt32}
    (h : .branch address offset result ∈ records) : result = address ∨ result = offset := by
  obtain ⟨found, hfound, rfl⟩ := records_parseLines_eq_ok_iff.mp accepted
  obtain ⟨line, -, hline⟩ :=
    Except.exists_of_mem_mapM hfound (List.reduceOption_mem_iff.mp h)
  rcases refuses_or_yields source 1 line with ⟨cause, hrefuses⟩ | ⟨yield, hyields⟩
  · rw [parseLine_of_refuses hrefuses] at hline
    cases hline
  · rw [parseLine_of_yields hyields] at hline
    cases hyields with
    | branch numbers either =>
        cases hline
        exact either
    | _ => cases hline

theorem records_parse_append {text rest : List Char} (ends : Text.EndsLine text)
    {records : List TraceRecord} :
    (parse (text ++ rest) source).records = .ok records ↔ ∃ first second,
      (parse text source).records = .ok first ∧ (parse rest source).records = .ok second ∧
        records = first ++ second := by
  simp only [parse, Text.lines_append ends, records_parseLines_eq_ok_iff, List.mapM_append]
  constructor
  · rintro ⟨_, hfound, rfl⟩
    obtain ⟨first, hfirst, hfound⟩ := Except.bind_eq_ok_iff.mp hfound
    obtain ⟨second, hsecond, hfound⟩ := Except.bind_eq_ok_iff.mp hfound
    cases hfound
    exact ⟨_, _, ⟨first, hfirst, rfl⟩, ⟨second, hsecond, rfl⟩, List.reduceOption_append _ _⟩
  · rintro ⟨_, _, ⟨first, hfirst, rfl⟩, ⟨second, hsecond, rfl⟩, rfl⟩
    refine ⟨first ++ second, ?_, (List.reduceOption_append _ _).symm⟩
    rw [hfirst, hsecond]
    rfl

/-- The reader accepts exactly the traces without a refused line. It names the first such
line if there is one, by its number; otherwise it gives the records and the warnings that the
lines yield, in their order. So texts whose parts end with a line can be read part by part. -/
theorem parse_line_grammar (text : List Char) (source : String) :
    ((∃ e, (parse text source).records = .error e) ↔
      ∃ line ∈ Text.lines text, ∃ cause, Refuses line cause) ∧
    (∀ e, (parse text source).records = .error e ↔ ∃ before line after,
      Text.lines text = before ++ line :: after ∧ RefusedAt source before line e) ∧
    (∀ records warnings, parse text source = ⟨.ok records, warnings⟩ ↔ ∃ yields,
      YieldAll source 1 (Text.lines text) yields ∧
        records = yields.filterMap (·.record) ∧ warnings = yields.filterMap (·.warning)) ∧
    (Text.EndsLine text → ∀ rest records,
      (parse (text ++ rest) source).records = .ok records ↔ ∃ first second,
        (parse text source).records = .ok first ∧ (parse rest source).records = .ok second ∧
          records = first ++ second) := by
  refine ⟨⟨?_, ?_⟩, fun e => records_parse_eq_error_iff, fun records warnings => parse_eq_ok_iff,
    fun ends rest records => records_parse_append ends⟩
  · rintro ⟨e, herror⟩
    obtain ⟨before, line, after, hlines, hrefused⟩ := records_parse_eq_error_iff.mp herror
    have hmem : line ∈ Text.lines text :=
      hlines ▸ List.mem_append_right _ List.mem_cons_self
    exact ⟨line, hmem, e.cause, hrefused.refuses⟩
  · rintro ⟨line, hmem, cause, hrefuses⟩
    cases hparse : (parse text source).records with
    | error e => exact ⟨e, rfl⟩
    | ok records =>
        obtain ⟨yields, hyields, -⟩ := parse_eq_ok_iff.mp
          (show parse text source = ⟨.ok records, _⟩ by rw [← hparse])
        exact absurd hrefuses (hyields.not_refuses line hmem cause)

/-- A hit and a line that is skipped come first, and a branch follows on a line of its own. -/
theorem parse_line_grammar_twoParts :
    Text.EndsLine ['1', '2', '\n', 'x', '\n'] ∧
      (parse (['1', '2', '\n', 'x', '\n'] ++ ['+', '5', ' ', '7', ' ', '7']) "run").records =
        .ok [.hit 12, .branch 5 7 7] := by
  have hends : Text.EndsLine ['1', '2', '\n', 'x', '\n'] := .inr rfl
  refine ⟨hends, ((parse_line_grammar _ "run").2.2.2 hends _ _).mpr ?_⟩
  exact ⟨[.hit 12], [.branch 5 7 7], rfl, rfl, rfl⟩

end ScriptCoverage.Trace
