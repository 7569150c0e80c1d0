import ScriptCoverage.Config.ConfigFile
import ScriptCoverage.Proofs.Config.CommandLine

/-!
A command line merged into the configuration of a file. The merge sees values only, and not
whether they were given: it takes over each one that is not the default of its option. So a value
that is given replaces that of the file unless it is the default.
-/

namespace ScriptCoverage

/-- The value that a configuration has for an option, as a text. An option that may be repeated
has a list instead. -/
def Config.text? (config : Config) : ValueOption → Option String
  | .root => some config.root.text
  | .config => config.config.map Path.text
  | .coverageDir => some config.coverageDir.text
  | .output => some config.output.text
  | .format => some config.format
  | .jsonOutput => config.jsonOutput.map Path.text
  | .contract | .sourceRoot => none

/-- The merge cannot tell the value from the default of the option. -/
def ValueOption.isStandard : ValueOption → String → Bool
  | .root, value => Path.agrees ⟨value⟩ Config.default.root
  | .coverageDir, value => Path.agrees ⟨value⟩ Config.default.coverageDir
  | .output, value => Path.agrees ⟨value⟩ Config.default.output
  | .format, value => value = Config.default.format
  | .config, _ | .jsonOutput, _ | .contract, _ | .sourceRoot, _ => false

namespace Config

variable (file : Config) (line : CommandLine)

theorem text_mergePath (current standard : Path) (given : Option String) :
    (mergePath current ((given.map Path.mk).getD standard) standard).text =
      match given with
      | none => current.text
      | some value => if Path.agrees ⟨value⟩ standard then current.text else value := by
  cases given with
  | none => simp [mergePath, Path.agrees]
  | some value =>
      simp only [mergePath, Option.map_some, Option.getD_some]
      split <;> rfl

theorem mergeFormat (current standard : String) (given : Option String) :
    (if given.getD standard = standard then current else given.getD standard) =
      match given with
      | none => current
      | some value => if value = standard then current else value := by
  cases given with
  | none => exact if_pos rfl
  | some value => rfl

/-- What the merge makes of an option, from the first value that a command line has for it. -/
theorem text?_merge {option : ValueOption} (h : option.isRepeatable = false) :
    (file.merge line.config).text? option =
      match (line.valuesOf option).head? with
      | none => file.text? option
      | some value => if option.isStandard value then file.text? option else some value := by
  cases option with
  | root | coverageDir | output =>
      simp only [text?, merge, CommandLine.config, CommandLine.pathOf?, text_mergePath]
      cases (line.valuesOf _).head? with
      | none => rfl
      | some value => exact apply_ite some _ _ _
  | format =>
      have hformat := mergeFormat file.format default.format (line.valuesOf .format).head?
      refine (congrArg some hformat).trans ?_
      cases (line.valuesOf .format).head? with
      | none => rfl
      | some value => simp [ValueOption.isStandard, apply_ite some, text?]
  | config | jsonOutput =>
      simp only [text?, merge, CommandLine.config, CommandLine.pathOf?]
      cases (line.valuesOf _).head? with
      | none => rfl
      | some value => rfl
  | contract => cases h
  | sourceRoot => cases h

theorem verbose_merge : (file.merge line.config).verbose =
    if line.verbose = 0 then file.verbose else UInt8.ofNat (min line.verbose 255) := by
  have hcount : 0 < UInt8.ofNat (min line.verbose 255) ↔ line.verbose ≠ 0 := by
    rw [UInt8.lt_iff_toNat_lt, UInt8.toNat_ofNat']
    simp only [UInt8.toNat_zero]
    omega
  simp only [merge, CommandLine.config, hcount, ite_not]

/-- The merge of a command line that was parsed. A value that is given for an option replaces
that of the file, unless it is the default of the option: then it is lost, and the value of the
file stays. The verbose flag replaces the level of the file by its count, and the lists of the
file are continued. -/
theorem merge_parsed {arguments : List String} {line : CommandLine}
    (h : CommandLine.parse arguments = .ok line) :
    (∀ option value, option.isRepeatable = false → (option, value) ∈ line.values →
      (file.merge line.config).text? option =
        if option.isStandard value then file.text? option else some value) ∧
    (∀ option, option.isRepeatable = false → (∀ value, (option, value) ∉ line.values) →
      (file.merge line.config).text? option = file.text? option) ∧
    (file.merge line.config).verbose =
      (if line.verbose = 0 then file.verbose else UInt8.ofNat (min line.verbose 255)) ∧
    (file.merge line.config).contracts = file.contracts ++ line.valuesOf .contract ∧
    (file.merge line.config).fileContracts = file.fileContracts ∧
    (file.merge line.config).sourceRoots = file.sourceRoots ++ line.valuesOf .sourceRoot := by
  have hsingle := CommandLine.singleValued_of_parse h
  refine ⟨?_, ?_, verbose_merge file line, rfl, List.append_nil _, rfl⟩
  · intro option value hoption hgiven
    rw [text?_merge file line hoption, hsingle.head?_valuesOf hoption hgiven]
  · intro option hoption hnone
    have hempty : line.valuesOf option = [] := List.eq_nil_iff_forall_not_mem.mpr
      fun value hvalue => hnone value (CommandLine.mem_valuesOf_iff.mp hvalue)
    rw [text?_merge file line hoption, hempty]
    rfl

/-- The file names a format and a directory, and the command line another format. -/
theorem merge_parsed_otherFormat :
    ∃ file line,
      ofToml "[global]\nformat = \"lcov\"\noutput = \"out\"\n".toList = .ok file ∧
        CommandLine.parse ["--format=raw", "-vv", "--source-root", "src"] = .ok line ∧
        (file.merge line.config).text? .format = some "raw" ∧
        (file.merge line.config).text? .output = some "out" ∧
        (file.merge line.config).verbose = 2 ∧
        (file.merge line.config).sourceRoots = ["src"] := by
  have hparse : CommandLine.parse ["--format=raw", "-vv", "--source-root", "src"] =
      .ok ⟨[(.format, "raw"), (.sourceRoot, "src")], 2⟩ := rfl
  obtain ⟨hgiven, hkept, hverbose, -, -, hroots⟩ :=
    merge_parsed { default with format := "lcov", output := ⟨"out"⟩ } hparse
  refine ⟨_, _, ?_, hparse, ?_, ?_, hverbose, hroots⟩
  · exact Except.toOption_eq_some_iff.mp (by decide +kernel)
  · exact hgiven .format "raw" rfl (by decide)
  · exact hkept .output rfl (by simp)

/-- The default format is given, and the file keeps another one. -/
theorem merge_keeps_file_standardFormat :
    ∃ file line, ofToml "[global]\nformat = \"lcov\"\n".toList = .ok file ∧
      CommandLine.parse ["--format", "raw,cobertura"] = .ok line ∧
      (.format, "raw,cobertura") ∈ line.values ∧
      (file.merge line.config).text? .format = some "lcov" := by
  refine ⟨{ default with format := "lcov" }, ⟨[(.format, "raw,cobertura")], 0⟩, ?_, rfl, ?_, rfl⟩
  · exact Except.toOption_eq_some_iff.mp (by decide +kernel)
  · decide

end Config

end ScriptCoverage
