import Mathlib.Logic.Function.Basic
import ScriptCoverage.Config.ConfigFile
import ScriptCoverage.Proofs.Data.Except

/-!
The order in which the settings of a file are applied. An entry writes the one setting that its
key names, and of several entries for a setting the last one counts. So the order decides
neither whether the settings can be applied nor, unless two entries give one setting different
values, what configuration they make.
-/

namespace ScriptCoverage

/-- What an entry of a configuration file can set. -/
inductive Setting where
  | root
  | coverageDir
  | output
  | format
  | sourceRoots
  | verbose
  | jsonOutput
  deriving DecidableEq

namespace Setting

/-- The setting that a key names, in each of its spellings. -/
def ofKey? (key : String) : Option Setting :=
  match Config.settingName key with
  | "root" => some .root
  | "coverage_dir" => some .coverageDir
  | "output" => some .output
  | "format" => some .format
  | "source_root" | "source_roots" => some .sourceRoots
  | "verbose" => some .verbose
  | "json_output" => some .jsonOutput
  | _ => none

def Value : Setting → Type
  | .root | .coverageDir | .output => Path
  | .format => String
  | .sourceRoots => List String
  | .verbose => UInt8
  | .jsonOutput => Option Path

def read : (setting : Setting) → Toml → Except ConfigError setting.Value
  | .root, value | .coverageDir, value | .output, value => value.pathOrError
  | .format, value => value.stringOrError
  | .sourceRoots, value => value.stringsOrError
  | .verbose, value => value.byteOrError
  | .jsonOutput, value => value.pathOrError.map some

end Setting

namespace Config

def value (config : Config) : (setting : Setting) → setting.Value
  | .root => config.root
  | .coverageDir => config.coverageDir
  | .output => config.output
  | .format => config.format
  | .sourceRoots => config.sourceRoots
  | .verbose => config.verbose
  | .jsonOutput => config.jsonOutput

def withValue (config : Config) : (setting : Setting) → setting.Value → Config
  | .root, path => { config with root := path }
  | .coverageDir, path => { config with coverageDir := path }
  | .output, path => { config with output := path }
  | .format, text => { config with format := text }
  | .sourceRoots, roots => { config with sourceRoots := roots }
  | .verbose, n => { config with verbose := n }
  | .jsonOutput, path => { config with jsonOutput := path }

/-- The two agree in everything that no setting of a file changes. -/
structure SameOrigin (config other : Config) : Prop where
  named : config.config = other.config
  arguments : config.contracts = other.contracts
  sources : config.fileContracts = other.fileContracts

theorem SameOrigin.trans {config other third : Config} (h : config.SameOrigin other)
    (h' : other.SameOrigin third) : config.SameOrigin third :=
  ⟨h.named.trans h'.named, h.arguments.trans h'.arguments, h.sources.trans h'.sources⟩

theorem sameOrigin_withValue (config : Config) (setting : Setting) (value : setting.Value) :
    (config.withValue setting value).SameOrigin config := by
  cases setting <;> exact ⟨rfl, rfl, rfl⟩

theorem value_withValue (config : Config) (setting : Setting) (value : setting.Value) :
    (config.withValue setting value).value = Function.update config.value setting value := by
  funext other
  cases setting <;> cases other <;> rfl

theorem eq_of_value_eq {config other start : Config} (h : config.SameOrigin start)
    (h' : other.SameOrigin start) (hvalue : config.value = other.value) : config = other := by
  cases config
  cases other
  obtain ⟨rfl, rfl, rfl⟩ := h
  obtain ⟨rfl, rfl, rfl⟩ := h'
  simp only [mk.injEq, true_and]
  exact ⟨congrFun hvalue .root, congrFun hvalue .coverageDir, congrFun hvalue .output,
    congrFun hvalue .format, congrFun hvalue .sourceRoots, congrFun hvalue .verbose,
    congrFun hvalue .jsonOutput⟩

/-- An entry writes the value of its setting, or nothing if its key names none. -/
theorem set_eq (config : Config) (key : String) (value : Toml) : config.set key value =
    match Setting.ofKey? key with
    | some setting => (setting.read value).map (config.withValue setting)
    | none => .ok config := by
  unfold set Setting.ofKey?
  generalize settingName key = name
  split
  case h_8 =>
    simp only [Setting.read]
    cases value.pathOrError <;> rfl
  case h_9 => simp only [*]
  all_goals rfl

end Config

namespace Setting

/-- What an entry gives a setting: nothing if it is for another one or cannot be read. -/
def given? (setting : Setting) (entry : String × Toml) : Option setting.Value :=
  if ofKey? entry.1 = some setting then (setting.read entry.2).toOption else none

/-- The values that entries give a setting, in their order. -/
def given (setting : Setting) (entries : List (String × Toml)) : List setting.Value :=
  entries.filterMap setting.given?

/-- An entry can be applied: the value for the setting that it names, if any, can be read. -/
def IsReadable (entry : String × Toml) : Prop :=
  ∀ setting, ofKey? entry.1 = some setting → ∃ value, setting.read entry.2 = .ok value

variable {setting : Setting} {entry : String × Toml}

theorem given?_of_none (h : ofKey? entry.1 = none) : setting.given? entry = none := by
  simp [given?, h]

theorem given?_of_ne {other : Setting} (h : ofKey? entry.1 = some setting)
    (hne : other ≠ setting) : other.given? entry = none := by
  simp [given?, h, hne.symm]

theorem given?_of_read {value : setting.Value} (h : ofKey? entry.1 = some setting)
    (hread : setting.read entry.2 = .ok value) : setting.given? entry = some value := by
  rw [given?, if_pos h, hread]
  rfl

end Setting

namespace Config

variable {config next result : Config} {entry : String × Toml} {entries : List (String × Toml)}

theorem exists_set_eq_ok_iff :
    (∃ next, config.set entry.1 entry.2 = .ok next) ↔ Setting.IsReadable entry := by
  rw [set_eq]
  cases hkey : Setting.ofKey? entry.1 with
  | none => simp [Setting.IsReadable, hkey]
  | some setting =>
      have hreadable : Setting.IsReadable entry ↔
          ∃ value, setting.read entry.2 = .ok value := by
        simp [Setting.IsReadable, hkey]
      simp only [hreadable, Except.map_eq_ok_iff]
      constructor
      · rintro ⟨-, value, hread, -⟩
        exact ⟨value, hread⟩
      · rintro ⟨value, hread⟩
        exact ⟨_, value, hread, rfl⟩

/-- A step: the value that an entry gives is written, and nothing else changes. -/
theorem of_set_eq_ok (h : config.set entry.1 entry.2 = .ok next) :
    next.SameOrigin config ∧
      next.value = fun setting => (setting.given? entry).getD (config.value setting) := by
  rw [set_eq] at h
  cases hkey : Setting.ofKey? entry.1 with
  | none =>
      simp only [hkey] at h
      cases h
      refine ⟨⟨rfl, rfl, rfl⟩, ?_⟩
      simp only [Setting.given?_of_none hkey, Option.getD_none]
  | some setting =>
      simp only [hkey] at h
      obtain ⟨value, hread, rfl⟩ := Except.map_eq_ok_iff.mp h
      refine ⟨sameOrigin_withValue config setting value, ?_⟩
      rw [value_withValue]
      funext other
      by_cases hother : other = setting
      · subst hother
        rw [Function.update_self, Setting.given?_of_read hkey hread, Option.getD_some]
      · rw [Function.update_of_ne hother, Setting.given?_of_ne hkey hother, Option.getD_none]

theorem setAll_cons (config : Config) (entry : String × Toml) (rest : List (String × Toml)) :
    config.setAll (entry :: rest) =
      config.set entry.1 entry.2 >>= fun next => next.setAll rest :=
  List.foldlM_cons

/-- A table can be applied when each of its entries can. -/
theorem exists_setAll_eq_ok_iff : (∃ result, config.setAll entries = .ok result) ↔
    ∀ entry ∈ entries, Setting.IsReadable entry := by
  induction entries generalizing config with
  | nil => exact iff_of_true ⟨config, rfl⟩ fun _ hentry => absurd hentry List.not_mem_nil
  | cons entry rest ih =>
      have hhead : Setting.IsReadable entry ↔ ∃ next, config.set entry.1 entry.2 = .ok next :=
        exists_set_eq_ok_iff.symm
      simp only [setAll_cons, List.forall_mem_cons, hhead, Except.bind_eq_ok_iff]
      constructor
      · rintro ⟨result, next, hnext, hrest⟩
        exact ⟨⟨next, hnext⟩, ih.mp ⟨result, hrest⟩⟩
      · rintro ⟨⟨next, hnext⟩, hrest⟩
        obtain ⟨result, hresult⟩ := ih.mpr hrest
        exact ⟨result, next, hnext, hresult⟩

/-- A run: of the entries for a setting the last one decides. -/
theorem of_setAll_eq_ok (h : config.setAll entries = .ok result) :
    result.SameOrigin config ∧
      result.value = fun setting => (setting.given entries).getLastD (config.value setting) := by
  induction entries generalizing config with
  | nil =>
      cases h
      exact ⟨⟨rfl, rfl, rfl⟩, rfl⟩
  | cons entry rest ih =>
      rw [setAll_cons] at h
      obtain ⟨next, hnext, hrest⟩ := Except.bind_eq_ok_iff.mp h
      obtain ⟨horigin, hvalue⟩ := of_set_eq_ok hnext
      obtain ⟨horigin', hvalue'⟩ := ih hrest
      refine ⟨horigin'.trans horigin, ?_⟩
      rw [hvalue', hvalue]
      funext setting
      cases hgiven : setting.given? entry with
      | none => simp only [Setting.given, List.filterMap_cons, hgiven, Option.getD_none]
      | some value =>
          simp only [Setting.given, List.filterMap_cons, hgiven, Option.getD_some,
            List.getLastD_cons]

/-- Entries for the same setting give it the same value. -/
def Agree (entries : List (String × Toml)) : Prop :=
  ∀ setting : Setting, ∀ value ∈ setting.given entries, ∀ other ∈ setting.given entries,
    value = other

/-- Values that agree are the same list in every order of the entries. -/
theorem given_eq_of_perm (hagree : Agree entries) {reordered : List (String × Toml)}
    (hperm : entries.Perm reordered) (setting : Setting) :
    setting.given reordered = setting.given entries := by
  have hgiven : (setting.given reordered).Perm (setting.given entries) :=
    hperm.symm.filterMap _
  have hpairwise : ∀ values : List setting.Value, values.Pairwise fun _ _ => True :=
    fun _ => List.pairwise_of_forall fun _ _ => trivial
  refine hgiven.eq_of_pairwise ?_ (hpairwise _) (hpairwise _)
  intro value other hvalue hother _ _
  exact hagree setting value (hgiven.mem_iff.mp hvalue) other hother

/-- Any value that is given for a setting comes to count: an order puts its entry last. -/
theorem value_eq_of_mem_given
    (hall : ∀ reordered, entries.Perm reordered → config.setAll reordered = .ok result)
    {setting : Setting} {value : setting.Value} (hmem : value ∈ setting.given entries) :
    result.value setting = value := by
  obtain ⟨entry, hentry, hgiven⟩ := List.mem_filterMap.mp hmem
  obtain ⟨before, behind, rfl⟩ := List.append_of_mem hentry
  have hperm : (before ++ entry :: behind).Perm (before ++ behind ++ [entry]) :=
    List.perm_middle.trans (List.perm_append_singleton entry _).symm
  have hlast : setting.given (before ++ behind ++ [entry]) =
      setting.given (before ++ behind) ++ [value] := by
    rw [Setting.given, List.filterMap_append, List.filterMap_cons, hgiven]
    rfl
  have hvalue := congrFun (of_setAll_eq_ok (hall _ hperm)).2 setting
  rw [hvalue, hlast, List.getLastD_concat]

/-- Whether a table of settings can be applied does not depend on the order of its entries. The
configuration that it makes does not depend on it just if the entries agree: two spellings of
one name with different values make it a matter of the order. -/
theorem setAll_order_iff_agree (start : Config) (entries : List (String × Toml)) :
    (∀ reordered, entries.Perm reordered →
      ((∃ result, start.setAll reordered = .ok result) ↔
        ∃ result, start.setAll entries = .ok result)) ∧
    ∀ result, start.setAll entries = .ok result →
      ((∀ reordered, entries.Perm reordered → start.setAll reordered = .ok result) ↔
        Agree entries) := by
  have hsuccess : ∀ reordered, entries.Perm reordered →
      ((∃ result, start.setAll reordered = .ok result) ↔
        ∃ result, start.setAll entries = .ok result) := by
    intro reordered hperm
    rw [exists_setAll_eq_ok_iff, exists_setAll_eq_ok_iff]
    simp only [hperm.mem_iff]
  refine ⟨hsuccess, fun result hresult => ⟨?_, ?_⟩⟩
  · intro hall setting value hvalue other hother
    rw [← value_eq_of_mem_given hall hvalue, ← value_eq_of_mem_given hall hother]
  · intro hagree reordered hperm
    obtain ⟨result', hresult'⟩ := (hsuccess reordered hperm).mpr ⟨result, hresult⟩
    obtain ⟨horigin, hvalue⟩ := of_setAll_eq_ok hresult
    obtain ⟨horigin', hvalue'⟩ := of_setAll_eq_ok hresult'
    rw [hresult', eq_of_value_eq horigin' horigin]
    rw [hvalue', hvalue]
    funext setting
    rw [given_eq_of_perm hagree hperm]

/-- Two spellings that give the same list, alone and as a list of one. -/
def agreeingSpellings : List (String × Toml) :=
  [("source-root", .string "src"), ("source_roots", .array [.string "src"])]

theorem agree_agreeingSpellings : Agree agreeingSpellings := by
  intro setting value hvalue other hother
  cases setting with
  | sourceRoots =>
      have hall : ∀ roots ∈ Setting.given .sourceRoots agreeingSpellings, roots = ["src"] :=
        List.forall_mem_cons.mpr ⟨rfl, List.forall_mem_cons.mpr ⟨rfl, List.forall_mem_nil _⟩⟩
      rw [hall value hvalue, hall other hother]
  | _ => cases hvalue

theorem setAll_order_iff_agree_agreeingSpellings :
    ∀ reordered, agreeingSpellings.Perm reordered →
      default.setAll reordered = .ok { default with sourceRoots := ["src"] } :=
  ((setAll_order_iff_agree default agreeingSpellings).2 _ rfl).mpr agree_agreeingSpellings

/-- The directory is set under both spellings of its key. -/
def twoSpellings : List (String × Toml) :=
  [("coverage-dir", .string "coverage"), ("coverage_dir", .string "traces")]

theorem not_order_independent_twoSpellings :
    ¬∀ entries reordered : List (String × Toml), (entries.map Prod.fst).Nodup →
      entries.Perm reordered → ∀ result,
        ofDocument (.table [("global", .table entries)]) = .ok result →
          ofDocument (.table [("global", .table reordered)]) = .ok result := by
  intro hall
  have hfirst : ofDocument (.table [("global", .table twoSpellings)]) =
      .ok { default with coverageDir := ⟨"traces"⟩ } := by rfl
  have hsecond : ofDocument (.table [("global", .table twoSpellings.reverse)]) =
      .ok { default with coverageDir := ⟨"coverage"⟩ } := by rfl
  have hsame := hall twoSpellings twoSpellings.reverse (by decide)
    (List.reverse_perm _).symm _ hfirst
  rw [hsecond] at hsame
  have hdirectory := congrArg coverageDir (Except.ok.inj hsame)
  exact absurd hdirectory (by decide)

end Config

end ScriptCoverage
