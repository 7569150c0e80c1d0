import ScriptCoverage.Proofs.Data.Except
import ScriptCoverage.Proofs.Data.StableSort
import ScriptCoverage.Proofs.Symbols.SequencePoint
import ScriptCoverage.Symbols.Method

/-!
Which method a JSON value describes. Each field has a grammar of its own, and the reader gives
a method exactly where every field is in its grammar. The points that it gives are those of
the value, sorted by address.
-/

namespace ScriptCoverage

namespace Json

@[simp] theorem string?_eq_some_iff {json : Json} {text : String} :
    json.string? = some text ↔ json = .string text := by
  cases json <;> simp [string?]

@[simp] theorem array?_eq_some_iff {json : Json} {items : List Json} :
    json.array? = some items ↔ json = .array items := by
  cases json <;> simp [array?]

end Json

namespace Field

variable {json : Json} {name : String}

/-- The texts of a list; a list that is left out or null has none. -/
inductive Lists (json : Json) (name : String) : List String → Prop where
  | absent (field : json.field? name = none) : Lists json name []
  | null (field : json.field? name = some .null) : Lists json name []
  | array {texts : List String} (field : json.field? name = some (.array (texts.map .string))) :
      Lists json name texts

theorem string_eq_ok_iff {text : String} :
    string json name = .ok text ↔ json.field? name = some (.string text) := by
  have hfield : (json.field? name).bind Json.string? = some text ↔
      json.field? name = some (.string text) := by simp [Option.bind_eq_some_iff]
  rw [← hfield, string]
  cases (json.field? name).bind Json.string? <;> simp

theorem array_eq_ok_iff {items : List Json} :
    array json name = .ok items ↔ json.field? name = some (.array items) := by
  have hfield : (json.field? name).bind Json.array? = some items ↔
      json.field? name = some (.array items) := by simp [Option.bind_eq_some_iff]
  rw [← hfield, array]
  cases (json.field? name).bind Json.array? <;> simp

theorem mapM_string?_eq_some_iff {items : List Json} {texts : List String} :
    items.mapM Json.string? = some texts ↔ items = texts.map .string := by
  rw [Option.mapM_eq_some_iff]
  simp only [Json.string?_eq_some_iff]
  rw [← List.forall₂_map_right_iff, List.forall₂_eq_eq_eq]

theorem strings_eq_ok_iff {texts : List String} :
    strings json name = .ok texts ↔ json.field? name = some (.array (texts.map .string)) := by
  rw [strings, Except.bind_eq_ok_iff]
  simp only [array_eq_ok_iff]
  constructor
  · rintro ⟨items, hitems, htexts⟩
    split at htexts
    · rename_i texts' hmap
      cases htexts
      rw [hitems, mapM_string?_eq_some_iff.mp hmap]
    · cases htexts
  · intro h
    refine ⟨_, h, ?_⟩
    rw [mapM_string?_eq_some_iff.mpr rfl]

theorem optionalStrings_eq_ok_iff {texts : List String} :
    optionalStrings json name = .ok texts ↔ Lists json name texts := by
  unfold optionalStrings
  split
  · rename_i h
    constructor
    · rintro ⟨⟩
      exact .absent h
    · rintro (_ | _ | h')
      · rfl
      · rfl
      · cases h.symm.trans h'
  · rename_i h
    constructor
    · rintro ⟨⟩
      exact .null h
    · rintro (_ | _ | h')
      · rfl
      · rfl
      · cases h.symm.trans h'
  · rename_i value hnull h
    rw [strings_eq_ok_iff]
    constructor
    · exact .array
    · rintro (h' | h' | h')
      · cases h.symm.trans h'
      · cases h.symm.trans h'
        exact absurd rfl hnull
      · exact h'

theorem Lists.eq_map {texts : List String} (h : Lists json name texts) {items : List Json}
    (field : json.field? name = some (.array items)) : items = texts.map .string := by
  cases h with
  | absent h => cases h.symm.trans field
  | null h => cases h.symm.trans field
  | array h =>
      cases h.symm.trans field
      rfl

end Field

namespace Parameter

/-- `name,type`, whose index is its position, or `name,type,index`. -/
structure EncodedBy (parameter : Parameter) (text : List Char) (position : Nat) : Prop where
  name : parameter.name ≠ "" ∧ ',' ∉ parameter.name.toList
  typeName : parameter.typeName ≠ "" ∧ ',' ∉ parameter.typeName.toList
  parts :
    (text = parameter.name.toList ++ ',' :: parameter.typeName.toList ∧
      parameter.index = UInt32.ofNat position) ∨
    ∃ index, text = parameter.name.toList ++ ',' :: parameter.typeName.toList ++ ',' :: index ∧
      ',' ∉ index ∧ Decimal.IsNumeral (Text.trim index) parameter.index

theorem named_eq_some_iff {name typeName : List Char} {index : UInt32} {parameter : Parameter} :
    named name typeName index = some parameter ↔
      (parameter.name ≠ "" ∧ parameter.typeName ≠ "") ∧
        name = parameter.name.toList ∧ typeName = parameter.typeName.toList ∧
          index = parameter.index := by
  unfold named
  constructor
  · intro h
    split at h
    · cases h
    · rename_i hparts
      cases h
      simpa [String.toList_ofList, not_or] using hparts
  · rintro ⟨hnonempty, rfl, rfl, rfl⟩
    simp [hnonempty, String.ofList_toList]

/-- Exactly the texts of the grammar are read as parameters. -/
theorem parse?_eq_some_iff {text : List Char} {position : Nat} {parameter : Parameter} :
    parse? text position = some parameter ↔ parameter.EncodedBy text position := by
  constructor
  · intro h
    unfold parse? at h
    split at h
    · rename_i name typeName hsplit
      obtain ⟨htext, hmarks⟩ := (Text.splitOn_eq_iff (by simp)).mp hsplit
      obtain ⟨⟨hname, htype⟩, rfl, rfl, hindex⟩ := named_eq_some_iff.mp h
      exact {
        name := ⟨hname, hmarks _ (by simp)⟩
        typeName := ⟨htype, hmarks _ (by simp)⟩
        parts := .inl ⟨by simpa using htext, hindex.symm⟩ }
    · rename_i name typeName text' hsplit
      obtain ⟨htext, hmarks⟩ := (Text.splitOn_eq_iff (by simp)).mp hsplit
      obtain ⟨index, hnumeral, h⟩ := Option.bind_eq_some_iff.mp h
      obtain ⟨⟨hname, htype⟩, rfl, rfl, rfl⟩ := named_eq_some_iff.mp h
      exact {
        name := ⟨hname, hmarks _ (by simp)⟩
        typeName := ⟨htype, hmarks _ (by simp)⟩
        parts := .inr ⟨text', by simpa using htext, hmarks _ (by simp),
          Decimal.signedWord?_eq_some_iff.mp hnumeral⟩ }
    · cases h
  · rintro ⟨⟨hname, hname'⟩, ⟨htype, htype'⟩, ⟨htext, hindex⟩ | ⟨index, htext, hindex', hnumeral⟩⟩
    · have hsplit : text.splitOn ',' = [parameter.name.toList, parameter.typeName.toList] := by
        rw [Text.splitOn_eq_iff (by simp)]
        simp [htext, hname', htype']
      rw [parse?, hsplit]
      exact named_eq_some_iff.mpr ⟨⟨hname, htype⟩, rfl, rfl, hindex.symm⟩
    · have hsplit : text.splitOn ',' =
          [parameter.name.toList, parameter.typeName.toList, index] := by
        rw [Text.splitOn_eq_iff (by simp)]
        simp [htext, hname', htype', hindex']
      rw [parse?, hsplit]
      dsimp only
      rw [Decimal.signedWord?_eq_some_iff.mpr hnumeral, Option.bind_eq_bind, Option.bind_some]
      exact named_eq_some_iff.mpr ⟨⟨hname, htype⟩, rfl, rfl, rfl⟩

theorem parse_eq_ok_iff {text : String} {position : Nat} {parameter : Parameter} :
    parse text position = .ok parameter ↔ parameter.EncodedBy text.toList position := by
  rw [← parse?_eq_some_iff, parse]
  cases parse? text.toList position <;> simp

end Parameter

/-- Points by ascending address; some may share one. -/
def SequencePoint.Ascending (points : List SequencePoint) : Prop :=
  points.Pairwise fun p q => p.address ≤ q.address

open SequencePoint (Ascending)

namespace Method

/-- `namespace,name`; the namespace may be empty. -/
structure IsFullName (full space name : List Char) : Prop where
  text : full = space ++ ',' :: name
  nonempty : name ≠ []
  single : ',' ∉ space ∧ ',' ∉ name

theorem splitName?_eq_some_iff {full space name : List Char} :
    splitName? full = some (space, name) ↔ IsFullName full space name := by
  unfold splitName?
  constructor
  · intro h
    split at h
    · rename_i space' name' hsplit
      obtain ⟨htext, hspace⟩ := Text.splitFirst_eq_some_iff.mp hsplit
      split at h
      · cases h
      · rename_i hname
        cases h
        rw [Bool.or_eq_true, not_or, List.isEmpty_iff, List.contains_iff_mem] at hname
        exact ⟨htext, hname.1, hspace, hname.2⟩
    · cases h
  · rintro ⟨htext, hnonempty, hspace, hname⟩
    rw [Text.splitFirst_eq_some_iff.mpr ⟨htext, hspace⟩]
    simp [hnonempty, hname]

/-- The method that a value describes. -/
structure Describes (json : Json) (method : Method) : Prop where
  id : json.field? "id" = some (.string method.id)
  name : ∃ full, json.field? "name" = some (.string full) ∧
    IsFullName full.toList method.namespace.toList method.name.toList
  range : ∃ text, json.field? "range" = some (.string text) ∧ method.range.EncodedBy text.toList
  parameters : ∃ texts, Field.Lists json "params" texts ∧
    List.Forall₂ (fun (text, position) parameter => parameter.EncodedBy text.toList position)
      texts.zipIdx method.parameters
  returnType : method.returnType = (json.field? "return").bind Json.string?
  points : ∃ texts points, Field.Lists json "sequence-points" texts ∧
    List.Forall₂ (fun text point => point.EncodedBy text.toList) texts points ∧
      IsStableSort (·.address) points method.points

/-- A method is read exactly from the values that describe it. -/
theorem ofJson_eq_ok_iff {json : Json} {method : Method} :
    ofJson json = .ok method ↔ Describes json method := by
  constructor
  · intro h
    obtain ⟨id, hid, h⟩ := Except.bind_eq_ok_iff.mp h
    obtain ⟨full, hfull, h⟩ := Except.bind_eq_ok_iff.mp h
    cases hname : splitName? full.toList with
    | none =>
        simp only [hname] at h
        cases h
    | some parts =>
        simp only [hname, Except.ok_bind] at h
        obtain ⟨bounds, hbounds, h⟩ := Except.bind_eq_ok_iff.mp h
        obtain ⟨range, hrange, h⟩ := Except.bind_eq_ok_iff.mp h
        obtain ⟨texts, htexts, h⟩ := Except.bind_eq_ok_iff.mp h
        obtain ⟨parameters, hparameters, h⟩ := Except.bind_eq_ok_iff.mp h
        obtain ⟨spans, hspans, h⟩ := Except.bind_eq_ok_iff.mp h
        obtain ⟨points, hpoints, h⟩ := Except.bind_eq_ok_iff.mp h
        cases h
        rw [Field.string_eq_ok_iff] at hid hfull hbounds
        rw [Field.optionalStrings_eq_ok_iff] at htexts hspans
        rw [Except.mapM_eq_ok_iff] at hparameters hpoints
        exact {
          id := hid
          name := ⟨full, hfull, by simpa using splitName?_eq_some_iff.mp hname⟩
          range := ⟨bounds, hbounds, AddressRange.parse_eq_ok_iff.mp hrange⟩
          parameters := ⟨texts, htexts, hparameters.imp fun _ _ => Parameter.parse_eq_ok_iff.mp⟩
          returnType := rfl
          points := ⟨spans, points, hspans, hpoints.imp fun _ _ => SequencePoint.parse_eq_ok_iff.mp,
            IsStableSort.of_mergeSort _ points⟩ }
  · rintro ⟨hid, ⟨full, hfull, hname⟩, ⟨bounds, hbounds, hrange⟩, ⟨texts, htexts, hparameters⟩,
      hreturn, ⟨spans, points, hspans, hpoints, hsort⟩⟩
    have hparameters : (texts.zipIdx.mapM fun (text, position) => Parameter.parse text position) =
        .ok method.parameters :=
      Except.mapM_eq_ok_iff.mpr (hparameters.imp fun _ _ => Parameter.parse_eq_ok_iff.mpr)
    have hpoints : spans.mapM SequencePoint.parse = .ok points :=
      Except.mapM_eq_ok_iff.mpr (hpoints.imp fun _ _ => SequencePoint.parse_eq_ok_iff.mpr)
    simp only [ofJson, Field.string_eq_ok_iff.mpr hid, Field.string_eq_ok_iff.mpr hfull,
      splitName?_eq_some_iff.mpr hname, Field.string_eq_ok_iff.mpr hbounds,
      AddressRange.parse_eq_ok_iff.mpr hrange, Field.optionalStrings_eq_ok_iff.mpr htexts,
      hparameters, Field.optionalStrings_eq_ok_iff.mpr hspans, hpoints, Except.ok_bind]
    -- the points are determined, since there is one stable sort
    rw [← hreturn, sortPoints, ← IsStableSort.iff_eq_mergeSort.mp hsort]
    simp only [String.ofList_toList]
    rfl

/-- The points of a method that was read ascend. -/
theorem ascending_of_ofJson {json : Json} {method : Method} (h : ofJson json = .ok method) :
    Ascending method.points := by
  obtain ⟨texts, points, -, -, hsort⟩ := (ofJson_eq_ok_iff.mp h).points
  exact hsort.ordered

/-- What holds of every method that was read, whatever value it was read from. -/
structure WellFormed (method : Method) : Prop where
  ascending : Ascending method.points
  range : method.range.first ≤ method.range.last
  name : method.name ≠ "" ∧ ',' ∉ method.name.toList ∧ ',' ∉ method.namespace.toList
  parameters : ∀ parameter ∈ method.parameters, parameter.name ≠ "" ∧ parameter.typeName ≠ ""

theorem Describes.wellFormed {json : Json} {method : Method} (h : Describes json method) :
    WellFormed method := by
  obtain ⟨full, -, hname⟩ := h.name
  obtain ⟨texts, -, hparameters⟩ := h.parameters
  obtain ⟨spans, points, -, -, hsort⟩ := h.points
  refine ⟨hsort.ordered, method.range.ordered, ⟨?_, hname.single.2, hname.single.1⟩, ?_⟩
  · simpa using hname.nonempty
  · intro parameter hmem
    obtain ⟨text, -, hencoded⟩ := Forall₂.exists_of_mem_right hparameters hmem
    exact ⟨hencoded.name.1, hencoded.typeName.1⟩

/-- Why a value describes no method: a required text is missing, a list has an element that is
no text, or one of the texts is not in its grammar. -/
inductive Defect (json : Json) : Prop where
  | missing {field : String} (required : field ∈ ["id", "name", "range"])
      (missing : ∀ text, json.field? field ≠ some (.string text))
  | element {field : String} (list : field ∈ ["params", "sequence-points"]) {items : List Json}
      (value : json.field? field = some (.array items)) {item : Json} (mem : item ∈ items)
      (notText : ∀ text, item ≠ .string text)
  | name {full : String} (value : json.field? "name" = some (.string full))
      (malformed : ∀ space name, ¬IsFullName full.toList space name)
  | range {text : String} (value : json.field? "range" = some (.string text))
      (malformed : ∀ range : AddressRange, ¬range.EncodedBy text.toList)
  | parameter {items : List Json} (value : json.field? "params" = some (.array items))
      {text : String} (mem : .string text ∈ items)
      (malformed : ∀ (parameter : Parameter) position, ¬parameter.EncodedBy text.toList position)
  | point {items : List Json} (value : json.field? "sequence-points" = some (.array items))
      {text : String} (mem : .string text ∈ items)
      (malformed : ∀ point : SequencePoint, ¬point.EncodedBy text.toList)

theorem Describes.exists_lists {json : Json} {method : Method} (h : Describes json method)
    {field : String} (list : field ∈ ["params", "sequence-points"]) :
    ∃ texts, Field.Lists json field texts := by
  simp only [List.mem_cons, List.not_mem_nil, or_false] at list
  rcases list with rfl | rfl
  · exact h.parameters.imp fun _ hlists => hlists.1
  · obtain ⟨texts, -, hlists, -⟩ := h.points
    exact ⟨texts, hlists⟩

theorem Describes.not_defect {json : Json} {method : Method} (h : Describes json method) :
    ¬Defect json := by
  rintro (⟨required, missing⟩ | ⟨list, value, mem, notText⟩ | ⟨value, malformed⟩ |
    ⟨value, malformed⟩ | ⟨value, mem, malformed⟩ | ⟨value, mem, malformed⟩)
  · obtain ⟨full, hfull, -⟩ := h.name
    obtain ⟨bounds, hbounds, -⟩ := h.range
    simp only [List.mem_cons, List.not_mem_nil, or_false] at required
    rcases required with rfl | rfl | rfl
    · exact missing _ h.id
    · exact missing _ hfull
    · exact missing _ hbounds
  · obtain ⟨texts, hlists⟩ := h.exists_lists list
    rw [hlists.eq_map value] at mem
    obtain ⟨text, -, htext⟩ := List.mem_map.mp mem
    exact notText text htext.symm
  · obtain ⟨full, hfull, hname⟩ := h.name
    cases hfull.symm.trans value
    exact malformed _ _ hname
  · obtain ⟨bounds, hbounds, hrange⟩ := h.range
    cases hbounds.symm.trans value
    exact malformed _ hrange
  · obtain ⟨texts, hlists, hparameters⟩ := h.parameters
    rw [hlists.eq_map value, List.mem_map] at mem
    obtain ⟨text, hmem, htext⟩ := mem
    cases htext
    obtain ⟨position, hposition⟩ := List.mem_iff_getElem?.mp hmem
    obtain ⟨parameter, -, hencoded⟩ :=
      Forall₂.exists_of_mem_left hparameters (List.mk_mem_zipIdx_iff_getElem?.mpr hposition)
    exact malformed parameter position hencoded
  · obtain ⟨texts, points, hlists, hpoints, -⟩ := h.points
    rw [hlists.eq_map value, List.mem_map] at mem
    obtain ⟨text, hmem, htext⟩ := mem
    cases htext
    obtain ⟨point, -, hencoded⟩ := Forall₂.exists_of_mem_left hpoints hmem
    exact malformed point hencoded

end Method

end ScriptCoverage
