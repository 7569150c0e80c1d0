import ScriptCoverage.Coverage.Tree
import ScriptCoverage.Proofs.ContractHash
import ScriptCoverage.Proofs.Symbols.Method
import ScriptCoverage.Symbols.Table

/-!
Symbol tables that were read. A table is read exactly from the values that describe it, and
what holds of every such table is what the coverage tree relies on: points ascend, and each
names a document, so a line always has the path of its source.
-/

namespace ScriptCoverage

namespace SymbolTable

variable {json : Json} {symbols : SymbolTable}

/-- The table that a value describes. -/
structure Describes (json : Json) (symbols : SymbolTable) : Prop where
  hash : ∃ text, json.field? "hash" = some (.string text) ∧
    ContractHash.parse? text.toList = some symbols.hash
  documents : json.field? "documents" = some (.array (symbols.documents.map .string))
  documentRoot : symbols.documentRoot =
    ((json.field? "document-root").bind Json.string?).bind nonempty
  methods : ∃ items, json.field? "methods" = some (.array items) ∧
    List.Forall₂ Method.Describes items symbols.methods
  namesDocument : ∀ method ∈ symbols.methods, ∀ point ∈ method.points,
    point.document.toNat < symbols.documents.length

theorem strayPoint?_eq_none_iff {documents : List String} {methods : List Method} :
    strayPoint? documents methods = none ↔
      ∀ method ∈ methods, ∀ point ∈ method.points, point.document.toNat < documents.length := by
  simp [strayPoint?]

/-- A table is read exactly from the values that describe it. -/
theorem ofJson_eq_ok_iff : ofJson json = .ok symbols ↔ Describes json symbols := by
  constructor
  · intro h
    obtain ⟨text, htext, h⟩ := Except.bind_eq_ok_iff.mp h
    obtain ⟨hash, hhash, h⟩ := Except.bind_eq_ok_iff.mp h
    obtain ⟨documents, hdocuments, h⟩ := Except.bind_eq_ok_iff.mp h
    obtain ⟨items, hitems, h⟩ := Except.bind_eq_ok_iff.mp h
    obtain ⟨methods, hmethods, h⟩ := Except.bind_eq_ok_iff.mp h
    cases hstray : strayPoint? documents methods with
    | some point =>
        simp only [hstray] at h
        cases h
    | none =>
        simp only [hstray] at h
        cases h
        exact {
          hash := ⟨text, Field.string_eq_ok_iff.mp htext, ContractHash.parse_eq_ok_iff.mp hhash⟩
          documents := Field.strings_eq_ok_iff.mp hdocuments
          documentRoot := rfl
          methods := ⟨items, Field.array_eq_ok_iff.mp hitems,
            (Except.mapM_eq_ok_iff.mp hmethods).imp fun _ _ => Method.ofJson_eq_ok_iff.mp⟩
          namesDocument := strayPoint?_eq_none_iff.mp hstray }
  · rintro ⟨⟨text, htext, hhash⟩, hdocuments, hroot, ⟨items, hitems, hmethods⟩, hnames⟩
    have hmethods : items.mapM Method.ofJson = .ok symbols.methods :=
      Except.mapM_eq_ok_iff.mpr (hmethods.imp fun _ _ => Method.ofJson_eq_ok_iff.mpr)
    simp only [ofJson, Field.string_eq_ok_iff.mpr htext, ContractHash.parse_eq_ok_iff.mpr hhash,
      Field.strings_eq_ok_iff.mpr hdocuments, Field.array_eq_ok_iff.mpr hitems, hmethods,
      strayPoint?_eq_none_iff.mpr hnames, Except.ok_bind, ← hroot]
    rfl

/-- What holds of every table that was read, whatever value it was read from. -/
structure WellFormed (symbols : SymbolTable) : Prop where
  methods : ∀ method ∈ symbols.methods, method.WellFormed
  namesDocument : ∀ method ∈ symbols.methods, ∀ point ∈ method.points,
    point.document.toNat < symbols.documents.length

theorem Describes.wellFormed (h : Describes json symbols) : WellFormed symbols := by
  obtain ⟨items, -, hmethods⟩ := h.methods
  refine ⟨fun method hmem => ?_, h.namesDocument⟩
  obtain ⟨item, -, hitem⟩ := Forall₂.exists_of_mem_right hmethods hmem
  exact hitem.wellFormed

/-- The points of a table that was read ascend in each of its methods. -/
theorem ascending_of_ofJson (h : ofJson json = .ok symbols) {method : Method}
    (hmethod : method ∈ symbols.methods) : SequencePoint.Ascending method.points :=
  ((ofJson_eq_ok_iff.mp h).wellFormed.methods method hmethod).ascending

theorem WellFormed.exists_documentPath (h : WellFormed symbols) {method : Method}
    (hmethod : method ∈ symbols.methods) {point : SequencePoint} (hpoint : point ∈ method.points) :
    ∃ path, symbols.documentPath? point.document.toNat = some path := by
  have hlt := h.namesDocument method hmethod point hpoint
  rw [documentPath?, List.getElem?_eq_getElem hlt]
  exact ⟨_, rfl⟩

/-- The document of a method in the tree is one of the table, never the empty path that
stands in for a missing one. -/
theorem WellFormed.documentPath_of_mem {recording : Recording} (h : WellFormed recording.symbols)
    {method : MethodCoverage} (hmem : method ∈ (CoverageTree.ofRecording recording).methods) :
    recording.symbols.documentPath? method.documentIndex.toNat = some method.document := by
  obtain ⟨source, hsource, hof⟩ := List.mem_filterMap.mp hmem
  obtain ⟨first, hfirst, rfl⟩ := Option.map_eq_some_iff.mp hof
  obtain ⟨path, hpath⟩ := h.exists_documentPath hsource (List.mem_of_head? hfirst)
  simp only [hpath, Option.getD_some]

/-- Why a value describes no table: a required field is missing, a document is no text, or one
of the methods has a defect. -/
inductive Defect (json : Json) : Prop where
  | hash (missing : ∀ text, json.field? "hash" ≠ some (.string text))
  | list {field : String} (required : field ∈ ["documents", "methods"])
      (missing : ∀ items, json.field? field ≠ some (.array items))
  | document {items : List Json} (value : json.field? "documents" = some (.array items))
      {item : Json} (mem : item ∈ items) (notText : ∀ text, item ≠ .string text)
  | method {items : List Json} (value : json.field? "methods" = some (.array items))
      {item : Json} (mem : item ∈ items) (defect : Method.Defect item)

theorem Describes.not_defect (h : Describes json symbols) : ¬Defect json := by
  obtain ⟨text, htext, -⟩ := h.hash
  obtain ⟨methods, hmethods, hdescribes⟩ := h.methods
  rintro (missing | ⟨required, missing⟩ | ⟨value, mem, notText⟩ | ⟨value, mem, defect⟩)
  · exact missing text htext
  · simp only [List.mem_cons, List.not_mem_nil, or_false] at required
    rcases required with rfl | rfl
    · exact missing _ h.documents
    · exact missing _ hmethods
  · cases h.documents.symm.trans value
    obtain ⟨text, -, htext⟩ := List.mem_map.mp mem
    exact notText text htext.symm
  · cases hmethods.symm.trans value
    obtain ⟨method, -, hmethod⟩ := Forall₂.exists_of_mem_left hdescribes mem
    exact hmethod.not_defect defect

/-- A table is read exactly from the values that describe it. It is well formed, so every point
has the path of its document, and the tree of a recording finds the path of every method. A
value with a defect gives no table. -/
theorem ofJson_wellFormed (json : Json) :
    (∀ symbols, ofJson json = .ok symbols ↔ Describes json symbols) ∧
    (∀ symbols, ofJson json = .ok symbols →
      WellFormed symbols ∧
      (∀ method ∈ symbols.methods, ∀ point ∈ method.points,
        ∃ path, symbols.documentPath? point.document.toNat = some path) ∧
      ∀ recording : Recording, recording.symbols = symbols →
        ∀ method ∈ (CoverageTree.ofRecording recording).methods,
          symbols.documentPath? method.documentIndex.toNat = some method.document) ∧
    (Defect json → ∃ e, ofJson json = .error e) := by
  refine ⟨fun symbols => ofJson_eq_ok_iff, fun symbols hread => ?_, fun hdefect => ?_⟩
  · have hwell := (ofJson_eq_ok_iff.mp hread).wellFormed
    refine ⟨hwell, fun method hmethod point hpoint => ?_, ?_⟩
    · exact hwell.exists_documentPath hmethod hpoint
    · rintro recording rfl method hmem
      exact hwell.documentPath_of_mem hmem
  · cases hread : ofJson json with
    | error e => exact ⟨e, rfl⟩
    | ok symbols => exact absurd hdefect (ofJson_eq_ok_iff.mp hread).not_defect

/-- A method whose points are not in order; two of them share an address. -/
def mainJson (range : String) : Json :=
  .object [("id", .string "m0"), ("name", .string "Token,Main"), ("range", .string range),
    ("params", .array [.string "from,Hash160", .string "amount,Integer,1"]),
    ("sequence-points", .array [.string "7[0]3:1-3:5", .string "2[0]1:1-1:5",
      .string "2[0]2:1-2:5"])]

def tokenJson (range : String) : Json :=
  .object [("hash", .string "0x0000000000000000000000000000000000000000"),
    ("documents", .array [.string "Token.cs"]), ("document-root", .string "/work/"),
    ("methods", .array [mainJson range])]

def mainMethod : Method where
  id := "m0"
  «namespace» := "Token"
  name := "Main"
  range := ⟨2, 9, by decide⟩
  parameters := [⟨"from", "Hash160", 0⟩, ⟨"amount", "Integer", 1⟩]
  returnType := none
  points := [⟨2, 0, ⟨1, 1⟩, ⟨1, 5⟩⟩, ⟨2, 0, ⟨2, 1⟩, ⟨2, 5⟩⟩, ⟨7, 0, ⟨3, 1⟩, ⟨3, 5⟩⟩]

def token : SymbolTable where
  hash := .zero
  documentRoot := some "/work/"
  documents := ["Token.cs"]
  methods := [mainMethod]

theorem mainJson_describes : Method.Describes (mainJson "2-9") mainMethod where
  id := rfl
  name := ⟨"Token,Main", rfl, Method.splitName?_eq_some_iff.mp (by decide)⟩
  range := ⟨"2-9", rfl, AddressRange.parse?_eq_some_iff.mp (by decide)⟩
  parameters := ⟨["from,Hash160", "amount,Integer,1"], .array rfl,
    .cons (Parameter.parse?_eq_some_iff.mp (by decide))
      (.cons (Parameter.parse?_eq_some_iff.mp (by decide)) .nil)⟩
  returnType := rfl
  points := by
    refine ⟨["7[0]3:1-3:5", "2[0]1:1-1:5", "2[0]2:1-2:5"],
      [⟨7, 0, ⟨3, 1⟩, ⟨3, 5⟩⟩, ⟨2, 0, ⟨1, 1⟩, ⟨1, 5⟩⟩, ⟨2, 0, ⟨2, 1⟩, ⟨2, 5⟩⟩], .array rfl, ?_, ?_⟩
    · exact .cons (SequencePoint.parse?_eq_some_iff.mp (by decide))
        (.cons (SequencePoint.parse?_eq_some_iff.mp (by decide))
          (.cons (SequencePoint.parse?_eq_some_iff.mp (by decide)) .nil))
    · refine ⟨by decide, by decide, fun address => ?_⟩
      by_cases h : 2 = address
      · subst h
        decide
      · simp [mainMethod, List.filter_cons, h]

/-- With its range in order the table is read, and with the range reversed it is refused. -/
theorem ofJson_wellFormed_token :
    (ofJson (tokenJson "2-9") = .ok token ∧ WellFormed token ∧
      (∃ path, token.documentPath? 0 = some path) ∧
      ∀ method ∈ (CoverageTree.ofRecording (.new "token" token)).methods,
        token.documentPath? method.documentIndex.toNat = some method.document) ∧
    ∃ e, ofJson (tokenJson "9-2") = .error e := by
  have hdescribes : Describes (tokenJson "2-9") token := {
    hash := ⟨"0x0000000000000000000000000000000000000000", rfl, by decide +kernel⟩
    documents := rfl
    documentRoot := by decide
    methods := ⟨[mainJson "2-9"], rfl, .cons mainJson_describes .nil⟩
    namesDocument := by decide }
  obtain ⟨hreads, hwell, hrefused⟩ := ofJson_wellFormed (tokenJson "2-9")
  have hread : ofJson (tokenJson "2-9") = .ok token := (hreads token).mpr hdescribes
  obtain ⟨hwell, hpaths, htree⟩ := hwell token hread
  have hpath : ∃ path, token.documentPath? 0 = some path :=
    hpaths _ List.mem_cons_self ⟨2, 0, ⟨1, 1⟩, ⟨1, 5⟩⟩ List.mem_cons_self
  have hreversed (range : AddressRange) : ¬range.EncodedBy "9-2".toList := by
    intro h
    have hnone : AddressRange.parse? "9-2".toList = none := by decide
    cases hnone.symm.trans (AddressRange.parse?_eq_some_iff.mpr h)
  have hdefect : Defect (tokenJson "9-2") :=
    .method rfl List.mem_cons_self (.range rfl hreversed)
  exact ⟨⟨hread, hwell, hpath, htree _ rfl⟩, (ofJson_wellFormed _).2.2 hdefect⟩

end SymbolTable

end ScriptCoverage
