import ScriptCoverage.Proofs.Report.Cobertura
import ScriptCoverage.Proofs.Report.Lcov
import ScriptCoverage.Proofs.Report.LcovReader

/-!
What the Cobertura and the LCOV report over the same trees have in common. They count the same
outcomes of branches. They list the same lines of a source file as long as no class has methods
in that file and in another one: Cobertura ascribes a class as a whole to the document of its
first method, LCOV each method to its own.
-/

namespace ScriptCoverage

namespace CoverageTree

/-- The document of the first method in the class of a method. -/
def classDocument? (tree : CoverageTree) (method : MethodCoverage) : Option String :=
  (tree.methods.find? (·.method.namespace == method.method.namespace)).map (·.document)

end CoverageTree

namespace Lcov

open Cobertura (Report)

/-- The source lines that a report lists for a file, with their counts. -/
def linesIn (report : List Line) (path : String) : List (UInt32 × UInt32) :=
  ((records report).filter fun record => .sourceFile path ∈ record).flatMap lineHits

end Lcov

/-- The reports over the same trees list the same source lines for a file, and one counts a
line as hit exactly when the other does. -/
def FilesAgree (context : ReportContext) (trees : List CoverageTree) (path : String) : Prop :=
  ∃ report other, Cobertura.Report.read? (Cobertura.print context trees) = some report ∧
    Lcov.read? (Lcov.texts trees) = some other ∧
    (∀ n, (∃ entry ∈ report.linesIn path, entry.number = n) ↔
      ∃ item ∈ Lcov.linesIn other path, item.1.toNat = n) ∧
    ∀ n, (∃ entry ∈ report.linesIn path, entry.number = n ∧ 0 < entry.hits) ↔
      ∃ item ∈ Lcov.linesIn other path, item.1.toNat = n ∧ 0 < item.2

/-- A line of a method that satisfies a condition. -/
def IsLineWhere (trees : List CoverageTree) (p : CoverageTree → MethodCoverage → Prop)
    (line : LineCoverage) : Prop :=
  ∃ tree ∈ trees, ∃ method ∈ tree.methods, p tree method ∧ line ∈ method.lines

variable {trees : List CoverageTree} {path : String}

theorem CoverageTree.classDocument?_of_mem {tree : CoverageTree} {group : MethodGroup}
    (hgroup : group ∈ tree.classes) {method : MethodCoverage} (hmethod : method ∈ group.methods) :
    tree.classDocument? method = some (Cobertura.ClassEntry.ofGroup group).filename := by
  have hmethods := (MethodGroup.partition_groupBy _ tree.methods).inOrder group hgroup
  have hkey : method.method.namespace = group.key := by
    rw [hmethods] at hmethod
    exact eq_of_beq (List.mem_filter.mp hmethod).2
  obtain ⟨first, rest, hcons⟩ := List.exists_cons_of_ne_nil (List.ne_nil_of_mem hmethod)
  have hfirst : tree.methods.find? (·.method.namespace == group.key) = some first := by
    rw [← List.head?_filter, ← hmethods, hcons, List.head?_cons]
  rw [classDocument?, hkey, hfirst, Cobertura.ClassEntry.ofGroup, hcons]
  rfl

/-- Cobertura lists for a file the lines of the classes whose first method stands there. -/
theorem Cobertura.mem_linesIn {context : ReportContext} {entry : LineEntry} :
    entry ∈ (Report.ofTrees context trees).linesIn path ↔
      ∃ line, IsLineWhere trees (fun tree method => tree.classDocument? method = some path) line ∧
        .ofLine line = entry := by
  constructor
  · intro hentry
    obtain ⟨classEntry, hmem, hlines⟩ := List.mem_flatMap.mp hentry
    obtain ⟨hmem, hpath⟩ := List.mem_filter.mp hmem
    obtain ⟨package, hpackage, hclass⟩ := List.mem_flatMap.mp hmem
    obtain ⟨tree, htree, rfl⟩ := List.mem_map.mp hpackage
    obtain ⟨group, hgroup, rfl⟩ := List.mem_map.mp hclass
    obtain ⟨line, hline, rfl⟩ := List.mem_map.mp hlines
    obtain ⟨method, hmethod, hline⟩ := List.mem_flatMap.mp hline
    have hdocument := CoverageTree.classDocument?_of_mem hgroup hmethod
    rw [eq_of_beq hpath] at hdocument
    have hpartition := MethodGroup.partition_groupBy (·.method.namespace) tree.methods
    have htreeMethod : method ∈ tree.methods :=
      hpartition.perm.mem_iff.mp (List.mem_flatMap.mpr ⟨group, hgroup, hmethod⟩)
    exact ⟨line, ⟨tree, htree, method, htreeMethod, hdocument, hline⟩, rfl⟩
  · rintro ⟨line, ⟨tree, htree, method, hmethod, hdocument, hline⟩, rfl⟩
    have hpartition := MethodGroup.partition_groupBy (·.method.namespace) tree.methods
    obtain ⟨group, ⟨hgroup, hin⟩, -⟩ := hpartition.exactlyOne method hmethod
    rw [CoverageTree.classDocument?_of_mem hgroup hin, Option.some_inj] at hdocument
    have hclass : ClassEntry.ofGroup group ∈
        (Report.ofTrees context trees).packages.flatMap (·.classes) :=
      List.mem_flatMap.mpr ⟨.ofTree tree, List.mem_map_of_mem htree, List.mem_map_of_mem hgroup⟩
    have hlines : .ofLine line ∈ (ClassEntry.ofGroup group).lines :=
      List.mem_map_of_mem (List.mem_flatMap.mpr ⟨method, hin, hline⟩)
    exact List.mem_flatMap.mpr
      ⟨.ofGroup group, List.mem_filter.mpr ⟨hclass, beq_of_eq hdocument⟩, hlines⟩

/-- What is asked of the lines of a file in the Cobertura report is asked of these lines. -/
theorem Cobertura.exists_mem_linesIn_iff {context : ReportContext} {p : LineEntry → Prop} :
    (∃ entry ∈ (Report.ofTrees context trees).linesIn path, p entry) ↔
      ∃ line, IsLineWhere trees (fun tree method => tree.classDocument? method = some path) line ∧
        p (.ofLine line) := by
  constructor
  · rintro ⟨entry, hentry, hp⟩
    obtain ⟨line, hwhere, rfl⟩ := mem_linesIn.mp hentry
    exact ⟨line, hwhere, hp⟩
  · rintro ⟨line, hwhere, hp⟩
    exact ⟨.ofLine line, mem_linesIn.mpr ⟨line, hwhere, rfl⟩, hp⟩

/-- LCOV lists for a file the lines of the methods that stand there, each contract with the
largest of its counts. -/
theorem Lcov.mem_linesIn {item : UInt32 × UInt32} :
    item ∈ linesIn (lines trees) path ↔
      ∃ tree ∈ trees, IsGreatest (hitCountsAt
        ((tree.methods.filter (·.document == path)).flatMap (·.lines)) item.1) item.2 := by
  rw [linesIn, records_lines]
  constructor
  · intro hitem
    obtain ⟨record, hrecord, hitem⟩ := List.mem_flatMap.mp hitem
    obtain ⟨hrecord, hpath⟩ := List.mem_filter.mp hrecord
    obtain ⟨tree, htree, hrecord⟩ := List.mem_flatMap.mp hrecord
    obtain ⟨group, hgroup, rfl⟩ := List.mem_map.mp hrecord
    have hstands := record_standsFor tree.name group
    have hkey := (hstands.file path).mp (of_decide_eq_true hpath)
    have hmethods := (MethodGroup.partition_groupBy _ tree.methods).inOrder group hgroup
    refine ⟨tree, htree, ?_⟩
    rw [hkey, ← hmethods]
    exact (hstands.greatest _ _).mp hitem
  · rintro ⟨tree, htree, hgreatest⟩
    obtain ⟨line, hline, -⟩ := hgreatest.1
    obtain ⟨method, hmethod, -⟩ := List.mem_flatMap.mp hline
    obtain ⟨hmethod, hdocument⟩ := List.mem_filter.mp hmethod
    have hpartition := MethodGroup.partition_groupBy (·.document) tree.methods
    obtain ⟨group, ⟨hgroup, hin⟩, -⟩ := hpartition.exactlyOne method hmethod
    have hmethods := hpartition.inOrder group hgroup
    have hkey : path = group.key := by
      rw [hmethods] at hin
      rw [← eq_of_beq hdocument]
      exact eq_of_beq (List.mem_filter.mp hin).2
    have hstands := record_standsFor tree.name group
    rw [hkey, ← hmethods] at hgreatest
    have hrecord : record tree.name group ∈
        trees.flatMap fun tree => tree.documentGroups.map (record tree.name) :=
      List.mem_flatMap.mpr ⟨tree, htree, List.mem_map_of_mem hgroup⟩
    have hfile := decide_eq_true ((hstands.file path).mpr hkey)
    exact List.mem_flatMap.mpr ⟨_, List.mem_filter.mpr ⟨hrecord, hfile⟩,
      (hstands.greatest _ _).mpr hgreatest⟩

theorem isLineWhere_document_iff {line : LineCoverage} :
    IsLineWhere trees (fun _ method => method.document = path) line ↔
      ∃ tree ∈ trees, line ∈ (tree.methods.filter (·.document == path)).flatMap (·.lines) := by
  simp [IsLineWhere, and_assoc]

/-- The numbers that LCOV lists for a file are those of its lines. -/
theorem Lcov.exists_mem_linesIn_iff {n : Nat} :
    (∃ item ∈ linesIn (lines trees) path, item.1.toNat = n) ↔
      ∃ line, IsLineWhere trees (fun _ method => method.document = path) line ∧
        line.line.toNat = n := by
  constructor
  · rintro ⟨item, hitem, rfl⟩
    obtain ⟨tree, htree, ⟨line, hline, hnumber, -⟩, -⟩ := mem_linesIn.mp hitem
    exact ⟨line, isLineWhere_document_iff.mpr ⟨tree, htree, hline⟩, by rw [hnumber]⟩
  · rintro ⟨line, hwhere, rfl⟩
    obtain ⟨tree, htree, hline⟩ := isLineWhere_document_iff.mp hwhere
    obtain ⟨count, hgreatest⟩ := exists_isGreatest hline
    exact ⟨(line.line, count), mem_linesIn.mpr ⟨tree, htree, hgreatest⟩, rfl⟩

/-- LCOV lists a number with a positive count when one of its lines was hit. -/
theorem Lcov.exists_hit_mem_linesIn_iff {n : Nat} :
    (∃ item ∈ linesIn (lines trees) path, item.1.toNat = n ∧ 0 < item.2) ↔
      ∃ line, IsLineWhere trees (fun _ method => method.document = path) line ∧
        line.line.toNat = n ∧ 0 < line.hitCount := by
  constructor
  · rintro ⟨item, hitem, rfl, hhit⟩
    obtain ⟨tree, htree, ⟨line, hline, hnumber, hcount⟩, -⟩ := mem_linesIn.mp hitem
    exact ⟨line, isLineWhere_document_iff.mpr ⟨tree, htree, hline⟩, by rw [hnumber],
      by rwa [hcount]⟩
  · rintro ⟨line, hwhere, rfl, hhit⟩
    obtain ⟨tree, htree, hline⟩ := isLineWhere_document_iff.mp hwhere
    obtain ⟨count, hgreatest⟩ := exists_isGreatest hline
    have hle : line.hitCount ≤ count := hgreatest.2 ⟨line, hline, rfl, rfl⟩
    exact ⟨(line.line, count), mem_linesIn.mpr ⟨tree, htree, hgreatest⟩, rfl,
      UInt32.lt_of_lt_of_le hhit hle⟩

/-- No class has a method in a file and another one elsewhere. -/
def Undivided (trees : List CoverageTree) (path : String) : Prop :=
  ∀ tree ∈ trees, ∀ x ∈ tree.methods, ∀ y ∈ tree.methods,
    x.method.namespace = y.method.namespace → x.document = path → y.document = path

theorem Undivided.classDocument?_iff (h : Undivided trees path) {tree : CoverageTree}
    (htree : tree ∈ trees) {method : MethodCoverage} (hmethod : method ∈ tree.methods) :
    tree.classDocument? method = some path ↔ method.document = path := by
  let p (other : MethodCoverage) : Bool := other.method.namespace == method.method.namespace
  cases hfirst : tree.methods.find? p with
  | none => exact absurd (beq_self_eq_true _) (List.find?_eq_none.mp hfirst method hmethod)
  | some first =>
      have hmem := List.mem_of_find?_eq_some hfirst
      have hp : p first = true := List.find?_some hfirst
      have hspace : first.method.namespace = method.method.namespace := eq_of_beq hp
      rw [CoverageTree.classDocument?, hfirst, Option.map_some, Option.some_inj]
      constructor
      · exact h tree htree first hmem method hmethod hspace
      · exact h tree htree method hmethod first hmem hspace.symm

theorem Undivided.isLineWhere_iff (h : Undivided trees path) {line : LineCoverage} :
    IsLineWhere trees (fun tree method => tree.classDocument? method = some path) line ↔
      IsLineWhere trees (fun _ method => method.document = path) line := by
  constructor
  · rintro ⟨tree, htree, method, hmethod, hdocument, hline⟩
    exact ⟨tree, htree, method, hmethod, (h.classDocument?_iff htree hmethod).mp hdocument, hline⟩
  · rintro ⟨tree, htree, method, hmethod, hdocument, hline⟩
    exact ⟨tree, htree, method, hmethod, (h.classDocument?_iff htree hmethod).mpr hdocument, hline⟩

/-- Which lines the two reports list for a file: Cobertura those of the classes whose first
method stands in it, LCOV those of the methods that stand in it themselves. -/
structure ListsLines (context : ReportContext) (trees : List CoverageTree) (path : String) :
    Prop where
  cobertura : ∃ report, Cobertura.Report.read? (Cobertura.print context trees) = some report ∧
    ∀ entry, entry ∈ report.linesIn path ↔
      ∃ line, IsLineWhere trees (fun tree method => tree.classDocument? method = some path) line ∧
        .ofLine line = entry
  lcov : ∃ report, Lcov.read? (Lcov.texts trees) = some report ∧
    (∀ n, (∃ item ∈ Lcov.linesIn report path, item.1.toNat = n) ↔
      ∃ line, IsLineWhere trees (fun _ method => method.document = path) line ∧
        line.line.toNat = n) ∧
    ∀ n, (∃ item ∈ Lcov.linesIn report path, item.1.toNat = n ∧ 0 < item.2) ↔
      ∃ line, IsLineWhere trees (fun _ method => method.document = path) line ∧
        line.line.toNat = n ∧ 0 < line.hitCount

theorem filesAgree_of_undivided (context : ReportContext) (h : Undivided trees path) :
    FilesAgree context trees path := by
  refine ⟨_, _, Cobertura.Report.read?_print context trees, Lcov.read?_texts trees, ?numbers,
    ?hits⟩
  case numbers =>
    intro n
    rw [Lcov.exists_mem_linesIn_iff, Cobertura.exists_mem_linesIn_iff]
    simp only [h.isLineWhere_iff, Cobertura.LineEntry.ofLine]
  case hits =>
    intro n
    rw [Lcov.exists_hit_mem_linesIn_iff, Cobertura.exists_mem_linesIn_iff]
    simp only [h.isLineWhere_iff, Cobertura.LineEntry.ofLine, UInt32.lt_iff_toNat_lt]
    rfl

/-- Each report lists the lines of its own files, and the two agree on every file that no class
shares with another one. -/
theorem listsLines_and_filesAgree (context : ReportContext) (trees : List CoverageTree)
    (path : String) :
    ListsLines context trees path ∧ (Undivided trees path → FilesAgree context trees path) := by
  refine ⟨⟨⟨_, Cobertura.Report.read?_print context trees, ?_⟩,
    ⟨_, Lcov.read?_texts trees, ?_, ?_⟩⟩, ?_⟩
  · exact fun entry => Cobertura.mem_linesIn
  · exact fun n => Lcov.exists_mem_linesIn_iff
  · exact fun n => Lcov.exists_hit_mem_linesIn_iff
  · exact filesAgree_of_undivided context

open CoverageTree (firstRange_ordered secondRange_ordered)

/-- A contract with a method in each of two files, the second under the given namespace. -/
def twoFiles (space : String) : Recording where
  name := "Token"
  symbols := ⟨.zero, none, ["A.cs", "B.cs"], [
    ⟨"m0", "Token", "Main", ⟨0, 2, firstRange_ordered⟩, [], none, [⟨0, 0, ⟨1, 1⟩, ⟨1, 5⟩⟩]⟩,
    ⟨"m1", space, "Open", ⟨3, 5, secondRange_ordered⟩, [], none, [⟨3, 1, ⟨7, 1⟩, ⟨7, 5⟩⟩]⟩]⟩
  script := none
  counters := ⟨((∅ : OrderedMap UInt32 UInt32).insert 0 1).insert 3 1, ∅⟩

/-- The reports do not agree on a file that holds the second method of a class. -/
theorem not_filesAgree_twoFiles :
    ¬FilesAgree ⟨1, []⟩ [.ofRecording (twoFiles "Token")] "B.cs" := by
  rintro ⟨report, other, hread, hother, hnumbers, -⟩
  rw [Cobertura.Report.read?_print, Option.some_inj] at hread
  rw [Lcov.read?_texts, Option.some_inj] at hother
  subst hread hother
  have helsewhere : ∀ tree ∈ [CoverageTree.ofRecording (twoFiles "Token")],
      ∀ method ∈ tree.methods, tree.classDocument? method ≠ some "B.cs" := by
    decide +kernel
  have hline : ∃ tree ∈ [CoverageTree.ofRecording (twoFiles "Token")], ∃ method ∈ tree.methods,
      ∃ line ∈ method.lines, method.document = "B.cs" ∧ line.line.toNat = 7 := by
    decide +kernel
  obtain ⟨tree, htree, method, hmethod, line, hline, hdocument, hnumber⟩ := hline
  have hlisted := Lcov.exists_mem_linesIn_iff.mpr
    ⟨line, ⟨tree, htree, method, hmethod, hdocument, hline⟩, hnumber⟩
  obtain ⟨line, ⟨tree, htree, method, hmethod, hdocument, -⟩, -⟩ :=
    Cobertura.exists_mem_linesIn_iff.mp ((hnumbers 7).mpr hlisted)
  exact helsewhere tree htree method hmethod hdocument

/-- With the second method in a class of its own the reports agree, also on two contracts. -/
theorem filesAgree_twoFiles :
    Undivided [.ofRecording (twoFiles "Vault"), .ofRecording (twoFiles "Safe")] "B.cs" ∧
      FilesAgree ⟨1, []⟩ [.ofRecording (twoFiles "Vault"), .ofRecording (twoFiles "Safe")]
        "B.cs" := by
  have hundivided :
      Undivided [.ofRecording (twoFiles "Vault"), .ofRecording (twoFiles "Safe")] "B.cs" := by
    unfold Undivided
    decide +kernel
  exact ⟨hundivided, (listsLines_and_filesAgree _ _ _).2 hundivided⟩

end ScriptCoverage
