import ScriptCoverage.Proofs.Coverage.Rates
import ScriptCoverage.Proofs.Report.Xml
import ScriptCoverage.Proofs.Text.Decimal
import ScriptCoverage.Proofs.Text.Utf8
import ScriptCoverage.Proofs.Report.CoberturaReader

/-!
A Cobertura report is read back. Every element is proper, so a reader finds the elements of
the report, with exactly their attributes, whatever the names and paths contain; and from
these elements it learns what the trees say about each package, class, method and line.
-/

namespace ScriptCoverage

namespace Xml

theorem areProper_map {α : Type} {element : α → Element} (h : ∀ x, (element x).IsProper)
    (items : List α) : Element.AreProper (items.map element) := by
  induction items with
  | nil => exact trivial
  | cons x rest ih => exact ⟨h x, ih⟩

/-- Whether attributes are proper depends on their names alone. -/
theorem areAttributes_of_names {attributes : List Attribute} (names : List String)
    (hnames : attributes.map (·.1) = names) (hproper : ∀ name ∈ names, IsName name)
    (hdistinct : names.Nodup) : AreAttributes attributes := by
  subst hnames
  exact ⟨List.forall_mem_map.mp hproper, hdistinct⟩

namespace Node

variable {level : Nat} {tag : String} {attributes : List Attribute} {children : List Element}

@[simp]
theorem attribute?_leaf (name : String) :
    ((Element.leaf tag attributes).node level).attribute? name = attributes.lookup name := by
  rw [Element.node, attribute?]

@[simp]
theorem attribute?_group (name : String) :
    ((Element.group tag attributes children).node level).attribute? name =
      attributes.lookup name := by
  rw [Element.node, attribute?]

@[simp]
theorem children?_leaf : ((Element.leaf tag attributes).node level).children? tag = some [] := by
  rw [Element.node, children?, if_pos rfl, List.filter_nil]

@[simp]
theorem children?_group : ((Element.group tag attributes children).node level).children? tag =
    some (children.map (·.node (level + 1))) := by
  rw [Element.node, children?, if_pos rfl, List.cons_append, List.filter_cons_of_neg (by decide),
    List.filter_append, filter_listNodes, filter_blanks, List.append_nil]

@[simp]
theorem text?_text (content : List Char) :
    ((Element.text tag content).node level).text? tag = some (String.ofList content) := by
  have hchar (c : Char) : (Node.char c).char? = some (id c) := rfl
  have hchars := Option.mapM_map_eq_some hchar content
  rw [List.map_id] at hchars
  rw [Element.node, text?, if_pos rfl, hchars, Option.map_some]

/-- Elements that are read one by one are read together. -/
theorem mapM_children {α β : Type} {element : α → Element} {read? : Node → Option β}
    {entry : α → β} (h : ∀ x, read? ((element x).node level) = some (entry x)) (items : List α) :
    ((items.map element).map (·.node level)).mapM read? = some (items.map entry) := by
  rw [List.map_map]
  exact Option.mapM_map_eq_some h items

end Node

end Xml

namespace Cobertura

open Xml

theorem lineElement_isProper (line : LineCoverage) : (lineElement line).IsProper := by
  refine ⟨by decide, ?_⟩
  split
  · exact areAttributes_of_names ["number", "hits", "branch", "condition-coverage"] rfl (by decide)
      (by decide)
  · exact areAttributes_of_names ["number", "hits", "branch"] rfl (by decide) (by decide)

theorem methodElement_isProper (method : MethodCoverage) : (methodElement method).IsProper := by
  refine ⟨by decide, ?_, ⟨by decide, ?_, ?_⟩, trivial⟩
  · exact areAttributes_of_names ["name", "signature", "line-rate", "branch-rate", "complexity"] rfl
      (by decide) (by decide)
  · exact areAttributes_of_names [] rfl (by decide) (by decide)
  · exact areProper_map lineElement_isProper _

theorem classElement_isProper (group : MethodGroup) : (classElement group).IsProper := by
  have hnone : AreAttributes [] := areAttributes_of_names [] rfl (by decide) (by decide)
  refine ⟨by decide, ?_, ⟨by decide, hnone, ?_⟩, ⟨by decide, hnone, ?_⟩, trivial⟩
  · exact areAttributes_of_names ["name", "filename", "line-rate", "branch-rate", "complexity"] rfl
      (by decide) (by decide)
  · exact areProper_map methodElement_isProper _
  · exact areProper_map lineElement_isProper _

theorem packageElement_isProper (tree : CoverageTree) : (packageElement tree).IsProper := by
  refine ⟨by decide, ?_, ⟨by decide, ?_, ?_⟩, trivial⟩
  · exact areAttributes_of_names ["name", "line-rate", "branch-rate", "complexity"] rfl (by decide)
      (by decide)
  · exact areAttributes_of_names [] rfl (by decide) (by decide)
  · exact areProper_map classElement_isProper _

theorem document_isProper (context : ReportContext) (trees : List CoverageTree) :
    (document context trees).IsProper := by
  have hnone : AreAttributes [] := areAttributes_of_names [] rfl (by decide) (by decide)
  refine ⟨by decide, ?_, ⟨by decide, hnone, ?_⟩, ⟨by decide, hnone, ?_⟩, trivial⟩
  · exact areAttributes_of_names ["line-rate", "branch-rate", "lines-covered", "lines-valid",
      "branches-covered", "branches-valid", "complexity", "version", "timestamp"] rfl (by decide)
      (by decide)
  · refine areProper_map (fun root => ?_) _
    rw [Element.IsProper]
    decide
  · exact areProper_map packageElement_isProper _

/-- The two declarations are skipped. -/
theorem run_prolog : Reader.start.run prolog.toList =
    some ⟨[], [.char '\n', .char '\n'], .content, none⟩ := by
  let version := "xml version=\"1.0\" encoding=\"UTF-8\"?".toList
  let doctype :=
    "DOCTYPE coverage SYSTEM \"http://cobertura.sourceforge.net/xml/coverage-04.dtd\"".toList
  have hsplit : prolog.toList =
      ('<' :: '?' :: version ++ ['>', '\n']) ++ ('<' :: '!' :: doctype ++ ['>', '\n']) := by
    decide +kernel
  have hversion := Reader.run_declaration (.inl rfl) (show '>' ∉ version by decide +kernel)
    (show '&' ∉ version by decide +kernel) []
  have hdoctype := Reader.run_declaration (.inr rfl) (show '>' ∉ doctype by decide +kernel)
    (show '&' ∉ doctype by decide +kernel) [.char '\n']
  rw [Reader.start, hsplit, Reader.run_append hversion]
  exact hdoctype

/-- A reader finds the elements of the report. -/
theorem root?_print (context : ReportContext) (trees : List CoverageTree) :
    root? (print context trees) = some ((document context trees).node 0) := by
  have hblank : ∀ node ∈ [Node.char '\n', Node.char '\n'], node.isBlank = true := by
    simp [Node.isBlank, isSpace]
  exact root?_append_chars run_prolog hblank (document_isProper context trees)

/-- What the report says about a line. -/
def LineEntry.ofLine (line : LineCoverage) : LineEntry where
  number := line.line.toNat
  hits := line.hitCount.toNat
  branch := 1 < line.outcomePaths
  condition :=
    if line.branches = [] then none
    else some (line.branchRate.covered.toNat, line.branchRate.total.toNat)

def MethodEntry.ofMethod (method : MethodCoverage) : MethodEntry where
  name := method.method.name
  signature := method.method.name ++ "(" ++
    String.intercalate ", " (method.method.parameters.map (·.typeName)) ++ ")"
  lines := method.lines.map .ofLine

def ClassEntry.ofGroup (group : MethodGroup) : ClassEntry where
  name := group.key
  filename := (group.methods.head?.map (·.document)).getD ""
  methods := group.methods.map .ofMethod
  lines := (group.methods.flatMap (·.lines)).map .ofLine

def PackageEntry.ofTree (tree : CoverageTree) : PackageEntry where
  name := tree.name
  classes := tree.classes.map .ofGroup

def Report.ofTrees (context : ReportContext) (trees : List CoverageTree) : Report where
  timestamp := context.timestamp
  linesCovered := (Rate.sum (trees.map (·.lineRate))).covered.toNat
  linesValid := (Rate.sum (trees.map (·.lineRate))).total.toNat
  branchesCovered := (Rate.sum (trees.map (·.branchRate))).covered.toNat
  branchesValid := (Rate.sum (trees.map (·.branchRate))).total.toNat
  sources := context.sourceRoots
  packages := trees.map .ofTree

theorem condition?_conditionCoverage (rate : Rate) :
    condition? (conditionCoverage rate) = some (rate.covered.toNat, rate.total.toNat) := by
  have hmark (c : Char) (hc : Decimal.digitValue? c = none) (n : Nat) (rest : List Char) :
      Text.splitFirst c (Decimal.digits n ++ c :: rest) = some (Decimal.digits n, rest) :=
    Text.splitFirst_append (Decimal.notMem_digits hc n) rest
  have hblank (rest : List Char) :
      Text.splitFirst '(' ([' '] ++ '(' :: rest) = some ([' '], rest) :=
    Text.splitFirst_append (by decide) rest
  have htext : conditionCoverage rate =
      Decimal.digits (rate.basisPoints.toNat / 100) ++ '%' :: ([' '] ++ '(' ::
        (Decimal.digits rate.covered.toNat ++ '/' ::
          (Decimal.digits rate.total.toNat ++ [')']))) := by
    simp [conditionCoverage, number]
  simp only [condition?, htext, hmark '%' rfl, hmark '/' rfl, hmark ')' rfl, hblank,
    Decimal.value?_digits, Option.bind_eq_bind, Option.bind_some, and_self, if_true]

theorem flag?_toString (b : Bool) : flag? (toString b).toList = some b := by
  cases b <;> rfl

theorem value?_number (n : Nat) : Decimal.value? (number n) = some n :=
  Decimal.value?_digits n

theorem LineEntry.ofNode?_lineElement (level : Nat) (line : LineCoverage) :
    ofNode? ((lineElement line).node level) = some (.ofLine line) := by
  rw [lineElement, ofNode?, Node.number?, Node.number?]
  simp only [Node.children?_leaf, Node.attribute?_leaf]
  cases hbranches : line.branches with
  | nil =>
      simp [ofLine, LineCoverage.hasBranches, LineCoverage.isBranchCovered, hbranches,
        List.lookup_cons, value?_number, flag?_toString]
  | cons site rest =>
      simp [ofLine, LineCoverage.hasBranches, LineCoverage.isBranchCovered, hbranches,
        List.lookup_cons, value?_number, flag?_toString, condition?_conditionCoverage]

theorem MethodEntry.ofNode?_methodElement (level : Nat) (method : MethodCoverage) :
    ofNode? ((methodElement method).node level) = some (.ofMethod method) := by
  have hlines := Node.mapM_children (LineEntry.ofNode?_lineElement (level + 2)) method.lines
  simp only [methodElement, ofNode?, Node.string?, Node.children?_group, Node.attribute?_group,
    List.map_cons, List.map_nil, Option.bind_eq_bind, Option.bind_some, hlines]
  have hentry : ofMethod method =
      ⟨method.method.name, method.signature, method.lines.map .ofLine⟩ := rfl
  simp [hentry, List.lookup_cons]

theorem ClassEntry.ofNode?_classElement (level : Nat) (group : MethodGroup) :
    ofNode? ((classElement group).node level) = some (.ofGroup group) := by
  have hmethods :=
    Node.mapM_children (MethodEntry.ofNode?_methodElement (level + 2)) group.methods
  have hlines := Node.mapM_children (LineEntry.ofNode?_lineElement (level + 2))
    (group.methods.flatMap (·.lines))
  simp only [classElement, ofNode?, Node.string?, Node.children?_group, Node.attribute?_group,
    List.map_cons, List.map_nil, Option.bind_eq_bind, Option.bind_some, hmethods, hlines]
  cases hgroup : group.methods <;> simp [ofGroup, hgroup, List.lookup_cons]

theorem PackageEntry.ofNode?_packageElement (level : Nat) (tree : CoverageTree) :
    ofNode? ((packageElement tree).node level) = some (.ofTree tree) := by
  have hclasses := Node.mapM_children (ClassEntry.ofNode?_classElement (level + 2)) tree.classes
  simp only [packageElement, ofNode?, Node.string?, Node.children?_group, Node.attribute?_group,
    List.map_cons, List.map_nil, Option.bind_eq_bind, Option.bind_some, hclasses]
  simp [ofTree]

namespace Report

theorem ofNode?_document (context : ReportContext) (trees : List CoverageTree) :
    ofNode? ((document context trees).node 0) = some (ofTrees context trees) := by
  have hsources : ((context.sourceRoots.map fun root => Element.text "source" root.toList).map
      (·.node 2)).mapM (·.text? "source") = some (context.sourceRoots.map id) :=
    Node.mapM_children (by simp) context.sourceRoots
  have hpackages := Node.mapM_children (PackageEntry.ofNode?_packageElement 2) trees
  simp only [document, ofNode?, Node.number?, Node.children?_group, Node.attribute?_group,
    List.map_cons, List.map_nil, Option.bind_eq_bind, Option.bind_some, hsources, hpackages]
  simp [ofTrees, List.lookup_cons, value?_number, rates, complexity]

/-- A reader learns from the report what the trees say. -/
theorem read?_print (context : ReportContext) (trees : List CoverageTree) :
    read? (print context trees) = some (ofTrees context trees) := by
  rw [read?, root?_print, Option.bind_some, ofNode?_document]

end Report

/-- A class stands for these methods: it has the document of the first, an entry for each of
them, and the lines of all of them. -/
structure ClassEntry.Describes (entry : ClassEntry) (methods : List MethodCoverage) : Prop where
  filename : ∃ first, methods.head? = some first ∧ entry.filename = first.document
  methods : entry.methods = methods.map .ofMethod
  lines : entry.lines = entry.methods.flatMap (·.lines)

/-- A package stands for a contract: a class for each namespace of its methods, by ascending
bytes, with the methods of the namespace in their order. -/
structure PackageEntry.Describes (entry : PackageEntry) (tree : CoverageTree) : Prop where
  name : entry.name = tree.name
  ascending : entry.classes.Pairwise fun x y =>
    Utf8.encode x.name.toList < Utf8.encode y.name.toList
  namespaces : ∀ name,
    name ∈ entry.classes.map (·.name) ↔ name ∈ tree.methods.map (·.method.namespace)
  classes : ∀ classEntry ∈ entry.classes,
    classEntry.Describes (tree.methods.filter (·.method.namespace == classEntry.name))

/-- A report stands for a list of contracts, a package for each of them in turn. -/
structure Report.Describes (report : Report) (context : ReportContext)
    (trees : List CoverageTree) : Prop where
  timestamp : report.timestamp = context.timestamp
  sources : report.sources = context.sourceRoots
  packages : List.Forall₂ PackageEntry.Describes report.packages trees

theorem ClassEntry.ofGroup_describes {group : MethodGroup} {first : MethodCoverage}
    {rest : List MethodCoverage} (h : group.methods = first :: rest) :
    (ofGroup group).Describes group.methods where
  filename := ⟨first, by rw [h, List.head?_cons], by rw [ofGroup, h]; rfl⟩
  methods := rfl
  lines := by
    rw [ofGroup, List.map_flatMap, List.flatMap_map]
    rfl

theorem PackageEntry.ofTree_describes (tree : CoverageTree) : (ofTree tree).Describes tree := by
  have hpartition := MethodGroup.partition_groupBy (·.method.namespace) tree.methods
  have hkeys : (ofTree tree).classes.map (·.name) = tree.classes.map (·.key) := by
    rw [ofTree, List.map_map]
    rfl
  refine ⟨rfl, ?ascending, ?namespaces, ?classes⟩
  case ascending =>
    refine List.pairwise_map.mpr (hpartition.ascending.imp ?_)
    intro x y hlt
    exact Utf8.encode_lt (String.lt_iff.mp hlt)
  case namespaces =>
    intro name
    rw [hkeys]
    exact MethodGroup.mem_keys_groupBy
  case classes =>
    refine List.forall_mem_map.mpr fun group hgroup => ?_
    have hmethods := hpartition.inOrder group hgroup
    obtain ⟨method, hmethod, hkey⟩ :=
      List.mem_map.mp (MethodGroup.mem_keys_groupBy.mp (List.mem_map_of_mem hgroup))
    have hmem : method ∈ group.methods := by
      rw [hmethods, List.mem_filter]
      exact ⟨hmethod, beq_of_eq hkey⟩
    obtain ⟨first, rest, hgroup⟩ := List.exists_cons_of_ne_nil (List.ne_nil_of_mem hmem)
    have hdescribes := ClassEntry.ofGroup_describes hgroup
    rwa [hmethods] at hdescribes

theorem Report.ofTrees_describes (context : ReportContext) (trees : List CoverageTree) :
    (ofTrees context trees).Describes context trees where
  timestamp := rfl
  sources := rfl
  packages := by
    rw [ofTrees, List.forall₂_map_left_iff, List.forall₂_same]
    exact fun tree _ => PackageEntry.ofTree_describes tree

/-- A reader finds in a report the elements and attributes it was built from, whatever
characters stand in names and paths, and in these what the trees say. -/
theorem readsBack_print (context : ReportContext) (trees : List CoverageTree) :
    Xml.root? (print context trees) = some ((document context trees).node 0) ∧
      ∃ report, Report.ofNode? ((document context trees).node 0) = some report ∧
        report.Describes context trees :=
  ⟨root?_print context trees, .ofTrees context trees, Report.ofNode?_document context trees,
    Report.ofTrees_describes context trees⟩

end Cobertura

end ScriptCoverage
