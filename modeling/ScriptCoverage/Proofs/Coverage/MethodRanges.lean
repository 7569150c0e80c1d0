import ScriptCoverage.Proofs.Coverage.Rates
import ScriptCoverage.Proofs.Symbols.Table

/-!
The branches of different methods. A method lists the jumps and calls from its first point to
the end of its range. Nothing holds the first point to the start of the range, so a point before
it takes over branches of another method. Where no point comes before its range, methods of
disjoint ranges share no branch, and the branch rate counts every jump or call at most once.
-/

namespace ScriptCoverage

namespace AddressRange

def Contains (range : AddressRange) (address : UInt32) : Prop :=
  range.first ≤ address ∧ address ≤ range.last

instance (range : AddressRange) (address : UInt32) : Decidable (range.Contains address) :=
  inferInstanceAs (Decidable (_ ∧ _))

/-- One of the ranges ends before the other begins. -/
def Disjoint (range other : AddressRange) : Prop :=
  range.last < other.first ∨ other.last < range.first

instance (range other : AddressRange) : Decidable (range.Disjoint other) :=
  inferInstanceAs (Decidable (_ ∨ _))

theorem Disjoint.address_ne {range other : AddressRange} (h : range.Disjoint other)
    {address address' : UInt32} (hrange : range.Contains address)
    (hother : other.Contains address') : address ≠ address' := by
  rintro rfl
  rcases h with hbefore | hbehind
  · exact UInt32.lt_irrefl _ (UInt32.lt_of_le_of_lt hrange.2
      (UInt32.lt_of_lt_of_le hbefore hother.1))
  · exact UInt32.lt_irrefl _ (UInt32.lt_of_le_of_lt hother.2
      (UInt32.lt_of_lt_of_le hbehind hrange.1))

end AddressRange

/-- No point of the method comes before its range. -/
def Method.StartsInRange (method : Method) : Prop :=
  ∀ point ∈ method.points, method.range.first ≤ point.address

instance (method : Method) : Decidable method.StartsInRange :=
  inferInstanceAs (Decidable (∀ point ∈ method.points, _))

/-- All branches of the method's lines. -/
def MethodCoverage.branches (method : MethodCoverage) : List BranchSite :=
  method.lines.flatMap (·.branches)

namespace BranchSite

/-- The outcomes of these branches that were seen, out of two for each. -/
def rate (sites : List BranchSite) : Rate :=
  .ofCounts (outcomePaths sites) (2 * sites.length)

theorem rate_perm {sites sites' : List BranchSite} (h : sites.Perm sites') :
    rate sites = rate sites' := by
  have hpaths : outcomePaths sites = outcomePaths sites' := by
    rw [LineCount.outcomePaths_eq_countP, LineCount.outcomePaths_eq_countP]
    exact (h.flatMap_right _).countP_eq _
  rw [rate, rate, hpaths, h.length_eq]

end BranchSite

namespace CoverageTree

theorem branches_eq_flatMap (tree : CoverageTree) :
    tree.branches = tree.methods.flatMap (·.branches) :=
  List.flatMap_assoc

theorem branchRate_eq (tree : CoverageTree) :
    tree.branchRate = BranchSite.rate tree.branches := by
  have hcovered : LineCount.outcomes.coveredIn tree.lines =
      BranchSite.outcomePaths tree.branches := by
    rw [LineCount.coveredIn_outcomes, LineCount.outcomePaths_eq_countP]
    rfl
  rw [branchRate, LineCount.sum_branchRate, ← lines, LineCount.rateOf, hcovered,
    LineCount.totalIn_outcomes]
  rfl

/-- Every branch under a method stands in the method's range. -/
def BranchesInRange (tree : CoverageTree) : Prop :=
  ∀ method ∈ tree.methods, ∀ site ∈ method.branches, method.method.range.Contains site.address

instance (tree : CoverageTree) : Decidable tree.BranchesInRange :=
  inferInstanceAs (Decidable (∀ method ∈ tree.methods, ∀ site ∈ method.branches, _))

/-- No two branches in the tree have the same address, under one method or under two. -/
def BranchesListedOnce (tree : CoverageTree) : Prop :=
  (tree.branches.map (·.address)).Nodup

instance (tree : CoverageTree) : Decidable tree.BranchesListedOnce :=
  inferInstanceAs (Decidable (List.Nodup _))

/-- The ranges of any two methods are disjoint. -/
def RangesDisjoint (tree : CoverageTree) : Prop :=
  tree.methods.Pairwise fun x y => x.method.range.Disjoint y.method.range

instance (tree : CoverageTree) : Decidable tree.RangesDisjoint :=
  inferInstanceAs (Decidable (List.Pairwise _ _))

variable {recording : Recording} {script : Script}

/-- A method lists the jumps and calls from its first point to the end of its range. -/
theorem branches_of_mem {json : Json} (hsymbols : SymbolTable.ofJson json = .ok recording.symbols)
    (hscript : recording.script = some script) {method : MethodCoverage}
    (hmethod : method ∈ (ofRecording recording).methods) :
    ∃ first, method.method.points.head? = some first ∧ method.branches =
      sitesBetween recording.counters script first.address method.method.range.last := by
  obtain ⟨source, hsource, hof⟩ := List.mem_filterMap.mp hmethod
  obtain ⟨first, hfirst, rfl⟩ := Option.map_eq_some_iff.mp hof
  refine ⟨first, hfirst, ?_⟩
  have hascending := SymbolTable.ascending_of_ofJson hsymbols hsource
  have hpoints : source.points = first :: source.points.tail := (List.cons_head?_tail hfirst).symm
  rw [hpoints] at hascending
  rw [MethodCoverage.branches, hpoints]
  exact branches_linesOf hscript hascending

theorem pairwise_address_ne_sitesBetween (counters : Counters) (script : Script)
    (first last : UInt32) :
    (sitesBetween counters script first last).Pairwise fun x y => x.address ≠ y.address :=
  ((allSites_ascending counters script).filter _).imp UInt32.ne_of_lt

/-- Where no point comes before its range, the branches stand in it. -/
theorem contains_of_startsInRange {json : Json}
    (hsymbols : SymbolTable.ofJson json = .ok recording.symbols)
    (hscript : recording.script = some script) {method : MethodCoverage}
    (hmethod : method ∈ (ofRecording recording).methods) (hstarts : method.method.StartsInRange)
    {site : BranchSite} (hsite : site ∈ method.branches) :
    method.method.range.Contains site.address := by
  obtain ⟨first, hfirst, hbranches⟩ := branches_of_mem hsymbols hscript hmethod
  rw [hbranches, mem_sitesBetween] at hsite
  have hle := hstarts first (List.mem_of_head? hfirst)
  exact ⟨UInt32.le_trans hle hsite.2.1, hsite.2.2⟩

/-- Methods of disjoint ranges, in which their points lie, share no branch. -/
theorem branchesListedOnce_of_disjoint {json : Json}
    (hsymbols : SymbolTable.ofJson json = .ok recording.symbols)
    (hscript : recording.script = some script)
    (hstarts : ∀ method ∈ (ofRecording recording).methods, method.method.StartsInRange)
    (hdisjoint : (ofRecording recording).RangesDisjoint) :
    (ofRecording recording).BranchesListedOnce := by
  rw [BranchesListedOnce, List.Nodup, List.pairwise_map, branches_eq_flatMap,
    List.pairwise_flatMap]
  constructor
  · intro method hmethod
    obtain ⟨first, -, hbranches⟩ := branches_of_mem hsymbols hscript hmethod
    rw [hbranches]
    exact pairwise_address_ne_sitesBetween _ _ _ _
  · refine hdisjoint.imp_of_mem ?_
    intro x y hx hy hranges site hsite site' hsite'
    exact hranges.address_ne
      (contains_of_startsInRange hsymbols hscript hx (hstarts x hx) hsite)
      (contains_of_startsInRange hsymbols hscript hy (hstarts y hy) hsite')

/-- The jumps and calls of a script that some method lists. -/
def listedSites (tree : CoverageTree) (counters : Counters) (script : Script) :
    List BranchSite :=
  (allSites counters script).filter (· ∈ tree.branches)

theorem listedSites_perm {json : Json}
    (hsymbols : SymbolTable.ofJson json = .ok recording.symbols)
    (hscript : recording.script = some script)
    (honce : (ofRecording recording).BranchesListedOnce) :
    ((ofRecording recording).listedSites recording.counters script).Perm
      (ofRecording recording).branches := by
  have hall : (allSites recording.counters script).Nodup :=
    (allSites_ascending _ _).imp fun hlt heq => UInt32.ne_of_lt hlt (congrArg _ heq)
  refine (List.perm_ext_iff_of_nodup (hall.filter _) (honce.of_map _)).mpr fun site => ?_
  rw [List.mem_filter, decide_eq_true_eq, and_iff_right_iff_imp, branches_eq_flatMap]
  intro hsite
  obtain ⟨method, hmethod, hsite⟩ := List.mem_flatMap.mp hsite
  obtain ⟨first, -, hbranches⟩ := branches_of_mem hsymbols hscript hmethod
  rw [hbranches] at hsite
  exact (mem_sitesBetween.mp hsite).1

/-- The branches of a method stand between its first point and the end of its range, so in its
range if no point comes before that. If that holds of all methods and their ranges are
disjoint, no jump or call is listed twice, and the branch rate counts each listed one once. -/
theorem branches_within_ranges {json : Json}
    (hsymbols : SymbolTable.ofJson json = .ok recording.symbols)
    (hscript : recording.script = some script) :
    (∀ method ∈ (ofRecording recording).methods, ∃ first,
      method.method.points.head? = some first ∧ ∀ site ∈ method.branches,
        first.address ≤ site.address ∧ site.address ≤ method.method.range.last) ∧
    (∀ method ∈ (ofRecording recording).methods, method.method.StartsInRange →
      ∀ site ∈ method.branches, method.method.range.Contains site.address) ∧
    ((∀ method ∈ (ofRecording recording).methods, method.method.StartsInRange) →
      (ofRecording recording).RangesDisjoint →
      (ofRecording recording).BranchesListedOnce ∧
      (ofRecording recording).branchRate =
        BranchSite.rate ((ofRecording recording).listedSites recording.counters script)) := by
  refine ⟨?_, ?_, ?_⟩
  · intro method hmethod
    obtain ⟨first, hfirst, hbranches⟩ := branches_of_mem hsymbols hscript hmethod
    refine ⟨first, hfirst, fun site hsite => ?_⟩
    rw [hbranches] at hsite
    exact (mem_sitesBetween.mp hsite).2
  · intro method hmethod hstarts site hsite
    exact contains_of_startsInRange hsymbols hscript hmethod hstarts hsite
  · intro hstarts hdisjoint
    have honce := branchesListedOnce_of_disjoint hsymbols hscript hstarts hdisjoint
    refine ⟨honce, ?_⟩
    rw [branchRate_eq, BranchSite.rate_perm (listedSites_perm hsymbols hscript honce)]

/-- The symbols of two classes as debug information, but for the point of the second method. -/
def twoClassesJson (point : String) : Json :=
  .object [("hash", .string "0x0000000000000000000000000000000000000000"),
    ("documents", .array [.string "Token.cs"]),
    ("methods", .array [
      .object [("id", .string "m0"), ("name", .string "Token,Main"), ("range", .string "0-2"),
        ("sequence-points", .array [.string "0[0]1:1-1:5"])],
      .object [("id", .string "m1"), ("name", .string "Vault,Open"), ("range", .string "3-5"),
        ("sequence-points", .array [.string point])]])]

/-- With its point at address 0 the second method takes over the jump of the first. -/
def earlyPoint : Recording :=
  { twoClasses with
    symbols := ⟨.zero, none, ["Token.cs"], [
      ⟨"m0", "Token", "Main", ⟨0, 2, firstRange_ordered⟩, [], none, [⟨0, 0, ⟨1, 1⟩, ⟨1, 5⟩⟩]⟩,
      ⟨"m1", "Vault", "Open", ⟨3, 5, secondRange_ordered⟩, [], none, [⟨0, 0, ⟨7, 1⟩, ⟨7, 5⟩⟩]⟩]⟩ }

/-- Methods that were read and have disjoint ranges may list a branch outside of their range,
and one branch twice. -/
theorem not_branchesInRange_earlyPoint :
    SymbolTable.ofJson (twoClassesJson "0[0]7:1-7:5") = .ok earlyPoint.symbols ∧
      (ofRecording earlyPoint).RangesDisjoint ∧ ¬(ofRecording earlyPoint).BranchesInRange ∧
      ¬(ofRecording earlyPoint).BranchesListedOnce ∧
      (ofRecording earlyPoint).branchRate = ⟨2, 6⟩ := by
  decide +kernel

/-- With its point in its range the second method lists its own call. -/
theorem branches_within_ranges_twoClasses :
    SymbolTable.ofJson (twoClassesJson "3[0]7:1-7:5") = .ok twoClasses.symbols ∧
      (ofRecording twoClasses).BranchesInRange ∧ (ofRecording twoClasses).BranchesListedOnce ∧
      (ofRecording twoClasses).branchRate = ⟨1, 4⟩ := by
  have hsymbols : SymbolTable.ofJson (twoClassesJson "3[0]7:1-7:5") =
      .ok twoClasses.symbols := by decide +kernel
  have hstarts : ∀ method ∈ (ofRecording twoClasses).methods, method.method.StartsInRange := by
    decide +kernel
  have hdisjoint : (ofRecording twoClasses).RangesDisjoint := by decide +kernel
  obtain ⟨-, hinside, hlisted⟩ := branches_within_ranges hsymbols rfl
  obtain ⟨honce, hrate⟩ := hlisted hstarts hdisjoint
  exact ⟨hsymbols, fun method hmethod => hinside method hmethod (hstarts method hmethod), honce,
    hrate.trans (by decide +kernel)⟩

end CoverageTree

end ScriptCoverage
