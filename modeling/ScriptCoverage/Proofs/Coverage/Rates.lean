import Mathlib.Algebra.Order.BigOperators.Group.List
import Mathlib.Algebra.Order.Group.Nat
import Mathlib.Data.List.Perm.Basic
import ScriptCoverage.Proofs.Coverage.BranchWindows
import ScriptCoverage.Proofs.Coverage.RateSum

/-!
The rates of a coverage tree. Each counts something at lines: which lines were hit, or which
outcomes of their branches were seen. Counting does not ask in which order or group a line
stands, and the numbers of a rate hold all that is counted as long as there are fewer than
2 ^ 63 lines and branches; so every level has the rate that its lines give it.
-/

namespace ScriptCoverage

private theorem nodup_eraseDups {α : Type} [BEq α] [LawfulBEq α] :
    ∀ items : List α, items.eraseDups.Nodup
  | [] => List.nodup_nil
  | x :: rest => by
      rw [List.eraseDups_cons, List.nodup_cons]
      constructor
      · intro hmem
        simp at hmem
      · exact nodup_eraseDups (rest.filter fun y => !y == x)
termination_by items => items.length
decreasing_by exact Nat.lt_succ_of_le (List.length_filter_le _ _)

/-- Items sorted into distinct keys that cover them all are the items. -/
theorem flatMap_filter_perm {α β : Type} [DecidableEq β] {key : α → β} {keys : List β}
    (hnodup : keys.Nodup) {items : List α} (hcovered : ∀ x ∈ items, key x ∈ keys) :
    (keys.flatMap fun k => items.filter fun x => key x == k).Perm items := by
  induction keys generalizing items with
  | nil =>
      have hempty : items = [] := List.eq_nil_iff_forall_not_mem.mpr fun x hx => by
        cases hcovered x hx
      rw [hempty]
      exact List.Perm.refl _
  | cons k rest ih =>
      obtain ⟨habsent, hrest⟩ := List.nodup_cons.mp hnodup
      let others := items.filter fun x => !(key x == k)
      have hsame : ∀ k' ∈ rest, (items.filter fun x => key x == k').Perm
          (others.filter fun x => key x == k') := by
        intro k' hk'
        rw [List.filter_filter]
        apply List.Perm.of_eq
        apply List.filter_congr
        intro x _
        by_cases hx : key x = k'
        · have hne : key x ≠ k := by
            rintro rfl
            exact habsent (hx ▸ hk')
          simp [hx, hx ▸ hne]
        · simp [hx]
      have hothers : ∀ x ∈ others, key x ∈ rest := by
        intro x hx
        obtain ⟨hmem, hne⟩ := List.mem_filter.mp hx
        rcases List.mem_cons.mp (hcovered x hmem) with heq | hlater
        · simp [heq] at hne
        · exact hlater
      have hlater : (rest.flatMap fun k' => items.filter fun x => key x == k').Perm others :=
        (List.Perm.flatMap_left rest hsame).trans (ih hrest hothers)
      rw [List.flatMap_cons]
      exact (hlater.append_left _).trans (List.filter_append_perm _ items)

namespace MethodGroup

/-- Groups by ascending key, each with the methods of its key in their order. Every method is
in one of them, and in no other. -/
structure Partition (key : MethodCoverage → String) (methods : List MethodCoverage)
    (groups : List MethodGroup) : Prop where
  ascending : groups.Pairwise fun x y => x.key < y.key
  inOrder : ∀ group ∈ groups,
    group.methods = methods.filter fun method => key method == group.key
  exactlyOne : ∀ method ∈ methods, ∃! group, group ∈ groups ∧ method ∈ group.methods
  perm : (groups.flatMap (·.methods)).Perm methods

theorem partition_groupBy (key : MethodCoverage → String) (methods : List MethodCoverage) :
    Partition key methods (groupBy key methods) := by
  let keys := (methods.map key).eraseDups.mergeSort fun s t => decide (s ≤ t)
  let groupOf (k : String) : MethodGroup := ⟨k, methods.filter fun method => key method == k⟩
  have hgroups : groupBy key methods = keys.map groupOf := rfl
  have hperm : keys.Perm (methods.map key).eraseDups := List.mergeSort_perm _ _
  have hnodup : keys.Nodup := hperm.nodup_iff.mpr (nodup_eraseDups _)
  have hkey : ∀ method ∈ methods, key method ∈ keys := by
    intro method hmem
    rw [hperm.mem_iff, List.mem_eraseDups]
    exact List.mem_map_of_mem hmem
  have hsorted : keys.Pairwise fun s t => s < t := by
    have hle := (IsStableSort.of_mergeSort id (methods.map key).eraseDups).ordered
    refine (hle.and hnodup).imp ?_
    rintro s t ⟨hst, hne⟩
    exact Std.lt_of_le_of_ne hst hne
  rw [hgroups]
  refine ⟨List.pairwise_map.mpr hsorted, ?inOrder, ?exactlyOne, ?perm⟩
  case inOrder =>
    intro group hmem
    obtain ⟨k, -, rfl⟩ := List.mem_map.mp hmem
    rfl
  case exactlyOne =>
    intro method hmem
    refine ⟨groupOf (key method), ⟨List.mem_map_of_mem (hkey method hmem), ?_⟩, ?_⟩
    · exact List.mem_filter.mpr ⟨hmem, beq_self_eq_true _⟩
    · rintro group ⟨hgroup, hin⟩
      obtain ⟨k, -, rfl⟩ := List.mem_map.mp hgroup
      have hk : key method = k := eq_of_beq (List.mem_filter.mp hin).2
      rw [hk]
  case perm =>
    rw [List.flatMap_map]
    exact flatMap_filter_perm hnodup hkey

/-- There is a group for each key that a method has, and for no other. -/
theorem mem_keys_groupBy {key : MethodCoverage → String} {methods : List MethodCoverage}
    {name : String} : name ∈ (groupBy key methods).map (·.key) ↔ name ∈ methods.map key := by
  have hkeys : (groupBy key methods).map (·.key) =
      (methods.map key).eraseDups.mergeSort fun s t => decide (s ≤ t) := by
    rw [groupBy, List.map_map]
    exact List.map_id _
  rw [hkeys, List.mem_mergeSort, List.mem_eraseDups]

theorem lines_perm {methods : List MethodCoverage} {groups : List MethodGroup}
    (hperm : (groups.flatMap (·.methods)).Perm methods) :
    (groups.flatMap fun group => group.methods.flatMap (·.lines)).Perm
      (methods.flatMap (·.lines)) := by
  rw [← List.flatMap_assoc]
  exact hperm.flatMap_right _

end MethodGroup

/-- Something that is counted at lines: how much of it was seen at a line, out of how much. -/
structure LineCount where
  covered : LineCoverage → Nat
  total : LineCoverage → Nat

namespace LineCount

def coveredIn (m : LineCount) (lines : List LineCoverage) : Nat :=
  (lines.map m.covered).sum

def totalIn (m : LineCount) (lines : List LineCoverage) : Nat :=
  (lines.map m.total).sum

variable {m : LineCount}

theorem sum_map_flatMap {α : Type} (count : LineCoverage → Nat)
    (lines : α → List LineCoverage) (items : List α) :
    ((items.flatMap lines).map count).sum = (items.map fun x => ((lines x).map count).sum).sum := by
  induction items with
  | nil => rfl
  | cons x rest ih => simp [ih]

theorem coveredIn_flatMap {α : Type} (m : LineCount) (lines : α → List LineCoverage)
    (items : List α) :
    m.coveredIn (items.flatMap lines) = (items.map fun x => m.coveredIn (lines x)).sum :=
  sum_map_flatMap m.covered lines items

theorem totalIn_flatMap {α : Type} (m : LineCount) (lines : α → List LineCoverage)
    (items : List α) :
    m.totalIn (items.flatMap lines) = (items.map fun x => m.totalIn (lines x)).sum :=
  sum_map_flatMap m.total lines items

theorem coveredIn_perm {lines lines' : List LineCoverage} (h : lines.Perm lines') :
    m.coveredIn lines = m.coveredIn lines' :=
  (h.map m.covered).sum_nat

theorem totalIn_perm {lines lines' : List LineCoverage} (h : lines.Perm lines') :
    m.totalIn lines = m.totalIn lines' :=
  (h.map m.total).sum_nat

theorem total_le_of_mem {lines : List LineCoverage} {line : LineCoverage} (h : line ∈ lines) :
    m.total line ≤ m.totalIn lines :=
  List.le_sum_of_mem (List.mem_map_of_mem h)

theorem totalIn_le_of_mem {α : Type} (lines : α → List LineCoverage) {items : List α} {x : α}
    (h : x ∈ items) : m.totalIn (lines x) ≤ m.totalIn (items.flatMap lines) := by
  rw [totalIn_flatMap]
  exact List.le_sum_of_mem (List.mem_map_of_mem h)

theorem coveredIn_le_totalIn (h : ∀ line, m.covered line ≤ m.total line)
    (lines : List LineCoverage) : m.coveredIn lines ≤ m.totalIn lines :=
  List.sum_le_sum fun line _ => h line

/-- What is counted at lines as a rate, in as many bits as a rate has. -/
def rateOf (m : LineCount) (lines : List LineCoverage) : Rate :=
  .ofCounts (m.coveredIn lines) (m.totalIn lines)

theorem sum_rateOf {α : Type} (m : LineCount) (lines : α → List LineCoverage) (items : List α) :
    Rate.sum (items.map fun x => m.rateOf (lines x)) = m.rateOf (items.flatMap lines) := by
  rw [rateOf, coveredIn_flatMap, totalIn_flatMap]
  exact Rate.sum_ofCounts _ _ items

/-- The rate of a method is what is counted at its lines, if it can hold that. -/
def Rates (m : LineCount) (rate : MethodCoverage → Rate) : Prop :=
  ∀ method, m.totalIn method.lines < UInt64.size →
    (rate method).Counts (m.coveredIn method.lines) (m.totalIn method.lines)

variable {rate : MethodCoverage → Rate} {methods : List MethodCoverage}

/-- The sum over methods is what is counted at their lines. -/
theorem Rates.counts_sum (h : m.Rates rate)
    (hfits : m.totalIn (methods.flatMap (·.lines)) < UInt64.size) :
    Rate.sum? (methods.map rate) = some (.sum (methods.map rate)) ∧
      (Rate.sum (methods.map rate)).Counts (m.coveredIn (methods.flatMap (·.lines)))
        (m.totalIn (methods.flatMap (·.lines))) := by
  have hmethods : ∀ method ∈ methods,
      (rate method).Counts (m.coveredIn method.lines) (m.totalIn method.lines) := by
    intro method hmem
    exact h method (Nat.lt_of_le_of_lt (totalIn_le_of_mem _ hmem) hfits)
  rw [totalIn_flatMap] at hfits ⊢
  rw [coveredIn_flatMap]
  exact Rate.counts_sum hmethods hfits

/-- The sum over groups is the sum over their methods, in whichever order. -/
theorem Rates.sum_groups (h : m.Rates rate) {groups : List MethodGroup}
    (hperm : (groups.flatMap (·.methods)).Perm methods)
    (hfits : m.totalIn (methods.flatMap (·.lines)) < UInt64.size) :
    Rate.sum? (groups.map fun group => .sum (group.methods.map rate)) =
      some (.sum (methods.map rate)) := by
  have hlines := MethodGroup.lines_perm hperm
  have hfits' : m.totalIn (groups.flatMap fun group => group.methods.flatMap (·.lines)) <
      UInt64.size := by
    rwa [totalIn_perm hlines]
  have hgroups : ∀ group ∈ groups, (Rate.sum (group.methods.map rate)).Counts
      (m.coveredIn (group.methods.flatMap (·.lines)))
      (m.totalIn (group.methods.flatMap (·.lines))) := by
    intro group hmem
    have hle := totalIn_le_of_mem (m := m) (fun group => group.methods.flatMap (·.lines)) hmem
    exact (h.counts_sum (Nat.lt_of_le_of_lt hle hfits')).2
  have hsum := hfits'
  rw [totalIn_flatMap] at hsum
  obtain ⟨hsum?, hcounts⟩ := Rate.counts_sum hgroups hsum
  rw [← totalIn_flatMap, ← coveredIn_flatMap, totalIn_perm hlines, coveredIn_perm hlines] at hcounts
  rw [hsum?, hcounts.unique (h.counts_sum hfits).2]

/-- Lines, of which those were seen that were hit. -/
def hits : LineCount where
  covered line := if line.isCovered then 1 else 0
  total _ := 1

theorem coveredIn_hits (lines : List LineCoverage) :
    hits.coveredIn lines = lines.countP (·.isCovered) := by
  induction lines with
  | nil => rfl
  | cons line rest ih =>
      rw [coveredIn] at ih
      rw [coveredIn, List.map_cons, List.sum_cons, ih, List.countP_cons, Nat.add_comm]
      rfl

theorem totalIn_hits (lines : List LineCoverage) : hits.totalIn lines = lines.length := by
  simp [totalIn, hits]

theorem rates_lineRate : hits.Rates MethodCoverage.lineRate := by
  intro method hfits
  rw [totalIn_hits] at hfits ⊢
  rw [coveredIn_hits, List.countP_eq_length_filter]
  exact Rate.counts_ofCounts (List.length_filter_le _ _) hfits

/-- The counters of the branches of lines, two for each branch. -/
def outcomeCounters (lines : List LineCoverage) : List UInt32 :=
  (lines.flatMap (·.branches)).flatMap fun site => [site.counts.taken, site.counts.continued]

theorem outcomes_eq_countP (count : BranchCount) :
    count.outcomes = [count.taken, count.continued].countP (· ≠ 0) := by
  rw [BranchCount.outcomes, List.countP_cons, List.countP_singleton, Nat.add_comm]
  simp only [UInt32.pos_iff_ne_zero, decide_eq_true_eq]

theorem outcomePaths_eq_countP (sites : List BranchSite) : BranchSite.outcomePaths sites =
    (sites.flatMap fun site => [site.counts.taken, site.counts.continued]).countP (· ≠ 0) := by
  induction sites with
  | nil => rfl
  | cons site rest ih =>
      rw [List.flatMap_cons, List.countP_append, ← outcomes_eq_countP, ← ih]
      rfl

theorem outcomePaths_le (sites : List BranchSite) :
    BranchSite.outcomePaths sites ≤ 2 * sites.length := by
  rw [outcomePaths_eq_countP]
  refine List.countP_le_length.trans (Nat.le_of_eq ?_)
  induction sites with
  | nil => rfl
  | cons site rest ih =>
      rw [List.flatMap_cons, List.length_append, ih, List.length_cons]
      simp only [List.length_cons, List.length_nil]
      omega

/-- Outcomes of branches, of which those were seen that were counted. -/
def outcomes : LineCount where
  covered := LineCoverage.outcomePaths
  total line := 2 * line.branches.length

theorem coveredIn_outcomes (lines : List LineCoverage) :
    outcomes.coveredIn lines = (outcomeCounters lines).countP (· ≠ 0) := by
  induction lines with
  | nil => rfl
  | cons line rest ih =>
      have hline : line.outcomePaths = _ := outcomePaths_eq_countP line.branches
      rw [coveredIn] at ih
      rw [coveredIn, List.map_cons, List.sum_cons, ih, outcomeCounters, outcomeCounters,
        List.flatMap_cons, List.flatMap_append, List.countP_append, ← hline]
      rfl

theorem totalIn_outcomes (lines : List LineCoverage) :
    outcomes.totalIn lines = 2 * (lines.flatMap (·.branches)).length := by
  induction lines with
  | nil => rfl
  | cons line rest ih =>
      rw [totalIn] at ih
      rw [totalIn, List.map_cons, List.sum_cons, ih, List.flatMap_cons, List.length_append,
        Nat.mul_add]
      rfl

theorem counts_branchRate_line {line : LineCoverage}
    (hfits : 2 * line.branches.length < UInt64.size) :
    line.branchRate.Counts line.outcomePaths (2 * line.branches.length) :=
  Rate.counts_ofCounts (outcomePaths_le line.branches) hfits

theorem counts_branchRate {method : MethodCoverage}
    (hfits : outcomes.totalIn method.lines < UInt64.size) :
    Rate.sum? (method.lines.map (·.branchRate)) = some method.branchRate ∧
      method.branchRate.Counts (outcomes.coveredIn method.lines)
        (outcomes.totalIn method.lines) := by
  have hlines : ∀ line ∈ method.lines,
      line.branchRate.Counts (outcomes.covered line) (outcomes.total line) := by
    intro line hmem
    have hle : outcomes.total line ≤ outcomes.totalIn method.lines := total_le_of_mem hmem
    exact counts_branchRate_line (Nat.lt_of_le_of_lt hle hfits)
  exact Rate.counts_sum hlines hfits

theorem rates_branchRate : outcomes.Rates MethodCoverage.branchRate :=
  fun _ hfits => (counts_branchRate hfits).2

theorem lineRate_eq_rateOf (method : MethodCoverage) :
    method.lineRate = hits.rateOf method.lines := by
  rw [rateOf, coveredIn_hits, totalIn_hits, List.countP_eq_length_filter]
  rfl

theorem branchRate_eq_rateOf (method : MethodCoverage) :
    method.branchRate = outcomes.rateOf method.lines :=
  Rate.sum_ofCounts outcomes.covered outcomes.total method.lines

/-- The sums over methods are the rates of their lines together. -/
theorem sum_lineRate (methods : List MethodCoverage) :
    Rate.sum (methods.map (·.lineRate)) = hits.rateOf (methods.flatMap (·.lines)) := by
  rw [funext lineRate_eq_rateOf]
  exact sum_rateOf _ _ methods

theorem sum_branchRate (methods : List MethodCoverage) :
    Rate.sum (methods.map (·.branchRate)) = outcomes.rateOf (methods.flatMap (·.lines)) := by
  rw [funext branchRate_eq_rateOf]
  exact sum_rateOf _ _ methods

end LineCount

open LineCount (hits outcomes outcomeCounters)

/-- The two rates of lines: how many of them were hit, and how many of the outcomes of their
branches were seen, of which each branch has two. -/
structure Rated (lines : List LineCoverage) (lineRate branchRate : Rate) : Prop where
  hit : lineRate.Counts (lines.countP fun line => 0 < line.hitCount) lines.length
  seen : branchRate.Counts ((outcomeCounters lines).countP (· ≠ 0))
    (2 * (lines.flatMap (·.branches)).length)

/-- The rates of methods are those of their lines, and the sums that compute them never wrap. -/
structure SumsExactly (methods : List MethodCoverage) (lineRate branchRate : Rate) : Prop where
  lineSum : Rate.sum? (methods.map (·.lineRate)) = some lineRate
  branchSum : Rate.sum? (methods.map (·.branchRate)) = some branchRate
  rated : Rated (methods.flatMap (·.lines)) lineRate branchRate

theorem rated_of_counts {lines : List LineCoverage} {lineRate branchRate : Rate}
    (hline : lineRate.Counts (hits.coveredIn lines) (hits.totalIn lines))
    (hbranch : branchRate.Counts (outcomes.coveredIn lines) (outcomes.totalIn lines)) :
    Rated lines lineRate branchRate where
  hit := by
    rw [LineCount.coveredIn_hits, LineCount.totalIn_hits] at hline
    exact hline
  seen := by
    rw [LineCount.coveredIn_outcomes, LineCount.totalIn_outcomes] at hbranch
    exact hbranch

theorem sumsExactly_of_lt {methods : List MethodCoverage}
    (hlines : hits.totalIn (methods.flatMap (·.lines)) < UInt64.size)
    (hbranches : outcomes.totalIn (methods.flatMap (·.lines)) < UInt64.size) :
    SumsExactly methods (.sum (methods.map (·.lineRate))) (.sum (methods.map (·.branchRate))) := by
  obtain ⟨hlineSum, hline⟩ := LineCount.rates_lineRate.counts_sum hlines
  obtain ⟨hbranchSum, hbranch⟩ := LineCount.rates_branchRate.counts_sum hbranches
  exact ⟨hlineSum, hbranchSum, rated_of_counts hline hbranch⟩

namespace CoverageTree

/-- All lines of the methods. -/
def lines (tree : CoverageTree) : List LineCoverage :=
  tree.methods.flatMap (·.lines)

/-- All branches of the lines. -/
def branches (tree : CoverageTree) : List BranchSite :=
  tree.lines.flatMap (·.branches)

/-- A line has at most as many branches as its script can hold. -/
theorem two_mul_branches_lineOf_lt {recording : Recording}
    (hscript : ∀ script, recording.script = some script → script.bytes.length < UInt32.size)
    (range : AddressRange) (point : SequencePoint) (next : Option SequencePoint) :
    2 * (lineOf recording range point next).branches.length < UInt32.size := by
  rw [lineOf]
  split
  · rename_i script last hfound hend
    have hwindow : (script.window point.address last).Sublist script.listing :=
      (List.takeWhile_sublist _).trans (List.dropWhile_sublist _)
    have hbranches := (hwindow.filter fun item => item.2.isBranch).length_le
    have hsize := script.two_mul_branches_le
    have hlt := hscript script hfound
    rw [branchSites, List.length_map]
    exact Nat.lt_of_le_of_lt ((Nat.mul_le_mul_left 2 hbranches).trans hsize) hlt
  · exact Nat.two_pow_pos 32

/-- What is exact about the rates of a tree, at each of its levels. -/
structure HasExactRates (tree : CoverageTree) : Prop where
  whole : SumsExactly tree.methods tree.lineRate tree.branchRate
  classes : MethodGroup.Partition (·.method.namespace) tree.methods tree.classes
  documents : MethodGroup.Partition (·.document) tree.methods tree.documentGroups
  regrouped : ∀ groups : List MethodGroup, (groups.flatMap (·.methods)).Perm tree.methods →
    Rate.sum? (groups.map (·.lineRate)) = some tree.lineRate ∧
    Rate.sum? (groups.map (·.branchRate)) = some tree.branchRate ∧
    ∀ group ∈ groups, SumsExactly group.methods group.lineRate group.branchRate
  ofMethod : ∀ method ∈ tree.methods, Rated method.lines method.lineRate method.branchRate ∧
    Rate.sum? (method.lines.map (·.branchRate)) = some method.branchRate
  ofLine : ∀ line ∈ tree.lines, line.outcomePaths < UInt32.size ∧
    line.branchRate.Counts line.outcomePaths (2 * line.branches.length)

theorem exists_lineOf_of_mem {recording : Recording} {line : LineCoverage}
    (h : line ∈ (ofRecording recording).lines) :
    ∃ range point next, line = lineOf recording range point next := by
  obtain ⟨coverage, hcoverage, hline⟩ := List.mem_flatMap.mp h
  obtain ⟨method, -, hmethod⟩ := List.mem_filterMap.mp hcoverage
  obtain ⟨first, -, rfl⟩ := Option.map_eq_some_iff.mp hmethod
  obtain ⟨before, after, hlines⟩ := List.append_of_mem hline
  obtain ⟨-, later, -, -, hpoint⟩ := linesOf_eq_append hlines
  exact ⟨method.range, line.point, later.head?, hpoint⟩

/-- The rates of a tree that was built from a recording are exact at every level, and stay
the same however the methods are regrouped. -/
theorem hasExactRates {recording : Recording}
    (hscript : ∀ script, recording.script = some script → script.bytes.length < UInt32.size)
    (hlines : (ofRecording recording).lines.length < 2 ^ 63)
    (hbranches : (ofRecording recording).branches.length < 2 ^ 63) :
    (ofRecording recording).HasExactRates := by
  generalize htree : ofRecording recording = tree at hlines hbranches
  have hhits : hits.totalIn tree.lines < UInt64.size := by
    rw [LineCount.totalIn_hits]
    exact Nat.lt_trans hlines (by decide)
  have houtcomes : outcomes.totalIn tree.lines < UInt64.size := by
    have htotal : outcomes.totalIn tree.lines = 2 * tree.branches.length :=
      LineCount.totalIn_outcomes tree.lines
    have hsize : UInt64.size = 2 * 2 ^ 63 := by decide
    omega
  refine ⟨sumsExactly_of_lt hhits houtcomes, MethodGroup.partition_groupBy _ _,
    MethodGroup.partition_groupBy _ _, ?regrouped, ?ofMethod, ?ofLine⟩
  case regrouped =>
    intro groups hperm
    refine ⟨LineCount.rates_lineRate.sum_groups hperm hhits,
      LineCount.rates_branchRate.sum_groups hperm houtcomes, ?_⟩
    intro group hmem
    have hle (m : LineCount) :
        m.totalIn (group.methods.flatMap (·.lines)) ≤ m.totalIn tree.lines := by
      rw [lines, ← m.totalIn_perm (MethodGroup.lines_perm hperm)]
      exact LineCount.totalIn_le_of_mem (fun group => group.methods.flatMap (·.lines)) hmem
    exact sumsExactly_of_lt (Nat.lt_of_le_of_lt (hle hits) hhits)
      (Nat.lt_of_le_of_lt (hle outcomes) houtcomes)
  case ofMethod =>
    intro method hmem
    have hle (m : LineCount) : m.totalIn method.lines ≤ m.totalIn tree.lines :=
      LineCount.totalIn_le_of_mem _ hmem
    obtain ⟨hsum, hcounts⟩ :=
      LineCount.counts_branchRate (Nat.lt_of_le_of_lt (hle outcomes) houtcomes)
    have hline := LineCount.rates_lineRate method (Nat.lt_of_le_of_lt (hle hits) hhits)
    exact ⟨rated_of_counts hline hcounts, hsum⟩
  case ofLine =>
    intro line hmem
    obtain ⟨range, point, next, rfl⟩ := exists_lineOf_of_mem (htree ▸ hmem)
    have hpaths := LineCount.outcomePaths_le (lineOf recording range point next).branches
    have hfits := two_mul_branches_lineOf_lt hscript range point next
    exact ⟨Nat.lt_of_le_of_lt hpaths hfits,
      LineCount.counts_branchRate_line (Nat.lt_trans hfits (by decide))⟩

theorem firstRange_ordered : (0 : UInt32) ≤ 2 := by decide

theorem secondRange_ordered : (3 : UInt32) ≤ 5 := by decide

/-- A contract of two classes: the jump of the first was taken, the call of the second did
not run. -/
def twoClasses : Recording where
  name := "Token"
  symbols := ⟨.zero, none, ["Token.cs"], [
    ⟨"m0", "Token", "Main", ⟨0, 2, firstRange_ordered⟩, [], none, [⟨0, 0, ⟨1, 1⟩, ⟨1, 5⟩⟩]⟩,
    ⟨"m1", "Vault", "Open", ⟨3, 5, secondRange_ordered⟩, [], none, [⟨3, 0, ⟨7, 1⟩, ⟨7, 5⟩⟩]⟩]⟩
  script := some ⟨[0x22, 3, 0x21, 0x34, 1, 0x40],
    [(0, ⟨0x22, [3], 2⟩), (2, ⟨0x21, [], 1⟩), (3, ⟨0x34, [1], 2⟩), (5, ⟨0x40, [], 1⟩)],
    by decide +kernel⟩
  counters := ⟨(∅ : OrderedMap UInt32 UInt32).insert 0 1,
    (∅ : OrderedMap UInt32 BranchCount).insert 0 ⟨1, 0⟩⟩

theorem hasExactRates_twoClasses :
    (ofRecording twoClasses).lineRate = ⟨1, 2⟩ ∧ (ofRecording twoClasses).branchRate = ⟨1, 4⟩ ∧
      (ofRecording twoClasses).HasExactRates := by
  have hscript : ∀ script, twoClasses.script = some script →
      script.bytes.length < UInt32.size := by
    rintro _ ⟨⟩
    decide
  have hlines : (ofRecording twoClasses).lines.length < 2 ^ 63 := by decide +kernel
  have hbranches : (ofRecording twoClasses).branches.length < 2 ^ 63 := by decide +kernel
  exact ⟨by decide +kernel, by decide +kernel, hasExactRates hscript hlines hbranches⟩

end CoverageTree

end ScriptCoverage
