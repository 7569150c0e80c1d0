import Mathlib.Order.Bounds.Defs
import ScriptCoverage.Proofs.Coverage.Rates
import ScriptCoverage.Proofs.Data.OrderedMap
import ScriptCoverage.Report.Lcov

/-!
An LCOV report falls apart into records, one for each document of each contract. The summary
lines of a record count its entries, its source lines stand in order with the largest count
of their points, and all records together count the outcomes of all branches.
-/

namespace ScriptCoverage.Lcov

open LineCount (outcomes)

/-- The records of a report, each up to the line that ends it. -/
def records : List Line → List (List Line)
  | [] => []
  | line :: rest =>
      if line = .endOfRecord then [line] :: records rest
      else match records rest with
        | [] => [[line]]
        | first :: others => (line :: first) :: others

theorem records_append {body : List Line} (h : .endOfRecord ∉ body) (rest : List Line) :
    records (body ++ .endOfRecord :: rest) = (body ++ [.endOfRecord]) :: records rest := by
  induction body with
  | nil => rw [List.nil_append, records, if_pos rfl, List.nil_append]
  | cons line body ih =>
      obtain ⟨hline, hbody⟩ := not_or.mp (List.mem_cons.not.mp h)
      rw [List.cons_append, records, if_neg (Ne.symm hline), ih hbody]
      rfl

/-- The methods of a record, by the line and the name of each. -/
def functions (record : List Line) : List (UInt32 × String) :=
  record.filterMap fun
    | .function line name => some (line, name)
    | _ => none

/-- How often the methods of a record were entered. -/
def functionHits (record : List Line) : List (UInt32 × String) :=
  record.filterMap fun
    | .functionData hits name => some (hits, name)
    | _ => none

/-- The counts of the outcomes in a record. -/
def branchCounts (record : List Line) : List (Option UInt32) :=
  record.filterMap fun
    | .branchData _ _ _ count => some count
    | _ => none

/-- The source lines of a record with their counts. -/
def lineHits (record : List Line) : List (UInt32 × UInt32) :=
  record.filterMap fun
    | .lineData line count => some (line, count)
    | _ => none

theorem branchCounts_append (front rest : List Line) :
    branchCounts (front ++ rest) = branchCounts front ++ branchCounts rest :=
  List.filterMap_append

theorem outcomePaths_append (sites sites' : List BranchSite) :
    BranchSite.outcomePaths (sites ++ sites') =
      BranchSite.outcomePaths sites + BranchSite.outcomePaths sites' := by
  rw [LineCount.outcomePaths_eq_countP, List.flatMap_append, List.countP_append,
    ← LineCount.outcomePaths_eq_countP, ← LineCount.outcomePaths_eq_countP]

namespace Outcomes

/-- The outcomes of these branches are listed and nothing else, and they are counted as they
are listed: two for each branch, of which those with a positive count were seen. -/
structure Lists (listing : Outcomes) (sites : List BranchSite) : Prop where
  only : ∀ item ∈ listing.listed.toList, ∃ line block outcome count,
    item = .branchData line block outcome count
  found : listing.found = (branchCounts listing.listed.toList).length
  hit : listing.hit = (branchCounts listing.listed.toList).countP fun count => count.any (0 < ·)
  foundOf : listing.found = 2 * sites.length
  hitOf : listing.hit = BranchSite.outcomePaths sites

variable {listing : Outcomes} {sites : List BranchSite}

/-- The counts that are shown for a branch, none of them where nothing was reached. -/
def shown (line : LineCoverage) (site : BranchSite) : List (Option UInt32) :=
  [site.counts.taken, site.counts.continued].map fun count =>
    if line.hitCount = 0 ∧ site.counts.isEmpty then none else some count

/-- A count that is not shown is zero. -/
theorem countP_shown (line : LineCoverage) (site : BranchSite) :
    (shown line site).countP (fun count => count.any (0 < ·)) = site.counts.outcomes := by
  by_cases hunreached : line.hitCount = 0 ∧ site.counts.isEmpty
  · have hcounts := hunreached.2
    simp only [BranchCount.isEmpty, Bool.and_eq_true, beq_iff_eq] at hcounts
    simp [shown, hunreached, BranchCount.outcomes, hcounts]
  · simp [shown, hunreached, BranchCount.outcomes, List.countP_cons, Nat.add_comm]

theorem branchCounts_addSite (listing : Outcomes) (line : LineCoverage) (site : BranchSite)
    (block : Nat) : branchCounts (listing.addSite line site block).listed.toList =
      branchCounts listing.listed.toList ++ shown line site := by
  rw [addSite, add, add, Array.toList_push, Array.toList_push, List.append_assoc,
    branchCounts_append]
  rfl

theorem hit_addSite (listing : Outcomes) (line : LineCoverage) (site : BranchSite) (block : Nat) :
    (listing.addSite line site block).hit = listing.hit + site.counts.outcomes := by
  simp only [addSite, add, BranchCount.outcomes]
  split_ifs <;> omega

/-- A further branch adds its two outcomes. -/
theorem Lists.addSite (h : listing.Lists sites) (line : LineCoverage) (site : BranchSite)
    (block : Nat) : (listing.addSite line site block).Lists (sites ++ [site]) := by
  refine ⟨?only, ?found, ?hit, ?foundOf, ?hitOf⟩
  case only =>
    intro item hitem
    rw [Outcomes.addSite, add, add, Array.toList_push, Array.toList_push] at hitem
    simp only [List.mem_append, List.mem_singleton] at hitem
    rcases hitem with (hold | rfl) | rfl
    · exact h.only item hold
    · exact ⟨_, _, _, _, rfl⟩
    · exact ⟨_, _, _, _, rfl⟩
  case found =>
    rw [branchCounts_addSite, List.length_append, ← h.found]
    rfl
  case hit =>
    rw [branchCounts_addSite, List.countP_append, ← h.hit, countP_shown, hit_addSite]
  case foundOf =>
    have hfound : (listing.addSite line site block).found = listing.found + 2 := rfl
    rw [hfound, h.foundOf, List.length_append, List.length_singleton]
    omega
  case hitOf =>
    rw [hit_addSite, h.hitOf, outcomePaths_append]
    rfl

theorem Lists.addLine (h : listing.Lists sites) (line : LineCoverage) :
    (listing.addLine line).Lists (sites ++ line.branches) := by
  -- the numbering of the branches runs on, so the induction is over every start of it
  have hsites (branches : List BranchSite) (start : Nat) (listing : Outcomes)
      (sites : List BranchSite) (h : listing.Lists sites) :
      ((branches.zipIdx start).foldl (fun listing entry =>
        listing.addSite line entry.1 entry.2) listing).Lists (sites ++ branches) := by
    induction branches generalizing start listing sites with
    | nil => rwa [List.append_nil]
    | cons site rest ih =>
        rw [List.append_cons]
        exact ih (start + 1) _ _ (h.addSite line site start)
  exact hsites line.branches 0 listing sites h

theorem lists_ofLines (lines : List LineCoverage) :
    (ofLines lines).Lists (lines.flatMap (·.branches)) := by
  -- the loop adds at the end, so that is where a line is taken off
  induction lines using List.reverseRecOn with
  | nil => exact ⟨fun _ hitem => absurd hitem List.not_mem_nil, rfl, rfl, rfl, rfl⟩
  | append_singleton lines line ih =>
      rw [ofLines, List.foldl_append, List.flatMap_append, List.flatMap_singleton]
      exact ih.addLine line

/-- What asks for other lines finds nothing among the outcomes. -/
theorem filterMap_listed {α : Type} {read? : Line → Option α}
    (h : ∀ line block outcome count, read? (.branchData line block outcome count) = none)
    (lines : List LineCoverage) : (ofLines lines).listed.toList.filterMap read? = [] := by
  rw [List.filterMap_eq_nil_iff]
  intro item hitem
  obtain ⟨line, block, outcome, count, rfl⟩ := (lists_ofLines lines).only item hitem
  exact h line block outcome count

end Outcomes

/-- The hit counts of the points of a source line. -/
def hitCountsAt (lines : List LineCoverage) (n : UInt32) : Set UInt32 :=
  {count | ∃ line ∈ lines, line.line = n ∧ line.hitCount = count}

/-- Counts by source line: each line that occurs, with the largest of its hit counts. -/
structure Largest (lines : List LineCoverage) (counts : OrderedMap UInt32 UInt32) : Prop where
  absent : ∀ n, counts.get? n = none → ∀ line ∈ lines, line.line ≠ n
  greatest : ∀ n count, counts.get? n = some count → IsGreatest (hitCountsAt lines n) count

theorem hitCountsAt_append_of_ne (lines : List LineCoverage) {line : LineCoverage} {n : UInt32}
    (h : line.line ≠ n) : hitCountsAt (lines ++ [line]) n = hitCountsAt lines n := by
  ext count
  simp [hitCountsAt, or_and_right, exists_or, h]

theorem hitCountsAt_append_self (lines : List LineCoverage) (line : LineCoverage) :
    hitCountsAt (lines ++ [line]) line.line =
      insert line.hitCount (hitCountsAt lines line.line) := by
  ext count
  simp [hitCountsAt, or_and_right, exists_or, or_comm, eq_comm]

theorem isGreatest_insert_max {counts : Set UInt32} {old : UInt32} (h : IsGreatest counts old)
    (new : UInt32) : IsGreatest (insert new counts) (max old new) := by
  by_cases hle : old ≤ new
  · have hmax : max old new = new := if_pos hle
    rw [hmax]
    refine ⟨Set.mem_insert new counts, ?_⟩
    rintro count (rfl | hmem)
    · exact UInt32.le_refl count
    · exact UInt32.le_trans (h.2 hmem) hle
  · have hmax : max old new = old := if_neg hle
    have hge : new ≤ old := (UInt32.le_total old new).resolve_left hle
    rw [hmax]
    refine ⟨Set.mem_insert_of_mem new h.1, ?_⟩
    rintro count (rfl | hmem)
    · exact hge
    · exact h.2 hmem

/-- A further line raises the count of its source line, if it is larger, and no other. -/
theorem Largest.add {lines : List LineCoverage} {counts : OrderedMap UInt32 UInt32}
    (h : Largest lines counts) (line : LineCoverage) :
    Largest (lines ++ [line]) (counts.insert line.line
      (max ((counts.get? line.line).getD 0) line.hitCount)) := by
  constructor
  · intro n hnone other hother
    rw [OrderedMap.get?_insert] at hnone
    split at hnone
    · cases hnone
    · rename_i hne
      rcases List.mem_append.mp hother with hold | hnew
      · exact h.absent n hnone other hold
      · rw [List.mem_singleton.mp hnew]
        exact Ne.symm hne
  · intro n count hsome
    rw [OrderedMap.get?_insert] at hsome
    split at hsome
    · rename_i hsame
      subst hsame
      rw [hitCountsAt_append_self]
      obtain rfl := Option.some.inj hsome
      cases hold : counts.get? line.line with
      | some old => exact isGreatest_insert_max (h.greatest _ old hold) line.hitCount
      | none =>
          have hempty : hitCountsAt lines line.line = ∅ := by
            rw [Set.eq_empty_iff_forall_notMem]
            rintro count ⟨other, hother, hnumber, -⟩
            exact h.absent _ hold other hother hnumber
          have hmax : max 0 line.hitCount = line.hitCount := if_pos UInt32.zero_le
          rw [hempty, Option.getD_none, hmax]
          refine ⟨Set.mem_insert _ _, ?_⟩
          rintro count (rfl | hmem)
          · exact UInt32.le_refl _
          · cases hmem
    · rename_i hne
      rw [hitCountsAt_append_of_ne lines (Ne.symm hne)]
      exact h.greatest n count hsome

theorem largest_lineCounts (lines : List LineCoverage) : Largest lines (lineCounts lines) := by
  induction lines using List.reverseRecOn with
  | nil =>
      constructor
      · intro n _ line hline
        cases hline
      · intro n count hsome
        cases hsome
  | append_singleton lines line ih =>
      rw [lineCounts, List.foldl_append]
      exact ih.add line

/-- A source line is counted with the largest of its hit counts. -/
theorem mem_entries_lineCounts {lines : List LineCoverage} {n count : UInt32} :
    (n, count) ∈ (lineCounts lines).entries ↔ IsGreatest (hitCountsAt lines n) count := by
  have hlargest := largest_lineCounts lines
  rw [← OrderedMap.get?_eq_some_iff]
  constructor
  · exact hlargest.greatest n count
  · intro hcount
    obtain ⟨line, hline, hnumber, -⟩ := hcount.1
    cases hheld : (lineCounts lines).get? n with
    | none => exact absurd hnumber (hlargest.absent n hheld line hline)
    | some held =>
        have hgreatest := hlargest.greatest n held hheld
        rw [UInt32.le_antisymm (hcount.2 hgreatest.1) (hgreatest.2 hcount.1)]

theorem exists_isGreatest {lines : List LineCoverage} {line : LineCoverage} (h : line ∈ lines) :
    ∃ count, IsGreatest (hitCountsAt lines line.line) count := by
  have hlargest := largest_lineCounts lines
  cases hheld : (lineCounts lines).get? line.line with
  | none => exact absurd rfl (hlargest.absent _ hheld line h)
  | some count => exact ⟨count, hlargest.greatest _ count hheld⟩

variable (name : String) (group : MethodGroup)

theorem functions_record : functions (record name group) =
    group.methods.map fun method => ((entry method).1, functionName method) := by
  simp [functions, record, functionLines, branchLines, dataLines, Outcomes.filterMap_listed,
    List.filterMap_map]

theorem functionHits_record : functionHits (record name group) =
    group.methods.map fun method => ((entry method).2, functionName method) := by
  simp [functionHits, record, functionLines, branchLines, dataLines, Outcomes.filterMap_listed,
    List.filterMap_map]

theorem lineHits_record : lineHits (record name group) =
    (lineCounts (group.methods.flatMap (·.lines))).entries := by
  simp [lineHits, record, functionLines, branchLines, dataLines, Outcomes.filterMap_listed,
    List.filterMap_map]

/-- A record stands for the methods of a document: it has an entry for each of them in their
order, and one for each of their source lines by ascending number, with the largest hit count
of the line. -/
structure StandsFor (record : List Line) (name : String) (group : MethodGroup) : Prop where
  first : record.head? = some (.testName name)
  last : record.getLast? = some .endOfRecord
  file : ∀ path, .sourceFile path ∈ record ↔ path = group.key
  functions : functions record = group.methods.map fun method =>
    ((entry method).1, method.method.namespace ++ "." ++ method.method.name)
  functionHits : functionHits record = group.methods.map fun method =>
    ((entry method).2, method.method.namespace ++ "." ++ method.method.name)
  ascending : (lineHits record).Pairwise fun x y => x.1 < y.1
  greatest : ∀ n count, (n, count) ∈ lineHits record ↔
    IsGreatest (hitCountsAt (group.methods.flatMap (·.lines)) n) count

theorem record_standsFor : StandsFor (record name group) name group where
  first := rfl
  last := by rw [record, List.getLast?_concat]
  file := by
    intro path
    have habsent (lines : List LineCoverage) :
        .sourceFile path ∉ (Outcomes.ofLines lines).listed.toList := by
      intro hmem
      obtain ⟨line, block, outcome, count, heq⟩ := (Outcomes.lists_ofLines lines).only _ hmem
      cases heq
    simp [record, functionLines, branchLines, dataLines, habsent]
  functions := functions_record name group
  functionHits := functionHits_record name group
  ascending := by
    rw [lineHits_record]
    exact (lineCounts _).ascending.imp Std.compare_eq_lt.mp
  greatest := by
    intro n count
    rw [lineHits_record]
    exact mem_entries_lineCounts

/-- A record ends where its last line stands. -/
theorem records_record_append (rest : List Line) :
    records (record name group ++ rest) = record name group :: records rest := by
  have habsent (lines : List LineCoverage) :
      .endOfRecord ∉ (Outcomes.ofLines lines).listed.toList := by
    intro hmem
    obtain ⟨line, block, outcome, count, heq⟩ := (Outcomes.lists_ofLines lines).only _ hmem
    cases heq
  rw [record, List.append_assoc, List.singleton_append]
  refine records_append ?_ rest
  simp [functionLines, branchLines, dataLines, habsent]

/-- The records of a report, one for each document of each contract. -/
theorem records_lines (trees : List CoverageTree) : records (lines trees) =
    trees.flatMap fun tree => tree.documentGroups.map (record tree.name) := by
  have hgroups (name : String) (groups : List MethodGroup) (rest : List Line) :
      records (groups.flatMap (record name) ++ rest) =
        groups.map (record name) ++ records rest := by
    induction groups with
    | nil => rfl
    | cons group groups ih =>
        rw [List.flatMap_cons, List.append_assoc, records_record_append, ih, List.map_cons,
          List.cons_append]
  induction trees with
  | nil => rfl
  | cons tree trees ih =>
      rw [lines] at ih ⊢
      rw [List.flatMap_cons, hgroups, ih, List.flatMap_cons]

end ScriptCoverage.Lcov
