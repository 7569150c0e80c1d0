import Mathlib.Data.List.Dedup
import ScriptCoverage.Proofs.Coverage.MethodRanges
import ScriptCoverage.Proofs.Report.Lcov
import ScriptCoverage.Proofs.Report.LcovReader

/-!
The keys of the outcomes in an LCOV record: source line, block and outcome. Blocks are numbered
within one sequence point, so the keys are distinct exactly when no two points with branches in
the document stand on the same source line.
-/

namespace ScriptCoverage.Lcov

/-- Source line, block and outcome. -/
abbrev BranchKey := UInt32 × Nat × Nat

/-- The outcomes of a record with their keys. -/
def branchEntries (record : List Line) : List (BranchKey × Option UInt32) :=
  record.filterMap fun
    | .branchData line block outcome count => some ((line, block, outcome), count)
    | _ => none

def branchKeys (record : List Line) : List BranchKey :=
  (branchEntries record).map (·.1)

/-- What a reader has for a key that keeps the last entry of each. -/
def outcomeAt (record : List Line) (key : BranchKey) : Option (Option UInt32) :=
  (branchEntries record).reverse.lookup key

/-- A reader that goes by the keys has all outcomes of a record: as many as the record lists,
each under its key. -/
structure KeepsOutcomes (record : List Line) : Prop where
  count : (branchKeys record).dedup.length = (branchCounts record).length
  each : ∀ entry ∈ branchEntries record, outcomeAt record entry.1 = some entry.2

theorem branchCounts_eq_map (record : List Line) :
    branchCounts record = (branchEntries record).map (·.2) := by
  rw [branchEntries, List.map_filterMap]
  refine List.filterMap_congr fun line _ => ?_
  cases line <;> rfl

theorem length_branchKeys (record : List Line) :
    (branchKeys record).length = (branchCounts record).length := by
  rw [branchKeys, branchCounts_eq_map, List.length_map, List.length_map]

theorem outcomeAt_of_nodup {record : List Line} (h : (branchKeys record).Nodup)
    {entry : BranchKey × Option UInt32} (hentry : entry ∈ branchEntries record) :
    outcomeAt record entry.1 = some entry.2 := by
  obtain ⟨before, after, hsplit⟩ := List.append_of_mem hentry
  rw [branchKeys, hsplit, List.map_append, List.map_cons, List.nodup_middle,
    List.nodup_cons] at h
  rw [outcomeAt, List.lookup_eq_some_iff]
  refine ⟨after.reverse, before.reverse, ?_, ?_⟩
  · rw [hsplit, List.reverse_append, List.reverse_cons, List.append_assoc,
      List.singleton_append]
  · intro later hlater
    rw [bne_iff_ne]
    intro heq
    refine h.1 (List.mem_append_right _ ?_)
    rw [heq]
    exact List.mem_map_of_mem (List.mem_reverse.mp hlater)

/-- A reader that goes by the keys keeps all outcomes when the keys are distinct. -/
theorem keepsOutcomes_iff {record : List Line} :
    KeepsOutcomes record ↔ (branchKeys record).Nodup := by
  constructor
  · intro h
    have hlength := h.count.trans (length_branchKeys record).symm
    exact List.dedup_eq_self.mp ((List.dedup_sublist _).eq_of_length hlength)
  · intro h
    refine ⟨?_, fun entry hentry => outcomeAt_of_nodup h hentry⟩
    rw [List.dedup_eq_self.mpr h, length_branchKeys]

namespace Outcomes

/-- The two entries of a branch. -/
def siteLines (line : LineCoverage) (site : BranchSite) (block : Nat) : List Line :=
  ((Outcomes.mk #[] 0 0).addSite line site block).listed.toList

theorem listed_addSite (outcomes : Outcomes) (line : LineCoverage) (site : BranchSite)
    (block : Nat) : (outcomes.addSite line site block).listed.toList =
      outcomes.listed.toList ++ siteLines line site block := by
  simp [addSite, add, siteLines]

/-- A loop of which every round adds lines at the end has added those of all rounds. -/
theorem listed_foldl {α : Type} {step : Outcomes → α → Outcomes} {linesOf : α → List Line}
    (hstep : ∀ outcomes x, (step outcomes x).listed.toList =
      outcomes.listed.toList ++ linesOf x) (items : List α) (outcomes : Outcomes) :
    (items.foldl step outcomes).listed.toList =
      outcomes.listed.toList ++ items.flatMap linesOf := by
  induction items generalizing outcomes with
  | nil => rw [List.foldl_nil, List.flatMap_nil, List.append_nil]
  | cons x rest ih => rw [List.foldl_cons, ih, hstep, List.flatMap_cons, List.append_assoc]

theorem listed_ofLines (lines : List LineCoverage) : (ofLines lines).listed.toList =
    lines.flatMap fun line => line.branches.zipIdx.flatMap fun (site, block) =>
      siteLines line site block := by
  have hline (outcomes : Outcomes) (line : LineCoverage) :=
    listed_foldl (fun outcomes (item : BranchSite × Nat) =>
      listed_addSite outcomes line item.1 item.2) line.branches.zipIdx outcomes
  exact (listed_foldl hline lines ⟨#[], 0, 0⟩).trans (List.nil_append _)

end Outcomes

/-- The keys of the two outcomes of a branch. -/
def keysOfBlock (line : LineCoverage) (block : Nat) : List BranchKey :=
  [(line.line, block, 0), (line.line, block, 1)]

/-- The keys of a line's outcomes; its branches are numbered from 0. -/
def keysOf (line : LineCoverage) : List BranchKey :=
  (List.range line.branches.length).flatMap (keysOfBlock line)

theorem mem_keysOfBlock {line : LineCoverage} {block : Nat} {key : BranchKey} :
    key ∈ keysOfBlock line block ↔ line.line = key.1 ∧ block = key.2.1 ∧ key.2.2 ∈ [0, 1] := by
  obtain ⟨number, block', outcome⟩ := key
  simp only [keysOfBlock, List.mem_cons, List.not_mem_nil, or_false, Prod.mk.injEq]
  constructor
  · rintro (⟨rfl, rfl, rfl⟩ | ⟨rfl, rfl, rfl⟩)
    · exact ⟨rfl, rfl, .inl rfl⟩
    · exact ⟨rfl, rfl, .inr rfl⟩
  · rintro ⟨rfl, rfl, rfl | rfl⟩
    · exact .inl ⟨rfl, rfl, rfl⟩
    · exact .inr ⟨rfl, rfl, rfl⟩

theorem mem_keysOf {line : LineCoverage} {key : BranchKey} :
    key ∈ keysOf line ↔
      line.line = key.1 ∧ key.2.1 < line.branches.length ∧ key.2.2 ∈ [0, 1] := by
  rw [keysOf, List.mem_flatMap]
  constructor
  · rintro ⟨block, hblock, hkey⟩
    obtain ⟨hnumber, rfl, houtcome⟩ := mem_keysOfBlock.mp hkey
    exact ⟨hnumber, List.mem_range.mp hblock, houtcome⟩
  · rintro ⟨hnumber, hblock, houtcome⟩
    exact ⟨key.2.1, List.mem_range.mpr hblock, mem_keysOfBlock.mpr ⟨hnumber, rfl, houtcome⟩⟩

theorem nodup_keysOf (line : LineCoverage) : (keysOf line).Nodup := by
  rw [keysOf, List.nodup_flatMap]
  constructor
  · intro block _
    simp [keysOfBlock]
  · refine List.nodup_range.imp fun {block block'} hne key hkey hkey' => hne ?_
    rw [(mem_keysOfBlock.mp hkey).2.1, (mem_keysOfBlock.mp hkey').2.1]

/-- Lines share a key when they have the same number and both have branches. -/
theorem disjoint_keysOf_iff {x y : LineCoverage} : (keysOf x).Disjoint (keysOf y) ↔
    (x.branches ≠ [] → y.branches ≠ [] → x.line ≠ y.line) := by
  constructor
  · intro h hx hy heq
    have hfirst : (x.line, 0, 0) ∈ keysOf x :=
      mem_keysOf.mpr ⟨rfl, List.length_pos_iff.mpr hx, List.mem_cons_self⟩
    exact h hfirst (mem_keysOf.mpr ⟨heq.symm, List.length_pos_iff.mpr hy, List.mem_cons_self⟩)
  · intro h key hkeyx hkeyy
    obtain ⟨hx, hblockx, -⟩ := mem_keysOf.mp hkeyx
    obtain ⟨hy, hblocky, -⟩ := mem_keysOf.mp hkeyy
    exact h (List.length_pos_iff.mp (Nat.zero_lt_of_lt hblockx))
      (List.length_pos_iff.mp (Nat.zero_lt_of_lt hblocky)) (hx.trans hy.symm)

theorem branchKeys_siteLines (line : LineCoverage) (site : BranchSite) (block : Nat) :
    branchKeys (Outcomes.siteLines line site block) = keysOfBlock line block :=
  rfl

theorem branchKeys_flatMap {α : Type} (linesOf : α → List Line) (items : List α) :
    branchKeys (items.flatMap linesOf) = items.flatMap fun x => branchKeys (linesOf x) := by
  rw [branchKeys, branchEntries, List.filterMap_flatMap, List.map_flatMap]
  rfl

/-- The branches of a line are numbered as they are listed. -/
theorem branchKeys_lineLines (line : LineCoverage) :
    branchKeys (line.branches.zipIdx.flatMap fun (site, block) =>
      Outcomes.siteLines line site block) = keysOf line := by
  have hnumbers : line.branches.zipIdx.map (·.2) = List.range line.branches.length := by
    rw [List.zipIdx_map_snd, List.range_eq_range']
  rw [branchKeys_flatMap, keysOf, ← hnumbers, List.flatMap_map]
  exact List.flatMap_congr fun item _ => branchKeys_siteLines line item.1 item.2

theorem branchKeys_record (name : String) (group : MethodGroup) :
    branchKeys (record name group) = (group.methods.flatMap (·.lines)).flatMap keysOf := by
  have hrecord : branchKeys (record name group) =
      branchKeys (Outcomes.ofLines (group.methods.flatMap (·.lines))).listed.toList := by
    simp [branchKeys, branchEntries, record, functionLines, branchLines, dataLines,
      List.filterMap_map]
  rw [hrecord, Outcomes.listed_ofLines, branchKeys_flatMap]
  exact List.flatMap_congr fun line _ => branchKeys_lineLines line

/-- No two of these lines that have branches share a source line. -/
def SeparateLines (lines : List LineCoverage) : Prop :=
  lines.Pairwise fun x y => x.branches ≠ [] → y.branches ≠ [] → x.line ≠ y.line

theorem nodup_flatMap_keysOf {lines : List LineCoverage} :
    (lines.flatMap keysOf).Nodup ↔ SeparateLines lines := by
  rw [List.nodup_flatMap, and_iff_right fun line _ => nodup_keysOf line]
  exact List.Pairwise.iff fun x y => disjoint_keysOf_iff

/-- The keys of a record are distinct, and a reader that goes by them keeps every outcome,
exactly when no two points of the document that have branches share a source line. -/
theorem branchKeys_nodup_iff (trees : List CoverageTree) :
    ∃ report, read? (texts trees) = some report ∧ List.Forall₂ (fun record group =>
        ((branchKeys record).Nodup ↔ SeparateLines (group.methods.flatMap (·.lines))) ∧
        (KeepsOutcomes record ↔ SeparateLines (group.methods.flatMap (·.lines))))
      (records report) (trees.flatMap (·.documentGroups)) := by
  have hgroup (name : String) (group : MethodGroup) :
      (branchKeys (record name group)).Nodup ↔
        SeparateLines (group.methods.flatMap (·.lines)) := by
    rw [branchKeys_record, nodup_flatMap_keysOf]
  have hsame : List.Forall₂ (· = ·) trees trees := List.forall₂_refl trees
  refine ⟨lines trees, read?_texts trees, ?_⟩
  rw [records_lines]
  refine List.rel_flatMap hsame ?_
  rintro tree _ rfl
  rw [List.forall₂_map_left_iff, List.forall₂_same]
  intro group _
  exact ⟨hgroup tree.name group, keepsOutcomes_iff.trans (hgroup tree.name group)⟩

/-- A method with two points on its only line: a jump stands behind the first, and a call behind
the second. -/
def sharedLine : Recording :=
  { CoverageTree.twoClasses with
    symbols := ⟨.zero, none, ["Token.cs"], [
      ⟨"m0", "Token", "Main", ⟨0, 5, by decide⟩, [], none,
        [⟨0, 0, ⟨7, 1⟩, ⟨7, 5⟩⟩, ⟨3, 0, ⟨7, 7⟩, ⟨7, 9⟩⟩]⟩]⟩ }

/-- Both branches of the line are block 0 of it. -/
theorem not_nodup_branchKeys_sharedLine :
    (CoverageTree.ofRecording sharedLine).RangesDisjoint ∧
      (∀ method ∈ (CoverageTree.ofRecording sharedLine).methods,
        ∀ point ∈ method.method.points, method.method.range.Contains point.address) ∧
      ∃ report, read? (texts [.ofRecording sharedLine]) = some report ∧
        ∃ record ∈ records report, ¬(branchKeys record).Nodup ∧ ¬KeepsOutcomes record := by
  simp only [read?_texts, Option.some.injEq, exists_eq_left', keepsOutcomes_iff, and_self]
  decide +kernel

end ScriptCoverage.Lcov
