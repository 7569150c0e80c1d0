import Mathlib.Data.UInt
import ScriptCoverage.Coverage.Tree
import ScriptCoverage.Proofs.Data.Cut
import ScriptCoverage.Proofs.Symbols.Method
import ScriptCoverage.Proofs.Vm.Window

/-!
The branches of a method's lines. A line's window ends before the next point, so the
windows of ascending points follow each other without gap or overlap: together they hold
the jumps and calls from the first point to the end of the method, each at the last point
that does not come after it.
-/

namespace ScriptCoverage

open SequencePoint (Ascending)

namespace CoverageTree

/-- The jumps and calls of a script, each with its target and the outcomes counted at it. -/
def allSites (counters : Counters) (script : Script) : List BranchSite :=
  (script.listing.filter fun (_, insn) => insn.isBranch).map fun (address, insn) =>
    { address
      opcode := insn.opcode
      target := insn.target? address
      counts := counters.branchCount address }

theorem allSites_ascending (counters : Counters) (script : Script) :
    (allSites counters script).Pairwise fun x y => x.address < y.address := by
  have hascending : script.listing.Pairwise fun x y => x.1 < y.1 :=
    List.pairwise_map.mp script.addresses_ascending
  exact List.pairwise_map.mpr (hascending.filter _)

/-- The jumps and calls of a script between two addresses, both included. -/
def sitesBetween (counters : Counters) (script : Script) (first last : UInt32) :
    List BranchSite :=
  (allSites counters script).filter fun site => first ≤ site.address ∧ site.address ≤ last

theorem branchSites_eq_sitesBetween (counters : Counters) (script : Script)
    (first last : UInt32) :
    branchSites counters script first last = sitesBetween counters script first last := by
  rw [branchSites, Script.window_eq_filter, sitesBetween, allSites, List.filter_map,
    List.filter_filter, List.filter_filter]
  refine congrArg _ (List.filter_congr fun item _ => ?_)
  rw [Bool.and_comm]
  rfl

variable {recording : Recording} {script : Script} {range : AddressRange}
  {point : SequencePoint} {points : List SequencePoint}

theorem le_min_pred_iff {next : UInt32} (hnext : next ≠ 0) (address last : UInt32) :
    address ≤ min (next - 1) last ↔ address < next ∧ address ≤ last := by
  have hpos : 0 < next.toNat := UInt32.lt_iff_toNat_lt.mp (UInt32.pos_iff_ne_zero.mpr hnext)
  have hone : (1 : UInt32) ≤ next := UInt32.le_iff_toNat_le.mpr hpos
  have hpred : address ≤ next - 1 ↔ address < next := by
    rw [UInt32.le_iff_toNat_le, UInt32.lt_iff_toNat_lt, UInt32.toNat_sub_of_le next 1 hone,
      UInt32.toNat_one]
    omega
  rw [Std.le_min_iff, hpred]

/-- Before all of ascending points is before the first. -/
theorem before_all_iff {next : SequencePoint} {rest : List SequencePoint}
    (hpoints : Ascending (next :: rest)) {address : UInt32} :
    (∀ later ∈ next :: rest, address < later.address) ↔ address < next.address := by
  constructor
  · intro h
    exact h next List.mem_cons_self
  · intro hlt
    refine List.forall_mem_cons.mpr ⟨hlt, fun later hmem => ?_⟩
    exact UInt32.lt_of_lt_of_le hlt ((List.pairwise_cons.mp hpoints).1 later hmem)

/-- A line lists the branches that stand behind its point and before all later ones. -/
theorem branches_lineOf (hscript : recording.script = some script)
    (hpoints : Ascending (point :: points)) :
    (lineOf recording range point points.head?).branches =
      (sitesBetween recording.counters script point.address range.last).filter
        fun site => ∀ later ∈ points, site.address < later.address := by
  cases points with
  | nil =>
      rw [List.filter_eq_self.mpr (by simp), ← branchSites_eq_sitesBetween]
      simp only [lineOf, windowEnd?, List.head?_nil, hscript]
  | cons next rest =>
      simp only [before_all_iff (List.pairwise_cons.mp hpoints).2]
      by_cases hzero : next.address = 0
      · have hnone : ∀ site ∈ sitesBetween recording.counters script point.address range.last,
            ¬decide (site.address < next.address) = true := by
          intro site _
          simp [hzero]
        rw [List.filter_eq_nil_iff.mpr hnone]
        simp only [lineOf, windowEnd?, List.head?_cons, if_pos hzero, hscript]
      · have hbranches : (lineOf recording range point (next :: rest).head?).branches =
            branchSites recording.counters script point.address
              (min (next.address - 1) range.last) := by
          simp only [lineOf, windowEnd?, List.head?_cons, if_neg hzero, hscript]
        rw [hbranches, branchSites_eq_sitesBetween, sitesBetween, sitesBetween,
          List.filter_filter]
        refine List.filter_congr fun site _ => ?_
        rw [← Bool.decide_and, decide_eq_decide, le_min_pred_iff hzero]
        exact and_left_comm

theorem mem_sitesBetween {counters : Counters} {first last : UInt32} {site : BranchSite} :
    site ∈ sitesBetween counters script first last ↔
      site ∈ allSites counters script ∧ first ≤ site.address ∧ site.address ≤ last := by
  rw [sitesBetween, List.mem_filter, decide_eq_true_eq]

/-- The windows of ascending points follow each other: those of the first point end where
those of the second begin. -/
theorem branches_linesOf (hscript : recording.script = some script)
    (hpoints : Ascending (point :: points)) :
    (linesOf recording range (point :: points)).flatMap (·.branches) =
      sitesBetween recording.counters script point.address range.last := by
  induction points generalizing point with
  | nil =>
      rw [linesOf, linesOf, List.flatMap_cons, List.flatMap_nil, List.append_nil,
        branches_lineOf hscript hpoints]
      exact List.filter_eq_self.mpr (by simp)
  | cons next rest ih =>
      obtain ⟨hpoint, hrest⟩ := List.pairwise_cons.mp hpoints
      have hle : point.address ≤ next.address := hpoint next List.mem_cons_self
      have hsplit : Cut.EndsOnce
          (fun site : BranchSite => decide (∀ later ∈ next :: rest, site.address < later.address))
          (sitesBetween recording.counters script point.address range.last) := by
        refine ((allSites_ascending _ _).filter _).imp fun {x y} hlt hy => ?_
        rw [decide_eq_true_eq] at hy ⊢
        intro later hmem
        exact UInt32.lt_trans hlt (hy later hmem)
      have hbehind : sitesBetween recording.counters script next.address range.last =
          (sitesBetween recording.counters script point.address range.last).filter fun site =>
            !decide (∀ later ∈ next :: rest, site.address < later.address) := by
        rw [sitesBetween, sitesBetween, List.filter_filter]
        refine List.filter_congr fun site _ => ?_
        rw [← decide_not, ← Bool.decide_and, decide_eq_decide, before_all_iff hrest,
          UInt32.not_lt]
        constructor
        · rintro ⟨hnext, hlast⟩
          exact ⟨hnext, UInt32.le_trans hle hnext, hlast⟩
        · rintro ⟨hnext, -, hlast⟩
          exact ⟨hnext, hlast⟩
      rw [linesOf, List.flatMap_cons, branches_lineOf hscript hpoints, ih hrest, hbehind]
      exact Cut.filter_append_filter_not hsplit

theorem points_linesOf (recording : Recording) (range : AddressRange)
    (points : List SequencePoint) :
    (linesOf recording range points).map (·.point) = points := by
  induction points with
  | nil => rfl
  | cons point rest ih => rw [linesOf, List.map_cons, ih, lineOf]

/-- Every line of a method is the line of its point, and of the points behind it. -/
theorem linesOf_eq_append {before after : List LineCoverage} {line : LineCoverage}
    (h : linesOf recording range points = before ++ line :: after) :
    ∃ earlier later, points = earlier ++ line.point :: later ∧
      later = after.map (·.point) ∧
      line = lineOf recording range line.point later.head? := by
  induction before generalizing points with
  | nil =>
      cases points with
      | nil => cases h
      | cons point rest =>
          obtain ⟨hline, hafter⟩ := List.cons.inj h
          subst hline
          exact ⟨[], rest, rfl, by rw [← hafter, points_linesOf], rfl⟩
  | cons first before ih =>
      cases points with
      | nil => cases h
      | cons point rest =>
          obtain ⟨earlier, later, hrest, hlater, hline⟩ := ih (List.cons.inj h).2
          exact ⟨point :: earlier, later, by rw [hrest, List.cons_append], hlater, hline⟩

/-- The lines of a method partition its branches. They list the jumps and calls from the
first point to the end of the method's range, by ascending address and each once; a line
lists those for which its point is the last that does not come after them. -/
theorem lines_partition_branches :
    (∀ json method, Method.ofJson json = .ok method → Ascending method.points) ∧
    ∀ (recording : Recording) (script : Script) (method : Method) (first : SequencePoint),
      recording.script = some script → Ascending method.points →
      method.points.head? = some first →
      ∃ coverage, methodOf? recording method = some coverage ∧
        coverage.lines.map (·.point) = method.points ∧
        coverage.lines.flatMap (·.branches) =
          sitesBetween recording.counters script first.address method.range.last ∧
        (coverage.lines.flatMap (·.branches)).Pairwise (fun x y => x.address < y.address) ∧
        ∀ before line after, coverage.lines = before ++ line :: after →
          ∀ site, site ∈ line.branches ↔
            site ∈ coverage.lines.flatMap (·.branches) ∧ line.point.address ≤ site.address ∧
              ∀ later ∈ after, site.address < later.point.address := by
  refine ⟨fun _ _ => Method.ascending_of_ofJson, ?_⟩
  intro recording script method first hscript hascending hfirst
  obtain ⟨rest, hpoints⟩ : ∃ rest, method.points = first :: rest := by
    exact ⟨_, (List.cons_head?_tail hfirst).symm⟩
  rw [hpoints] at hascending
  have hbranches : (linesOf recording method.range method.points).flatMap (·.branches) =
      sitesBetween recording.counters script first.address method.range.last := by
    rw [hpoints]
    exact branches_linesOf hscript hascending
  refine ⟨_, by rw [methodOf?, hfirst, Option.map_some], points_linesOf _ _ _, hbranches, ?_, ?_⟩
  · rw [hbranches]
    exact (allSites_ascending _ _).filter _
  · intro before line after hlines site
    obtain ⟨earlier, later, hsplit, hlater, hline⟩ := linesOf_eq_append hlines
    rw [← hpoints, hsplit] at hascending
    obtain ⟨-, hsuffix, hearlier⟩ := List.pairwise_append.mp hascending
    have hfirst_le : first.address ≤ line.point.address := by
      rw [hsplit] at hfirst
      cases earlier with
      | nil =>
          cases hfirst
          exact UInt32.le_refl _
      | cons point others =>
          cases hfirst
          exact hearlier first List.mem_cons_self line.point List.mem_cons_self
    have hlater' : (∀ point ∈ later, site.address < point.address) ↔
        ∀ line ∈ after, site.address < line.point.address := by
      rw [hlater, List.forall_mem_map]
    rw [hbranches, hline, branches_lineOf hscript hsuffix, List.mem_filter, decide_eq_true_eq,
      hlater', mem_sitesBetween, mem_sitesBetween]
    constructor
    · rintro ⟨⟨hsite, hpoint, hlast⟩, hbefore⟩
      exact ⟨⟨hsite, UInt32.le_trans hfirst_le hpoint, hlast⟩, hpoint, hbefore⟩
    · rintro ⟨⟨hsite, -, hlast⟩, hpoint, hbefore⟩
      exact ⟨⟨hsite, hpoint, hlast⟩, hbefore⟩

/-- Two points share address 0 and the last stands behind the range; the jump and the call
are listed once. -/
theorem lines_partition_branches_shared_point :
    ∃ script : Script, script.bytes = [0x22, 3, 0x21, 0x34, 1, 0x40] ∧
      ∃ coverage, methodOf? ⟨"Token", ⟨.zero, none, ["Token.cs"], []⟩, some script, .empty⟩
          ⟨"m0", "Token", "Main", ⟨0, 4, by decide⟩, [], none,
            [⟨0, 0, ⟨1, 1⟩, ⟨1, 5⟩⟩, ⟨0, 0, ⟨2, 1⟩, ⟨2, 5⟩⟩, ⟨5, 0, ⟨3, 1⟩, ⟨3, 5⟩⟩]⟩ =
            some coverage ∧
        coverage.lines.flatMap (·.branches) =
          [⟨0, 0x22, some 3, ⟨0, 0⟩⟩, ⟨3, 0x34, some 4, ⟨0, 0⟩⟩] := by
  have hread : disassemble [0x22, 3, 0x21, 0x34, 1, 0x40] =
      ⟨[(0, ⟨0x22, [3], 2⟩), (2, ⟨0x21, [], 1⟩), (3, ⟨0x34, [1], 2⟩), (5, ⟨0x40, [], 1⟩)],
        none⟩ := by decide +kernel
  obtain ⟨coverage, hmethod, -, hbranches, -⟩ := lines_partition_branches.2
    ⟨"Token", ⟨.zero, none, ["Token.cs"], []⟩, some ⟨_, _, hread⟩, .empty⟩ ⟨_, _, hread⟩
    ⟨"m0", "Token", "Main", ⟨0, 4, by decide⟩, [], none,
      [⟨0, 0, ⟨1, 1⟩, ⟨1, 5⟩⟩, ⟨0, 0, ⟨2, 1⟩, ⟨2, 5⟩⟩, ⟨5, 0, ⟨3, 1⟩, ⟨3, 5⟩⟩]⟩ _ rfl
    (by unfold Ascending; decide) rfl
  refine ⟨⟨_, _, hread⟩, rfl, coverage, hmethod, hbranches.trans ?_⟩
  simp only [sitesBetween, allSites]
  decide +kernel

end CoverageTree

end ScriptCoverage
