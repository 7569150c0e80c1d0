import Mathlib.Data.List.Forall2
import Mathlib.Logic.Relation
import ScriptCoverage.Proofs.Coverage.Rates
import ScriptCoverage.Proofs.Recording.Lifecycle

/-!
More traces never lower coverage. What a collector accepts adds to its counters and changes
nothing else. A tree takes its shape from the symbols and the script and nothing but its counts
from the counters, and every count and every rate follows the counters upwards.
-/

namespace ScriptCoverage

open LineCount (hits outcomes)

namespace Rate

/-- The same total, and no less of it covered. -/
structure Rises (before after : Rate) : Prop where
  total : after.total = before.total
  covered : before.covered ≤ after.covered
  basisPoints : before.basisPoints ≤ after.basisPoints

/-- Rounding keeps the order of counts out of the same total. -/
theorem Counts.rises {before after : Rate} {covered covered' total : Nat}
    (h : before.Counts covered total) (h' : after.Counts covered' total)
    (hle : covered ≤ covered') : before.Rises after where
  total := UInt64.toNat_inj.mp (h'.total_eq.trans h.total_eq.symm)
  covered := by
    rw [UInt64.le_iff_toNat_le, h.covered_eq, h'.covered_eq]
    exact hle
  basisPoints := by
    rw [UInt64.le_iff_toNat_le]
    rcases Nat.eq_zero_or_pos total with rfl | hpos
    · have hzero : before.total = 0 := UInt64.toNat_inj.mp h.total_eq
      have hzero' : after.total = 0 := UInt64.toNat_inj.mp h'.total_eq
      rw [basisPoints, basisPoints, if_pos hzero, if_pos hzero']
    · rw [h.toNat_basisPoints hpos, h'.toNat_basisPoints hpos]
      exact Nat.div_le_div_right (by omega)

end Rate

/-- Nothing about a contract changes but its counters, and none of these goes down. -/
structure Recording.Gains (before after : Recording) : Prop extends before.Grows after where
  sameScript : after.script = before.script

namespace Recording

theorem Gains.refl (recording : Recording) : recording.Gains recording :=
  ⟨Grows.refl recording, rfl⟩

theorem Gains.trans {x y z : Recording} (hxy : x.Gains y) (hyz : y.Gains z) : x.Gains z :=
  ⟨hxy.toGrows.trans hyz.toGrows, hyz.sameScript.trans hxy.sameScript⟩

end Recording

namespace Collector

variable {before after : Collector}

/-- A collector takes in a trace or a raw dump. -/
inductive Accepts (before after : Collector) : Prop
  | trace (records : List TraceRecord) (answer : TraceStats × List ContractHash)
      (h : (applyTrace records).run before = (.ok answer, after))
  | raw (dump : RawDump) (h : (applyRaw dump).run before = (.ok (), after))

theorem Accepts.exists_adds (h : Accepts before after) : ∃ amounts, before.Adds amounts after := by
  cases h with
  | trace records answer h =>
      have hadds := exists_adds_applyTrace records before
      rwa [h] at hadds
  | raw dump h =>
      have hadds := exists_adds_applyRaw dump before
      rwa [h] at hadds

/-- The same contracts are registered, and may have gained counts. -/
def Gains (before after : Collector) : Prop :=
  ∀ hash, Option.Rel Recording.Gains (before.get? hash) (after.get? hash)

theorem Gains.refl (collector : Collector) : collector.Gains collector := by
  intro hash
  cases collector.get? hash with
  | none => exact .none
  | some recording => exact .some (Recording.Gains.refl recording)

theorem Gains.trans {x y z : Collector} (hxy : x.Gains y) (hyz : y.Gains z) : x.Gains z := by
  intro hash
  have hfirst := hxy hash
  have hlast := hyz hash
  generalize x.get? hash = found, y.get? hash = found', z.get? hash = found'' at hfirst hlast ⊢
  cases hfirst with
  | none => exact hlast
  | some hgains =>
      cases hlast with
      | some hgains' => exact .some (hgains.trans hgains')

theorem Accepts.gains (h : Accepts before after) : before.Gains after := by
  intro hash
  obtain ⟨amounts, hadds⟩ := h.exists_adds
  cases hget : before.get? hash with
  | none =>
      rw [(hadds.of_none hget).2]
      exact .none
  | some recording =>
      obtain ⟨counters, hafter, htotals⟩ := hadds.of_some hget
      rw [hafter]
      exact .some ⟨Recording.grows_of_totals htotals, rfl⟩

theorem gains_of_accepts (h : Relation.ReflTransGen Accepts before after) :
    before.Gains after := by
  induction h with
  | refl => exact Gains.refl before
  | tail _ hstep ih => exact ih.trans hstep.gains

end Collector

structure BranchSite.Rises (before after : BranchSite) : Prop where
  address : after.address = before.address
  opcode : after.opcode = before.opcode
  target : after.target = before.target
  taken : before.counts.taken ≤ after.counts.taken
  continued : before.counts.continued ≤ after.counts.continued

structure LineCoverage.Rises (before after : LineCoverage) : Prop where
  point : after.point = before.point
  hitCount : before.hitCount ≤ after.hitCount
  branches : List.Forall₂ BranchSite.Rises before.branches after.branches

structure MethodCoverage.Rises (before after : MethodCoverage) : Prop where
  method : after.method = before.method
  documentIndex : after.documentIndex = before.documentIndex
  document : after.document = before.document
  lines : List.Forall₂ LineCoverage.Rises before.lines after.lines

structure MethodGroup.Rises (before after : MethodGroup) : Prop where
  key : after.key = before.key
  methods : List.Forall₂ MethodCoverage.Rises before.methods after.methods

/-- A tree of the same shape, in which no count has gone down. -/
structure CoverageTree.Rises (before after : CoverageTree) : Prop where
  hash : after.hash = before.hash
  name : after.name = before.name
  documents : after.documents = before.documents
  methods : List.Forall₂ MethodCoverage.Rises before.methods after.methods
  classes : List.Forall₂ MethodGroup.Rises before.classes after.classes
  documentGroups : List.Forall₂ MethodGroup.Rises before.documentGroups after.documentGroups

/-- The two rates of a scope both rise. -/
structure RatesRise (lineRate branchRate lineRate' branchRate' : Rate) : Prop where
  line : lineRate.Rises lineRate'
  branch : branchRate.Rises branchRate'

/-- No rate goes down, at any level of a tree. -/
structure CoverageTree.RatesRise (before after : CoverageTree) : Prop where
  whole : ScriptCoverage.RatesRise before.lineRate before.branchRate after.lineRate
    after.branchRate
  methods : List.Forall₂ (fun method method' => ScriptCoverage.RatesRise method.lineRate
    method.branchRate method'.lineRate method'.branchRate) before.methods after.methods
  classes : List.Forall₂ (fun group group' => ScriptCoverage.RatesRise group.lineRate
    group.branchRate group'.lineRate group'.branchRate) before.classes after.classes
  documentGroups : List.Forall₂ (fun group group' => ScriptCoverage.RatesRise group.lineRate
    group.branchRate group'.lineRate group'.branchRate) before.documentGroups
    after.documentGroups

namespace LineCount

/-- What is counted at a line is not above its total, and follows the counts of the line. -/
structure FollowsCounts (m : LineCount) : Prop where
  le : ∀ line, m.covered line ≤ m.total line
  total : ∀ {line line' : LineCoverage}, line.Rises line' → m.total line' = m.total line
  covered : ∀ {line line' : LineCoverage}, line.Rises line' → m.covered line ≤ m.covered line'

theorem followsCounts_hits : hits.FollowsCounts where
  le := by
    intro line
    change (if line.isCovered then 1 else 0) ≤ 1
    split <;> omega
  total := fun _ => rfl
  covered := by
    intro line line' h
    change (if line.isCovered then 1 else 0) ≤ if line'.isCovered then 1 else 0
    have hcovered : line.isCovered = true → line'.isCovered = true := by
      intro hline
      exact decide_eq_true (UInt32.lt_of_lt_of_le (of_decide_eq_true hline) h.hitCount)
    split_ifs with hline hline'
    · omega
    · exact absurd (hcovered hline) hline'
    · omega
    · omega

theorem outcomes_mono {count count' : BranchCount} (htaken : count.taken ≤ count'.taken)
    (hcontinued : count.continued ≤ count'.continued) : count.outcomes ≤ count'.outcomes := by
  have hseen {x y : UInt32} (hle : x ≤ y) :
      (if 0 < x then 1 else 0) ≤ if 0 < y then 1 else 0 := by
    split_ifs with hx hy
    · omega
    · exact absurd (UInt32.lt_of_lt_of_le hx hle) hy
    · omega
    · omega
  exact Nat.add_le_add (hseen htaken) (hseen hcontinued)

theorem outcomePaths_mono {sites sites' : List BranchSite}
    (h : List.Forall₂ BranchSite.Rises sites sites') :
    BranchSite.outcomePaths sites ≤ BranchSite.outcomePaths sites' := by
  induction h with
  | nil => exact Nat.le_refl _
  | cons hsite _ ih => exact Nat.add_le_add (outcomes_mono hsite.taken hsite.continued) ih

theorem followsCounts_outcomes : outcomes.FollowsCounts where
  le := fun line => outcomePaths_le line.branches
  total := by
    intro line line' h
    exact congrArg (2 * ·) h.branches.length_eq.symm
  covered := fun h => outcomePaths_mono h.branches

theorem counts_of_rises {m : LineCount} (h : m.FollowsCounts) {lines lines' : List LineCoverage}
    (hlines : List.Forall₂ LineCoverage.Rises lines lines') :
    m.coveredIn lines ≤ m.coveredIn lines' ∧ m.totalIn lines' = m.totalIn lines := by
  induction hlines with
  | nil => exact ⟨Nat.le_refl _, rfl⟩
  | cons hline _ ih =>
      rw [coveredIn, coveredIn, totalIn, totalIn] at ih ⊢
      simp only [List.map_cons, List.sum_cons]
      exact ⟨Nat.add_le_add (h.covered hline) ih.1, congrArg₂ (· + ·) (h.total hline) ih.2⟩

/-- A rate rises with the counts of its lines. -/
theorem rateOf_rises {m : LineCount} (h : m.FollowsCounts) {lines lines' : List LineCoverage}
    (hlines : List.Forall₂ LineCoverage.Rises lines lines')
    (hfits : m.totalIn lines < UInt64.size) : (m.rateOf lines).Rises (m.rateOf lines') := by
  obtain ⟨hcovered, htotal⟩ := counts_of_rises h hlines
  have hcounts : (m.rateOf lines).Counts (m.coveredIn lines) (m.totalIn lines) :=
    Rate.counts_ofCounts (coveredIn_le_totalIn h.le lines) hfits
  have hcounts' : (m.rateOf lines').Counts (m.coveredIn lines') (m.totalIn lines') :=
    Rate.counts_ofCounts (coveredIn_le_totalIn h.le lines') (by rwa [htotal])
  rw [htotal] at hcounts'
  exact hcounts.rises hcounts' hcovered

end LineCount

namespace CoverageTree

variable {recording recording' : Recording}

theorem branchSites_rises (h : recording.Gains recording') (script : Script)
    (first last : UInt32) : List.Forall₂ BranchSite.Rises
      (branchSites recording.counters script first last)
      (branchSites recording'.counters script first last) := by
  rw [branchSites, branchSites, List.forall₂_map_left_iff, List.forall₂_map_right_iff,
    List.forall₂_same]
  intro item _
  exact ⟨rfl, rfl, rfl, h.taken item.1, h.continued item.1⟩

theorem lineOf_rises (h : recording.Gains recording') (range : AddressRange)
    (point : SequencePoint) (next : Option SequencePoint) :
    (lineOf recording range point next).Rises (lineOf recording' range point next) where
  point := rfl
  hitCount := h.hits point.address
  branches := by
    rw [lineOf, lineOf, h.sameScript]
    cases recording.script with
    | none => exact .nil
    | some script =>
        cases windowEnd? range next with
        | none => exact .nil
        | some last => exact branchSites_rises h script point.address last

theorem linesOf_rises (h : recording.Gains recording') (range : AddressRange)
    (points : List SequencePoint) :
    List.Forall₂ LineCoverage.Rises (linesOf recording range points)
      (linesOf recording' range points) := by
  induction points with
  | nil => exact .nil
  | cons point rest ih => exact .cons (lineOf_rises h range point rest.head?) ih

theorem methodOf?_rises (h : recording.Gains recording') (method : Method) :
    Option.Rel MethodCoverage.Rises (methodOf? recording method) (methodOf? recording' method) := by
  rw [methodOf?, methodOf?, h.symbols]
  cases method.points.head? with
  | none => exact .none
  | some first => exact .some ⟨rfl, rfl, rfl, linesOf_rises h method.range method.points⟩

end CoverageTree

namespace MethodGroup

/-- Methods that rise are grouped alike, as the keys are not counted. -/
theorem groupBy_rises {key : MethodCoverage → String}
    (hkey : ∀ {method method' : MethodCoverage}, method.Rises method' → key method' = key method)
    {methods methods' : List MethodCoverage}
    (h : List.Forall₂ MethodCoverage.Rises methods methods') :
    List.Forall₂ Rises (groupBy key methods) (groupBy key methods') := by
  have hkeys : methods'.map key = methods.map key := by
    induction h with
    | nil => rfl
    | cons hmethod _ ih => rw [List.map_cons, List.map_cons, hkey hmethod, ih]
  rw [groupBy, groupBy, hkeys, List.forall₂_map_left_iff, List.forall₂_map_right_iff,
    List.forall₂_same]
  intro k _
  refine ⟨rfl, List.rel_filter ?_ h⟩
  intro method method' hmethod
  dsimp only
  rw [hkey hmethod]

theorem lines_rise {methods methods' : List MethodCoverage}
    (h : List.Forall₂ MethodCoverage.Rises methods methods') :
    List.Forall₂ LineCoverage.Rises (methods.flatMap (·.lines)) (methods'.flatMap (·.lines)) := by
  exact List.rel_flatMap h fun method method' hmethod => hmethod.lines

end MethodGroup

namespace CoverageTree

variable {recording recording' : Recording} {before after : CoverageTree}

/-- Counters that grow change nothing in a tree but its counts, and none of these downwards. -/
theorem ofRecording_rises (h : recording.Gains recording') :
    (ofRecording recording).Rises (ofRecording recording') := by
  have hmethods : List.Forall₂ MethodCoverage.Rises (ofRecording recording).methods
      (ofRecording recording').methods := by
    rw [ofRecording, ofRecording, h.symbols]
    have hsame : List.Forall₂ (· = ·) recording.symbols.methods recording.symbols.methods :=
      List.forall₂_refl _
    refine List.rel_filterMap ?_ hsame
    rintro method _ rfl
    exact methodOf?_rises h method
  refine ⟨?hash, h.name, ?documents, hmethods, ?classes, ?documentGroups⟩
  case hash => rw [ofRecording, ofRecording, Recording.hash, Recording.hash, h.symbols]
  case documents => rw [ofRecording, ofRecording, h.symbols]
  case classes => exact MethodGroup.groupBy_rises (fun h => by rw [h.method]) hmethods
  case documentGroups => exact MethodGroup.groupBy_rises (fun h => h.document) hmethods

/-- The rates of lines rise with the counts of the lines. -/
theorem ratesRise_of_lines {lines lines' : List LineCoverage}
    (h : List.Forall₂ LineCoverage.Rises lines lines')
    (hhits : hits.totalIn lines < UInt64.size) (houtcomes : outcomes.totalIn lines < UInt64.size) :
    ScriptCoverage.RatesRise (hits.rateOf lines) (outcomes.rateOf lines) (hits.rateOf lines')
      (outcomes.rateOf lines') :=
  ⟨LineCount.rateOf_rises LineCount.followsCounts_hits h hhits,
    LineCount.rateOf_rises LineCount.followsCounts_outcomes h houtcomes⟩

/-- The rates of groups rise, whichever way a tree is divided into them. -/
theorem ratesRise_of_groups {groups groups' : List MethodGroup}
    (hperm : (groups.flatMap (·.methods)).Perm before.methods)
    (h : List.Forall₂ MethodGroup.Rises groups groups')
    (hhits : hits.totalIn before.lines < UInt64.size)
    (houtcomes : outcomes.totalIn before.lines < UInt64.size) :
    List.Forall₂ (fun group group' => ScriptCoverage.RatesRise group.lineRate group.branchRate
      group'.lineRate group'.branchRate) groups groups' := by
  -- a group is counted in as many bits as the tree that holds it
  have hfits (m : LineCount) {group : MethodGroup} (hgroup : group ∈ groups) :
      m.totalIn (group.methods.flatMap (·.lines)) ≤ m.totalIn before.lines := by
    rw [lines, ← m.totalIn_perm (MethodGroup.lines_perm hperm)]
    exact LineCount.totalIn_le_of_mem (fun group => group.methods.flatMap (·.lines)) hgroup
  have hmembers : List.Forall₂ (fun group group' => group ∈ groups ∧ group.Rises group')
      groups groups' := (List.forall₂_and_left _ _).mpr ⟨fun _ hgroup => hgroup, h⟩
  refine hmembers.imp fun group group' hmember => ?_
  obtain ⟨hgroup, hrises⟩ := hmember
  simp only [MethodGroup.lineRate, MethodGroup.branchRate, LineCount.sum_lineRate,
    LineCount.sum_branchRate]
  exact ratesRise_of_lines (MethodGroup.lines_rise hrises.methods)
    (Nat.lt_of_le_of_lt (hfits hits hgroup) hhits)
    (Nat.lt_of_le_of_lt (hfits outcomes hgroup) houtcomes)

theorem Rises.ratesRise (h : before.Rises after) (hlines : before.lines.length < 2 ^ 63)
    (hbranches : before.branches.length < 2 ^ 63) : before.RatesRise after := by
  have hhits : hits.totalIn before.lines < UInt64.size := by
    rw [LineCount.totalIn_hits]
    exact Nat.lt_trans hlines (by decide)
  have houtcomes : outcomes.totalIn before.lines < UInt64.size := by
    have htotal : outcomes.totalIn before.lines = 2 * before.branches.length :=
      LineCount.totalIn_outcomes before.lines
    have hsize : UInt64.size = 2 * 2 ^ 63 := by decide
    omega
  refine ⟨?whole, ?methods, ?classes, ?documentGroups⟩
  case whole =>
    simp only [lineRate, branchRate, LineCount.sum_lineRate, LineCount.sum_branchRate]
    exact ratesRise_of_lines (MethodGroup.lines_rise h.methods) hhits houtcomes
  case methods =>
    have hfits (m : LineCount) {method : MethodCoverage} (hmethod : method ∈ before.methods) :
        m.totalIn method.lines ≤ m.totalIn before.lines :=
      LineCount.totalIn_le_of_mem (fun method : MethodCoverage => method.lines) hmethod
    have hmembers : List.Forall₂
        (fun method method' => method ∈ before.methods ∧ method.Rises method') before.methods
        after.methods := (List.forall₂_and_left _ _).mpr ⟨fun _ hmem => hmem, h.methods⟩
    refine hmembers.imp fun method method' ⟨hmethod, hrises⟩ => ?_
    simp only [LineCount.lineRate_eq_rateOf, LineCount.branchRate_eq_rateOf]
    exact ratesRise_of_lines hrises.lines (Nat.lt_of_le_of_lt (hfits hits hmethod) hhits)
      (Nat.lt_of_le_of_lt (hfits outcomes hmethod) houtcomes)
  case classes =>
    exact ratesRise_of_groups (MethodGroup.partition_groupBy _ _).perm h.classes hhits houtcomes
  case documentGroups =>
    exact ratesRise_of_groups (MethodGroup.partition_groupBy _ _).perm h.documentGroups hhits
      houtcomes

end CoverageTree

namespace Collector

/-- However many traces and dumps a collector takes in: it has the same contracts afterwards,
their trees have the same shape, no count in them goes down and no rate does. -/
theorem coverage_never_lowered {before after : Collector}
    (h : Relation.ReflTransGen Accepts before after) (hash : ContractHash) :
    Option.Rel (fun recording recording' =>
        (CoverageTree.ofRecording recording).Rises (CoverageTree.ofRecording recording') ∧
          ((CoverageTree.ofRecording recording).lines.length < 2 ^ 63 →
            (CoverageTree.ofRecording recording).branches.length < 2 ^ 63 →
            (CoverageTree.ofRecording recording).RatesRise (CoverageTree.ofRecording recording')))
      (before.get? hash) (after.get? hash) := by
  have hgains := gains_of_accepts h hash
  generalize before.get? hash = found, after.get? hash = found' at hgains ⊢
  cases hgains with
  | none => exact .none
  | some hrecording =>
      have hrises := CoverageTree.ofRecording_rises hrecording
      exact .some ⟨hrises, hrises.ratesRise⟩

/-- One contract, in which the second method was not entered yet. -/
def oneContract : Collector :=
  ⟨(∅ : OrderedMap ContractHash Recording).insert .zero CoverageTree.twoClasses⟩

/-- Enters the second method, whose call goes on to its target. -/
def secondEntered : List TraceRecord := [.contract .zero, .hit 3, .branch 3 4 4]

theorem coverage_never_lowered_secondEntered : ∃ recording recording',
    oneContract.get? .zero = some recording ∧
    ((applyTrace secondEntered).run oneContract).2.get? .zero = some recording' ∧
    (CoverageTree.ofRecording recording).lineRate = ⟨1, 2⟩ ∧
    (CoverageTree.ofRecording recording').lineRate = ⟨2, 2⟩ ∧
    (CoverageTree.ofRecording recording).Rises (CoverageTree.ofRecording recording') ∧
    (CoverageTree.ofRecording recording).RatesRise (CoverageTree.ofRecording recording') := by
  have haccepts : oneContract.Accepts ((applyTrace secondEntered).run oneContract).2 :=
    .trace secondEntered (⟨1, 1, 0⟩, []) (by rfl)
  have hrel := coverage_never_lowered (.single haccepts) .zero
  have hrate : (((applyTrace secondEntered).run oneContract).2.get? .zero).map
      (fun recording => (CoverageTree.ofRecording recording).lineRate) = some ⟨2, 2⟩ := by
    decide +kernel
  have hget : oneContract.get? .zero = some CoverageTree.twoClasses := rfl
  rw [hget] at hrel
  cases hafter : ((applyTrace secondEntered).run oneContract).2.get? .zero with
  | none =>
      rw [hafter] at hrate
      cases hrate
  | some recording' =>
      rw [hafter] at hrel hrate
      cases hrel with
      | some hrises =>
          exact ⟨_, recording', hget, rfl, by decide +kernel, Option.some.inj hrate, hrises.1,
            hrises.2 (by decide +kernel) (by decide +kernel)⟩

end Collector

end ScriptCoverage
