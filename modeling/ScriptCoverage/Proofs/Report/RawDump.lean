import ScriptCoverage.Proofs.Coverage.AddressTable
import ScriptCoverage.Proofs.Recording.History
import ScriptCoverage.Report.Format

/-!
The dump of a contract gives its counters back.
-/

namespace ScriptCoverage.RawDump

/-- The lines of an entry read the counters that the entry shows. -/
theorem reads_of_mem_linesOfAddress {counters : Counters} {entry : AddressCoverage}
    (shows : entry.Shows counters) {line : Line} (h : line ∈ linesOfAddress entry) :
    line.Reads counters := by
  unfold linesOfAddress at h
  cases hbranch : entry.branch with
  | none =>
      rw [hbranch] at h
      rw [List.mem_singleton.mp h]
      exact shows.hitCount
  | some count =>
      rw [hbranch] at h
      rcases List.mem_cons.mp h with rfl | hhits
      · exact shows.of_some count hbranch
      · split at hhits
        · rw [List.mem_singleton.mp hhits]
          exact shows.hitCount
        · simp at hhits

theorem hits_mem_linesOfAddress {counters : Counters} {entry : AddressCoverage}
    (shows : entry.Shows counters) {count : UInt32}
    (hits : counters.hits.get? entry.address = some count) (nonzero : count ≠ 0) :
    .hits entry.address count ∈ linesOfAddress entry := by
  have hcount : entry.hitCount = count := by
    rw [shows.hitCount, Counters.hitCount, hits, Option.getD_some]
  have hpos : 0 < count := UInt32.pos_iff_ne_zero.mpr nonzero
  unfold linesOfAddress
  cases entry.branch with
  | none => simp [hcount]
  | some outcomes => simp [hpos, hcount]

theorem branch_mem_linesOfAddress {counters : Counters} {entry : AddressCoverage}
    (shows : entry.Shows counters) {count : BranchCount}
    (branch : counters.branches.get? entry.address = some count) :
    .branch entry.address count ∈ linesOfAddress entry := by
  unfold linesOfAddress
  cases hbranch : entry.branch with
  | none =>
      rw [shows.of_none hbranch] at branch
      cases branch
  | some outcomes =>
      have houtcomes : outcomes = count := by
        rw [shows.of_some outcomes hbranch, Counters.branchCount, branch, Option.getD_some]
      rw [houtcomes]
      exact List.mem_cons_self

/-- Reading the dump of a contract gives its hash and its counters that are not zero. -/
theorem parse_ofTree (recording : Recording) :
    parse (ofTree (.ofRecording recording)) =
      .ok ⟨recording.hash, recording.counters.nonzero⟩ := by
  have hstored : storeAll .empty
      ((CoverageTree.addressTable recording).flatMap linesOfAddress) =
        recording.counters.nonzero := by
    refine storeAll_eq_nonzero ?_ ?_ ?_
    · intro line hmem
      obtain ⟨entry, hentry, hline⟩ := List.mem_flatMap.mp hmem
      exact reads_of_mem_linesOfAddress (CoverageTree.shows_of_mem_addressTable hentry) hline
    · intro address count hget hzero
      obtain ⟨entry, hentry, rfl⟩ := CoverageTree.exists_entry_of_hits hget
      exact List.mem_flatMap.mpr ⟨entry, hentry, hits_mem_linesOfAddress
        (CoverageTree.shows_of_mem_addressTable hentry) hget hzero⟩
    · intro address count hget _
      obtain ⟨entry, hentry, rfl⟩ := CoverageTree.exists_entry_of_branches hget
      exact List.mem_flatMap.mpr ⟨entry, hentry, branch_mem_linesOfAddress
        (CoverageTree.shows_of_mem_addressTable hentry) hget⟩
  rw [← hstored]
  exact parse_print recording.hash _

/-- A dump that is merged into a contract without counters leaves the dump's counters. -/
theorem applyRaw_of_empty {dump : RawDump} {target : Collector} {recording : Recording}
    (hget : target.get? dump.hash = some recording) (hempty : recording.counters = .empty) :
    ∃ after, (Collector.applyRaw dump).run target = (.ok (), after) ∧
      after.get? dump.hash = some { recording with counters := dump.counters } := by
  have hmerge : (Counters.merge dump.counters).run recording.counters =
      (.ok (), dump.counters) := by
    rw [Counters.merge_eq_ok_iff, hempty, Counters.totals_empty, zero_add]
  have hpost : (Collector.post dump.hash dump.counters).run target =
      (.ok (), ⟨target.contracts.insert dump.hash
        { recording with counters := dump.counters }⟩) := by
    simp only [Collector.post, Collector.run_onContract, hget, Recording.run_merge, hmerge]
  refine ⟨_, Collector.applyRaw_eq_ok_iff.mpr (Collector.post_eq_ok_iff.mp hpost), ?_⟩
  exact OrderedMap.get?_insert_self _ _ _

/-- Dumps lose nothing but zeros: the dump of any contract is read as its hash and its
counters that are not zero. A contract that started without counters never has zeros, so
its dump restores its counters in a contract that has none, with or without a script. -/
theorem dump_round_trip :
    (∀ recording : Recording, parse (ofTree (.ofRecording recording)) =
      .ok ⟨recording.hash, recording.counters.nonzero⟩) ∧
    ∀ (start : Collector) (operations : List Operation) (hash : ContractHash)
      (fresh recording : Recording),
      start.get? hash = some fresh → fresh.counters = .empty →
      (∀ operation ∈ operations, operation.IsRead) →
      (start.applyAll operations).get? hash = some recording →
      ∃ dump, parse (ofTree (.ofRecording recording)) = .ok dump ∧
        ∀ (target : Collector) (untouched : Recording),
          target.get? recording.hash = some untouched → untouched.counters = .empty →
          ∃ after, (Collector.applyRaw dump).run target = (.ok (), after) ∧
            after.get? recording.hash =
              some { untouched with counters := recording.counters } := by
  refine ⟨parse_ofTree, ?_⟩
  intro start operations hash fresh recording hstart hfresh hread hreached
  have hclean : start.HasNoZero hash := by
    intro found hfound
    rw [hstart] at hfound
    cases hfound
    rw [hfresh]
    exact Counters.hasNoZero_empty
  have hnonzero : recording.counters.nonzero = recording.counters :=
    Counters.nonzero_of_hasNoZero
      (Collector.hasNoZero_applyAll hclean hread recording hreached)
  refine ⟨⟨recording.hash, recording.counters⟩, ?_, ?_⟩
  · rw [parse_ofTree, hnonzero]
  · intro target untouched hget hempty
    exact applyRaw_of_empty hget hempty

/-- A trace with a hit and a taken branch at one address, and a dump of stray hits. -/
theorem dump_round_trip_of_trace :
    ∃ dump, parse (ofTree (.ofRecording ⟨"Token", ⟨.zero, none, [], []⟩, none,
        ⟨((∅ : OrderedMap UInt32 UInt32).insert 5 1).insert 9 3,
          (∅ : OrderedMap UInt32 BranchCount).insert 5 ⟨1, 0⟩⟩⟩)) = .ok dump ∧
      ∀ (target : Collector) (untouched : Recording),
        target.get? .zero = some untouched → untouched.counters = .empty →
        ∃ after, (Collector.applyRaw dump).run target = (.ok (), after) ∧
          after.get? .zero = some { untouched with counters :=
            ⟨((∅ : OrderedMap UInt32 UInt32).insert 5 1).insert 9 3,
              (∅ : OrderedMap UInt32 BranchCount).insert 5 ⟨1, 0⟩⟩ } := by
  refine dump_round_trip.2 (.sole .empty)
    [.applyTrace [.contract .zero, .hit 9, .hit 5, .branch 5 12 12],
      .applyRaw ⟨.zero, storeAll .empty [.hits 9 2, .hits 12 0]⟩] .zero _ _ rfl rfl ?_ rfl
  intro operation hmem
  rcases List.mem_pair.mp hmem with rfl | rfl
  · trivial
  · exact ⟨print .zero [.hits 9 2, .hits 12 0], parse_print _ _⟩

end ScriptCoverage.RawDump
