import ScriptCoverage.Coverage.Tree
import ScriptCoverage.Proofs.Data.OrderedMap
import ScriptCoverage.Proofs.Recording.Sums
import ScriptCoverage.Proofs.Vm.Disassembly

/-!
The address table of a contract. Every entry shows what the counters hold at its
address, and every address that the counters mention has one entry. So the table sums up to
what the counters hold in all.
-/

namespace ScriptCoverage

/-- An entry shows the counters at its address; it leaves out outcomes only where none
were recorded. -/
structure AddressCoverage.Shows (counters : Counters) (entry : AddressCoverage) : Prop where
  hitCount : entry.hitCount = counters.hitCount entry.address
  of_some : ∀ count, entry.branch = some count → count = counters.branchCount entry.address
  of_none : entry.branch = none → counters.branches.get? entry.address = none

theorem AddressCoverage.Shows.getD_branch {counters : Counters} {entry : AddressCoverage}
    (h : entry.Shows counters) : entry.branch.getD .zero = counters.branchCount entry.address := by
  cases hbranch : entry.branch with
  | none => rw [Counters.branchCount, h.of_none hbranch]
  | some count => exact h.of_some count hbranch

namespace CoverageTree

variable {counters : Counters} {table : List AddressCoverage} {addresses : List UInt32}

theorem shows_addressOfInstruction (counters : Counters) (address : UInt32)
    (insn : Instruction) : (addressOfInstruction counters address insn).Shows counters where
  hitCount := rfl
  of_some := by
    intro count hbranch
    unfold addressOfInstruction at hbranch
    split at hbranch
    · exact (Option.some.inj hbranch).symm
    · cases hbranch
  of_none := by
    intro hbranch
    unfold addressOfInstruction at hbranch
    split at hbranch
    · cases hbranch
    · rename_i hplain
      have hcontains : counters.branches.contains address = false := by
        rw [Bool.or_eq_true, not_or] at hplain
        exact Bool.eq_false_iff.mpr hplain.2
      exact Option.isNone_iff_eq_none.mp (Option.isSome_eq_false_iff.mp hcontains)

theorem shows_addressOfRecord (counters : Counters) (address : UInt32) :
    (addressOfRecord counters address).Shows counters where
  hitCount := rfl
  of_some := by
    intro count hbranch
    have hget : counters.branches.get? address = some count := hbranch
    exact (congrArg (·.getD .zero) hget).symm
  of_none := id

/-- Merging keeps the table and adds entries that read the counters. -/
theorem mem_mergeRecorded {entry : AddressCoverage}
    (h : entry ∈ mergeRecorded counters table addresses) :
    entry ∈ table ∨ ∃ address ∈ addresses, entry = addressOfRecord counters address := by
  fun_induction mergeRecorded counters table addresses with
  | case1 table => exact .inl h
  | case2 addresses hne =>
      obtain ⟨address, hmem, rfl⟩ := List.mem_map.mp h
      exact .inr ⟨address, hmem, rfl⟩
  | case3 first table address addresses hlt ih =>
      rcases List.mem_cons.mp h with rfl | hrest
      · exact .inl List.mem_cons_self
      · exact (ih hrest).imp (List.mem_cons_of_mem _) id
  | case4 first table address addresses hge hlt ih =>
      rcases List.mem_cons.mp h with rfl | hrest
      · exact .inr ⟨address, List.mem_cons_self, rfl⟩
      · refine (ih hrest).imp id ?_
        rintro ⟨later, hmem, rfl⟩
        exact ⟨later, List.mem_cons_of_mem _ hmem, rfl⟩
  | case5 first table address addresses hge hle ih =>
      refine (ih h).imp id ?_
      rintro ⟨later, hmem, rfl⟩
      exact ⟨later, List.mem_cons_of_mem _ hmem, rfl⟩

theorem mem_mergeRecorded_of_mem {entry : AddressCoverage} (h : entry ∈ table) :
    entry ∈ mergeRecorded counters table addresses := by
  fun_induction mergeRecorded counters table addresses with
  | case1 table => exact h
  | case2 addresses hne => simp at h
  | case3 first table address addresses hlt ih =>
      rcases List.mem_cons.mp h with rfl | hrest
      · exact List.mem_cons_self
      · exact List.mem_cons_of_mem _ (ih hrest)
  | case4 first table address addresses hge hlt ih => exact List.mem_cons_of_mem _ (ih h)
  | case5 first table address addresses hge hle ih => exact ih h

theorem exists_mem_mergeRecorded {address : UInt32} (h : address ∈ addresses) :
    ∃ entry ∈ mergeRecorded counters table addresses, entry.address = address := by
  fun_induction mergeRecorded counters table addresses with
  | case1 table => simp at h
  | case2 addresses hne =>
      exact ⟨addressOfRecord counters address, List.mem_map.mpr ⟨address, h, rfl⟩, rfl⟩
  | case3 first table next addresses hlt ih =>
      obtain ⟨entry, hmem, hentry⟩ := ih h
      exact ⟨entry, List.mem_cons_of_mem _ hmem, hentry⟩
  | case4 first table next addresses hge hlt ih =>
      rcases List.mem_cons.mp h with rfl | hrest
      · exact ⟨_, List.mem_cons_self, rfl⟩
      · obtain ⟨entry, hmem, hentry⟩ := ih hrest
        exact ⟨entry, List.mem_cons_of_mem _ hmem, hentry⟩
  | case5 first table next addresses hge hle ih =>
      rcases List.mem_cons.mp h with rfl | hrest
      · have hsame : first.address = address :=
          UInt32.le_antisymm (UInt32.not_lt.mp hle) (UInt32.not_lt.mp hge)
        exact ⟨first, mem_mergeRecorded_of_mem List.mem_cons_self, hsame⟩
      · exact ih hrest

/-- Merging keeps the order of the addresses, and no address comes twice. -/
theorem ascending_mergeRecorded (htable : table.Pairwise fun x y => x.address < y.address)
    (haddresses : addresses.Pairwise (· < ·)) :
    (mergeRecorded counters table addresses).Pairwise fun x y => x.address < y.address := by
  fun_induction mergeRecorded counters table addresses with
  | case1 table => exact htable
  | case2 addresses hne => exact List.pairwise_map.mpr haddresses
  | case3 first table address addresses hlt ih =>
      obtain ⟨hfirst, hrest⟩ := List.pairwise_cons.mp htable
      refine List.pairwise_cons.mpr ⟨fun entry hmem => ?_, ih hrest haddresses⟩
      rcases mem_mergeRecorded hmem with hkept | ⟨later, hlater, rfl⟩
      · exact hfirst entry hkept
      · rcases List.mem_cons.mp hlater with rfl | hlater
        · exact hlt
        · exact UInt32.lt_trans hlt ((List.pairwise_cons.mp haddresses).1 later hlater)
  | case4 first table address addresses hge hlt ih =>
      obtain ⟨haddress, hrest⟩ := List.pairwise_cons.mp haddresses
      refine List.pairwise_cons.mpr ⟨fun entry hmem => ?_, ih htable hrest⟩
      rcases mem_mergeRecorded hmem with hkept | ⟨later, hlater, rfl⟩
      · rcases List.mem_cons.mp hkept with rfl | hkept
        · exact hlt
        · exact UInt32.lt_trans hlt ((List.pairwise_cons.mp htable).1 entry hkept)
      · exact haddress later hlater
  | case5 first table address addresses hge hle ih =>
      exact ih htable (List.pairwise_cons.mp haddresses).2

theorem keys_ascending {α : Type} (map : OrderedMap UInt32 α) : map.keys.Pairwise (· < ·) := by
  refine List.pairwise_map.mpr (map.ascending.imp fun h => ?_)
  exact Std.compare_eq_lt.mp h

theorem ascending_addressTable (recording : Recording) :
    (addressTable recording).Pairwise fun x y => x.address < y.address := by
  unfold addressTable
  refine ascending_mergeRecorded (ascending_mergeRecorded ?_ (keys_ascending _))
    (keys_ascending _)
  cases recording.script with
  | none => exact .nil
  | some script =>
      exact List.pairwise_map.mpr (List.pairwise_map.mp script.addresses_ascending)

theorem addresses_nodup (recording : Recording) :
    ((addressTable recording).map (·.address)).Nodup :=
  List.pairwise_map.mpr ((ascending_addressTable recording).imp fun h => UInt32.ne_of_lt h)

/-- Every entry was made from an instruction or from a recorded address. -/
theorem origin_of_mem_addressTable {recording : Recording} {entry : AddressCoverage}
    (h : entry ∈ addressTable recording) :
    (∃ script address insn, recording.script = some script ∧
      (address, insn) ∈ script.listing ∧
        entry = addressOfInstruction recording.counters address insn) ∨
    ∃ address, (address ∈ recording.counters.hits.keys ∨
        address ∈ recording.counters.branches.keys) ∧
      entry = addressOfRecord recording.counters address := by
  rcases mem_mergeRecorded h with htable | ⟨address, hbranches, rfl⟩
  · rcases mem_mergeRecorded htable with hlisting | ⟨address, hhits, rfl⟩
    · cases hscript : recording.script with
      | none => simp [hscript] at hlisting
      | some script =>
          rw [hscript] at hlisting
          obtain ⟨⟨address, insn⟩, hmem, rfl⟩ := List.mem_map.mp hlisting
          exact .inl ⟨script, address, insn, rfl, hmem, rfl⟩
    · exact .inr ⟨address, .inl hhits, rfl⟩
  · exact .inr ⟨address, .inr hbranches, rfl⟩

theorem shows_of_mem_addressTable {recording : Recording} {entry : AddressCoverage}
    (h : entry ∈ addressTable recording) : entry.Shows recording.counters := by
  rcases origin_of_mem_addressTable h with ⟨_, _, _, -, -, rfl⟩ | ⟨_, -, rfl⟩
  · exact shows_addressOfInstruction _ _ _
  · exact shows_addressOfRecord _ _

theorem exists_entry_of_mem_keys {recording : Recording} {address : UInt32}
    (h : address ∈ recording.counters.hits.keys ∨ address ∈ recording.counters.branches.keys) :
    ∃ entry ∈ addressTable recording, entry.address = address := by
  rcases h with hhits | hbranches
  · obtain ⟨entry, hmem, hentry⟩ := exists_mem_mergeRecorded hhits
    exact ⟨entry, mem_mergeRecorded_of_mem hmem, hentry⟩
  · exact exists_mem_mergeRecorded hbranches

theorem exists_entry_of_hits {recording : Recording} {address count : UInt32}
    (h : recording.counters.hits.get? address = some count) :
    ∃ entry ∈ addressTable recording, entry.address = address :=
  exists_entry_of_mem_keys (.inl (OrderedMap.mem_keys_of_get? h))

theorem exists_entry_of_branches {recording : Recording} {address : UInt32}
    {count : BranchCount} (h : recording.counters.branches.get? address = some count) :
    ∃ entry ∈ addressTable recording, entry.address = address :=
  exists_entry_of_mem_keys (.inr (OrderedMap.mem_keys_of_get? h))

/-- A count that is zero wherever the table has no entry is summed up by the table. -/
theorem sum_addressTable (recording : Recording) (count : UInt32 → ℕ)
    (hcovered : ∀ address, count address ≠ 0 →
      ∃ entry ∈ addressTable recording, entry.address = address) :
    ((addressTable recording).map fun entry => count entry.address).sum =
      ∑ address, count address := by
  calc ((addressTable recording).map fun entry => count entry.address).sum
      = (((addressTable recording).map (·.address)).map count).sum := by
        rw [List.map_map]
        rfl
    _ = ∑ address ∈ ((addressTable recording).map (·.address)).toFinset, count address :=
        (List.sum_toFinset count (addresses_nodup recording)).symm
    _ = ∑ address, count address := by
        refine Finset.sum_subset (Finset.subset_univ _) fun address _ habsent => ?_
        by_contra hcount
        obtain ⟨entry, hmem, rfl⟩ := hcovered address hcount
        exact habsent (List.mem_toFinset.mpr (List.mem_map_of_mem hmem))

/-- All hits that a tree shows. -/
def hitSum (tree : CoverageTree) : ℕ :=
  (tree.addresses.map fun entry => entry.hitCount.toNat).sum

/-- All outcomes of branches that a tree shows. -/
def outcomeSum (tree : CoverageTree) : ℕ :=
  (tree.addresses.map fun entry =>
    (entry.branch.getD .zero).taken.toNat + (entry.branch.getD .zero).continued.toNat).sum

/-- A tree shows every hit of its contract once. -/
theorem hitSum_ofRecording (recording : Recording) :
    (ofRecording recording).hitSum = recording.counters.hitSum := by
  rw [← Counters.sum_hitCount, ← sum_addressTable recording]
  · refine congrArg List.sum (List.map_congr_left fun entry hmem => ?_)
    rw [(shows_of_mem_addressTable hmem).hitCount]
  · intro address hcount
    cases hget : recording.counters.hits.get? address with
    | none => simp [Counters.hitCount, hget] at hcount
    | some count => exact exists_entry_of_hits hget

/-- A tree shows every outcome of its contract once. -/
theorem outcomeSum_ofRecording (recording : Recording) :
    (ofRecording recording).outcomeSum = recording.counters.outcomeSum := by
  rw [← Counters.sum_branchCount, ← sum_addressTable recording]
  · refine congrArg List.sum (List.map_congr_left fun entry hmem => ?_)
    rw [(shows_of_mem_addressTable hmem).getD_branch]
  · intro address hcount
    cases hget : recording.counters.branches.get? address with
    | none => simp [Counters.branchCount, BranchCount.zero, hget] at hcount
    | some count => exact exists_entry_of_branches hget

end CoverageTree

end ScriptCoverage
