import ScriptCoverage.Proofs.Recording.Commit

/-!
Which contract a record of a trace belongs to. The attributed data records of a trace
decide all that staging does: it fails if one of them is inconsistent or their sum does
not fit, and otherwise holds the sum of their amounts.
-/

namespace ScriptCoverage

namespace TraceStats

instance : Add TraceStats :=
  ⟨fun x y => ⟨x.hits + y.hits, x.branches + y.branches, x.ignored + y.ignored⟩⟩

theorem add_def (x y : TraceStats) :
    x + y = ⟨x.hits + y.hits, x.branches + y.branches, x.ignored + y.ignored⟩ := rfl

theorem add_assoc (x y z : TraceStats) : x + y + z = x + (y + z) :=
  mk.injEq .. ▸ ⟨Nat.add_assoc .., Nat.add_assoc .., Nat.add_assoc ..⟩

theorem zero_add (stats : TraceStats) : zero + stats = stats :=
  mk.injEq .. ▸ ⟨Nat.zero_add _, Nat.zero_add _, Nat.zero_add _⟩

end TraceStats

/-- A record that counts something. -/
inductive DataRecord where
  | hit (address : UInt32)
  | branch (address offset result : UInt32)
  deriving DecidableEq

namespace DataRecord

def isHit : DataRecord → Bool
  | .hit _ => true
  | .branch .. => false

def toRecord : DataRecord → TraceRecord
  | .hit address => .hit address
  | .branch address offset result => .branch address offset result

/-- What a record that belongs to a contract adds to the statistics. -/
def stats : DataRecord → TraceStats
  | .hit _ => ⟨1, 0, 0⟩
  | .branch .. => ⟨0, 1, 0⟩

def record : DataRecord → Step Counters Unit
  | .hit address => Counters.recordHit address
  | .branch address offset result => Counters.recordBranch address offset result

/-- A branch ends at its own address or at its offset. -/
def IsConsistent : DataRecord → Prop
  | .hit _ => True
  | .branch address offset result => result = address ∨ result = offset

/-- What a consistent record adds. -/
def counters : DataRecord → Counters
  | .hit address => .singleHits address 1
  | .branch address _ result =>
      .singleBranch address (if result = address then ⟨0, 1⟩ else ⟨1, 0⟩)

theorem record_of_isConsistent {data : DataRecord} (h : data.IsConsistent) :
    data.record = Counters.merge data.counters := by
  cases data with
  | hit address => exact Counters.addHits_eq_merge address 1
  | branch address offset result =>
      have hclassify : BranchCount.classify address offset result =
          .ok (if result = address then ⟨0, 1⟩ else ⟨1, 0⟩) := by
        unfold BranchCount.classify
        by_cases haddress : result = address
        · rw [if_pos haddress, if_pos haddress]
        · have hoffset : result = offset := h.resolve_left haddress
          rw [if_neg haddress, if_pos hoffset, if_neg haddress]
      rw [record, Counters.recordBranch, hclassify, counters, ← Counters.addBranch_eq_merge]
      rfl

theorem run_record_of_not_isConsistent {data : DataRecord} (h : ¬data.IsConsistent)
    (state : Counters) : ∃ e, data.record.run state = (.error e, state) := by
  cases data with
  | hit address => exact absurd trivial h
  | branch address offset result =>
      obtain ⟨haddress, hoffset⟩ := not_or.mp h
      have hclassify : BranchCount.classify address offset result =
          .error (.format (.branchResultMismatch address offset result)) := by
        simp [BranchCount.classify, haddress, hoffset]
      rw [record, Counters.recordBranch, hclassify]
      exact ⟨_, rfl⟩

theorem run_record_eq_ok_iff {data : DataRecord} {state after : Counters} :
    data.record.run state = (.ok (), after) ↔
      data.IsConsistent ∧ after.totals = state.totals + data.counters.totals := by
  by_cases h : data.IsConsistent
  · rw [record_of_isConsistent h, Counters.merge_eq_ok_iff]
    simp [h]
  · obtain ⟨e, hrun⟩ := run_record_of_not_isConsistent h state
    simp [hrun, h]

end DataRecord

/-- A data record of a contract. -/
abbrev Attributed := ContractHash × DataRecord

namespace Trace

/-- The data records of a trace, each with the registered contract that is current at
it, if there is one. -/
def attributed (isRegistered : ContractHash → Bool) :
    Option ContractHash → List TraceRecord → List (Option ContractHash × DataRecord)
  | _, [] => []
  | _, .contract hash :: rest =>
      attributed isRegistered (if isRegistered hash then some hash else none) rest
  | _, .unknownContract :: rest => attributed isRegistered none rest
  | current, .hit address :: rest =>
      (current, .hit address) :: attributed isRegistered current rest
  | current, .branch address offset result :: rest =>
      (current, .branch address offset result) :: attributed isRegistered current rest

theorem attributed_toRecord (isRegistered : ContractHash → Bool)
    (current : Option ContractHash) (data : DataRecord) (rest : List TraceRecord) :
    attributed isRegistered current (data.toRecord :: rest) =
      (current, data) :: attributed isRegistered current rest := by
  cases data <;> rfl

/-- Induction over a trace, with one case for both kinds of data records. -/
@[elab_as_elim]
theorem inductionOn {motive : List TraceRecord → Prop} (records : List TraceRecord)
    (nil : motive [])
    (contract : ∀ hash rest, motive rest → motive (.contract hash :: rest))
    (unknownContract : ∀ rest, motive rest → motive (.unknownContract :: rest))
    (data : ∀ (data : DataRecord) rest, motive rest → motive (data.toRecord :: rest)) :
    motive records := by
  induction records with
  | nil => exact nil
  | cons record rest ih =>
      cases record with
      | contract hash => exact contract hash rest ih
      | unknownContract => exact unknownContract rest ih
      | hit address => exact data (.hit address) rest ih
      | branch address offset result => exact data (.branch address offset result) rest ih

/-- The records that belong to a contract. -/
def owned (data : List (Option ContractHash × DataRecord)) : List Attributed :=
  data.filterMap fun (current, record) => current.map fun hash => (hash, record)

/-- The number of records that belong to none. -/
def orphans (data : List (Option ContractHash × DataRecord)) : Nat :=
  data.countP fun (current, _) => current.isNone

@[simp] theorem owned_cons_some (hash : ContractHash) (record : DataRecord)
    (data : List (Option ContractHash × DataRecord)) :
    owned ((some hash, record) :: data) = (hash, record) :: owned data := rfl

@[simp] theorem owned_cons_none (record : DataRecord)
    (data : List (Option ContractHash × DataRecord)) :
    owned ((none, record) :: data) = owned data := rfl

@[simp] theorem orphans_cons_some (hash : ContractHash) (record : DataRecord)
    (data : List (Option ContractHash × DataRecord)) :
    orphans ((some hash, record) :: data) = orphans data := by
  simp [orphans]

@[simp] theorem orphans_cons_none (record : DataRecord)
    (data : List (Option ContractHash × DataRecord)) :
    orphans ((none, record) :: data) = orphans data + 1 := by
  simp [orphans]

def hits (records : List Attributed) : Nat :=
  records.countP fun (_, record) => record.isHit

def branches (records : List Attributed) : Nat :=
  records.countP fun (_, record) => !record.isHit

def stats (data : List (Option ContractHash × DataRecord)) : TraceStats :=
  ⟨hits (owned data), branches (owned data), orphans data⟩

theorem stats_cons_some (hash : ContractHash) (data : DataRecord)
    (rest : List (Option ContractHash × DataRecord)) :
    stats ((some hash, data) :: rest) = data.stats + stats rest := by
  cases data <;>
    simp [stats, hits, branches, TraceStats.add_def, DataRecord.stats, DataRecord.isHit,
      Nat.add_comm]

theorem stats_cons_none (data : DataRecord) (rest : List (Option ContractHash × DataRecord)) :
    stats ((none, data) :: rest) = ⟨0, 0, 1⟩ + stats rest := by
  simp [stats, TraceStats.add_def, Nat.add_comm]

def AllConsistent (records : List Attributed) : Prop :=
  ∀ entry ∈ records, entry.2.IsConsistent

theorem allConsistent_nil : AllConsistent [] :=
  fun _ hmem => absurd hmem List.not_mem_nil

theorem allConsistent_cons {entry : Attributed} {rest : List Attributed} :
    AllConsistent (entry :: rest) ↔ entry.2.IsConsistent ∧ AllConsistent rest :=
  List.forall_mem_cons

def amounts (records : List Attributed) : Amounts :=
  (records.map fun (hash, record) => .single hash record.counters).sum

theorem amounts_nil : amounts [] = 0 := rfl

theorem amounts_cons (hash : ContractHash) (record : DataRecord) (rest : List Attributed) :
    amounts ((hash, record) :: rest) = .single hash record.counters + amounts rest :=
  List.sum_cons

end Trace

namespace Staged

/-- Records onto the counters staged for a contract. -/
def record (staged : Staged) (hash : ContractHash) (data : DataRecord) :
    Except CoverageError Staged :=
  match data.record.run ((staged.get? hash).getD .empty) with
  | (.ok (), counters) => .ok (staged.insert hash counters)
  | (.error e, _) => .error e

def recordAll (staged : Staged) (records : List Attributed) : Except CoverageError Staged :=
  records.foldlM (fun staged (hash, data) => staged.record hash data) staged

theorem recordAll_cons (staged : Staged) (hash : ContractHash) (data : DataRecord)
    (rest : List Attributed) :
    staged.recordAll ((hash, data) :: rest) =
      staged.record hash data >>= fun staged => staged.recordAll rest :=
  List.foldlM_cons

theorem totals_amounts (staged : Staged) (hash : ContractHash) :
    staged.amounts.totals hash = ((staged.get? hash).getD .empty).totals := by
  unfold amounts Amounts.totals OrderedMap.amount
  cases staged.get? hash with
  | none => exact Counters.totals_empty.symm
  | some counters => simp

private theorem coe_totals_add (staged : Staged) (hash : ContractHash) (more : Totals) :
    ((((staged.get? hash).getD .empty).totals + more : Totals) : WithZero Totals) =
      staged.amounts hash + (more : WithZero Totals) := by
  unfold amounts OrderedMap.amount
  cases staged.get? hash with
  | none => simp [Counters.totals_empty]
  | some counters => simp

theorem of_record_eq_ok {staged staged' : Staged} {hash : ContractHash} {data : DataRecord}
    (h : staged.record hash data = .ok staged') :
    data.IsConsistent ∧ staged'.amounts = staged.amounts + .single hash data.counters := by
  unfold record at h
  cases hrun : data.record.run ((staged.get? hash).getD .empty) with
  | mk result counters =>
      rw [hrun] at h
      cases result with
      | error e => cases h
      | ok value =>
          cases h
          obtain ⟨hconsistent, htotals⟩ := DataRecord.run_record_eq_ok_iff.mp hrun
          refine ⟨hconsistent, OrderedMap.amount_insert_add ?_⟩
          rw [htotals, coe_totals_add]
          rfl

/-- A consistent record fails only when it pushes a staged counter past its bound. -/
theorem overflow_of_record {staged : Staged} {hash : ContractHash} {data : DataRecord}
    {e : CoverageError} (consistent : data.IsConsistent)
    (failed : staged.record hash data = .error e) :
    ∃ address, e = .counterOverflow address ∧
      ¬((staged.amounts.totals hash + data.counters.totals) address).Fits := by
  unfold record at failed
  rw [DataRecord.record_of_isConsistent consistent] at failed
  cases hrun : (Counters.merge data.counters).run ((staged.get? hash).getD .empty) with
  | mk result counters =>
      rw [hrun] at failed
      cases result with
      | ok value => cases failed
      | error e' =>
          cases failed
          rw [totals_amounts]
          exact (Counters.of_merge_error hrun).2

theorem of_recordAll_eq_ok {staged staged' : Staged} {records : List Attributed}
    (h : staged.recordAll records = .ok staged') :
    Trace.AllConsistent records ∧ staged'.amounts = staged.amounts + Trace.amounts records := by
  induction records generalizing staged with
  | nil =>
      cases h
      exact ⟨Trace.allConsistent_nil, (add_zero _).symm⟩
  | cons entry rest ih =>
      obtain ⟨hash, data⟩ := entry
      rw [recordAll_cons] at h
      obtain ⟨middle, hrecord, hrest⟩ := Except.bind_eq_ok_iff.mp h
      obtain ⟨hconsistent, hmiddle⟩ := of_record_eq_ok hrecord
      obtain ⟨hall, hamounts⟩ := ih hrest
      refine ⟨Trace.allConsistent_cons.mpr ⟨hconsistent, hall⟩, ?_⟩
      rw [hamounts, hmiddle, Trace.amounts_cons, add_assoc]

/-- Staging consistent records fails only when their sum does not fit; a sum that passes the
bound on the way there passes it in the end. -/
theorem overflow_of_recordAll {staged : Staged} {records : List Attributed}
    {e : CoverageError} (consistent : Trace.AllConsistent records)
    (failed : staged.recordAll records = .error e) :
    ∃ hash address, e = .counterOverflow address ∧
      ¬((staged.amounts + Trace.amounts records).totals hash address).Fits := by
  induction records generalizing staged with
  | nil => cases failed
  | cons entry rest ih =>
      obtain ⟨hash, data⟩ := entry
      obtain ⟨hconsistent, hall⟩ := Trace.allConsistent_cons.mp consistent
      rw [recordAll_cons] at failed
      rw [Trace.amounts_cons, ← add_assoc]
      rcases Except.bind_eq_error_iff.mp failed with hfirst | ⟨middle, hmiddle, hrest⟩
      · obtain ⟨address, he, hover⟩ := overflow_of_record hconsistent hfirst
        refine ⟨hash, address, he, fun hfits => hover ?_⟩
        rw [Amounts.totals_add, Amounts.totals_add, Amounts.totals_single,
          Pi.add_apply] at hfits
        exact hfits.of_add
      · obtain ⟨hash', address, he, hover⟩ := ih hall hrest
        rw [(of_record_eq_ok hmiddle).2] at hover
        exact ⟨hash', address, he, hover⟩

theorem exists_recordAll {staged : Staged} {records : List Attributed}
    (consistent : Trace.AllConsistent records)
    (fits : ∀ hash address, ((staged.amounts + Trace.amounts records).totals hash address).Fits) :
    ∃ staged', staged.recordAll records = .ok staged' := by
  cases hrecords : staged.recordAll records with
  | ok staged' => exact ⟨staged', rfl⟩
  | error e =>
      obtain ⟨hash, address, -, hover⟩ := overflow_of_recordAll consistent hrecords
      exact absurd (fits hash address) hover

end Staged

end ScriptCoverage
