import ScriptCoverage.Proofs.Recording.Application
import ScriptCoverage.Proofs.Recording.TraceText

/-!
How applying a trace can fail. The reader of traces has refused inconsistent branches already,
and only counters of registered contracts are staged, so all that is left is a counter that
would pass its bound. The one that is named is real: the records of some contract, counted one
by one, do not fit onto what the contract has.
-/

namespace ScriptCoverage

namespace DataRecord

def IsHitAt (address : UInt32) : DataRecord → Prop
  | .hit a => a = address
  | .branch .. => False

/-- A branch that did not end at its own address. -/
def IsTakenAt (address : UInt32) : DataRecord → Prop
  | .hit _ => False
  | .branch a _ result => a = address ∧ result ≠ a

/-- A branch that ended at its own address. -/
def IsContinuedAt (address : UInt32) : DataRecord → Prop
  | .hit _ => False
  | .branch a _ result => a = address ∧ result = a

instance (address : UInt32) : DecidablePred (IsHitAt address)
  | .hit a => inferInstanceAs (Decidable (a = address))
  | .branch .. => inferInstanceAs (Decidable False)

instance (address : UInt32) : DecidablePred (IsTakenAt address)
  | .hit _ => inferInstanceAs (Decidable False)
  | .branch a _ result => inferInstanceAs (Decidable (a = address ∧ result ≠ a))

instance (address : UInt32) : DecidablePred (IsContinuedAt address)
  | .hit _ => inferInstanceAs (Decidable False)
  | .branch a _ result => inferInstanceAs (Decidable (a = address ∧ result = a))

theorem hitCount_counters (data : DataRecord) (address : UInt32) :
    (data.counters.hitCount address).toNat = if data.IsHitAt address then 1 else 0 := by
  cases data with
  | hit a =>
      simp only [counters, Counters.singleHits, Counters.hitCount, OrderedMap.get?_insert,
        IsHitAt, eq_comm]
      split <;> rfl
  | branch a offset result => rfl

theorem branchCount_counters (data : DataRecord) (address : UInt32) :
    (data.counters.branchCount address).amounts =
      (if data.IsTakenAt address then 1 else 0,
        if data.IsContinuedAt address then 1 else 0) := by
  cases data with
  | hit a => rfl
  | branch a offset result =>
      simp only [counters, Counters.singleBranch, Counters.branchCount, OrderedMap.get?_insert,
        IsTakenAt, IsContinuedAt]
      by_cases haddress : address = a
      · by_cases hresult : result = a <;> simp [haddress, hresult, BranchCount.amounts]
      · simp [haddress, Ne.symm haddress, BranchCount.amounts, BranchCount.zero]

end DataRecord

namespace Trace

/-- How many records of a contract satisfy a condition. -/
def countOf (p : DataRecord → Prop) [DecidablePred p] (records : List Attributed)
    (hash : ContractHash) : ℕ :=
  records.countP fun (owner, data) => owner = hash && decide (p data)

/-- Some counter of a contract at an address cannot hold what the records of the contract add
to it. -/
inductive Overflows (recording : Recording) (records : List Attributed) (hash : ContractHash)
    (address : UInt32) : Prop where
  | hits (past : 2 ^ 32 - 1 < (recording.counters.hitCount address).toNat +
      countOf (DataRecord.IsHitAt address) records hash)
  | taken (past : 2 ^ 32 - 1 < (recording.counters.branchCount address).taken.toNat +
      countOf (DataRecord.IsTakenAt address) records hash)
  | continued (past : 2 ^ 32 - 1 < (recording.counters.branchCount address).continued.toNat +
      countOf (DataRecord.IsContinuedAt address) records hash)

theorem countOf_cons (p : DataRecord → Prop) [DecidablePred p] (owner hash : ContractHash)
    (data : DataRecord) (rest : List Attributed) :
    countOf p ((owner, data) :: rest) hash =
      (if owner = hash ∧ p data then 1 else 0) + countOf p rest hash := by
  rw [countOf, List.countP_cons, Nat.add_comm]
  simp [countOf]

/-- What is counted of each record is what the records count together. -/
theorem totals_amounts_eq (records : List Attributed) (hash : ContractHash) (address : UInt32) :
    ((amounts records).totals hash address).hits =
        countOf (DataRecord.IsHitAt address) records hash ∧
      ((amounts records).totals hash address).outcomes =
        (countOf (DataRecord.IsTakenAt address) records hash,
          countOf (DataRecord.IsContinuedAt address) records hash) := by
  induction records with
  | nil => exact ⟨rfl, rfl⟩
  | cons entry rest ih =>
      obtain ⟨owner, data⟩ := entry
      obtain ⟨hhits, houtcomes⟩ := ih
      rw [amounts_cons, Amounts.totals_add, Pi.add_apply, Amount.hits_add, Amount.outcomes_add,
        hhits, houtcomes, countOf_cons, countOf_cons, countOf_cons]
      by_cases howner : owner = hash
      · subst howner
        rw [Amounts.totals_single, Counters.hits_totals, Counters.outcomes_totals,
          DataRecord.hitCount_counters, DataRecord.branchCount_counters]
        simp
      · have hzero : Amounts.totals (.single owner data.counters) hash = 0 :=
          Amounts.totals_of_eq_zero (Amounts.single_of_ne (Ne.symm howner) _)
        rw [hzero]
        simp only [howner, false_and, if_false, Pi.zero_apply]
        exact ⟨rfl, rfl⟩

/-- Counters cannot hold a sum exactly when one of the three overflows. -/
theorem overflows_iff {recording : Recording} {records : List Attributed} {hash : ContractHash}
    {address : UInt32} :
    Overflows recording records hash address ↔
      ¬((recording.counters.totals + (amounts records).totals hash) address).Fits := by
  obtain ⟨hhits, houtcomes⟩ := totals_amounts_eq records hash address
  have hbounds :
      ((recording.counters.totals + (amounts records).totals hash) address).Fits ↔
        (recording.counters.hitCount address).toNat +
            countOf (DataRecord.IsHitAt address) records hash < 2 ^ 32 ∧
          (recording.counters.branchCount address).taken.toNat +
            countOf (DataRecord.IsTakenAt address) records hash < 2 ^ 32 ∧
          (recording.counters.branchCount address).continued.toNat +
            countOf (DataRecord.IsContinuedAt address) records hash < 2 ^ 32 := by
    rw [Amount.fits_iff, Pi.add_apply, Amount.hits_add, Amount.outcomes_add, hhits, houtcomes,
      Counters.hits_totals, Counters.outcomes_totals]
    exact Iff.rfl
  rw [hbounds]
  constructor
  · rintro (hpast | hpast | hpast) <;> omega
  · intro hover
    by_contra hnone
    refine hover ⟨?_, ?_, ?_⟩ <;> refine Nat.lt_of_not_le fun hpast => hnone ?_
    · exact .hits (by omega)
    · exact .taken (by omega)
    · exact .continued (by omega)

/-- What counts for a contract is a record of the trace, and the contract is registered. -/
theorem of_mem_owned {isRegistered : ContractHash → Bool} {current : Option ContractHash}
    {records : List TraceRecord} {entry : Attributed}
    (hcurrent : ∀ hash, current = some hash → isRegistered hash = true)
    (h : entry ∈ owned (attributed isRegistered current records)) :
    isRegistered entry.1 = true ∧ entry.2.toRecord ∈ records := by
  induction records using Trace.inductionOn generalizing current with
  | nil => simp [attributed, owned] at h
  | contract hash rest ih =>
      refine (ih (fun hash' hsome => ?_) h).imp_right (List.mem_cons_of_mem _)
      split at hsome
      · rename_i hregistered
        cases hsome
        exact hregistered
      · cases hsome
  | unknownContract rest ih =>
      exact (ih (fun hash hsome => by cases hsome) h).imp_right (List.mem_cons_of_mem _)
  | data data rest ih =>
      rw [attributed_toRecord] at h
      cases current with
      | none => exact (ih hcurrent h).imp_right (List.mem_cons_of_mem _)
      | some hash =>
          rcases List.mem_cons.mp h with rfl | hrest
          · exact ⟨hcurrent hash rfl, List.mem_cons_self⟩
          · exact (ih hcurrent hrest).imp_right (List.mem_cons_of_mem _)

theorem amounts_of_forall_ne {records : List Attributed} {hash : ContractHash}
    (h : ∀ entry ∈ records, entry.1 ≠ hash) : amounts records hash = 0 := by
  induction records with
  | nil => rfl
  | cons entry rest ih =>
      obtain ⟨hentry, hrest⟩ := List.forall_mem_cons.mp h
      rw [amounts_cons, Pi.add_apply, ih hrest, add_zero]
      exact Amounts.single_of_ne hentry.symm _

end Trace

namespace Collector

variable {before after : Collector} {records : List TraceRecord} {e : CoverageError}

theorem of_mem_counted {entry : Attributed} (h : entry ∈ before.counted records) :
    before.contains entry.1 = true ∧ entry.2.toRecord ∈ records :=
  Trace.of_mem_owned (fun _ hsome => by cases hsome) h

/-- The check of a trace as it was read agrees with the check of its records. -/
theorem allConsistent_of_parse {text : List Char} {source : String}
    (accepted : (Trace.parse text source).records = .ok records) (collector : Collector) :
    Trace.AllConsistent (collector.counted records) := by
  rintro ⟨hash, data⟩ hmem
  have hrecord : data.toRecord ∈ records := (of_mem_counted hmem).2
  cases data with
  | hit address => trivial
  | branch address offset result => exact Trace.either_of_mem_parse accepted hrecord

/-- Contracts with an amount in a trace are registered. -/
theorem exists_get?_of_amounts_ne_zero {hash : ContractHash}
    (h : Trace.amounts (before.counted records) hash ≠ 0) :
    ∃ recording, before.get? hash = some recording := by
  by_contra hnone
  refine h (Trace.amounts_of_forall_ne fun entry hmem heq => hnone ?_)
  have hcontains := (of_mem_counted hmem).1
  rw [heq] at hcontains
  exact Option.isSome_iff_exists.mp hcontains

/-- Staging a trace fails only for a counter that could not hold the whole trace. -/
theorem overflows_of_stage (consistent : Trace.AllConsistent (before.counted records))
    (failed : before.stage records = .error e) :
    ∃ address hash recording, e = .counterOverflow address ∧
      before.get? hash = some recording ∧
        Trace.Overflows recording (before.counted records) hash address := by
  have hrecords : (∅ : Staged).recordAll (before.counted records) = .error e :=
    Staging.recordAll_of_pushAll_error failed
  obtain ⟨hash, address, he, hover⟩ := Staged.overflow_of_recordAll consistent hrecords
  rw [Staged.amounts_empty, zero_add] at hover
  have hamount : Trace.amounts (before.counted records) hash ≠ 0 := by
    intro hzero
    rw [Amounts.totals_of_eq_zero hzero, ← Counters.totals_empty] at hover
    exact hover (Counters.fits_totals .empty address)
  obtain ⟨recording, hget⟩ := exists_get?_of_amounts_ne_zero hamount
  refine ⟨address, hash, recording, he, hget, Trace.overflows_iff.mpr fun hfits => hover ?_⟩
  rw [Pi.add_apply, add_comm] at hfits
  exact hfits.of_add

/-- A commit fails for a staged contract whose check does. -/
theorem exists_check_of_commit_error {staged : Staged}
    (failed : (commit staged).run before = (.error e, after)) :
    ∃ hash counters, staged.get? hash = some counters ∧
      ((check hash counters).run before).1 = .error e := by
  rcases Step.run_bind_eq_error.mp failed with hchecks | ⟨⟨⟩, middle, hchecks, hmerges⟩
  · obtain ⟨⟨hash, counters⟩, hmem, hcheck⟩ := Step.exists_of_forM_error
      (fun (hash, counters) => check_keeps hash counters) hchecks
    exact ⟨hash, counters, OrderedMap.get?_eq_some_iff.mpr hmem, hcheck⟩
  · obtain ⟨after', hok⟩ := exists_mergeAll_of_checkAll hchecks
    rw [hok] at hmerges
    cases hmerges

theorem overflow_of_checkMerge {recording : Recording} {counters : Counters}
    (failed : recording.checkMerge counters = .error e) :
    ∃ address, e = .counterOverflow address ∧
      ¬((recording.counters.totals + counters.totals) address).Fits := by
  refine Counters.overflow_of_merged ?_
  unfold Recording.checkMerge Counters.checkMerge at failed
  cases hmerged : Counters.merged recording.counters counters with
  | ok sums =>
      rw [hmerged] at failed
      cases failed
  | error e' =>
      rw [hmerged] at failed
      cases failed
      rfl

/-- Committing the counters staged for a trace fails only for a counter that cannot hold
what the trace adds to it. -/
theorem overflows_of_commit {staged : Staged}
    (hstaged : (∅ : Staged).recordAll (before.counted records) = .ok staged)
    (failed : (commit staged).run before = (.error e, after)) :
    ∃ address hash recording, e = .counterOverflow address ∧
      before.get? hash = some recording ∧
        Trace.Overflows recording (before.counted records) hash address := by
  obtain ⟨hash, counters, hget, hcheck⟩ := exists_check_of_commit_error failed
  have hamounts : staged.amounts = Trace.amounts (before.counted records) := by
    rw [(Staged.of_recordAll_eq_ok hstaged).2, Staged.amounts_empty, zero_add]
  have hamount : Trace.amounts (before.counted records) hash =
      (counters.totals : WithZero Totals) :=
    hamounts ▸ OrderedMap.amount_of_some hget
  obtain ⟨recording, hrecording⟩ :=
    exists_get?_of_amounts_ne_zero (hamount ▸ WithZero.coe_ne_zero)
  rw [run_check, hrecording] at hcheck
  obtain ⟨address, he, hover⟩ := overflow_of_checkMerge hcheck
  refine ⟨address, hash, recording, he, hrecording, Trace.overflows_iff.mpr ?_⟩
  rwa [Amounts.totals, hamount]

/-- Applying a trace that was read can fail in one way only: no record is inconsistent and no
contract is unknown any more, so the error is an overflow, and it is a real one. The counter of
some registered contract at the address that is named cannot hold what the records of that
contract add to it. -/
theorem parsed_trace_fails_by_overflow {text : List Char} {source : String}
    (accepted : (Trace.parse text source).records = .ok records)
    (failed : (applyTrace records).run before = (.error e, after)) :
    ∃ address hash recording, e = .counterOverflow address ∧
      before.get? hash = some recording ∧
        Trace.Overflows recording (before.counted records) hash address := by
  have hconsistent := allConsistent_of_parse accepted before
  rw [run_applyTrace] at failed
  cases hstage : before.stage records with
  | error e' =>
      rw [hstage] at failed
      cases failed
      exact overflows_of_stage hconsistent hstage
  | ok staging =>
      simp only [hstage] at failed
      obtain ⟨hstaged, -⟩ := stage_eq_ok_iff.mp ⟨_, _, hstage⟩
      cases hcommit : (commit staging.staged).run before with
      | mk result after' =>
          rw [hcommit] at failed
          cases result with
          | ok value => cases failed
          | error e' =>
              cases failed
              exact overflows_of_commit hstaged hcommit

/-- The contract has run address 0 as often as can be counted, and the trace runs it again. -/
theorem parsed_trace_fails_by_overflow_atBound :
    (Trace.parse ('0' :: 'x' :: List.replicate 40 '0' ++ ['\n', '0']) "run").records =
        .ok [.contract .zero, .hit 0] ∧
      (applyTrace [.contract .zero, .hit 0]).run (sole (.singleHits 0 0xFFFFFFFF)) =
        (.error (.counterOverflow 0), sole (.singleHits 0 0xFFFFFFFF)) ∧
      ∃ address hash recording, CoverageError.counterOverflow 0 = .counterOverflow address ∧
        (sole (.singleHits 0 0xFFFFFFFF)).get? hash = some recording ∧
          Trace.Overflows recording
            ((sole (.singleHits 0 0xFFFFFFFF)).counted [.contract .zero, .hit 0]) hash address := by
  have haccepted :
      (Trace.parse ('0' :: 'x' :: List.replicate 40 '0' ++ ['\n', '0']) "run").records =
        .ok [.contract .zero, .hit 0] := rfl
  have hfailed :
      (applyTrace [.contract .zero, .hit 0]).run (sole (.singleHits 0 0xFFFFFFFF)) =
        (.error (.counterOverflow 0), sole (.singleHits 0 0xFFFFFFFF)) := rfl
  exact ⟨haccepted, hfailed, parsed_trace_fails_by_overflow haccepted hfailed⟩

end Collector

end ScriptCoverage
