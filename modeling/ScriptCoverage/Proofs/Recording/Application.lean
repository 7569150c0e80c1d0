import ScriptCoverage.Proofs.Recording.Attribution

/-!
What applying a trace does. The trace is applied exactly when its records are consistent
and the sum of their amounts fits into the counters that are there already; it makes no
difference that the counters are staged on the way.
-/

namespace ScriptCoverage

namespace Staging

variable {isRegistered : ContractHash → Bool} {staging : Staging}

theorem push_of_none (hcurrent : staging.current = none) (data : DataRecord) :
    push isRegistered staging data.toRecord = .ok staging.ignore := by
  cases data <;> simp only [push, DataRecord.toRecord, hcurrent]

theorem stats_ignore : staging.ignore.stats = staging.stats + ⟨0, 0, 1⟩ := rfl

theorem push_of_some {hash : ContractHash} (hcurrent : staging.current = some hash)
    (data : DataRecord) :
    push isRegistered staging data.toRecord =
      (staging.staged.record hash data).map fun staged =>
        { staging with staged, stats := staging.stats + data.stats } := by
  cases data with
  | hit address =>
      simp only [push, DataRecord.toRecord, hcurrent, count, Staged.record, Step.run,
        DataRecord.record]
      rcases Counters.recordHit address ((staging.staged.get? hash).getD .empty) with
        ⟨e | value, counters⟩
      · rfl
      · rfl
  | branch address offset result =>
      simp only [push, DataRecord.toRecord, hcurrent, count, Staged.record, Step.run,
        DataRecord.record]
      rcases Counters.recordBranch address offset result
        ((staging.staged.get? hash).getD .empty) with ⟨e | value, counters⟩
      · rfl
      · rfl

/-- Pushing records stages those that belong to a contract, and counts all of them. -/
theorem pushAll_map (isRegistered : ContractHash → Bool) (staging : Staging)
    (records : List TraceRecord) :
    (records.foldlM (push isRegistered) staging).map
        (fun after => (after.staged, after.stats)) =
      (staging.staged.recordAll
          (Trace.owned (Trace.attributed isRegistered staging.current records))).map
        fun staged => (staged, staging.stats +
          Trace.stats (Trace.attributed isRegistered staging.current records)) := by
  induction records using Trace.inductionOn generalizing staging with
  | nil => rfl
  | contract hash rest ih =>
      rw [List.foldlM_cons, push, Except.ok_bind, ih, Trace.attributed]
      cases isRegistered hash <;> rfl
  | unknownContract rest ih => exact ih _
  | data data rest ih =>
      rw [List.foldlM_cons, Trace.attributed_toRecord]
      cases hcurrent : staging.current with
      | none =>
          rw [push_of_none hcurrent, Except.ok_bind, ih, Trace.owned_cons_none,
            Trace.stats_cons_none, ← TraceStats.add_assoc, ← stats_ignore, ← hcurrent]
          rfl
      | some hash =>
          rw [push_of_some hcurrent, Trace.owned_cons_some, Staged.recordAll_cons,
            Trace.stats_cons_some, ← TraceStats.add_assoc]
          cases staging.staged.record hash data with
          | error e => rfl
          | ok staged' => rw [Except.map, Except.ok_bind, Except.ok_bind, ih, hcurrent]

theorem pushAll_eq_ok_iff {records : List TraceRecord} {staged : Staged} {stats : TraceStats} :
    (∃ current unknown, records.foldlM (push isRegistered) staging =
        .ok ⟨current, staged, stats, unknown⟩) ↔
      staging.staged.recordAll
          (Trace.owned (Trace.attributed isRegistered staging.current records)) = .ok staged ∧
        stats = staging.stats +
          Trace.stats (Trace.attributed isRegistered staging.current records) := by
  have hmap := pushAll_map isRegistered staging records
  constructor
  · rintro ⟨current, unknown, hpush⟩
    rw [hpush] at hmap
    obtain ⟨staged', hrecords, hpair⟩ := Except.map_eq_ok_iff.mp hmap.symm
    cases hpair
    exact ⟨hrecords, rfl⟩
  · rintro ⟨hrecords, rfl⟩
    rw [hrecords] at hmap
    obtain ⟨⟨current, staged', stats', unknown⟩, hpush, hpair⟩ := Except.map_eq_ok_iff.mp hmap
    cases hpair
    exact ⟨current, unknown, hpush⟩

theorem recordAll_of_pushAll_error {records : List TraceRecord} {e : CoverageError}
    (failed : records.foldlM (push isRegistered) staging = .error e) :
    staging.staged.recordAll
      (Trace.owned (Trace.attributed isRegistered staging.current records)) = .error e := by
  have hmap := pushAll_map isRegistered staging records
  rw [failed] at hmap
  cases hrecords : staging.staged.recordAll
      (Trace.owned (Trace.attributed isRegistered staging.current records)) with
  | ok staged =>
      rw [hrecords] at hmap
      cases hmap
  | error e' =>
      rw [hrecords] at hmap
      cases hmap
      rfl

/-- Staging that succeeds stages all records. -/
theorem pushWhile_eq_of_foldlM {isRegistered : ContractHash → Bool} {staging after : Staging}
    {records : List TraceRecord} (h : records.foldlM (push isRegistered) staging = .ok after) :
    staging.pushWhile isRegistered records = after := by
  induction records generalizing staging with
  | nil => exact Except.ok.inj h
  | cons record rest ih =>
      rw [List.foldlM_cons] at h
      rw [pushWhile]
      cases hpush : staging.push isRegistered record with
      | ok next =>
          rw [hpush] at h
          exact ih h
      | error e =>
          rw [hpush] at h
          cases h

end Staging

namespace Collector

variable {before middle after : Collector}

/-- The data records of a trace with the contracts that this collector knows. -/
def attributed (collector : Collector) (records : List TraceRecord) :
    List (Option ContractHash × DataRecord) :=
  Trace.attributed collector.contains none records

/-- The records of a trace that count, with their contracts. -/
def counted (collector : Collector) (records : List TraceRecord) : List Attributed :=
  Trace.owned (collector.attributed records)

/-- Amounts that were added fit by themselves. -/
theorem Adds.fits {amounts : Amounts} (h : before.Adds amounts after) (hash : ContractHash)
    (address : UInt32) : (amounts.totals hash address).Fits := by
  cases hget : before.get? hash with
  | none =>
      rw [Amounts.totals_of_eq_zero (h.of_none hget).1, ← Counters.totals_empty]
      exact Counters.fits_totals .empty address
  | some recording =>
      obtain ⟨counters, -, htotals⟩ := h.of_some hget
      have hfits := counters.fits_totals address
      rw [htotals, Pi.add_apply, add_comm] at hfits
      exact hfits.of_add

theorem stage_eq_ok_iff {records : List TraceRecord} {staged : Staged} {stats : TraceStats} :
    (∃ current unknown, before.stage records = .ok ⟨current, staged, stats, unknown⟩) ↔
      (∅ : Staged).recordAll (before.counted records) = .ok staged ∧
        stats = Trace.stats (before.attributed records) := by
  rw [← TraceStats.zero_add (Trace.stats _)]
  exact Staging.pushAll_eq_ok_iff

/-- A trace is applied exactly when its records are consistent and their amounts can be
added to the contracts. -/
theorem exists_applyTrace_eq_ok_iff {records : List TraceRecord} {stats : TraceStats} :
    (∃ unknown, (applyTrace records).run before = (.ok (stats, unknown), after)) ↔
      Trace.AllConsistent (before.counted records) ∧
        before.Adds (Trace.amounts (before.counted records)) after ∧
        stats = Trace.stats (before.attributed records) := by
  constructor
  · rintro ⟨unknown, h⟩
    obtain ⟨staged, current, hstage, hadds⟩ := applyTrace_eq_ok_iff.mp h
    obtain ⟨hrecords, hstats⟩ := stage_eq_ok_iff.mp ⟨current, unknown, hstage⟩
    obtain ⟨hconsistent, hamounts⟩ := Staged.of_recordAll_eq_ok hrecords
    rw [Staged.amounts_empty, zero_add] at hamounts
    exact ⟨hconsistent, hamounts ▸ hadds, hstats⟩
  · rintro ⟨hconsistent, hadds, hstats⟩
    have hfits : ∀ hash address, (((∅ : Staged).amounts +
        Trace.amounts (before.counted records)).totals hash address).Fits := by
      rw [Staged.amounts_empty, zero_add]
      exact hadds.fits
    obtain ⟨staged, hrecords⟩ := Staged.exists_recordAll hconsistent hfits
    obtain ⟨current, unknown, hstage⟩ := stage_eq_ok_iff.mpr ⟨hrecords, hstats⟩
    have hamounts := (Staged.of_recordAll_eq_ok hrecords).2
    rw [Staged.amounts_empty, zero_add] at hamounts
    rw [← hamounts] at hadds
    exact ⟨unknown, applyTrace_eq_ok_iff.mpr ⟨staged, current, hstage, hadds⟩⟩

theorem exists_applyTrace_iff {records : List TraceRecord} :
    (∃ answer, (applyTrace records).run before = (.ok answer, after)) ↔
      Trace.AllConsistent (before.counted records) ∧
        before.Adds (Trace.amounts (before.counted records)) after := by
  constructor
  · rintro ⟨⟨stats, unknown⟩, h⟩
    obtain ⟨hconsistent, hadds, -⟩ := exists_applyTrace_eq_ok_iff.mp ⟨unknown, h⟩
    exact ⟨hconsistent, hadds⟩
  · rintro ⟨hconsistent, hadds⟩
    obtain ⟨unknown, h⟩ := exists_applyTrace_eq_ok_iff.mpr ⟨hconsistent, hadds, rfl⟩
    exact ⟨_, h⟩

/-- A trace that is applied has been staged as a whole, so its answer names all contracts that
nobody registered. -/
theorem unregistered_of_applyTrace {records : List TraceRecord} {stats : TraceStats}
    {unknown : List ContractHash}
    (h : (applyTrace records).run before = (.ok (stats, unknown), after)) :
    before.unregistered records = unknown := by
  obtain ⟨staged, current, hstage, -⟩ := applyTrace_eq_ok_iff.mp h
  rw [unregistered, Staging.pushWhile_eq_of_foldlM hstage]

/-- Runs a step on the current contract, if there is one. -/
def onCurrent (current : Option ContractHash) (step : Step Recording Unit) :
    Step Collector Unit :=
  match current with
  | some hash => onContract hash step
  | none => pure ()

/-- Records a trace on the contracts themselves, one record after the other. -/
def recordDirectly (current : Option ContractHash) : List TraceRecord → Step Collector Unit
  | [] => pure ()
  | .contract hash :: rest => do
      let collector ← get
      recordDirectly (if collector.contains hash then some hash else none) rest
  | .unknownContract :: rest => recordDirectly none rest
  | .hit address :: rest => do
      onCurrent current (Recording.recordHit address)
      recordDirectly current rest
  | .branch address offset result :: rest => do
      onCurrent current (Recording.recordBranch address offset result)
      recordDirectly current rest

/-- Recording one record on a contract adds its amounts. -/
theorem record_eq_ok_iff {hash : ContractHash} {data : DataRecord} :
    (onContract hash (Recording.onCounters data.record)).run before = (.ok (), after) ↔
      data.IsConsistent ∧ before.Adds (.single hash data.counters) after := by
  by_cases h : data.IsConsistent
  · rw [DataRecord.record_of_isConsistent h, ← post_eq_ok_iff]
    exact (and_iff_right h).symm
  · rw [run_onContract]
    cases hget : before.get? hash with
    | none => simp [h]
    | some recording =>
        obtain ⟨e, hrun⟩ := DataRecord.run_record_of_not_isConsistent h recording.counters
        simp [Recording.onCounters, hrun, h]

theorem recordDirectly_toRecord (current : Option ContractHash) (data : DataRecord)
    (rest : List TraceRecord) :
    recordDirectly current (data.toRecord :: rest) =
      onCurrent current (Recording.onCounters data.record) >>=
        fun _ => recordDirectly current rest := by
  cases data <;> rfl

theorem recordDirectly_eq_ok_iff {current : Option ContractHash} {records : List TraceRecord} :
    (recordDirectly current records).run before = (.ok (), after) ↔
      Trace.AllConsistent (Trace.owned (Trace.attributed before.contains current records)) ∧
        before.Adds
          (Trace.amounts (Trace.owned (Trace.attributed before.contains current records)))
          after := by
  induction records using Trace.inductionOn generalizing current before with
  | nil =>
      have howned : Trace.owned (Trace.attributed before.contains current []) = [] := rfl
      rw [recordDirectly, Step.run_pure, Prod.mk.injEq, howned, Trace.amounts_nil, adds_zero_iff]
      exact and_congr_left' (iff_of_true rfl Trace.allConsistent_nil)
  | contract hash rest ih => exact ih
  | unknownContract rest ih => exact ih
  | data data rest ih =>
      rw [recordDirectly_toRecord, Trace.attributed_toRecord]
      cases current with
      | none => exact ih
      | some hash =>
          rw [Step.run_bind_eq_ok, Trace.owned_cons_some, Trace.amounts_cons,
            adds_single_add_iff, Trace.allConsistent_cons]
          constructor
          · rintro ⟨⟨⟩, middle, hrecord, hrest⟩
            obtain ⟨hconsistent, hadds⟩ := record_eq_ok_iff.mp hrecord
            rw [ih, funext hadds.contains] at hrest
            exact ⟨⟨hconsistent, hrest.1⟩, middle, hadds, hrest.2⟩
          · rintro ⟨⟨hconsistent, hall⟩, middle, hadds, hrest⟩
            refine ⟨(), middle, record_eq_ok_iff.mpr ⟨hconsistent, hadds⟩, ?_⟩
            rw [ih, funext hadds.contains]
            exact ⟨hall, hrest⟩

/-- Applying a trace is recording it directly: it succeeds when every record can be
recorded, and then leaves what recording them leaves. -/
theorem applyTrace_iff_recordDirectly (records : List TraceRecord) (before after : Collector) :
    (∃ answer, (applyTrace records).run before = (.ok answer, after)) ↔
      (recordDirectly none records).run before = (.ok (), after) := by
  rw [recordDirectly_eq_ok_iff]
  exact exists_applyTrace_iff

end Collector

end ScriptCoverage
