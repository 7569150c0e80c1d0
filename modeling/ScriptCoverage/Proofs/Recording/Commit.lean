import ScriptCoverage.Proofs.Recording.Posting

/-!
A commit checks all staged counters before it writes any. The check of a contract only
reads that contract, and staged contracts are distinct, so a write never spoils a check
that passed before it: once all checks pass no write can fail, and a commit that fails
has written nothing.
-/

namespace ScriptCoverage

/-- The amounts of staged counters. -/
def Staged.amounts (staged : Staged) : Amounts :=
  OrderedMap.amount Counters.totals staged

theorem Staged.amounts_empty : (∅ : Staged).amounts = 0 :=
  OrderedMap.amount_empty Counters.totals

namespace Collector

def check (hash : ContractHash) (counters : Counters) : Step Collector Unit :=
  onContract hash (Step.inspect fun recording => recording.checkMerge counters)

theorem run_check (hash : ContractHash) (counters : Counters) (collector : Collector) :
    (check hash counters).run collector =
      match collector.get? hash with
      | none => (.error (.unknownContract hash), collector)
      | some recording => (recording.checkMerge counters, collector) := by
  rw [check, run_onContract]
  cases hget : collector.get? hash with
  | none => rfl
  | some recording =>
      have hkept : collector.contracts.insert hash recording = collector.contracts :=
        OrderedMap.insert_of_get? hget
      simp only [Step.run_inspect, hkept]

theorem check_keeps (hash : ContractHash) (counters : Counters) (collector : Collector) :
    ((check hash counters).run collector).2 = collector := by
  rw [run_check]
  cases collector.get? hash <;> rfl

/-- A check passes exactly when the posting that it is made for succeeds. -/
theorem check_eq_ok_iff {hash : ContractHash} {counters : Counters} {collector : Collector} :
    (check hash counters).run collector = (.ok (), collector) ↔
      ∃ after, (post hash counters).run collector = (.ok (), after) := by
  rw [run_check, post, run_onContract]
  cases hget : collector.get? hash with
  | none => simp
  | some recording =>
      simp only [Recording.checkMerge, Prod.mk.injEq, and_true]
      rw [Counters.checkMerge_eq_ok_iff]
      constructor
      · rintro ⟨sum, hsum⟩
        exact ⟨_, by rw [Recording.run_merge, hsum], rfl⟩
      · rintro ⟨after, hmerge, -⟩
        exact ⟨_, Step.run_eq_of_fst hmerge⟩

theorem post_get?_of_ne {hash other : ContractHash} (hne : other ≠ hash) (counters : Counters)
    (collector : Collector) :
    ((post hash counters).run collector).2.get? other = collector.get? other := by
  rw [post, run_onContract]
  cases collector.get? hash with
  | none => rfl
  | some recording => rw [get?_insert, if_neg hne]

private theorem checks_eq_ok_iff {entries : List Posting} {collector : Collector} :
    Step.run (entries.forM fun (hash, counters) => check hash counters) collector =
        (.ok (), collector) ↔
      ∀ entry ∈ entries, (check entry.1 entry.2).run collector = (.ok (), collector) := by
  induction entries with
  | nil => simp
  | cons entry rest ih =>
      obtain ⟨hash, counters⟩ := entry
      rw [Step.run_forM_cons_eq_ok, List.forall_mem_cons, ← ih]
      constructor
      · rintro ⟨middle, hhead, hrest⟩
        have hmiddle : middle = collector := by
          rw [← check_keeps hash counters collector, hhead]
        subst hmiddle
        exact ⟨hhead, hrest⟩
      · rintro ⟨hhead, hrest⟩
        exact ⟨collector, hhead, hrest⟩

/-- Postings to distinct contracts all succeed when each could be made alone: none of
them touches a contract that a later one merges into. -/
private theorem exists_postings_of_checks {entries : List Posting}
    (distinct : (entries.map (·.1)).Nodup) {collector : Collector}
    (hchecks : ∀ entry ∈ entries, (check entry.1 entry.2).run collector = (.ok (), collector)) :
    ∃ after, Step.run (entries.forM fun (hash, counters) => post hash counters) collector =
      (.ok (), after) := by
  induction entries generalizing collector with
  | nil => exact ⟨collector, rfl⟩
  | cons entry rest ih =>
      obtain ⟨hash, counters⟩ := entry
      obtain ⟨hhead, hrest⟩ := List.nodup_cons.mp distinct
      obtain ⟨middle, hpost⟩ := check_eq_ok_iff.mp (hchecks _ List.mem_cons_self)
      have hlater : ∀ entry ∈ rest,
          (check entry.1 entry.2).run middle = (.ok (), middle) := by
        intro entry hmem
        have hne : entry.1 ≠ hash := fun heq =>
          hhead (heq ▸ List.mem_map.mpr ⟨entry, hmem, rfl⟩)
        have hget : middle.get? entry.1 = collector.get? entry.1 := by
          rw [← post_get?_of_ne hne counters collector, hpost]
        have hbefore := hchecks entry (List.mem_cons_of_mem _ hmem)
        rw [run_check] at hbefore ⊢
        rw [hget]
        cases hrecording : collector.get? entry.1 with
        | none =>
            rw [hrecording] at hbefore
            cases hbefore
        | some recording =>
            rw [hrecording, Prod.mk.injEq] at hbefore
            exact Prod.ext hbefore.1 rfl
      obtain ⟨after, hafter⟩ := ih hrest hlater
      exact ⟨after, Step.run_forM_cons_eq_ok.mpr ⟨middle, hpost, hafter⟩⟩

theorem checkAll_keeps (staged : Staged) (collector : Collector) :
    ((checkAll staged).run collector).2 = collector :=
  Step.forM_keeps (fun (hash, counters) => check_keeps hash counters) staged.entries collector

/-- No write fails after all checks have passed. -/
theorem exists_mergeAll_of_checkAll {staged : Staged} {collector middle : Collector}
    (h : (checkAll staged).run collector = (.ok (), middle)) :
    ∃ after, (mergeAll staged).run middle = (.ok (), after) := by
  have hmiddle : middle = collector := by rw [← checkAll_keeps staged collector, h]
  subst hmiddle
  exact exists_postings_of_checks staged.keys_nodup (checks_eq_ok_iff.mp h)

theorem mergeAll_eq_ok_iff {staged : Staged} {before after : Collector} :
    (mergeAll staged).run before = (.ok (), after) ↔ before.Adds staged.amounts after := by
  have hsum : (staged.entries.map Posting.amounts).sum = staged.amounts :=
    OrderedMap.sum_entries Counters.totals staged
  rw [← hsum]
  exact run_postings_eq_ok_iff

/-- A commit adds the staged amounts, and fails only if they cannot be added. -/
theorem commit_eq_ok_iff {staged : Staged} {before after : Collector} :
    (commit staged).run before = (.ok (), after) ↔ before.Adds staged.amounts after := by
  rw [commit, Step.run_bind_eq_ok]
  constructor
  · rintro ⟨⟨⟩, middle, hchecks, hmerges⟩
    have hmiddle : middle = before := by rw [← checkAll_keeps staged before, hchecks]
    subst hmiddle
    exact mergeAll_eq_ok_iff.mp hmerges
  · intro hadds
    refine ⟨(), before, checks_eq_ok_iff.mpr fun entry hmem => ?_, mergeAll_eq_ok_iff.mpr hadds⟩
    obtain ⟨hash, counters⟩ := entry
    have hstaged : staged.amounts hash = (counters.totals : WithZero Totals) :=
      OrderedMap.amount_of_some (OrderedMap.get?_eq_some_iff.mpr hmem)
    have hsplit : staged.amounts =
        .single hash counters + Function.update staged.amounts hash 0 := by
      funext other
      rw [Pi.add_apply]
      by_cases hother : other = hash
      · subst hother
        rw [Function.update_self, add_zero, hstaged, Amounts.single, Pi.single_eq_same]
      · rw [Function.update_of_ne hother, Amounts.single_of_ne hother, zero_add]
    exact check_eq_ok_iff.mpr (exists_post_of_adds (hsplit ▸ hadds))

theorem commit_atomic (staged : Staged) : (commit staged).Atomic := by
  intro before e after h
  rcases Step.run_bind_eq_error.mp h with hchecks | ⟨⟨⟩, middle, hchecks, hmerges⟩
  · rw [← checkAll_keeps staged before, hchecks]
  · obtain ⟨after', hok⟩ := exists_mergeAll_of_checkAll hchecks
    rw [hok] at hmerges
    cases hmerges

theorem run_applyTrace (records : List TraceRecord) (collector : Collector) :
    (applyTrace records).run collector =
      match collector.stage records with
      | .error e => (.error e, collector)
      | .ok staging =>
          match (commit staging.staged).run collector with
          | (.ok (), after) => (.ok (staging.stats, staging.unknown), after)
          | (.error e, after) => (.error e, after) := by
  simp only [applyTrace, Step.run_bind, Step.run_get, Step.run_lift]
  cases collector.stage records with
  | error e => rfl
  | ok staging =>
      dsimp only
      rcases (commit staging.staged).run collector with ⟨e | value, after⟩
      · rfl
      · rfl

theorem applyTrace_eq_ok_iff {records : List TraceRecord} {before after : Collector}
    {stats : TraceStats} {unknown : List ContractHash} :
    (applyTrace records).run before = (.ok (stats, unknown), after) ↔
      ∃ staged current, before.stage records = .ok ⟨current, staged, stats, unknown⟩ ∧
        before.Adds staged.amounts after := by
  rw [run_applyTrace]
  cases hstage : before.stage records with
  | error e => simp
  | ok staging =>
      obtain ⟨current, staged, stats', unknown'⟩ := staging
      simp only [Except.ok.injEq, Staging.mk.injEq, ← commit_eq_ok_iff]
      cases hcommit : (commit staged).run before with
      | mk result after' =>
          cases result with
          | error e =>
              constructor
              · simp
              · rintro ⟨staged', current', ⟨-, hsame, -⟩, hok⟩
                rw [← hsame, hcommit] at hok
                cases hok
          | ok value =>
              constructor
              · intro h
                cases h
                exact ⟨staged, current, ⟨rfl, rfl, rfl, rfl⟩, hcommit⟩
              · rintro ⟨staged', current', ⟨-, hsame, hstats, hunknown⟩, hok⟩
                rw [← hsame, hcommit] at hok
                cases hok
                rw [hstats, hunknown]

theorem applyTrace_atomic (records : List TraceRecord) : (applyTrace records).Atomic := by
  intro collector e after h
  rw [run_applyTrace] at h
  cases hstage : collector.stage records with
  | error e' =>
      rw [hstage] at h
      cases h
      rfl
  | ok staging =>
      simp only [hstage] at h
      cases hcommit : (commit staging.staged).run collector with
      | mk result after' =>
          rw [hcommit] at h
          cases result with
          | error e' =>
              cases h
              exact commit_atomic staging.staged collector e _ hcommit
          | ok value => cases h

theorem applyRaw_eq_ok_iff {dump : RawDump} {before after : Collector} :
    (applyRaw dump).run before = (.ok (), after) ↔
      before.Adds (.single dump.hash dump.counters) after := by
  have hstaged : Staged.amounts ((∅ : Staged).insert dump.hash dump.counters) =
      .single dump.hash dump.counters := by
    rw [← zero_add (Amounts.single _ _), ← Staged.amounts_empty]
    refine OrderedMap.amount_insert_add ?_
    rw [OrderedMap.amount_empty, Pi.zero_apply, zero_add]
  rw [applyRaw, commit_eq_ok_iff, hstaged]

theorem applyRaw_atomic (dump : RawDump) : (applyRaw dump).Atomic :=
  commit_atomic _

/-- Applying a trace or a dump counts as a whole or not at all: a call that fails leaves
every contract as it was, whichever counter passed its bound, and the write loop of a
commit cannot fail after its check loop has passed. The steps on one contract, and on
staged counters, are atomic in the same way. -/
theorem application_all_or_nothing :
    (∀ records, (applyTrace records).Atomic) ∧ (∀ dump, (applyRaw dump).Atomic) ∧
      (∀ staged collector middle, (checkAll staged).run collector = (.ok (), middle) →
        ∃ after, (mergeAll staged).run middle = (.ok (), after)) ∧
      (∀ more, (Recording.merge more).Atomic) ∧
      (∀ address count, (Recording.addHits address count).Atomic) ∧
      (∀ address count, (Recording.addBranch address count).Atomic) ∧
      (∀ address count, (Counters.addHits address count).Atomic) ∧
      (∀ address count, (Counters.addBranch address count).Atomic) := by
  have hhits (address count : UInt32) : (Counters.addHits address count).Atomic := by
    rw [Counters.addHits_eq_merge]
    exact Counters.merge_atomic _
  have hbranch (address : UInt32) (count : BranchCount) :
      (Counters.addBranch address count).Atomic := by
    rw [Counters.addBranch_eq_merge]
    exact Counters.merge_atomic _
  refine ⟨applyTrace_atomic, applyRaw_atomic, fun _ _ _ => exists_mergeAll_of_checkAll,
    Recording.merge_atomic, ?_, ?_, hhits, hbranch⟩
  · intro address count
    exact Step.atomic_zoom (hhits address count) fun _ => rfl
  · intro address count
    exact Step.atomic_zoom (hbranch address count) fun _ => rfl

/-- The hit at 7 could be counted; the one at 0 passes the bound, and neither is. -/
example : (applyTrace [.contract .zero, .hit 7, .hit 0]).run (sole (.singleHits 0 0xFFFFFFFF)) =
    (.error (.counterOverflow 0), sole (.singleHits 0 0xFFFFFFFF)) := rfl

end Collector

end ScriptCoverage
