import Mathlib.Data.List.Induction
import ScriptCoverage.Proofs.Recording.Fresh

/-!
The life of a contract in a collector. It starts when a registration succeeds and does not
end: whatever is done afterwards, and whether it succeeds or fails, the contract keeps its
name, its symbols and its script, and its counters never go down.
-/

namespace ScriptCoverage

/-- What may become of a contract: it gains a script if it had none, and it gains counts. -/
structure Recording.Grows (before after : Recording) : Prop where
  name : after.name = before.name
  symbols : after.symbols = before.symbols
  script : ∀ script, before.script = some script → after.script = some script
  hits : ∀ address, before.counters.hitCount address ≤ after.counters.hitCount address
  taken : ∀ address, (before.counters.branchCount address).taken ≤
    (after.counters.branchCount address).taken
  continued : ∀ address, (before.counters.branchCount address).continued ≤
    (after.counters.branchCount address).continued

namespace Recording

theorem Grows.refl (recording : Recording) : recording.Grows recording where
  name := rfl
  symbols := rfl
  script := fun _ h => h
  hits := fun _ => UInt32.le_refl _
  taken := fun _ => UInt32.le_refl _
  continued := fun _ => UInt32.le_refl _

theorem Grows.trans {x y z : Recording} (hxy : x.Grows y) (hyz : y.Grows z) : x.Grows z where
  name := hyz.name.trans hxy.name
  symbols := hyz.symbols.trans hxy.symbols
  script := fun script h => hyz.script script (hxy.script script h)
  hits := fun address => UInt32.le_trans (hxy.hits address) (hyz.hits address)
  taken := fun address => UInt32.le_trans (hxy.taken address) (hyz.taken address)
  continued := fun address => UInt32.le_trans (hxy.continued address) (hyz.continued address)

/-- Counters that were added to have not gone down. -/
theorem grows_of_totals {recording : Recording} {counters : Counters} {more : Totals}
    (h : counters.totals = recording.counters.totals + more) :
    recording.Grows { recording with counters } := by
  have hhits (address : UInt32) : (recording.counters.hitCount address).toNat ≤
      (counters.hitCount address).toNat := by
    rw [← Counters.hits_totals counters, h, Pi.add_apply, Amount.hits_add, Counters.hits_totals]
    exact Nat.le_add_right _ _
  have houtcomes (address : UInt32) : (recording.counters.branchCount address).amounts ≤
      (counters.branchCount address).amounts := by
    rw [← Counters.outcomes_totals counters, h, Pi.add_apply, Amount.outcomes_add,
      Counters.outcomes_totals]
    exact ⟨Nat.le_add_right _ _, Nat.le_add_right _ _⟩
  exact {
    name := rfl
    symbols := rfl
    script := fun _ hscript => hscript
    hits := fun address => UInt32.le_iff_toNat_le.mpr (hhits address)
    taken := fun address => UInt32.le_iff_toNat_le.mpr (houtcomes address).1
    continued := fun address => UInt32.le_iff_toNat_le.mpr (houtcomes address).2 }

theorem run_registerScript_of_isSome {recording : Recording} (h : recording.script.isSome)
    (script : Script) : (registerScript script).run recording =
      (.error (.scriptAlreadyRegistered recording.hash), recording) := by
  simp only [registerScript, Step.run_bind, Step.run_get, h]
  rfl

theorem grows_registerScript (script : Script) (recording : Recording) :
    recording.Grows ((registerScript script).run recording).2 := by
  cases hscript : recording.script with
  | some attached =>
      rw [run_registerScript_of_isSome (Option.isSome_of_eq_some hscript)]
      exact Grows.refl recording
  | none =>
      have hrun : ((registerScript script).run recording).2 =
          { recording with script := some script } := by
        simp only [registerScript, Step.run_bind, Step.run_get, hscript]
        rfl
      have hrefl := Grows.refl recording
      rw [hrun]
      exact { hrefl with
        script := by
          intro attached h
          rw [hscript] at h
          cases h }

end Recording

namespace Collector

variable {before middle after : Collector}

/-- The contracts of one collector are in the other one, and may have grown there. -/
def Grows (before after : Collector) : Prop :=
  ∀ hash recording, before.get? hash = some recording →
    ∃ recording', after.get? hash = some recording' ∧ recording.Grows recording'

theorem Grows.refl (collector : Collector) : collector.Grows collector :=
  fun _ recording h => ⟨recording, h, Recording.Grows.refl recording⟩

theorem Grows.trans (h : before.Grows middle) (h' : middle.Grows after) : before.Grows after := by
  intro hash recording hget
  obtain ⟨recording', hmiddle, hgrows⟩ := h hash recording hget
  obtain ⟨recording'', hafter, hgrows'⟩ := h' hash recording' hmiddle
  exact ⟨recording'', hafter, hgrows.trans hgrows'⟩

theorem Adds.grows {amounts : Amounts} (h : before.Adds amounts after) : before.Grows after := by
  intro hash recording hget
  obtain ⟨counters, hafter, htotals⟩ := h.of_some hget
  exact ⟨_, hafter, Recording.grows_of_totals htotals⟩

/-- An atomic step that adds amounts when it succeeds adds none when it fails. -/
theorem exists_adds_of_atomic {α : Type} {step : Step Collector α} (atomic : step.Atomic)
    (adds : ∀ answer after, step.run before = (.ok answer, after) →
      ∃ amounts, before.Adds amounts after) :
    ∃ amounts, before.Adds amounts (step.run before).2 := by
  cases hrun : step.run before with
  | mk result after =>
      cases result with
      | ok answer => exact adds answer after hrun
      | error e =>
          rw [atomic before e after hrun]
          exact ⟨0, adds_zero before⟩

theorem exists_adds_applyTrace (records : List TraceRecord) (before : Collector) :
    ∃ amounts, before.Adds amounts ((applyTrace records).run before).2 := by
  apply exists_adds_of_atomic (applyTrace_atomic records)
  intro answer after hrun
  exact ⟨_, (exists_applyTrace_iff.mp ⟨answer, hrun⟩).2⟩

theorem exists_adds_applyRaw (dump : RawDump) (before : Collector) :
    ∃ amounts, before.Adds amounts ((applyRaw dump).run before).2 := by
  apply exists_adds_of_atomic (applyRaw_atomic dump)
  intro _ after hrun
  exact ⟨_, applyRaw_eq_ok_iff.mp hrun⟩

theorem grows_insert {hash : ContractHash} {recording : Recording}
    (h : ∀ kept, before.get? hash = some kept → kept.Grows recording) :
    before.Grows ⟨before.contracts.insert hash recording⟩ := by
  intro other kept hget
  by_cases hother : other = hash
  · subst hother
    refine ⟨recording, ?_, h kept hget⟩
    rw [get?_insert, if_pos rfl]
  · refine ⟨kept, ?_, Recording.Grows.refl kept⟩
    rw [get?_insert, if_neg hother]
    exact hget

/-- No operation takes a contract away or undoes what is recorded about one. -/
theorem grows_apply (operation : Operation) (before : Collector) :
    before.Grows (operation.apply before) := by
  cases operation with
  | addContract name symbols declared =>
      rcases run_addContract name symbols declared before with hsame | ⟨hfree, hnew⟩
      · rw [Operation.apply, hsame]
        exact Grows.refl before
      · rw [Operation.apply, hnew]
        apply grows_insert
        intro kept hkept
        rw [hfree] at hkept
        cases hkept
  | registerScript hash script =>
      rw [Operation.apply, registerScript, run_onContract]
      cases hget : before.get? hash with
      | none => exact Grows.refl before
      | some recording =>
          apply grows_insert
          intro kept hkept
          rw [hget] at hkept
          cases hkept
          exact Recording.grows_registerScript script recording
  | applyTrace records =>
      obtain ⟨amounts, hadds⟩ := exists_adds_applyTrace records before
      exact hadds.grows
  | applyRaw dump =>
      obtain ⟨amounts, hadds⟩ := exists_adds_applyRaw dump before
      exact hadds.grows

theorem grows_applyAll (before : Collector) (operations : List Operation) :
    before.Grows (before.applyAll operations) := by
  induction operations generalizing before with
  | nil => exact Grows.refl before
  | cons operation rest ih => exact (grows_apply operation before).trans (ih _)

theorem applyAll_append (collector : Collector) (first rest : List Operation) :
    collector.applyAll (first ++ rest) = (collector.applyAll first).applyAll rest :=
  List.foldl_append

/-- The operation registers the contract under the hash, and says so. -/
def Registers (before : Collector) (hash : ContractHash) (recording : Recording) :
    Operation → Prop
  | .addContract name symbols declared =>
      ((addContract name symbols declared).run before).1 = .ok hash ∧
        recording = .new name symbols
  | _ => False

/-- A contract that was not there before an operation was registered by it. -/
theorem registers_of_new {operation : Operation} {hash : ContractHash} {recording : Recording}
    (hnone : before.get? hash = none)
    (hget : (operation.apply before).get? hash = some recording) :
    Registers before hash recording operation := by
  have hkept : before.get? hash ≠ some recording := by
    rw [hnone]
    exact Option.some_ne_none recording |>.symm
  cases operation with
  | addContract name symbols declared =>
      rcases addContract_cases name symbols declared before with ⟨e, hrun⟩ | ⟨-, hrun⟩
      · rw [Operation.apply, hrun] at hget
        exact absurd hget hkept
      · rw [Operation.apply, hrun, get?_insert] at hget
        split at hget
        · rename_i hhash
          cases hget
          exact ⟨by rw [hrun, hhash], rfl⟩
        · exact absurd hget hkept
  | registerScript other script =>
      rw [Operation.apply, registerScript, run_onContract] at hget
      cases hother : before.get? other with
      | none =>
          rw [hother] at hget
          exact absurd hget hkept
      | some found =>
          have hne : hash ≠ other := by
            rintro rfl
            rw [hnone] at hother
            cases hother
          rw [hother, get?_insert, if_neg hne] at hget
          exact absurd hget hkept
  | applyTrace records =>
      obtain ⟨amounts, hadds⟩ := exists_adds_applyTrace records before
      rw [Operation.apply, (hadds.of_none hnone).2] at hget
      cases hget
  | applyRaw dump =>
      obtain ⟨amounts, hadds⟩ := exists_adds_applyRaw dump before
      rw [Operation.apply, (hadds.of_none hnone).2] at hget
      cases hget

/-- Every contract of a run was registered in it, and has only grown since. -/
theorem exists_registration {operations : List Operation} {hash : ContractHash}
    {recording : Recording} (hget : (empty.applyAll operations).get? hash = some recording) :
    ∃ first operation rest new, operations = first ++ operation :: rest ∧
      Registers (empty.applyAll first) hash new operation ∧ new.Grows recording := by
  -- From the last operation back: it either brought the contract or found it.
  induction operations using List.reverseRecOn generalizing recording with
  | nil => cases hget
  | append_singleton earlier last ih =>
      rw [applyAll_append] at hget
      cases hbefore : (empty.applyAll earlier).get? hash with
      | none =>
          exact ⟨earlier, last, [], recording, rfl, registers_of_new hbefore hget,
            Recording.Grows.refl recording⟩
      | some kept =>
          obtain ⟨first, operation, rest, new, rfl, hregisters, hgrows⟩ := ih hbefore
          obtain ⟨found, hfound, hgrows'⟩ := grows_apply last _ hash kept hbefore
          have hsame : found = recording := Option.some_inj.mp (hfound.symm.trans hget)
          subst hsame
          refine ⟨first, operation, rest ++ [last], new, ?_, hregisters, hgrows.trans hgrows'⟩
          rw [List.append_assoc, List.cons_append]

theorem hash_of_registers {operation : Operation} {hash : ContractHash} {recording : Recording}
    (h : Registers before hash recording operation) : recording.hash = hash := by
  cases operation with
  | addContract name symbols declared =>
      obtain ⟨hok, rfl⟩ := h
      rcases addContract_cases name symbols declared before with ⟨e, hrun⟩ | ⟨-, hrun⟩
      · rw [hrun] at hok
        cases hok
      · rw [hrun] at hok
        cases hok
        rfl
  | registerScript other script => cases h
  | applyTrace records => cases h
  | applyRaw dump => cases h

theorem isKeyed_applyAll (operations : List Operation) : (empty.applyAll operations).IsKeyed := by
  intro hash recording hget
  obtain ⟨first, operation, rest, new, -, hregisters, hgrows⟩ := exists_registration hget
  rw [← hash_of_registers hregisters, Recording.hash, Recording.hash, hgrows.symbols]

theorem IsKeyed.hashes_nodup {collector : Collector} (h : collector.IsKeyed) :
    (collector.recordings.map Recording.hash).Nodup := by
  have hkeys : collector.recordings.map Recording.hash = collector.contracts.keys := by
    rw [recordings, OrderedMap.values, OrderedMap.keys, List.map_map]
    apply List.map_congr_left
    intro entry hentry
    exact h entry.1 entry.2 (OrderedMap.get?_eq_some_iff.mpr hentry)
  rw [hkeys]
  exact collector.contracts.keys_nodup

theorem IsKeyed.mem_recordings_iff {collector : Collector} (h : collector.IsKeyed)
    {contract : Recording} :
    contract ∈ collector.recordings ↔ collector.get? contract.hash = some contract := by
  constructor
  · intro hmem
    obtain ⟨⟨key, value⟩, hentry, rfl⟩ := List.mem_map.mp hmem
    have hget : collector.get? key = some value := OrderedMap.get?_eq_some_iff.mpr hentry
    rwa [h key value hget]
  · intro hget
    exact List.mem_map.mpr ⟨_, OrderedMap.get?_eq_some_iff.mp hget, rfl⟩

/-- A second script is refused, and the collector stays as it is. -/
theorem registerScript_again {collector : Collector} (hkeyed : collector.IsKeyed)
    {hash : ContractHash} {recording : Recording} (hget : collector.get? hash = some recording)
    (hattached : recording.script.isSome) (script : Script) :
    (registerScript hash script).run collector =
      (.error (.scriptAlreadyRegistered hash), collector) := by
  have hkept : collector.contracts.insert hash recording = collector.contracts :=
    OrderedMap.insert_of_get? hget
  rw [registerScript, run_onContract, hget]
  simp only [Recording.run_registerScript_of_isSome hattached, hkept, hkeyed hash recording hget]

/-- Through every run, whatever its operations are given and whether they succeed: contracts
stand under their own hashes, each hash has one contract, contracts stay and only grow, a
second script is refused, and only a registration that succeeded brings a contract. -/
theorem recordings_kept (earlier later : List Operation) :
    (empty.applyAll earlier).IsKeyed ∧
    ((empty.applyAll earlier).recordings.map Recording.hash).Nodup ∧
    (empty.applyAll earlier).Grows (empty.applyAll (earlier ++ later)) ∧
    (∀ hash recording script, (empty.applyAll earlier).get? hash = some recording →
      recording.script.isSome →
        (registerScript hash script).run (empty.applyAll earlier) =
          (.error (.scriptAlreadyRegistered hash), empty.applyAll earlier)) ∧
    ∀ hash recording, (empty.applyAll earlier).get? hash = some recording →
      ∃ first name symbols declared rest,
        earlier = first ++ .addContract name symbols declared :: rest ∧
        ((addContract name symbols declared).run (empty.applyAll first)).1 = .ok hash ∧
        recording.name = name ∧ recording.symbols = symbols := by
  have hkeyed := isKeyed_applyAll earlier
  refine ⟨hkeyed, hkeyed.hashes_nodup, ?grows, ?again, ?registered⟩
  case grows =>
    rw [applyAll_append]
    exact grows_applyAll _ later
  case again =>
    intro hash recording script hget hattached
    exact registerScript_again hkeyed hget hattached script
  case registered =>
    intro hash recording hget
    obtain ⟨first, operation, rest, new, hsplit, hregisters, hgrows⟩ := exists_registration hget
    cases operation with
    | addContract name symbols declared =>
        obtain ⟨hok, rfl⟩ := hregisters
        exact ⟨first, name, symbols, declared, rest, hsplit, hok, hgrows.name, hgrows.symbols⟩
    | registerScript other script => cases hregisters
    | applyTrace records => cases hregisters
    | applyRaw dump => cases hregisters

end Collector

end ScriptCoverage
