import ScriptCoverage.Proofs.Recording.Application
import ScriptCoverage.Proofs.Recording.RawDump

/-!
What happens to a contract from its registration on. Traces count in ones and dumps are
read without their zeros, so no counter that a contract ever holds is zero.
-/

namespace ScriptCoverage

theorem BranchCount.isEmpty_iff {count : BranchCount} : count.isEmpty = true ↔ count = .zero := by
  cases count
  simp [isEmpty, zero]

/-- No counter is zero. An address that was never counted has no counter. -/
def Totals.HasNoZero (totals : Totals) : Prop :=
  ∀ address, (totals address).1 ≠ WithZero.coe 0 ∧ (totals address).2 ≠ WithZero.coe (0, 0)

namespace Totals

private theorem add_ne_coe_zero {M : Type} [AddMonoid M] (positive : ∀ x y : M, x + y = 0 → x = 0)
    {x y : WithZero M} (hx : x ≠ ((0 : M) : WithZero M)) (hy : y ≠ ((0 : M) : WithZero M)) :
    x + y ≠ ((0 : M) : WithZero M) := by
  cases x with
  | zero => rwa [zero_add]
  | coe m =>
      cases y with
      | zero => rwa [add_zero]
      | coe n =>
          intro hsum
          rw [← WithZero.coe_add, WithZero.coe_inj] at hsum
          exact hx (congrArg _ (positive m n hsum))

theorem hasNoZero_zero : (0 : Totals).HasNoZero :=
  fun _ => ⟨WithZero.zero_ne_coe, WithZero.zero_ne_coe⟩

theorem HasNoZero.add {x y : Totals} (hx : x.HasNoZero) (hy : y.HasNoZero) :
    (x + y).HasNoZero := by
  intro address
  have hnat : ∀ m n : ℕ, m + n = 0 → m = 0 := by omega
  have hpair : ∀ p q : ℕ × ℕ, p + q = 0 → p = 0 := by
    rintro ⟨m, n⟩ ⟨k, l⟩ hsum
    simp only [Prod.mk_add_mk, Prod.mk_eq_zero] at hsum ⊢
    omega
  exact ⟨add_ne_coe_zero hnat (hx address).1 (hy address).1,
    add_ne_coe_zero hpair (hx address).2 (hy address).2⟩

end Totals

namespace Counters

def HasNoZero (counters : Counters) : Prop :=
  counters.totals.HasNoZero

theorem hasNoZero_iff {counters : Counters} :
    counters.HasNoZero ↔
      ∀ address, counters.hits.get? address ≠ some 0 ∧
        counters.branches.get? address ≠ some .zero := by
  refine forall_congr' fun address => and_congr (not_congr ?_) (not_congr ?_)
  · change counters.hits.amount UInt32.toNat address = WithZero.coe (0 : UInt32).toNat ↔ _
    exact OrderedMap.amount_eq_coe_iff fun _ _ => UInt32.toNat_inj.mp
  · change counters.branches.amount BranchCount.amounts address =
      WithZero.coe BranchCount.zero.amounts ↔ _
    exact OrderedMap.amount_eq_coe_iff BranchCount.amounts_injective

theorem nonzero_of_hasNoZero {counters : Counters} (h : counters.HasNoZero) :
    counters.nonzero = counters := by
  rw [hasNoZero_iff] at h
  have hhits : ∀ address count, counters.hits.get? address = some count →
      (count != 0) = true := by
    intro address count hget
    exact bne_iff_ne.mpr fun hzero => (h address).1 (hzero ▸ hget)
  have hbranches : ∀ address count, counters.branches.get? address = some count →
      (!count.isEmpty) = true := by
    intro address count hget
    rw [Bool.not_eq_true', ← Bool.not_eq_true, BranchCount.isEmpty_iff]
    exact fun hzero => (h address).2 (hzero ▸ hget)
  rw [nonzero, OrderedMap.filterValues_of_forall hhits,
    OrderedMap.filterValues_of_forall hbranches]

theorem hasNoZero_empty : Counters.empty.HasNoZero := by
  rw [HasNoZero, totals_empty]
  exact Totals.hasNoZero_zero

theorem hasNoZero_singleHits {address count : UInt32} (h : count ≠ 0) :
    (singleHits address count).HasNoZero := by
  rw [hasNoZero_iff]
  intro other
  rw [singleHits, OrderedMap.get?_insert]
  constructor
  · split <;> simp [h]
  · simp

theorem hasNoZero_singleBranch {address : UInt32} {count : BranchCount} (h : count ≠ .zero) :
    (singleBranch address count).HasNoZero := by
  rw [hasNoZero_iff]
  intro other
  rw [singleBranch, OrderedMap.get?_insert]
  constructor
  · simp
  · split <;> simp [h]

end Counters

theorem DataRecord.hasNoZero_counters (data : DataRecord) : data.counters.HasNoZero := by
  cases data with
  | hit address => exact Counters.hasNoZero_singleHits (by decide)
  | branch address offset result =>
      apply Counters.hasNoZero_singleBranch
      split <;> decide

theorem Amounts.hasNoZero_single {counters : Counters} (h : counters.HasNoZero)
    (hash other : ContractHash) : ((Amounts.single hash counters).totals other).HasNoZero := by
  by_cases hother : other = hash
  · rw [hother, Amounts.totals_single]
    exact h
  · rw [Amounts.totals_of_eq_zero (Amounts.single_of_ne hother counters)]
    exact Totals.hasNoZero_zero

theorem Trace.hasNoZero_amounts (records : List Attributed) (hash : ContractHash) :
    ((Trace.amounts records).totals hash).HasNoZero := by
  induction records with
  | nil =>
      rw [Amounts.totals_of_eq_zero rfl]
      exact Totals.hasNoZero_zero
  | cons entry rest ih =>
      obtain ⟨other, data⟩ := entry
      rw [Trace.amounts_cons, Amounts.totals_add]
      exact (Amounts.hasNoZero_single data.hasNoZero_counters other hash).add ih

namespace RawDump

theorem Line.hasNoZero_store {counters : Counters} (h : counters.HasNoZero) (line : Line) :
    (line.store counters).HasNoZero := by
  rw [Counters.hasNoZero_iff] at h ⊢
  intro other
  cases line with
  | hits address count =>
      rw [branches_store_hits, get?_hits_store]
      refine ⟨?_, (h other).2⟩
      split
      · rename_i hstored
        simpa using hstored.2
      · exact (h other).1
  | branch address count =>
      rw [hits_store_branch, get?_branches_store]
      refine ⟨(h other).1, ?_⟩
      split
      · rename_i hstored
        rintro ⟨⟩
        cases hstored.2
      · exact (h other).2

theorem hasNoZero_of_storeLines {lines : List (List Char × Nat)} {counters after : Counters}
    (h : counters.HasNoZero) (stored : storeLines counters lines = .ok after) :
    after.HasNoZero := by
  induction lines generalizing counters with
  | nil =>
      cases stored
      exact h
  | cons entry rest ih =>
      obtain ⟨chars, number⟩ := entry
      rw [storeLines] at stored
      cases hline : Line.parse? chars with
      | none =>
          rw [hline] at stored
          cases stored
      | some line =>
          rw [hline] at stored
          exact ih (line.hasNoZero_store h) stored

/-- A dump is read without its zeros. -/
theorem hasNoZero_of_parse {text : List Char} {dump : RawDump} (h : parse text = .ok dump) :
    dump.counters.HasNoZero := by
  unfold parse at h
  split at h
  · cases h
  · obtain ⟨hash, -, hlines⟩ := Except.bind_eq_ok_iff.mp h
    obtain ⟨counters, hstored, hdump⟩ := Except.bind_eq_ok_iff.mp hlines
    cases hdump
    exact hasNoZero_of_storeLines Counters.hasNoZero_empty hstored

end RawDump

/-- What can happen to the contracts of a session. -/
inductive Operation where
  | addContract (name : String) (symbols : SymbolTable) (declared : Option ContractHash)
  | registerScript (hash : ContractHash) (script : Script)
  | applyTrace (records : List TraceRecord)
  | applyRaw (dump : RawDump)

namespace Operation

/-- What an operation leaves, whether it succeeds or fails. -/
def apply (collector : Collector) : Operation → Collector
  | .addContract name symbols declared =>
      ((Collector.addContract name symbols declared).run collector).2
  | .registerScript hash script => ((Collector.registerScript hash script).run collector).2
  | .applyTrace records => ((Collector.applyTrace records).run collector).2
  | .applyRaw dump => ((Collector.applyRaw dump).run collector).2

/-- A dump that is applied was read from a text. -/
def IsRead : Operation → Prop
  | .applyRaw dump => ∃ text, RawDump.parse text = .ok dump
  | _ => True

end Operation

namespace Collector

variable {before after : Collector} {hash : ContractHash}

def applyAll (collector : Collector) (operations : List Operation) : Collector :=
  operations.foldl Operation.apply collector

/-- No counter of the contract is zero. -/
def HasNoZero (collector : Collector) (hash : ContractHash) : Prop :=
  ∀ recording, collector.get? hash = some recording → recording.counters.HasNoZero

theorem Adds.hasNoZero {amounts : Amounts} (h : before.Adds amounts after)
    (hbefore : before.HasNoZero hash) (hamounts : (amounts.totals hash).HasNoZero) :
    after.HasNoZero hash := by
  intro recording hget
  cases hgot : before.get? hash with
  | none =>
      rw [(h.of_none hgot).2] at hget
      cases hget
  | some kept =>
      obtain ⟨counters, hafter, htotals⟩ := h.of_some hgot
      rw [hafter] at hget
      cases hget
      have hsum := (hbefore kept hgot).add hamounts
      rwa [← htotals] at hsum

/-- Adding a contract fails if another hash is declared for it, or else if its hash has a
contract; both leave the collector as it is. Otherwise the contract is new. -/
theorem addContract_outcome (name : String) (symbols : SymbolTable)
    (declared : Option ContractHash) (collector : Collector) :
    (∃ expected ∈ declared, expected ≠ symbols.hash ∧
      (addContract name symbols declared).run collector =
        (.error (.identityMismatch expected symbols.hash), collector)) ∨
    (∀ expected ∈ declared, expected = symbols.hash) ∧
      ((∃ held, collector.get? symbols.hash = some held) ∧
          (addContract name symbols declared).run collector =
            (.error (.duplicateContract symbols.hash), collector) ∨
        collector.get? symbols.hash = none ∧
          (addContract name symbols declared).run collector =
            (.ok symbols.hash, ⟨collector.contracts.insert symbols.hash (.new name symbols)⟩)) := by
  by_cases hmatch : ∀ expected ∈ declared, expected = symbols.hash
  · have hnone : (addContract name symbols declared).run collector =
        (addContract name symbols none).run collector := by
      cases declared with
      | none => rfl
      | some expected => simp [addContract, Step.run_bind, hmatch expected rfl]
    refine .inr ⟨hmatch, ?_⟩
    rw [hnone]
    cases hcontains : collector.contains symbols.hash with
    | true =>
        exact .inl ⟨Option.isSome_iff_exists.mp hcontains,
          by simp [addContract, Step.run_bind, hcontains]⟩
    | false =>
        refine .inr ⟨Option.isNone_iff_eq_none.mp (Option.isSome_eq_false_iff.mp hcontains), ?_⟩
        simp only [addContract, Step.run_bind, Step.run_get, hcontains]
        rfl
  · push Not at hmatch
    obtain ⟨expected, hdeclared, hne⟩ := hmatch
    obtain rfl : declared = some expected := hdeclared
    exact .inl ⟨expected, rfl, hne, by simp [addContract, Step.run_bind, hne]⟩

/-- Adding a contract fails and changes nothing, or adds a new contract under a hash that was
free. -/
theorem addContract_cases (name : String) (symbols : SymbolTable) (declared : Option ContractHash)
    (collector : Collector) :
    (∃ e, (addContract name symbols declared).run collector = (.error e, collector)) ∨
      collector.get? symbols.hash = none ∧
        (addContract name symbols declared).run collector =
          (.ok symbols.hash, ⟨collector.contracts.insert symbols.hash (.new name symbols)⟩) := by
  rcases addContract_outcome name symbols declared collector with
    ⟨expected, -, -, hrun⟩ | ⟨-, ⟨-, hrun⟩ | hnew⟩
  · exact .inl ⟨_, hrun⟩
  · exact .inl ⟨_, hrun⟩
  · exact .inr hnew

theorem run_addContract (name : String) (symbols : SymbolTable) (declared : Option ContractHash)
    (collector : Collector) :
    ((addContract name symbols declared).run collector).2 = collector ∨
      collector.get? symbols.hash = none ∧
        ((addContract name symbols declared).run collector).2 =
          ⟨collector.contracts.insert symbols.hash (.new name symbols)⟩ := by
  rcases addContract_cases name symbols declared collector with ⟨e, hrun⟩ | ⟨hfree, hrun⟩
  · exact .inl (congrArg Prod.snd hrun)
  · exact .inr ⟨hfree, congrArg Prod.snd hrun⟩

theorem hasNoZero_addContract (h : before.HasNoZero hash) (name : String)
    (symbols : SymbolTable) (declared : Option ContractHash) :
    ((addContract name symbols declared).run before).2.HasNoZero hash := by
  rcases run_addContract name symbols declared before with hsame | ⟨-, hnew⟩
  · rwa [hsame]
  · intro recording hget
    rw [hnew, get?_insert] at hget
    split at hget
    · cases hget
      exact Counters.hasNoZero_empty
    · exact h recording hget

theorem run_registerScript_counters (script : Script) (recording : Recording) :
    ((Recording.registerScript script).run recording).2.counters = recording.counters := by
  simp only [Recording.registerScript, Step.run_bind, Step.run_get]
  cases recording.script <;> rfl

theorem hasNoZero_registerScript (h : before.HasNoZero hash) (other : ContractHash)
    (script : Script) : ((registerScript other script).run before).2.HasNoZero hash := by
  intro recording hget
  rw [registerScript, run_onContract] at hget
  cases hother : before.get? other with
  | none =>
      rw [hother] at hget
      exact h recording hget
  | some kept =>
      simp only [hother, get?_insert] at hget
      split at hget
      · rename_i heq
        cases hget
        rw [run_registerScript_counters]
        exact h kept (heq ▸ hother)
      · exact h recording hget

/-- A step that adds amounts without zeros, or else changes nothing, leaves no zero. -/
theorem hasNoZero_of_adds {α : Type} {step : Step Collector α} (atomic : step.Atomic)
    (h : before.HasNoZero hash)
    (adds : ∀ answer after, step.run before = (.ok answer, after) →
      ∃ amounts, before.Adds amounts after ∧ (amounts.totals hash).HasNoZero) :
    (step.run before).2.HasNoZero hash := by
  cases hrun : step.run before with
  | mk result after =>
      cases result with
      | ok answer =>
          obtain ⟨amounts, hadds, hamounts⟩ := adds answer after hrun
          exact hadds.hasNoZero h hamounts
      | error e =>
          rw [atomic before e after hrun]
          exact h

theorem hasNoZero_applyTrace (h : before.HasNoZero hash) (records : List TraceRecord) :
    ((applyTrace records).run before).2.HasNoZero hash := by
  refine hasNoZero_of_adds (applyTrace_atomic records) h fun answer after hrun => ?_
  obtain ⟨-, hadds⟩ := exists_applyTrace_iff.mp ⟨answer, hrun⟩
  exact ⟨_, hadds, Trace.hasNoZero_amounts _ hash⟩

theorem hasNoZero_applyRaw (h : before.HasNoZero hash) {dump : RawDump}
    (hdump : dump.counters.HasNoZero) : ((applyRaw dump).run before).2.HasNoZero hash := by
  refine hasNoZero_of_adds (applyRaw_atomic dump) h fun _ after hrun => ?_
  exact ⟨_, applyRaw_eq_ok_iff.mp hrun, Amounts.hasNoZero_single hdump dump.hash hash⟩

theorem hasNoZero_apply (h : before.HasNoZero hash) {operation : Operation}
    (read : operation.IsRead) : (operation.apply before).HasNoZero hash := by
  cases operation with
  | addContract name symbols declared => exact hasNoZero_addContract h name symbols declared
  | registerScript other script => exact hasNoZero_registerScript h other script
  | applyTrace records => exact hasNoZero_applyTrace h records
  | applyRaw dump =>
      obtain ⟨text, hparse⟩ := read
      exact hasNoZero_applyRaw h (RawDump.hasNoZero_of_parse hparse)

/-- Counters stay free of zeros whatever happens. -/
theorem hasNoZero_applyAll (h : before.HasNoZero hash) {operations : List Operation}
    (read : ∀ operation ∈ operations, operation.IsRead) :
    (before.applyAll operations).HasNoZero hash := by
  induction operations generalizing before with
  | nil => exact h
  | cons operation rest ih =>
      obtain ⟨hfirst, hrest⟩ := List.forall_mem_cons.mp read
      exact ih (hasNoZero_apply h hfirst) hrest

end Collector

end ScriptCoverage
