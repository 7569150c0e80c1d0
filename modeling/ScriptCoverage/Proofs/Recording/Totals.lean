import Mathlib.Algebra.Group.Nat.Even
import Mathlib.Algebra.Group.Prod
import ScriptCoverage.Proofs.Data.Amount
import ScriptCoverage.Proofs.Data.Except
import ScriptCoverage.Proofs.Recording.Step

/-!
Counters as unbounded amounts. The totals of a set of counters are the amounts at each
address, and merging adds totals: it succeeds when every sum fits into 32 bits, and
names an address whose sum does not fit when it fails. Recording one hit or one branch
merges a single entry, so all recording is addition of totals.
-/

namespace ScriptCoverage

/-- What is counted at one address: hits, and taken and continued outcomes. -/
abbrev Amount := WithZero ℕ × WithZero (ℕ × ℕ)

abbrev Totals := UInt32 → Amount

namespace Amount

def hits (amount : Amount) : ℕ :=
  WithZero.lift (AddHom.id ℕ) amount.1

def outcomes (amount : Amount) : ℕ × ℕ :=
  WithZero.lift (AddHom.id (ℕ × ℕ)) amount.2

theorem hits_add (x y : Amount) : (x + y).hits = x.hits + y.hits := by
  simp [hits]

theorem outcomes_add (x y : Amount) : (x + y).outcomes = x.outcomes + y.outcomes := by
  simp [outcomes]

/-- The three counters of an address hold at most 2 ^ 32 - 1. -/
structure Fits (amount : Amount) : Prop where
  hits : amount.hits < 2 ^ 32
  taken : amount.outcomes.1 < 2 ^ 32
  continued : amount.outcomes.2 < 2 ^ 32

theorem fits_iff {amount : Amount} : amount.Fits ↔ amount.hits < 2 ^ 32 ∧
    amount.outcomes.1 < 2 ^ 32 ∧ amount.outcomes.2 < 2 ^ 32 :=
  ⟨fun ⟨hhits, htaken, hcontinued⟩ => ⟨hhits, htaken, hcontinued⟩,
    fun ⟨hhits, htaken, hcontinued⟩ => ⟨hhits, htaken, hcontinued⟩⟩

theorem Fits.of_add {x y : Amount} (h : (x + y).Fits) : x.Fits := by
  obtain ⟨hhits, htaken, hcontinued⟩ := h
  rw [hits_add] at hhits
  rw [outcomes_add, Prod.fst_add] at htaken
  rw [outcomes_add, Prod.snd_add] at hcontinued
  exact ⟨by omega, by omega, by omega⟩

end Amount

theorem toNat_eq_of_sumHits {address current count total : UInt32}
    (h : sumHits address current count = .ok total) :
    total.toNat = current.toNat + count.toNat := by
  unfold sumHits at h
  split at h
  · rename_i hfits
    cases h
    rw [UInt32.toNat_add, Nat.mod_eq_of_lt hfits]
  · cases h

theorem overflow_of_sumHits {address current count : UInt32} {e : CoverageError}
    (h : sumHits address current count = .error e) :
    e = .counterOverflow address ∧ 2 ^ 32 ≤ current.toNat + count.toNat := by
  unfold sumHits at h
  split at h
  · cases h
  · rename_i hover
    cases h
    exact ⟨rfl, Nat.le_of_not_lt hover⟩

namespace BranchCount

def amounts (count : BranchCount) : ℕ × ℕ :=
  (count.taken.toNat, count.continued.toNat)

theorem amounts_injective : Function.Injective amounts := by
  rintro ⟨taken, continued⟩ ⟨taken', continued'⟩ heq
  simpa [amounts, UInt32.toNat_inj] using heq

end BranchCount

theorem amounts_eq_of_sumBranch {address : UInt32} {current count total : BranchCount}
    (h : sumBranch address current count = .ok total) :
    total.amounts = current.amounts + count.amounts := by
  obtain ⟨taken, htaken, hrest⟩ := Except.bind_eq_ok_iff.mp h
  obtain ⟨continued, hcontinued, htotal⟩ := Except.bind_eq_ok_iff.mp hrest
  cases htotal
  exact Prod.ext (toNat_eq_of_sumHits htaken) (toNat_eq_of_sumHits hcontinued)

theorem overflow_of_sumBranch {address : UInt32} {current count : BranchCount}
    {e : CoverageError} (h : sumBranch address current count = .error e) :
    e = .counterOverflow address ∧
      (2 ^ 32 ≤ (current.amounts + count.amounts).1 ∨
        2 ^ 32 ≤ (current.amounts + count.amounts).2) := by
  rcases Except.bind_eq_error_iff.mp h with htaken | ⟨taken, -, hrest⟩
  · obtain ⟨he, hover⟩ := overflow_of_sumHits htaken
    exact ⟨he, .inl hover⟩
  · rcases Except.bind_eq_error_iff.mp hrest with hcontinued | ⟨continued, -, hpure⟩
    · obtain ⟨he, hover⟩ := overflow_of_sumHits hcontinued
      exact ⟨he, .inr hover⟩
    · cases hpure

namespace Counters

def totals (counters : Counters) : Totals := fun address =>
  (counters.hits.amount UInt32.toNat address, counters.branches.amount BranchCount.amounts address)

theorem totals_empty : Counters.empty.totals = 0 := by
  funext address
  rfl

/-- Counters are determined by their totals. -/
theorem totals_injective : Function.Injective totals := by
  rintro ⟨hits, branches⟩ ⟨hits', branches'⟩ heq
  have hhits : hits = hits' :=
    OrderedMap.amount_injective (fun _ _ => UInt32.toNat_inj.mp)
      (funext fun address => congrArg Prod.fst (congrFun heq address))
  have hbranches : branches = branches' :=
    OrderedMap.amount_injective BranchCount.amounts_injective
      (funext fun address => congrArg Prod.snd (congrFun heq address))
  rw [hhits, hbranches]

theorem hits_totals (counters : Counters) (address : UInt32) :
    (counters.totals address).hits = (counters.hitCount address).toNat := by
  unfold totals Amount.hits OrderedMap.amount hitCount
  cases counters.hits.get? address with
  | none => rfl
  | some count => simp

theorem outcomes_totals (counters : Counters) (address : UInt32) :
    (counters.totals address).outcomes = (counters.branchCount address).amounts := by
  unfold totals Amount.outcomes OrderedMap.amount branchCount
  cases counters.branches.get? address with
  | none => rfl
  | some count => simp

theorem fits_totals (counters : Counters) (address : UInt32) :
    (counters.totals address).Fits where
  hits := hits_totals counters address ▸ UInt32.toNat_lt _
  taken := outcomes_totals counters address ▸ UInt32.toNat_lt _
  continued := outcomes_totals counters address ▸ UInt32.toNat_lt _

private theorem coe_hitCount_add (counters : Counters) (address count : UInt32) :
    WithZero.coe ((counters.hitCount address).toNat + count.toNat) =
      counters.hits.amount UInt32.toNat address + WithZero.coe count.toNat := by
  unfold hitCount OrderedMap.amount
  cases counters.hits.get? address with
  | none => simp
  | some current => simp

private theorem coe_branchCount_add (counters : Counters) (address : UInt32)
    (count : BranchCount) :
    WithZero.coe ((counters.branchCount address).amounts + count.amounts) =
      counters.branches.amount BranchCount.amounts address + WithZero.coe count.amounts := by
  unfold branchCount OrderedMap.amount
  cases counters.branches.get? address with
  | none => simp [BranchCount.zero, BranchCount.amounts]
  | some current => simp

theorem run_merge (counters more : Counters) :
    (merge more).run counters =
      match merged counters more with
      | .ok (hits, branches) =>
          (.ok (), ⟨counters.hits.insertAll hits, counters.branches.insertAll branches⟩)
      | .error e => (.error e, counters) := by
  simp only [merge, Step.run_bind, Step.run_get, Step.run_lift]
  cases merged counters more <;> rfl

theorem merged_totals {counters more : Counters} {hits : List (UInt32 × UInt32)}
    {branches : List (UInt32 × BranchCount)}
    (h : merged counters more = .ok (hits, branches)) :
    totals ⟨counters.hits.insertAll hits, counters.branches.insertAll branches⟩ =
      counters.totals + more.totals := by
  obtain ⟨hits', hhits, hrest⟩ := Except.bind_eq_ok_iff.mp h
  obtain ⟨branches', hbranches, hpure⟩ := Except.bind_eq_ok_iff.mp hrest
  cases hpure
  have hitSums : (counters.hits.insertAll hits).amount UInt32.toNat =
      counters.hits.amount UInt32.toNat + more.hits.amount UInt32.toNat := by
    apply OrderedMap.amount_insertAll
    refine (Except.mapM_eq_ok_iff.mp hhits).imp fun entry sum hsum => ?_
    obtain ⟨total, htotal, hsum⟩ := Except.bind_eq_ok_iff.mp hsum
    cases hsum
    exact ⟨rfl, by rw [toNat_eq_of_sumHits htotal, coe_hitCount_add]⟩
  have branchSums : (counters.branches.insertAll branches).amount BranchCount.amounts =
      counters.branches.amount BranchCount.amounts +
        more.branches.amount BranchCount.amounts := by
    apply OrderedMap.amount_insertAll
    refine (Except.mapM_eq_ok_iff.mp hbranches).imp fun entry sum hsum => ?_
    obtain ⟨total, htotal, hsum⟩ := Except.bind_eq_ok_iff.mp hsum
    cases hsum
    exact ⟨rfl, by rw [amounts_eq_of_sumBranch htotal, coe_branchCount_add]⟩
  funext address
  exact Prod.ext (congrFun hitSums address) (congrFun branchSums address)

/-- The sums of a merge fail at an address only when a counter there would pass its
bound. -/
theorem overflow_of_merged {counters more : Counters} {e : CoverageError}
    (h : merged counters more = .error e) :
    ∃ address, e = .counterOverflow address ∧
      ¬((counters.totals + more.totals) address).Fits := by
  rcases Except.bind_eq_error_iff.mp h with hhits | ⟨hits, -, hrest⟩
  · obtain ⟨⟨address, count⟩, hmem, hentry⟩ := Except.exists_of_mapM_error hhits
    have hsum : sumHits address (counters.hitCount address) count = .error e := by
      rcases Except.bind_eq_error_iff.mp hentry with hsum | ⟨_, -, hpure⟩
      · exact hsum
      · cases hpure
    obtain ⟨he, hover⟩ := overflow_of_sumHits hsum
    have hmore : more.hitCount address = count := by
      rw [hitCount, OrderedMap.get?_eq_some_iff.mpr hmem, Option.getD_some]
    refine ⟨address, he, fun hfits => ?_⟩
    have hbound := hfits.hits
    rw [Pi.add_apply, Amount.hits_add, hits_totals, hits_totals, hmore] at hbound
    omega
  · rcases Except.bind_eq_error_iff.mp hrest with hbranches | ⟨branches, -, hpure⟩
    · obtain ⟨⟨address, count⟩, hmem, hentry⟩ := Except.exists_of_mapM_error hbranches
      have hsum : sumBranch address (counters.branchCount address) count = .error e := by
        rcases Except.bind_eq_error_iff.mp hentry with hsum | ⟨_, -, hpure⟩
        · exact hsum
        · cases hpure
      obtain ⟨he, hover⟩ := overflow_of_sumBranch hsum
      have hmore : more.branchCount address = count := by
        rw [branchCount, OrderedMap.get?_eq_some_iff.mpr hmem, Option.getD_some]
      refine ⟨address, he, fun hfits => ?_⟩
      have htaken := hfits.taken
      have hcontinued := hfits.continued
      rw [Pi.add_apply, Amount.outcomes_add, outcomes_totals, outcomes_totals, hmore]
        at htaken hcontinued
      omega
    · cases hpure

/-- Merging adds the totals, and nothing else is the result of a merge. -/
theorem merge_eq_ok_iff {counters more after : Counters} :
    (merge more).run counters = (.ok (), after) ↔
      after.totals = counters.totals + more.totals := by
  rw [run_merge]
  cases h : merged counters more with
  | error e =>
      obtain ⟨address, -, hover⟩ := overflow_of_merged h
      constructor
      · simp
      · intro htotals
        exact absurd (htotals ▸ after.fits_totals address) hover
  | ok sums =>
      obtain ⟨hits, branches⟩ := sums
      rw [← merged_totals h, totals_injective.eq_iff, Prod.mk.injEq]
      constructor
      · intro hafter
        exact hafter.2.symm
      · intro hafter
        exact ⟨rfl, hafter.symm⟩

/-- A merge that fails has changed nothing, and names an address whose counters cannot
hold the sum. -/
theorem of_merge_error {counters more after : Counters} {e : CoverageError}
    (h : (merge more).run counters = (.error e, after)) :
    after = counters ∧ ∃ address, e = .counterOverflow address ∧
      ¬((counters.totals + more.totals) address).Fits := by
  rw [run_merge] at h
  cases hsums : merged counters more with
  | error e' =>
      rw [hsums] at h
      cases h
      exact ⟨rfl, overflow_of_merged hsums⟩
  | ok sums =>
      rw [hsums] at h
      cases h

/-- A merge succeeds whenever its sum is part of amounts that counters hold. -/
theorem exists_merge_of_totals {counters more whole : Counters} {rest : Totals}
    (h : whole.totals = counters.totals + more.totals + rest) :
    ∃ after, (merge more).run counters = (.ok (), after) := by
  cases hrun : (merge more).run counters with
  | mk result after =>
      cases result with
      | ok value => exact ⟨after, rfl⟩
      | error e =>
          obtain ⟨-, address, -, hover⟩ := of_merge_error hrun
          have hwhole := whole.fits_totals address
          rw [h, Pi.add_apply] at hwhole
          exact absurd hwhole.of_add hover

theorem merge_atomic (more : Counters) : (merge more).Atomic :=
  fun _ _ _ h => (of_merge_error h).1

theorem checkMerge_eq_ok_iff {counters more : Counters} :
    counters.checkMerge more = .ok () ↔
      ∃ after, (merge more).run counters = (.ok (), after) := by
  simp only [run_merge, checkMerge]
  cases merged counters more with
  | error e => simp [Except.map]
  | ok sums => simp [Except.map]

/-- Counters with hits at one address only. -/
def singleHits (address count : UInt32) : Counters :=
  ⟨(∅ : OrderedMap UInt32 UInt32).insert address count, ∅⟩

/-- Counters with outcomes at one address only. -/
def singleBranch (address : UInt32) (count : BranchCount) : Counters :=
  ⟨∅, (∅ : OrderedMap UInt32 BranchCount).insert address count⟩

theorem addHits_eq_merge (address count : UInt32) :
    addHits address count = merge (singleHits address count) := by
  funext counters
  change (addHits address count).run counters = (merge (singleHits address count)).run counters
  have hmerged : merged counters (singleHits address count) =
      (sumHits address (counters.hitCount address) count).map fun total =>
        ([(address, total)], []) := by
    simp only [merged, singleHits, OrderedMap.entries_insert_empty, List.mapM_cons,
      List.mapM_nil]
    cases sumHits address (counters.hitCount address) count <;> rfl
  rw [run_merge, hmerged]
  simp only [addHits, Step.run_bind, Step.run_get, Step.run_lift]
  cases sumHits address (counters.hitCount address) count <;> rfl

theorem addBranch_eq_merge (address : UInt32) (count : BranchCount) :
    addBranch address count = merge (singleBranch address count) := by
  funext counters
  change (addBranch address count).run counters =
    (merge (singleBranch address count)).run counters
  have hmerged : merged counters (singleBranch address count) =
      (sumBranch address (counters.branchCount address) count).map fun total =>
        ([], [(address, total)]) := by
    simp only [merged, singleBranch, OrderedMap.entries_insert_empty, List.mapM_cons,
      List.mapM_nil]
    cases sumBranch address (counters.branchCount address) count <;> rfl
  rw [run_merge, hmerged]
  simp only [addBranch, Step.run_bind, Step.run_get, Step.run_lift]
  cases sumBranch address (counters.branchCount address) count <;> rfl

end Counters

end ScriptCoverage
