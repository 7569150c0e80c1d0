import ScriptCoverage.Proofs.Recording.Lifecycle
import ScriptCoverage.Proofs.Session.Isolation

/-!
Which contracts a session tracks. A source supplies a contract if it loads and the hash that it
declares, if any, is that of its symbols. Of the sources that supply a contract under one hash
the first counts; all other sources leave the collector as it is and can be left out.
-/

namespace ScriptCoverage

namespace Registration

/-- The source loads, and the hash that it declares, if any, is that of its symbols. -/
def Supplies (source : Registration) (contract : Recording) : Prop :=
  ∃ symbols, source.symbols = .ok symbols ∧
    (∀ expected ∈ source.declared, expected = symbols.hash) ∧
    contract = .new source.name symbols

/-- The contract that the source supplies, if it does so under this hash. -/
def contractFor? (hash : ContractHash) (source : Registration) : Option Recording :=
  match source.symbols with
  | .error _ => none
  | .ok symbols =>
      if symbols.hash = hash ∧ source.declared.all (· == symbols.hash) then
        some (.new source.name symbols)
      else none

/-- The contract of the first source that supplies one under its hash. -/
def FirstSupplied (registrations : List Registration) (contract : Recording) : Prop :=
  ∃ before source after, registrations = before ++ source :: after ∧ source.Supplies contract ∧
    ∀ other ∈ before, ∀ earlier, other.Supplies earlier → earlier.hash ≠ contract.hash

/-- Why a source does not count: it fails to load, it does not match what it declares, or an
earlier source supplies the contract. -/
inductive PassedOver (earlier : List Registration) (source : Registration) : Prop where
  | failed {e : SymbolsError} (loads : source.symbols = .error e)
  | mismatched {symbols : SymbolTable} {expected : ContractHash}
      (loads : source.symbols = .ok symbols) (declares : source.declared = some expected)
      (differs : expected ≠ symbols.hash)
  | repeated {symbols : SymbolTable} {other : Registration} {contract : Recording}
      (loads : source.symbols = .ok symbols) (member : other ∈ earlier)
      (supplies : other.Supplies contract) (same : contract.hash = symbols.hash)

/-- Some of the sources that are passed over are left out; `earlier` are those in front. -/
inductive LeavesOut : (earlier registrations fewer : List Registration) → Prop where
  | nil (earlier : List Registration) : LeavesOut earlier [] []
  | keep {earlier : List Registration} {source : Registration} {rest fewer : List Registration}
      (kept : LeavesOut (earlier ++ [source]) rest fewer) :
      LeavesOut earlier (source :: rest) (source :: fewer)
  | drop {earlier : List Registration} {source : Registration} {rest fewer : List Registration}
      (passedOver : source.PassedOver earlier)
      (kept : LeavesOut (earlier ++ [source]) rest fewer) :
      LeavesOut earlier (source :: rest) fewer

variable {registrations earlier fewer : List Registration} {source : Registration}
  {contract : Recording} {hash : ContractHash}

theorem all_declared_iff {declared : Option ContractHash} : declared.all (· == hash) = true ↔
    ∀ expected ∈ declared, expected = hash := by
  simp only [Option.all_eq_true, beq_iff_eq]
  rfl

theorem contractFor?_eq_some_iff :
    source.contractFor? hash = some contract ↔ source.Supplies contract ∧ contract.hash = hash := by
  unfold contractFor? Supplies
  cases source.symbols with
  | error e => simp
  | ok symbols =>
      simp only [Except.ok.injEq]
      constructor
      · intro h
        split at h
        · rename_i hgood
          cases h
          exact ⟨⟨symbols, rfl, all_declared_iff.mp hgood.2, rfl⟩, hgood.1⟩
        · cases h
      · rintro ⟨⟨_, rfl, hdeclared, rfl⟩, hhash⟩
        rw [if_pos ⟨hhash, all_declared_iff.mpr hdeclared⟩]

theorem contractFor?_eq_none_iff : source.contractFor? hash = none ↔
    ∀ contract, source.Supplies contract → contract.hash ≠ hash := by
  simp only [Option.eq_none_iff_forall_ne_some, ne_eq, contractFor?_eq_some_iff, not_and]

theorem findSome?_contractFor?_eq_some_iff :
    registrations.findSome? (contractFor? hash) = some contract ↔
      contract.hash = hash ∧ FirstSupplied registrations contract := by
  simp only [List.findSome?_eq_some_iff, contractFor?_eq_some_iff, contractFor?_eq_none_iff,
    FirstSupplied]
  constructor
  · rintro ⟨before, source, after, hsplit, ⟨hsupplies, rfl⟩, hbefore⟩
    exact ⟨rfl, before, source, after, hsplit, hsupplies, hbefore⟩
  · rintro ⟨rfl, before, source, after, hsplit, hsupplies, hbefore⟩
    exact ⟨before, source, after, hsplit, ⟨hsupplies, rfl⟩, hbefore⟩

theorem findSome?_contractFor?_cons (source : Registration) (rest : List Registration)
    (hash : ContractHash) : (source :: rest).findSome? (contractFor? hash) =
      (source.contractFor? hash).or (rest.findSome? (contractFor? hash)) := by
  rw [List.findSome?_cons]
  cases source.contractFor? hash <;> rfl

theorem findSome?_contractFor?_concat (earlier : List Registration) (source : Registration)
    (hash : ContractHash) : (earlier ++ [source]).findSome? (contractFor? hash) =
      (earlier.findSome? (contractFor? hash)).or (source.contractFor? hash) := by
  rw [List.findSome?_append, findSome?_contractFor?_cons, List.findSome?_nil, Option.or_none]

/-- What a source supplies that is passed over, an earlier one has supplied. -/
theorem PassedOver.isSome_findSome? (h : source.PassedOver earlier)
    (hsupplies : source.contractFor? hash = some contract) :
    (earlier.findSome? (contractFor? hash)).isSome := by
  obtain ⟨⟨symbols, hloads, hdeclared, rfl⟩, rfl⟩ := contractFor?_eq_some_iff.mp hsupplies
  cases h with
  | failed loads =>
      rw [loads] at hloads
      cases hloads
  | mismatched loads declares differs =>
      rw [loads, Except.ok.injEq] at hloads
      subst hloads
      exact absurd (hdeclared _ declares) differs
  | @repeated symbols other contract loads member supplies same =>
      rw [loads, Except.ok.injEq] at hloads
      subst hloads
      have hother : other.contractFor? symbols.hash = some contract :=
        contractFor?_eq_some_iff.mpr ⟨supplies, same⟩
      exact List.findSome?_isSome_iff.mpr ⟨other, member, Option.isSome_of_eq_some hother⟩

/-- Sources that are passed over do not change who comes first. -/
theorem LeavesOut.findSome?_eq (h : LeavesOut earlier registrations fewer) (hash : ContractHash) :
    (earlier.findSome? (contractFor? hash)).or (registrations.findSome? (contractFor? hash)) =
      (earlier.findSome? (contractFor? hash)).or (fewer.findSome? (contractFor? hash)) := by
  induction h with
  | nil earlier => rfl
  | @keep earlier source rest fewer _ ih =>
      rw [findSome?_contractFor?_concat] at ih
      rw [findSome?_contractFor?_cons, findSome?_contractFor?_cons, ← Option.or_assoc,
        ← Option.or_assoc, ih]
  | @drop earlier source rest fewer passedOver _ ih =>
      rw [findSome?_contractFor?_concat] at ih
      have hsource : (earlier.findSome? (contractFor? hash)).or (source.contractFor? hash) =
          earlier.findSome? (contractFor? hash) := by
        cases hsupplies : source.contractFor? hash with
        | none => rw [Option.or_none]
        | some contract => rw [Option.or_of_isSome (passedOver.isSome_findSome? hsupplies)]
      rw [findSome?_contractFor?_cons, ← Option.or_assoc, ih, hsource]

end Registration

namespace Collector

/-- Adding a contract leaves one that is there. -/
theorem get?_addContract (name : String) (symbols : SymbolTable) (declared : Option ContractHash)
    (collector : Collector) (hash : ContractHash) :
    ((addContract name symbols declared).run collector).2.get? hash = (collector.get? hash).or
      (Registration.contractFor? hash ⟨name, .ok symbols, declared⟩) := by
  simp only [Registration.contractFor?, Registration.all_declared_iff]
  rcases addContract_outcome name symbols declared collector with
    ⟨expected, hdeclared, hne, hrun⟩ | ⟨hmatch, ⟨⟨held, hheld⟩, hrun⟩ | ⟨hfree, hrun⟩⟩
  · rw [hrun, if_neg fun h => hne (h.2 expected hdeclared), Option.or_none]
  · rw [hrun]
    split
    · rename_i hgood
      rw [← hgood.1, hheld, Option.some_or]
    · rw [Option.or_none]
  · rw [hrun, get?_insert]
    by_cases hhash : hash = symbols.hash
    · rw [if_pos hhash, if_pos ⟨hhash.symm, hmatch⟩, hhash, hfree, Option.none_or]
    · rw [if_neg hhash, if_neg fun h => hhash h.1.symm, Option.or_none]

end Collector

namespace Tracking

theorem get?_add (tracking : Tracking) (source : Registration) (hash : ContractHash) :
    (tracking.add source).collector.get? hash =
      (tracking.collector.get? hash).or (source.contractFor? hash) := by
  cases hsymbols : source.symbols with
  | error e =>
      have hnone : source.contractFor? hash = none := by rw [Registration.contractFor?, hsymbols]
      rw [tracking.collector_add_of_error hsymbols, hnone, Option.or_none]
  | ok symbols =>
      rw [tracking.collector_add_of_ok hsymbols, Collector.get?_addContract, ← hsymbols]

/-- Sources add up to the first that supplies a contract, behind what is there. -/
theorem get?_addAll (tracking : Tracking) (registrations : List Registration)
    (hash : ContractHash) : (tracking.addAll registrations).collector.get? hash =
      (tracking.collector.get? hash).or
        (registrations.findSome? (Registration.contractFor? hash)) := by
  induction registrations generalizing tracking with
  | nil => rw [List.findSome?_nil, Option.or_none, addAll, List.foldl_nil]
  | cons source rest ih =>
      have hcons : tracking.addAll (source :: rest) = (tracking.add source).addAll rest := rfl
      rw [hcons, ih, get?_add, Option.or_assoc, Registration.findSome?_contractFor?_cons]

end Tracking

namespace Session

variable {registrations fewer : List Registration} {contract : Recording} {hash : ContractHash}

theorem get?_tracked : (tracked registrations).get? hash =
    registrations.findSome? (Registration.contractFor? hash) := by
  have hempty : Tracking.empty.collector.get? hash = none := rfl
  rw [tracked, Tracking.get?_addAll, hempty, Option.none_or]

theorem get?_tracked_eq_some_iff : (tracked registrations).get? hash = some contract ↔
    contract.hash = hash ∧ Registration.FirstSupplied registrations contract := by
  rw [get?_tracked, Registration.findSome?_contractFor?_eq_some_iff]

theorem mem_recordings_tracked_iff : contract ∈ (tracked registrations).recordings ↔
    Registration.FirstSupplied registrations contract := by
  rw [(isFresh_tracked registrations).keyed.mem_recordings_iff, get?_tracked_eq_some_iff]
  exact and_iff_right rfl

/-- A hash is tracked if any source supplies a contract under it. -/
theorem mem_hashes_tracked_iff :
    hash ∈ (tracked registrations).recordings.map (·.hash) ↔
      ∃ source ∈ registrations, ∃ contract, source.Supplies contract ∧ contract.hash = hash := by
  have hfirst : hash ∈ (tracked registrations).recordings.map (·.hash) ↔
      ∃ contract, registrations.findSome? (Registration.contractFor? hash) = some contract := by
    simp only [List.mem_map, mem_recordings_tracked_iff,
      Registration.findSome?_contractFor?_eq_some_iff, and_comm]
  rw [hfirst, ← Option.isSome_iff_exists, List.findSome?_isSome_iff]
  simp only [Option.isSome_iff_exists, Registration.contractFor?_eq_some_iff]

theorem tracked_leavesOut (h : Registration.LeavesOut [] registrations fewer) :
    tracked fewer = tracked registrations := by
  apply Collector.ext_get?
  intro hash
  have hsame := h.findSome?_eq hash
  rw [List.findSome?_nil, Option.none_or, Option.none_or] at hsame
  rw [get?_tracked, get?_tracked, hsame]

/-- A session that starts tracks, for every hash under which some source supplies a contract,
that of the first source that does, and nothing else, and it answers how many hashes there are.
Sources that fail to load, do not match what they declare, or supply what an earlier source
has supplied can be left out, any of them, and the session starts the same. -/
theorem start_tracks_first_supplied (options : SessionOptions)
    (registrations : List Registration) (timestamp : Nat) :
    ∃ collector hashes,
      ((new options).start registrations timestamp).session =
        ⟨options, .collecting collector timestamp⟩ ∧
      ((new options).start registrations timestamp).result = .ok hashes.length ∧
      (∀ hash contract, collector.get? hash = some contract ↔
        contract.hash = hash ∧ Registration.FirstSupplied registrations contract) ∧
      (∀ contract, contract ∈ collector.recordings ↔
        Registration.FirstSupplied registrations contract) ∧
      collector.recordings.map (·.hash) = hashes ∧ hashes.Nodup ∧
      (∀ hash, hash ∈ hashes ↔
        ∃ source ∈ registrations, ∃ contract, source.Supplies contract ∧ contract.hash = hash) ∧
      ∀ fewer, Registration.LeavesOut [] registrations fewer →
        ((new options).start fewer timestamp).session =
            ((new options).start registrations timestamp).session ∧
          ((new options).start fewer timestamp).result =
            ((new options).start registrations timestamp).result := by
  have hstart (sources : List Registration) :
      ((new options).start sources timestamp).session =
          ⟨options, .collecting (tracked sources) timestamp⟩ ∧
        ((new options).start sources timestamp).result = .ok (tracked sources).size := ⟨rfl, rfl⟩
  have hcount : (tracked registrations).size =
      ((tracked registrations).recordings.map (·.hash)).length := by
    rw [List.length_map, Collector.recordings, OrderedMap.values, List.length_map]
    rfl
  obtain ⟨hsession, hresult⟩ := hstart registrations
  refine ⟨tracked registrations, _, hsession, hcount ▸ hresult,
    fun hash contract => get?_tracked_eq_some_iff, fun contract => mem_recordings_tracked_iff, rfl,
    (isFresh_tracked registrations).keyed.hashes_nodup, fun hash => mem_hashes_tracked_iff, ?_⟩
  intro fewer hleaves
  obtain ⟨hsession', hresult'⟩ := hstart fewer
  rw [hsession', hresult', hsession, hresult, tracked_leavesOut hleaves]
  exact ⟨rfl, rfl⟩

end Session

end ScriptCoverage
