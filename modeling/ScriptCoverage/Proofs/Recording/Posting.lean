import ScriptCoverage.Proofs.Recording.Totals
import ScriptCoverage.Recording.Collector

/-!
Posting counters to contracts. A posting merges counters into one registered contract;
a run of postings succeeds exactly when the sum of all amounts can be added to the
collector, so what it leaves depends on that sum alone.
-/

namespace ScriptCoverage

namespace Recording

theorem run_merge (more : Counters) (recording : Recording) :
    (merge more).run recording =
      (((Counters.merge more).run recording.counters).1,
        { recording with counters := ((Counters.merge more).run recording.counters).2 }) := rfl

theorem merge_eq_ok_iff {more : Counters} {recording after : Recording} :
    (merge more).run recording = (.ok (), after) ↔
      ∃ counters, after = { recording with counters } ∧
        counters.totals = recording.counters.totals + more.totals := by
  rw [run_merge, Prod.mk.injEq]
  constructor
  · rintro ⟨hok, hafter⟩
    exact ⟨_, hafter.symm, Counters.merge_eq_ok_iff.mp (Step.run_eq_of_fst hok)⟩
  · rintro ⟨counters, hafter, htotals⟩
    rw [Counters.merge_eq_ok_iff.mpr htotals, hafter]
    exact ⟨rfl, rfl⟩

theorem merge_atomic (more : Counters) : (merge more).Atomic :=
  Step.atomic_zoom (Counters.merge_atomic more) fun _ => rfl

end Recording

/-- Amounts by contract; zero for a contract that nothing is posted to. -/
abbrev Amounts := ContractHash → WithZero Totals

namespace Amounts

/-- The totals posted to one contract. -/
def totals (amounts : Amounts) (hash : ContractHash) : Totals :=
  WithZero.lift (AddHom.id Totals) (amounts hash)

theorem totals_add (x y : Amounts) (hash : ContractHash) :
    (x + y).totals hash = x.totals hash + y.totals hash := by
  simp [totals]

def single (hash : ContractHash) (counters : Counters) : Amounts :=
  Pi.single hash (counters.totals : WithZero Totals)

theorem totals_single (hash : ContractHash) (counters : Counters) :
    (single hash counters).totals hash = counters.totals := by
  simp [totals, single]

theorem single_of_ne {hash other : ContractHash} (h : other ≠ hash) (counters : Counters) :
    single hash counters other = 0 :=
  Pi.single_eq_of_ne h _

theorem totals_of_eq_zero {amounts : Amounts} {hash : ContractHash} (h : amounts hash = 0) :
    amounts.totals hash = 0 := by
  rw [totals, h, map_zero]

end Amounts

namespace Collector

theorem ext_get? {x y : Collector} (h : ∀ hash, x.get? hash = y.get? hash) : x = y := by
  obtain ⟨contracts⟩ := x
  obtain ⟨contracts'⟩ := y
  rw [OrderedMap.ext_get? (x := contracts) (y := contracts') h]

theorem get?_insert (collector : Collector) (hash other : ContractHash)
    (recording : Recording) :
    (⟨collector.contracts.insert hash recording⟩ : Collector).get? other =
      if other = hash then some recording else collector.get? other :=
  OrderedMap.get?_insert collector.contracts hash other recording

/-- A collector with one contract, which has the given counters and no script. -/
def sole (counters : Counters) : Collector :=
  ⟨(∅ : OrderedMap ContractHash Recording).insert .zero
    ⟨"Token", ⟨.zero, none, [], []⟩, none, counters⟩⟩

theorem run_onContract {α : Type} (hash : ContractHash) (step : Step Recording α)
    (collector : Collector) :
    (onContract hash step).run collector =
      match collector.get? hash with
      | none => (.error (.unknownContract hash), collector)
      | some recording =>
          ((step.run recording).1,
            ⟨collector.contracts.insert hash (step.run recording).2⟩) := by
  simp only [Step.run, onContract]
  cases collector.get? hash <;> rfl

/-- One collector holds another's contracts with the amounts added to their counters. -/
def Adds (before : Collector) (amounts : Amounts) (after : Collector) : Prop :=
  ∀ hash, match before.get? hash with
    | none => amounts hash = 0 ∧ after.get? hash = none
    | some recording => ∃ counters, after.get? hash = some { recording with counters } ∧
        counters.totals = recording.counters.totals + amounts.totals hash

variable {before middle after : Collector}

theorem Adds.of_none {amounts : Amounts} (h : before.Adds amounts after) {hash : ContractHash}
    (hget : before.get? hash = none) : amounts hash = 0 ∧ after.get? hash = none := by
  have hhash := h hash
  rwa [hget] at hhash

theorem Adds.of_some {amounts : Amounts} (h : before.Adds amounts after) {hash : ContractHash}
    {recording : Recording} (hget : before.get? hash = some recording) :
    ∃ counters, after.get? hash = some { recording with counters } ∧
      counters.totals = recording.counters.totals + amounts.totals hash := by
  have hhash := h hash
  rwa [hget] at hhash

theorem adds_zero (collector : Collector) : collector.Adds 0 collector := by
  intro hash
  cases hget : collector.get? hash with
  | none => exact ⟨rfl, rfl⟩
  | some recording =>
      refine ⟨recording.counters, rfl, ?_⟩
      rw [Amounts.totals_of_eq_zero rfl, add_zero]

theorem Adds.unique {amounts : Amounts} {after' : Collector} (h : before.Adds amounts after)
    (h' : before.Adds amounts after') : after = after' := by
  apply ext_get?
  intro hash
  cases hget : before.get? hash with
  | none => rw [(h.of_none hget).2, (h'.of_none hget).2]
  | some recording =>
      obtain ⟨counters, hafter, htotals⟩ := h.of_some hget
      obtain ⟨counters', hafter', htotals'⟩ := h'.of_some hget
      have heq : counters = counters' := Counters.totals_injective (htotals.trans htotals'.symm)
      rw [hafter, hafter', heq]

theorem Adds.trans {x y : Amounts} (hx : before.Adds x middle) (hy : middle.Adds y after) :
    before.Adds (x + y) after := by
  intro hash
  cases hget : before.get? hash with
  | none =>
      obtain ⟨hzero, hmiddle⟩ := hx.of_none hget
      obtain ⟨hzero', hafter⟩ := hy.of_none hmiddle
      exact ⟨by rw [Pi.add_apply, hzero, hzero', add_zero], hafter⟩
  | some recording =>
      obtain ⟨counters, hmiddle, htotals⟩ := hx.of_some hget
      obtain ⟨counters', hafter, htotals'⟩ := hy.of_some hmiddle
      refine ⟨counters', hafter, ?_⟩
      rw [htotals', htotals, Amounts.totals_add, add_assoc]

theorem Adds.contains {amounts : Amounts} (h : before.Adds amounts after)
    (hash : ContractHash) : after.contains hash = before.contains hash := by
  change (after.get? hash).isSome = (before.get? hash).isSome
  cases hget : before.get? hash with
  | none => rw [(h.of_none hget).2]
  | some recording =>
      obtain ⟨counters, hafter, -⟩ := h.of_some hget
      rw [hafter]
      rfl

/-- Merges counters into a contract. -/
def post (hash : ContractHash) (counters : Counters) : Step Collector Unit :=
  onContract hash (Recording.merge counters)

theorem adds_of_post {hash : ContractHash} {counters : Counters}
    (h : (post hash counters).run before = (.ok (), after)) :
    before.Adds (.single hash counters) after := by
  rw [post, run_onContract] at h
  cases hget : before.get? hash with
  | none =>
      rw [hget] at h
      cases h
  | some recording =>
      rw [hget, Prod.mk.injEq] at h
      obtain ⟨hok, hafter⟩ := h
      obtain ⟨sum, hrecording, htotals⟩ :=
        Recording.merge_eq_ok_iff.mp (Step.run_eq_of_fst hok)
      have hget' (other : ContractHash) : after.get? other =
          if other = hash then some { recording with counters := sum }
          else before.get? other := by
        rw [← hafter, hrecording, get?_insert]
      intro other
      by_cases hother : other = hash
      · subst hother
        rw [hget]
        exact ⟨sum, by rw [hget', if_pos rfl], by rw [htotals, Amounts.totals_single]⟩
      · have hzero := Amounts.single_of_ne hother counters
        cases hgot : before.get? other with
        | none => exact ⟨hzero, by rw [hget', if_neg hother, hgot]⟩
        | some kept =>
            refine ⟨kept.counters, by rw [hget', if_neg hother, hgot], ?_⟩
            rw [Amounts.totals_of_eq_zero hzero, add_zero]

/-- A posting succeeds when its amount is part of one that can be added. -/
theorem exists_post_of_adds {hash : ContractHash} {counters : Counters} {rest : Amounts}
    (h : before.Adds (.single hash counters + rest) after) :
    ∃ middle, (post hash counters).run before = (.ok (), middle) := by
  have hposted : (Amounts.single hash counters + rest) hash ≠ 0 := by
    rw [Pi.add_apply, Amounts.single, Pi.single_eq_same]
    cases rest hash with
    | zero => simp
    | coe totals => simp [← WithZero.coe_add]
  cases hget : before.get? hash with
  | none => exact absurd (h.of_none hget).1 hposted
  | some recording =>
      obtain ⟨whole, -, htotals⟩ := h.of_some hget
      rw [Amounts.totals_add, Amounts.totals_single, ← add_assoc] at htotals
      obtain ⟨sum, hsum⟩ := Counters.exists_merge_of_totals htotals
      refine ⟨⟨before.contracts.insert hash { recording with counters := sum }⟩, ?_⟩
      simp only [post, run_onContract, hget, Recording.run_merge, hsum]

/-- What follows a posting adds the rest of the amount. -/
theorem Adds.after_post {hash : ContractHash} {counters : Counters} {rest : Amounts}
    (h : before.Adds (.single hash counters + rest) after)
    (hpost : (post hash counters).run before = (.ok (), middle)) : middle.Adds rest after := by
  have hfirst := adds_of_post hpost
  intro other
  cases hget : before.get? other with
  | none =>
      obtain ⟨hzero, hmiddle⟩ := hfirst.of_none hget
      obtain ⟨hsum, hafter⟩ := h.of_none hget
      rw [Pi.add_apply, hzero, zero_add] at hsum
      rw [hmiddle]
      exact ⟨hsum, hafter⟩
  | some recording =>
      obtain ⟨counters', hmiddle, htotals'⟩ := hfirst.of_some hget
      obtain ⟨whole, hafter, htotals⟩ := h.of_some hget
      rw [hmiddle]
      refine ⟨whole, hafter, ?_⟩
      rw [htotals, Amounts.totals_add, htotals', add_assoc]

theorem post_eq_ok_iff {hash : ContractHash} {counters : Counters} :
    (post hash counters).run before = (.ok (), after) ↔
      before.Adds (.single hash counters) after := by
  constructor
  · exact adds_of_post
  · intro h
    rw [← add_zero (Amounts.single hash counters)] at h
    obtain ⟨middle, hpost⟩ := exists_post_of_adds h
    rw [hpost, (h.after_post hpost).unique (adds_zero middle)]

theorem adds_zero_iff : before.Adds 0 after ↔ before = after := by
  constructor
  · intro h
    exact (adds_zero before).unique h
  · rintro rfl
    exact adds_zero before

/-- A sum can be added if its parts can be added one after the other. -/
theorem adds_single_add_iff {hash : ContractHash} {counters : Counters} {rest : Amounts} :
    before.Adds (.single hash counters + rest) after ↔
      ∃ middle, before.Adds (.single hash counters) middle ∧ middle.Adds rest after := by
  constructor
  · intro h
    obtain ⟨middle, hpost⟩ := exists_post_of_adds h
    exact ⟨middle, adds_of_post hpost, h.after_post hpost⟩
  · rintro ⟨middle, hfirst, hrest⟩
    exact hfirst.trans hrest

/-- Amounts that can be added by themselves whenever they can be added with others. -/
def Splits (amounts : Amounts) : Prop :=
  ∀ (rest : Amounts) (before after : Collector), before.Adds (amounts + rest) after ↔
    ∃ middle, before.Adds amounts middle ∧ middle.Adds rest after

theorem splits_zero : Splits 0 := by
  intro rest before after
  rw [zero_add]
  constructor
  · intro h
    exact ⟨before, adds_zero before, h⟩
  · rintro ⟨middle, hfirst, hrest⟩
    rwa [adds_zero_iff.mp hfirst]

theorem splits_single (hash : ContractHash) (counters : Counters) :
    Splits (.single hash counters) :=
  fun _ _ _ => adds_single_add_iff

theorem Splits.add {x y : Amounts} (hx : Splits x) (hy : Splits y) : Splits (x + y) := by
  intro rest before after
  constructor
  · intro h
    rw [add_assoc] at h
    obtain ⟨first, hfirst, hothers⟩ := (hx _ _ _).mp h
    obtain ⟨middle, hmiddle, hrest⟩ := (hy _ _ _).mp hothers
    exact ⟨middle, hfirst.trans hmiddle, hrest⟩
  · rintro ⟨middle, hfirst, hrest⟩
    exact hfirst.trans hrest

/-- Steps that each add an amount to a collector with the known contracts, or fail if they
are not valid or their amount cannot be added. -/
structure Additive {α : Type} (known : ContractHash → Bool) (step : α → Step Collector Unit)
    (Valid : α → Prop) (amounts : α → Amounts) : Prop where
  splits : ∀ item, Splits (amounts item)
  run_iff : ∀ {item before after}, before.contains = known →
    ((step item).run before = (.ok (), after) ↔
      Valid item ∧ before.Adds (amounts item) after)

/-- A run of additive steps succeeds exactly when all are valid and the sum of their amounts
can be added, and leaves the collector with that sum. -/
theorem Additive.run_forM_iff {α : Type} {known : ContractHash → Bool}
    {step : α → Step Collector Unit} {Valid : α → Prop} {amounts : α → Amounts}
    (h : Additive known step Valid amounts) {items : List α} (hknown : before.contains = known) :
    (items.forM step).run before = (.ok (), after) ↔
      (∀ item ∈ items, Valid item) ∧ before.Adds (items.map amounts).sum after := by
  induction items generalizing before with
  | nil =>
      rw [Step.run_forM_nil, Prod.mk.injEq, List.map_nil, List.sum_nil, adds_zero_iff]
      exact and_congr_left' (iff_of_true rfl fun _ hmem => absurd hmem List.not_mem_nil)
  | cons item rest ih =>
      rw [Step.run_forM_cons_eq_ok, List.forall_mem_cons, List.map_cons, List.sum_cons,
        h.splits item]
      constructor
      · rintro ⟨middle, hitem, hrest⟩
        obtain ⟨hvalid, hadds⟩ := (h.run_iff hknown).mp hitem
        obtain ⟨hall, hsum⟩ := (ih ((funext hadds.contains).trans hknown)).mp hrest
        exact ⟨⟨hvalid, hall⟩, middle, hadds, hsum⟩
      · rintro ⟨⟨hvalid, hall⟩, middle, hadds, hsum⟩
        exact ⟨middle, (h.run_iff hknown).mpr ⟨hvalid, hadds⟩,
          (ih ((funext hadds.contains).trans hknown)).mpr ⟨hall, hsum⟩⟩

abbrev Posting := ContractHash × Counters

def Posting.amounts (posting : Posting) : Amounts :=
  .single posting.1 posting.2

theorem additive_post (known : ContractHash → Bool) :
    Additive known (fun (hash, counters) => post hash counters) (fun _ => True)
      Posting.amounts where
  splits := fun (hash, counters) => splits_single hash counters
  run_iff := fun _ => post_eq_ok_iff.trans (and_iff_right trivial).symm

/-- A run of postings succeeds exactly when the sum of their amounts can be added, and
leaves the collector with that sum. -/
theorem run_postings_eq_ok_iff {postings : List Posting} :
    Step.run (postings.forM fun (hash, counters) => post hash counters) before =
        (.ok (), after) ↔
      before.Adds (postings.map Posting.amounts).sum after := by
  rw [(additive_post before.contains).run_forM_iff rfl]
  exact and_iff_right fun _ _ => trivial

end Collector

end ScriptCoverage
