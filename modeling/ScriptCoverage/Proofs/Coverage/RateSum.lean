import Mathlib.Algebra.GroupWithZero.Nat
import ScriptCoverage.Coverage.Rate

/-!
Sums of rates. A rate keeps its two numbers in 64 bits, where additions wrap. As long as
the whole total fits, no addition on the way to it wraps, and the sum counts what its terms
count together, whatever their order and grouping.
-/

namespace ScriptCoverage.Rate

/-- Addition that fails where one of the two numbers would wrap. -/
def add? (x y : Rate) : Option Rate :=
  if x.covered.toNat + y.covered.toNat < UInt64.size ∧
      x.total.toNat + y.total.toNat < UInt64.size then
    some (x + y)
  else none

/-- The sum, unless an addition wraps on the way. -/
def sum? (rates : List Rate) : Option Rate :=
  rates.foldlM add? zero

/-- The rate is this many out of that many. -/
structure Counts (rate : Rate) (covered total : Nat) : Prop where
  covered_eq : rate.covered.toNat = covered
  total_eq : rate.total.toNat = total
  le : covered ≤ total

theorem Counts.unique {x y : Rate} {covered total : Nat} (hx : x.Counts covered total)
    (hy : y.Counts covered total) : x = y := by
  obtain ⟨xcovered, xtotal⟩ := x
  obtain ⟨ycovered, ytotal⟩ := y
  have hcovered : xcovered = ycovered :=
    UInt64.toNat_inj.mp (hx.covered_eq.trans hy.covered_eq.symm)
  have htotal : xtotal = ytotal := UInt64.toNat_inj.mp (hx.total_eq.trans hy.total_eq.symm)
  rw [hcovered, htotal]

theorem counts_zero : zero.Counts 0 0 where
  covered_eq := rfl
  total_eq := rfl
  le := Nat.le_refl 0

theorem counts_ofCounts {covered total : Nat} (hle : covered ≤ total)
    (hfits : total < UInt64.size) : (ofCounts covered total).Counts covered total where
  covered_eq := UInt64.toNat_ofNat_of_lt (Nat.lt_of_le_of_lt hle hfits)
  total_eq := UInt64.toNat_ofNat_of_lt hfits
  le := hle

theorem counts_of_le {rate : Rate} (h : rate.covered ≤ rate.total) :
    rate.Counts rate.covered.toNat rate.total.toNat where
  covered_eq := rfl
  total_eq := rfl
  le := UInt64.le_iff_toNat_le.mp h

/-- Where the rounded quotient fits into 64 bits, it is kept as it is. -/
theorem toNat_basisPoints {rate : Rate} (htotal : rate.total ≠ 0)
    (hfits : (rate.covered.toNat * 20000 + rate.total.toNat) / (2 * rate.total.toNat) <
      UInt64.size) :
    rate.basisPoints.toNat =
      (rate.covered.toNat * 20000 + rate.total.toNat) / (2 * rate.total.toNat) := by
  rw [basisPoints, if_neg htotal]
  exact UInt64.toNat_ofNat_of_lt hfits

/-- The basis points of a rate fit, as it does not cover more than its total. -/
theorem Counts.toNat_basisPoints {rate : Rate} {covered total : Nat} (h : rate.Counts covered total)
    (hpos : 0 < total) :
    rate.basisPoints.toNat = (covered * 20000 + total) / (2 * total) := by
  have htotal : rate.total ≠ 0 := by
    rw [Ne, ← UInt64.toNat_inj, h.total_eq]
    exact Nat.ne_of_gt hpos
  have hle : (covered * 20000 + total) / (2 * total) ≤ 10000 := by
    have hcovered := h.le
    apply Nat.le_of_lt_succ
    rw [Nat.div_lt_iff_lt_mul (Nat.mul_pos (by decide) hpos)]
    omega
  have hpoints := Rate.toNat_basisPoints htotal
  rw [h.covered_eq, h.total_eq] at hpoints
  exact hpoints (Nat.lt_of_le_of_lt hle (by decide))

theorem Counts.add {x y : Rate} {covered covered' total total' : Nat}
    (hx : x.Counts covered total) (hy : y.Counts covered' total')
    (hfits : total + total' < UInt64.size) :
    add? x y = some (x + y) ∧ (x + y).Counts (covered + covered') (total + total') := by
  have hle : covered + covered' ≤ total + total' := Nat.add_le_add hx.le hy.le
  have hcovered : x.covered.toNat + y.covered.toNat < UInt64.size := by
    rw [hx.covered_eq, hy.covered_eq]
    omega
  have htotal : x.total.toNat + y.total.toNat < UInt64.size := by
    rw [hx.total_eq, hy.total_eq]
    exact hfits
  refine ⟨if_pos ⟨hcovered, htotal⟩, ?_, ?_, hle⟩
  · change (x.covered + y.covered).toNat = _
    rw [UInt64.toNat_add, Nat.mod_eq_of_lt hcovered, hx.covered_eq, hy.covered_eq]
  · change (x.total + y.total).toNat = _
    rw [UInt64.toNat_add, Nat.mod_eq_of_lt htotal, hx.total_eq, hy.total_eq]

variable {α : Type} {rate : α → Rate} {covered total : α → Nat} {items : List α}

/-- A running sum stays exact: what it has counted and what is still to come fit together. -/
private theorem counts_foldl (hitems : ∀ x ∈ items, (rate x).Counts (covered x) (total x))
    {start : Rate} {c t : Nat} (hstart : start.Counts c t)
    (hfits : t + (items.map total).sum < UInt64.size) :
    (items.map rate).foldlM add? start = some ((items.map rate).foldl (· + ·) start) ∧
      ((items.map rate).foldl (· + ·) start).Counts (c + (items.map covered).sum)
        (t + (items.map total).sum) := by
  induction items generalizing start c t with
  | nil => exact ⟨rfl, hstart⟩
  | cons x rest ih =>
      obtain ⟨hx, hrest⟩ := List.forall_mem_cons.mp hitems
      simp only [List.map_cons, List.sum_cons] at hfits ⊢
      rw [← Nat.add_assoc] at hfits
      obtain ⟨hadd, hcounts⟩ := hstart.add hx (by omega)
      obtain ⟨hsum, hcounts'⟩ := ih hrest hcounts hfits
      refine ⟨?_, ?_⟩
      · rw [List.foldlM_cons, hadd]
        exact hsum
      · rw [← Nat.add_assoc, ← Nat.add_assoc]
        exact hcounts'

/-- No addition wraps, and the sum counts what its terms count. -/
theorem counts_sum (hitems : ∀ x ∈ items, (rate x).Counts (covered x) (total x))
    (hfits : (items.map total).sum < UInt64.size) :
    sum? (items.map rate) = some (sum (items.map rate)) ∧
      (sum (items.map rate)).Counts (items.map covered).sum (items.map total).sum := by
  have hrun := counts_foldl hitems counts_zero (by rwa [Nat.zero_add])
  rwa [Nat.zero_add, Nat.zero_add] at hrun

theorem ofCounts_add (covered total covered' total' : Nat) :
    ofCounts covered total + ofCounts covered' total' =
      ofCounts (covered + covered') (total + total') := by
  simp only [ofCounts, UInt64.ofNat_add]
  rfl

private theorem foldl_ofCounts (covered total : α → Nat) (items : List α) (c t : Nat) :
    (items.map fun x => ofCounts (covered x) (total x)).foldl (· + ·) (ofCounts c t) =
      ofCounts (c + (items.map covered).sum) (t + (items.map total).sum) := by
  induction items generalizing c t with
  | nil => rfl
  | cons x rest ih =>
      rw [List.map_cons, List.foldl_cons, ofCounts_add, ih, Nat.add_assoc, Nat.add_assoc]
      rfl

/-- A sum of counts is the count of the sums, also where it wraps. -/
theorem sum_ofCounts (covered total : α → Nat) (items : List α) :
    sum (items.map fun x => ofCounts (covered x) (total x)) =
      ofCounts (items.map covered).sum (items.map total).sum := by
  have hsum := foldl_ofCounts covered total items 0 0
  rwa [Nat.zero_add, Nat.zero_add] at hsum

end ScriptCoverage.Rate
