import Mathlib.Algebra.Order.Round
import Mathlib.Data.Finset.Max
import Mathlib.Data.Rat.Floor
import Mathlib.Tactic.FieldSimp
import Mathlib.Tactic.Linarith
import ScriptCoverage.Proofs.Coverage.RateSum
import ScriptCoverage.Proofs.Text.FixedPoint

/-!
Rounding of rates. Basis points are the whole number nearest to ten thousand times the ratio, so
they keep the order of the ratios. The ratio of a sum is a mediant and lies between those of its
terms, and rounding keeps it there.
-/

namespace ScriptCoverage

/-- The whole number nearest to `x`, and of two that are equally near the larger one. -/
structure IsNearest (x : ℚ) (n : ℤ) : Prop where
  nearest : ∀ m : ℤ, |x - n| ≤ |x - m|
  half_up : ∀ m : ℤ, |x - m| = |x - n| → m ≤ n

namespace IsNearest

variable {x y : ℚ} {m n : ℤ}

theorem unique (hm : IsNearest x m) (hn : IsNearest x n) : m = n := by
  have hsame : |x - m| = |x - n| := le_antisymm (hm.nearest n) (hn.nearest m)
  exact le_antisymm (hn.half_up m hsame) (hm.half_up n hsame.symm)

theorem of_bounds (hlow : (n : ℚ) - 1 / 2 ≤ x) (hhigh : x < n + 1 / 2) : IsNearest x n := by
  have hround : round x = n := round_eq_iff.mpr ⟨hlow, hhigh⟩
  refine ⟨fun m => ?_, fun m hsame => ?_⟩
  · rw [← hround]
    exact round_le x m
  · by_contra hgt
    -- a larger number is farther away, as `x` is less than a half above `n`
    have hnext : (n : ℚ) + 1 ≤ m := by exact_mod_cast Int.lt_of_not_ge hgt
    have hbelow : x - m ≤ 0 := by linarith
    rw [abs_of_nonpos hbelow] at hsame
    rcases abs_cases (x - n) with ⟨habs, -⟩ | ⟨habs, -⟩
    · linarith
    · linarith

theorem isNearest_round (x : ℚ) : IsNearest x (round x) := by
  obtain ⟨hlow, hhigh⟩ := round_eq_iff.mp (rfl : round x = round x)
  exact of_bounds hlow hhigh

theorem eq_round (h : IsNearest x n) : round x = n :=
  (isNearest_round x).unique h

/-- Rounding keeps the order. -/
theorem mono (hx : IsNearest x m) (hy : IsNearest y n) (h : x ≤ y) : m ≤ n := by
  rw [← hx.eq_round, ← hy.eq_round, round_eq, round_eq]
  exact Int.floor_le_floor (by linarith)

end IsNearest

/-- Numbers of 128 bits. -/
abbrev Wide := BitVec 128

namespace Wide

def product? (x y : Wide) : Option Wide :=
  if x.toNat * y.toNat < 2 ^ 128 then some (x * y) else none

def sum? (x y : Wide) : Option Wide :=
  if x.toNat + y.toNat < 2 ^ 128 then some (x + y) else none

theorem product?_eq_some {x y : Wide} (h : x.toNat * y.toNat < 2 ^ 128) :
    ∃ z, product? x y = some z ∧ z.toNat = x.toNat * y.toNat :=
  ⟨x * y, if_pos h, by rw [BitVec.toNat_mul, Nat.mod_eq_of_lt h]⟩

theorem sum?_eq_some {x y : Wide} (h : x.toNat + y.toNat < 2 ^ 128) :
    ∃ z, sum? x y = some z ∧ z.toNat = x.toNat + y.toNat :=
  ⟨x + y, if_pos h, by rw [BitVec.toNat_add, Nat.mod_eq_of_lt h]⟩

def ofWord (word : UInt64) : Wide :=
  word.toBitVec.setWidth 128

/-- The lowest 64 bits. -/
def toWord (x : Wide) : UInt64 :=
  UInt64.ofBitVec (x.setWidth 64)

theorem toNat_ofWord (word : UInt64) : (ofWord word).toNat = word.toNat := by
  have hlt := word.toNat_lt
  rw [ofWord, BitVec.toNat_setWidth, UInt64.toNat_toBitVec, Nat.mod_eq_of_lt (by omega)]

theorem toWord_eq (x : Wide) : x.toWord = UInt64.ofNat x.toNat := by
  apply UInt64.toNat_inj.mp
  simp [toWord, BitVec.toNat_setWidth]

end Wide

namespace Rate

variable {rate x y : Rate}

/-- Basis points computed with numbers of 128 bits. There is no result where a product or a sum
overflows. -/
def basisPointsWide? (rate : Rate) : Option UInt64 :=
  if rate.total = 0 then some 10000
  else do
    let covered := Wide.ofWord rate.covered
    let total := Wide.ofWord rate.total
    let scaled ← Wide.product? covered 20000
    let dividend ← Wide.sum? scaled total
    let divisor ← Wide.product? 2 total
    some (dividend / divisor).toWord

theorem basisPointsWide?_eq (rate : Rate) : rate.basisPointsWide? = some rate.basisPoints := by
  unfold basisPointsWide? basisPoints
  split
  · rfl
  · have hcovered := rate.covered.toNat_lt
    have htotal := rate.total.toNat_lt
    have hfactor : (20000 : Wide).toNat = 20000 := rfl
    have htwo : (2 : Wide).toNat = 2 := rfl
    rw [← Wide.toNat_ofWord] at hcovered htotal
    obtain ⟨scaled, hscaled, hproduct⟩ := Wide.product?_eq_some
      (x := Wide.ofWord rate.covered) (y := 20000) (by rw [hfactor]; omega)
    rw [hfactor] at hproduct
    obtain ⟨dividend, hdividend, hsum⟩ := Wide.sum?_eq_some
      (x := scaled) (y := Wide.ofWord rate.total) (by omega)
    obtain ⟨divisor, hdivisor, hdouble⟩ := Wide.product?_eq_some
      (x := 2) (y := Wide.ofWord rate.total) (by rw [htwo]; omega)
    simp only [hscaled, hdividend, hdivisor, Option.bind_eq_bind, Option.bind_some]
    rw [Wide.toWord_eq, BitVec.toNat_udiv, hsum, hdouble, hproduct, htwo, Wide.toNat_ofWord,
      Wide.toNat_ofWord]

/-- The ratio as a rational number. An empty scope counts as covered. -/
def ratio (rate : Rate) : ℚ :=
  if rate.total = 0 then 1 else rate.covered.toNat / rate.total.toNat

theorem toNat_total_pos (h : rate.total ≠ 0) : 0 < rate.total.toNat := by
  rw [Nat.pos_iff_ne_zero, Ne, ← UInt64.toNat_zero, UInt64.toNat_inj]
  exact h

/-- Dividing with a half added rounds to the nearest number. -/
theorem isNearest_div {covered total : ℕ} (h : 0 < total) :
    IsNearest (10000 * (covered / total : ℚ))
      ((covered * 20000 + total) / (2 * total) : ℕ) := by
  have hpos : (0 : ℚ) < total := by exact_mod_cast h
  have hlow := Nat.div_mul_le_self (covered * 20000 + total) (2 * total)
  have hhigh := Nat.lt_div_mul_add (a := covered * 20000 + total) (by omega : 0 < 2 * total)
  generalize (covered * 20000 + total) / (2 * total) = points at hlow hhigh
  have hlow' : (points : ℚ) * (2 * total) ≤ covered * 20000 + total := by exact_mod_cast hlow
  have hhigh' : (covered : ℚ) * 20000 + total < points * (2 * total) + 2 * total := by
    exact_mod_cast hhigh
  rw [← mul_div_assoc]
  refine IsNearest.of_bounds ?_ ?_
  · rw [le_div_iff₀ hpos]
    push_cast
    linarith
  · rw [div_lt_iff₀ hpos]
    push_cast
    linarith

theorem ratio_of_empty (h : rate.total = 0) : rate.ratio = 1 :=
  if_pos h

theorem ratio_of_total (h : rate.total ≠ 0) :
    rate.ratio = rate.covered.toNat / rate.total.toNat :=
  if_neg h

namespace Counts

variable {covered covered' total total' : ℕ}

theorem isNearest (h : rate.Counts covered total) :
    IsNearest (10000 * rate.ratio) rate.basisPoints.toNat := by
  by_cases htotal : rate.total = 0
  · have hpoints : (10000 : UInt64).toNat = 10000 := rfl
    rw [ratio_of_empty htotal, basisPoints, if_pos htotal, hpoints]
    exact IsNearest.of_bounds (by norm_num) (by norm_num)
  · have hpos := toNat_total_pos htotal
    rw [h.total_eq] at hpos
    rw [ratio_of_total htotal, h.toNat_basisPoints hpos, h.covered_eq, h.total_eq]
    exact isNearest_div hpos

/-- Rounding keeps the order of the ratios. -/
theorem basisPoints_le_basisPoints (hx : x.Counts covered total) (hy : y.Counts covered' total')
    (h : x.ratio ≤ y.ratio) : x.basisPoints.toNat ≤ y.basisPoints.toNat := by
  have hpoints := hx.isNearest.mono hy.isNearest (by linarith)
  exact_mod_cast hpoints

/-- The ratio belongs to the counts, also where both are zero. -/
theorem ratio_mul (h : rate.Counts covered total) : rate.ratio * total = covered := by
  rw [← h.covered_eq, ← h.total_eq]
  by_cases htotal : rate.total = 0
  · have hnone : rate.covered.toNat = 0 := by
      have hle := h.le
      rw [← h.covered_eq, ← h.total_eq, htotal] at hle
      exact Nat.le_zero.mp hle
    rw [hnone, htotal]
    simp
  · have hpos : (rate.total.toNat : ℚ) ≠ 0 := by
      exact_mod_cast Nat.ne_of_gt (toNat_total_pos htotal)
    rw [ratio_of_total htotal, div_mul_cancel₀ _ hpos]

theorem ratio_eq_one (h : rate.Counts covered 0) : rate.ratio = 1 :=
  ratio_of_empty (UInt64.toNat_inj.mp h.total_eq)

theorem ratio_le_one (h : rate.Counts covered total) : rate.ratio ≤ 1 := by
  rcases Nat.eq_zero_or_pos total with rfl | hpos
  · exact le_of_eq h.ratio_eq_one
  · have hle : rate.ratio * total ≤ 1 * total := by
      rw [h.ratio_mul, one_mul]
      exact_mod_cast h.le
    exact le_of_mul_le_mul_right hle (by exact_mod_cast hpos)

theorem basisPoints_le (h : rate.Counts covered total) : rate.basisPoints.toNat ≤ 10000 :=
  h.basisPoints_le_basisPoints counts_zero h.ratio_le_one

end Counts

/-- A weighted mean lies between its two terms. -/
theorem mean_between {a b mean u v : ℚ} (hu : 0 ≤ u) (hv : 0 ≤ v) (hpos : 0 < u + v)
    (h : mean * (u + v) = a * u + b * v) : min a b ≤ mean ∧ mean ≤ max a b := by
  have hleast : min a b * (u + v) ≤ mean * (u + v) := by
    rw [h, mul_add]
    exact add_le_add (mul_le_mul_of_nonneg_right (min_le_left a b) hu)
      (mul_le_mul_of_nonneg_right (min_le_right a b) hv)
  have hgreatest : mean * (u + v) ≤ max a b * (u + v) := by
    rw [h, mul_add]
    exact add_le_add (mul_le_mul_of_nonneg_right (le_max_left a b) hu)
      (mul_le_mul_of_nonneg_right (le_max_right a b) hv)
  exact ⟨le_of_mul_le_mul_right hleast hpos, le_of_mul_le_mul_right hgreatest hpos⟩

/-- The ratio of a sum is a mediant: it lies between the two ratios. -/
theorem Counts.ratio_add {covered covered' total total' : ℕ} (hx : x.Counts covered total)
    (hy : y.Counts covered' total') (hsum : (x + y).Counts (covered + covered') (total + total')) :
    min x.ratio y.ratio ≤ (x + y).ratio ∧ (x + y).ratio ≤ max x.ratio y.ratio := by
  rcases Nat.eq_zero_or_pos (total + total') with hzero | hpos
  · obtain ⟨rfl, rfl⟩ := Nat.add_eq_zero_iff.mp hzero
    rw [hx.ratio_eq_one, hy.ratio_eq_one, hsum.ratio_eq_one]
    simp
  · refine mean_between (Nat.cast_nonneg total) (Nat.cast_nonneg total') (by exact_mod_cast hpos) ?_
    rw [hx.ratio_mul, hy.ratio_mul]
    exact_mod_cast hsum.ratio_mul

/-- One of the rates has no larger ratio, and one of them no smaller ratio. -/
structure Bound (rates : List Rate) (ratio : ℚ) : Prop where
  below : ∃ x ∈ rates, x.ratio ≤ ratio
  above : ∃ y ∈ rates, ratio ≤ y.ratio

/-- What bounds a sum of two rates and others is bounded by the two and the others. -/
theorem Bound.of_add {rates : List Rate} {ratio : ℚ} (h : Bound ((x + y) :: rates) ratio)
    (hsum : min x.ratio y.ratio ≤ (x + y).ratio ∧ (x + y).ratio ≤ max x.ratio y.ratio) :
    Bound (x :: y :: rates) ratio where
  below := by
    obtain ⟨z, hz, hle⟩ := h.below
    rcases List.mem_cons.mp hz with rfl | hrest
    · rcases min_le_iff.mp (hsum.1.trans hle) with hx | hy
      · exact ⟨x, by simp, hx⟩
      · exact ⟨y, by simp, hy⟩
    · exact ⟨z, by simp [hrest], hle⟩
  above := by
    obtain ⟨z, hz, hle⟩ := h.above
    rcases List.mem_cons.mp hz with rfl | hrest
    · rcases le_max_iff.mp (hle.trans hsum.2) with hx | hy
      · exact ⟨x, by simp, hx⟩
      · exact ⟨y, by simp, hy⟩
    · exact ⟨z, by simp [hrest], hle⟩

/-- A running sum stays between the ratios that went into it. -/
theorem bound_foldl {rates : List Rate} {start : Rate} {covered total : ℕ}
    (hrates : ∀ rate ∈ rates, rate.covered ≤ rate.total) (hstart : start.Counts covered total)
    (hfits : total + (rates.map (·.total.toNat)).sum < UInt64.size) :
    Bound (start :: rates) (rates.foldl (· + ·) start).ratio := by
  induction rates generalizing start covered total with
  | nil => exact ⟨⟨start, by simp⟩, ⟨start, by simp⟩⟩
  | cons rate rest ih =>
      obtain ⟨hrate, hrest⟩ := List.forall_mem_cons.mp hrates
      have hcounts := counts_of_le hrate
      rw [List.map_cons, List.sum_cons, ← Nat.add_assoc] at hfits
      have hsum := (hstart.add hcounts (by omega)).2
      exact (ih hrest hsum hfits).of_add (hstart.ratio_add hcounts hsum)

theorem zero_add (rate : Rate) : zero + rate = rate := by
  change Rate.mk (0 + rate.covered) (0 + rate.total) = rate
  rw [UInt64.zero_add, UInt64.zero_add]

/-- The ratio of a sum lies between those of its terms. -/
theorem bound_sum {rates : List Rate} (hne : rates ≠ [])
    (hrates : ∀ rate ∈ rates, rate.covered ≤ rate.total)
    (hfits : (rates.map (·.total.toNat)).sum < UInt64.size) :
    Bound rates (sum rates).ratio := by
  cases rates with
  | nil => exact absurd rfl hne
  | cons rate rest =>
      obtain ⟨hrate, hrest⟩ := List.forall_mem_cons.mp hrates
      rw [sum, List.foldl_cons, zero_add]
      exact bound_foldl hrest (counts_of_le hrate) hfits

/-- No addition wraps where the totals fit. -/
theorem sum?_eq_some {rates : List Rate} (hrates : ∀ rate ∈ rates, rate.covered ≤ rate.total)
    (hfits : (rates.map (·.total.toNat)).sum < UInt64.size) :
    sum? rates = some (sum rates) ∧
      (sum rates).Counts (rates.map (·.covered.toNat)).sum (rates.map (·.total.toNat)).sum := by
  have hitems : ∀ rate ∈ rates, (id rate).Counts rate.covered.toNat rate.total.toNat :=
    fun rate hmem => counts_of_le (hrates rate hmem)
  have hsum := counts_sum hitems hfits
  rwa [List.map_id] at hsum

/-- The basis points of a sum lie between the least and the greatest of its terms. -/
theorem basisPoints_sum_between {rates : List Rate} (hne : rates ≠ [])
    (hrates : ∀ rate ∈ rates, rate.covered ≤ rate.total)
    (hfits : (rates.map (·.total.toNat)).sum < UInt64.size) :
    ∃ least ∈ rates, ∃ greatest ∈ rates,
      (∀ rate ∈ rates, least.basisPoints.toNat ≤ rate.basisPoints.toNat ∧
        rate.basisPoints.toNat ≤ greatest.basisPoints.toNat) ∧
      least.basisPoints.toNat ≤ (sum rates).basisPoints.toNat ∧
      (sum rates).basisPoints.toNat ≤ greatest.basisPoints.toNat := by
  have hsum := (sum?_eq_some hrates hfits).2
  obtain ⟨⟨x, hx, hbelow⟩, ⟨y, hy, habove⟩⟩ := bound_sum hne hrates hfits
  have hx' := (counts_of_le (hrates x hx)).basisPoints_le_basisPoints hsum hbelow
  have hy' := hsum.basisPoints_le_basisPoints (counts_of_le (hrates y hy)) habove
  have hnonempty : rates.toFinset.Nonempty := List.toFinset_nonempty_iff rates |>.mpr hne
  obtain ⟨least, hleast, hmin⟩ :=
    Finset.exists_min_image rates.toFinset (·.basisPoints.toNat) hnonempty
  obtain ⟨greatest, hgreatest, hmax⟩ :=
    Finset.exists_max_image rates.toFinset (·.basisPoints.toNat) hnonempty
  simp only [List.mem_toFinset] at hleast hmin hgreatest hmax
  exact ⟨least, hleast, greatest, hgreatest, fun rate hmem => ⟨hmin rate hmem, hmax rate hmem⟩,
    (hmin x hx).trans hx', hy'.trans (hmax y hy)⟩

/-- The rounding of rates is exact and keeps their order. Basis points are the number nearest to
ten thousand times the ratio wherever this number has 64 bits, as it does if no more is covered
than there is; with numbers of 128 bits nothing overflows on the way. The texts with four and
with two decimals both show the basis points. Of rates with no more covered than there is, the
basis points are at most 10000 and rise with the ratio, and those of a sum lie between the least
and the greatest of its terms. -/
theorem rounding_exact_ordered :
    (∀ rate : Rate, rate.total ≠ 0 →
      (∃ n, IsNearest (10000 * (rate.covered.toNat / rate.total.toNat)) n ∧
        (n < 2 ^ 64 → rate.basisPoints.toNat = n)) ∧
      (rate.covered ≤ rate.total →
        IsNearest (10000 * (rate.covered.toNat / rate.total.toNat)) rate.basisPoints.toNat)) ∧
    (∀ rate : Rate, rate.basisPointsWide? = some rate.basisPoints ∧
      Decimal.Renders rate.text.toList 4 rate.basisPoints.toNat ∧
      Decimal.Renders rate.percent.toList 2 rate.basisPoints.toNat) ∧
    (∀ rate : Rate, rate.covered ≤ rate.total → rate.basisPoints.toNat ≤ 10000) ∧
    (∀ x y : Rate, x.covered ≤ x.total → y.covered ≤ y.total → x.ratio ≤ y.ratio →
      x.basisPoints.toNat ≤ y.basisPoints.toNat) ∧
    ∀ rates : List Rate, rates ≠ [] → (∀ rate ∈ rates, rate.covered ≤ rate.total) →
      (rates.map (·.total.toNat)).sum < 2 ^ 64 →
      sum? rates = some (sum rates) ∧ ∃ least ∈ rates, ∃ greatest ∈ rates,
        (∀ rate ∈ rates, least.basisPoints.toNat ≤ rate.basisPoints.toNat ∧
          rate.basisPoints.toNat ≤ greatest.basisPoints.toNat) ∧
        least.basisPoints.toNat ≤ (sum rates).basisPoints.toNat ∧
        (sum rates).basisPoints.toNat ≤ greatest.basisPoints.toNat := by
  refine ⟨fun rate htotal => ⟨?nearest, ?inRange⟩, fun rate => ⟨basisPointsWide?_eq rate, ?text,
    ?percent⟩, fun rate h => (counts_of_le h).basisPoints_le, fun x y hx hy => ?ordered,
    ?between⟩
  case nearest =>
    refine ⟨_, isNearest_div (toNat_total_pos htotal), fun hfits => ?_⟩
    exact_mod_cast toNat_basisPoints htotal (by exact_mod_cast hfits)
  case inRange =>
    intro h
    have hnearest := (counts_of_le h).isNearest
    rwa [ratio_of_total htotal] at hnearest
  case text =>
    rw [text, String.toList_ofList]
    exact Decimal.renders_digits_padded (Nat.succ_pos 3) rate.basisPoints.toNat
  case percent =>
    rw [percent, String.toList_ofList]
    exact Decimal.renders_digits_padded (Nat.succ_pos 1) rate.basisPoints.toNat
  case ordered => exact (counts_of_le hx).basisPoints_le_basisPoints (counts_of_le hy)
  case between =>
    exact fun rates hne hrates hfits =>
      ⟨(sum?_eq_some hrates hfits).1, basisPoints_sum_between hne hrates hfits⟩

/-- An empty scope among others. -/
def mixedRates : List Rate := [⟨0, 0⟩, ⟨1, 3⟩, ⟨1, 2⟩]

/-- A tie, which is rounded up, and a sum with an empty scope among its terms. -/
theorem rounding_exact_ordered_tie :
    IsNearest (10000 * (1 / 20000)) 1 ∧
      (⟨1, 3⟩ : Rate).basisPoints.toNat ≤ (⟨1, 2⟩ : Rate).basisPoints.toNat ∧
      ∃ least ∈ mixedRates, ∃ greatest ∈ mixedRates,
        least.basisPoints.toNat ≤ (sum mixedRates).basisPoints.toNat ∧
        (sum mixedRates).basisPoints.toNat ≤ greatest.basisPoints.toNat := by
  obtain ⟨hrounded, -, -, hordered, hbetween⟩ := rounding_exact_ordered
  refine ⟨?tie, ?ordered, ?between⟩
  case tie =>
    have htie := (hrounded ⟨1, 20000⟩ (by decide)).2 (by decide)
    exact_mod_cast htie
  case ordered =>
    refine hordered ⟨1, 3⟩ ⟨1, 2⟩ (by decide) (by decide) ?_
    rw [ratio_of_total (by decide), ratio_of_total (by decide)]
    change (1 / 3 : ℚ) ≤ 1 / 2
    norm_num
  case between =>
    obtain ⟨-, least, hleast, greatest, hgreatest, -, hwithin⟩ :=
      hbetween mixedRates (by decide) (by decide) (by decide)
    exact ⟨least, hleast, greatest, hgreatest, hwithin⟩

end Rate

end ScriptCoverage
