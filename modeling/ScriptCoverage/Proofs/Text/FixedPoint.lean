import ScriptCoverage.Proofs.Text.Decimal

/-!
Numbers written with a fixed number of decimals. Without its point such a text has the digits of
the number, counted in units of the last decimal.
-/

namespace ScriptCoverage.Decimal

/-- The number `n` of units of the last of `places` decimals: digits with a point before the
last `places` of them, and no zero in front that could be left out. -/
def Renders (text : List Char) (places n : ℕ) : Prop :=
  ∃ whole decimals, text = whole ++ '.' :: decimals ∧ decimals.length = places ∧ whole ≠ [] ∧
    (whole.head? = some '0' → whole = ['0']) ∧ Denotes (whole ++ decimals) n

variable {front rest : List Char} {m n : ℕ}

theorem Denotes.append (hfront : Denotes front m) (hrest : Denotes rest n) :
    Denotes (front ++ rest) (m * 10 ^ rest.length + n) := by
  obtain ⟨ds, hne, hds, rfl, rfl⟩ := hfront
  obtain ⟨es, -, hes, rfl, rfl⟩ := hrest
  refine ⟨ds ++ es, by simp [hne], List.forall_mem_append.mpr ⟨hds, hes⟩, by simp, ?_⟩
  rw [List.reverse_append, Nat.ofDigits_append, List.length_reverse, List.length_map, Nat.mul_comm,
    Nat.add_comm]

/-- Zeros in front do not change the number. -/
theorem Denotes.replicate_append (h : Denotes rest n) (count : ℕ) :
    Denotes (List.replicate count '0' ++ rest) n := by
  induction count with
  | zero => exact h
  | succ count ih =>
      have hzero : Denotes ['0'] 0 := value?_eq_some_iff.mp rfl
      have hstep := hzero.append ih
      rwa [Nat.zero_mul, Nat.zero_add] at hstep

theorem denotes_padded (width n : ℕ) : Denotes (padded width n) n :=
  (denotes_digits n).replicate_append _

theorem length_digits_le {width : ℕ} (hwidth : 0 < width) (h : n < 10 ^ width) :
    (digits n).length ≤ width := by
  induction n using digits.induct generalizing width with
  | case1 n hsmall =>
      rw [digits, if_pos hsmall]
      exact hwidth
  | case2 n hlarge ih =>
      obtain ⟨width, rfl⟩ : ∃ k, width = k + 1 := ⟨width - 1, by omega⟩
      rw [Nat.pow_succ] at h
      have hpos : 0 < width := by
        rw [Nat.pos_iff_ne_zero]
        rintro rfl
        omega
      have hfront := ih hpos (by omega)
      rw [digits, if_neg hlarge, List.length_append]
      exact Nat.succ_le_succ hfront

theorem length_padded {width : ℕ} (hwidth : 0 < width) (h : n < 10 ^ width) :
    (padded width n).length = width := by
  have hdigits := length_digits_le hwidth h
  rw [padded, List.length_append, List.length_replicate]
  omega

/-- Only the numeral of zero starts with a zero. -/
theorem digits_eq_of_head? (h : (digits n).head? = some '0') : digits n = ['0'] := by
  induction n using digits.induct with
  | case1 n hsmall =>
      rw [digits, if_pos hsmall] at h ⊢
      rw [Option.some_inj.mp h]
  | case2 n hlarge ih =>
      rw [digits, if_neg hlarge, List.head?_append_of_ne_nil _ (digits_ne_nil _)] at h
      have hvalue := value?_digits (n / 10)
      rw [ih h] at hvalue
      have hzero : n / 10 = 0 := (Option.some_inj.mp hvalue).symm
      omega

/-- A number is rendered by its whole part, a point and its decimals, padded. -/
theorem renders_digits_padded {places : ℕ} (hplaces : 0 < places) (n : ℕ) :
    Renders (digits (n / 10 ^ places) ++ '.' :: padded places (n % 10 ^ places)) places n := by
  have hlength : (padded places (n % 10 ^ places)).length = places :=
    length_padded hplaces (Nat.mod_lt n (Nat.pow_pos (by decide)))
  have hdenotes :=
    (denotes_digits (n / 10 ^ places)).append (denotes_padded places (n % 10 ^ places))
  rw [hlength, Nat.div_add_mod'] at hdenotes
  exact ⟨_, _, rfl, hlength, digits_ne_nil _, digits_eq_of_head?, hdenotes⟩

end ScriptCoverage.Decimal
