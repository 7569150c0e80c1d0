import Mathlib.Data.Nat.Digits.Defs
import ScriptCoverage.Proofs.Text.Lines
import ScriptCoverage.Text.Decimal

/-!
Decimal numerals are read as the numbers that they were written for, and nothing else is read
as a number: a numeral is a run of digits, and a word has a value that fits into 32 bits.
-/

namespace ScriptCoverage.Decimal

private theorem digit_facts : ∀ d < 10,
    digitValue? (digit d) = some d ∧ Text.isBlank (digit d) = false ∧ digit d ≠ '+' := by
  decide

theorem digit_mod (n : Nat) : digit (n % 10) = digit n := by
  rw [digit, Nat.mod_mod, digit]

theorem digitValue?_digit (n : Nat) : digitValue? (digit n) = some (n % 10) := by
  rw [← digit_mod]
  exact (digit_facts (n % 10) (Nat.mod_lt n (by decide))).1

theorem isBlank_digit (n : Nat) : Text.isBlank (digit n) = false := by
  rw [← digit_mod]
  exact (digit_facts (n % 10) (Nat.mod_lt n (by decide))).2.1

theorem digit_ne_plus (n : Nat) : digit n ≠ '+' := by
  rw [← digit_mod]
  exact (digit_facts (n % 10) (Nat.mod_lt n (by decide))).2.2

theorem exists_digit_of_mem_digits {n : Nat} {c : Char} (h : c ∈ digits n) :
    ∃ d, c = digit d := by
  induction n using digits.induct with
  | case1 n hsmall =>
      rw [digits, if_pos hsmall] at h
      exact ⟨n, List.mem_singleton.mp h⟩
  | case2 n hlarge ih =>
      rw [digits, if_neg hlarge] at h
      rcases List.mem_append.mp h with hfront | hlast
      · exact ih hfront
      · exact ⟨n, List.mem_singleton.mp hlast⟩

theorem notMem_digits {c : Char} (hc : digitValue? c = none) (n : Nat) : c ∉ digits n := by
  intro hmem
  obtain ⟨d, rfl⟩ := exists_digit_of_mem_digits hmem
  rw [digitValue?_digit] at hc
  cases hc

theorem isBlank_of_mem_digits {n : Nat} {c : Char} (h : c ∈ digits n) :
    Text.isBlank c = false := by
  obtain ⟨d, rfl⟩ := exists_digit_of_mem_digits h
  exact isBlank_digit d

theorem digits_ne_nil (n : Nat) : digits n ≠ [] := by
  unfold digits
  split <;> simp

theorem isWord_digits (n : Nat) : Text.IsWord (digits n) :=
  ⟨digits_ne_nil n, fun _ hc => isBlank_of_mem_digits hc⟩

theorem valueFrom?_append (read : Nat) (front rest : List Char) :
    valueFrom? read (front ++ rest) = (valueFrom? read front).bind (valueFrom? · rest) := by
  induction front generalizing read with
  | nil => rfl
  | cons c front ih =>
      simp only [List.cons_append, valueFrom?]
      cases digitValue? c with
      | none => rfl
      | some d => exact ih (10 * read + d)

theorem valueFrom?_digits (n : Nat) : valueFrom? 0 (digits n) = some n := by
  induction n using digits.induct with
  | case1 n hsmall =>
      rw [digits, if_pos hsmall]
      simp [valueFrom?, digitValue?_digit, Nat.mod_eq_of_lt hsmall]
  | case2 n hlarge ih =>
      rw [digits, if_neg hlarge, valueFrom?_append, ih]
      simp [valueFrom?, digitValue?_digit, Nat.div_add_mod]

theorem value?_digits (n : Nat) : value? (digits n) = some n := by
  cases hdigits : digits n with
  | nil => exact absurd hdigits (digits_ne_nil n)
  | cons c rest =>
      rw [value?, ← hdigits, valueFrom?_digits]
      simp

theorem word?_digits (word : UInt32) : word? (digits word.toNat) = some word := by
  rw [word?, value?_digits, Option.bind_eq_bind, Option.bind_some, if_pos word.toNat_lt,
    UInt32.ofNat_toNat]

/-- A word is read back from its digits. -/
theorem signedWord?_digits (word : UInt32) : signedWord? (digits word.toNat) = some word := by
  unfold signedWord?
  split
  · rename_i text hplus
    have hmem : '+' ∈ digits word.toNat := hplus ▸ List.mem_cons_self
    exact absurd hmem (notMem_digits rfl _)
  · exact word?_digits word

/-- A text denotes a number if it is a nonempty run of digits with that value; zeros may stand
in front. -/
def Denotes (text : List Char) (n : ℕ) : Prop :=
  ∃ ds : List ℕ, ds ≠ [] ∧ (∀ d ∈ ds, d < 10) ∧ text = ds.map digit ∧
    n = Nat.ofDigits 10 ds.reverse

/-- Digits that denote a word, with or without a plus sign in front. -/
def IsNumeral (text : List Char) (word : UInt32) : Prop :=
  ∃ run, (text = run ∨ text = '+' :: run) ∧ Denotes run word.toNat

theorem digitValue?_eq_some_iff {c : Char} {d : ℕ} :
    digitValue? c = some d ↔ d < 10 ∧ c = digit d := by
  constructor
  · intro h
    unfold digitValue? at h
    split at h
    · rename_i hrange
      have hlow : 48 ≤ c.toNat := Char.le_def.mp hrange.1
      have hhigh : c.toNat ≤ 57 := Char.le_def.mp hrange.2
      have hd : c.toNat - 48 = d := Option.some.inj h
      have hsmall : d < 10 := by omega
      have hchar : '0'.toNat + d % 10 = c.toNat := by
        have hzero : '0'.toNat = 48 := rfl
        omega
      exact ⟨hsmall, by rw [digit, hchar, Char.ofNat_toNat]⟩
    · cases h
  · rintro ⟨hsmall, rfl⟩
    rw [digitValue?_digit, Nat.mod_eq_of_lt hsmall]

theorem valueFrom?_eq_some_iff {read n : ℕ} {text : List Char} :
    valueFrom? read text = some n ↔ ∃ ds : List ℕ, (∀ d ∈ ds, d < 10) ∧
      text = ds.map digit ∧ n = ds.foldl (fun read d => 10 * read + d) read := by
  induction text generalizing read with
  | nil =>
      constructor
      · intro h
        exact ⟨[], by simp, rfl, (Option.some.inj h).symm⟩
      · rintro ⟨ds, -, htext, rfl⟩
        rw [List.map_eq_nil_iff.mp htext.symm]
        rfl
  | cons c rest ih =>
      simp only [valueFrom?, Option.bind_eq_bind, Option.bind_eq_some_iff, ih,
        digitValue?_eq_some_iff]
      constructor
      · rintro ⟨d, ⟨hd, rfl⟩, ds, hds, rfl, rfl⟩
        exact ⟨d :: ds, List.forall_mem_cons.mpr ⟨hd, hds⟩, rfl, rfl⟩
      · rintro ⟨ds, hds, htext, rfl⟩
        obtain ⟨d, ds, rfl, rfl, rfl⟩ := List.map_eq_cons_iff.mp htext.symm
        obtain ⟨hd, hds⟩ := List.forall_mem_cons.mp hds
        exact ⟨d, ⟨hd, rfl⟩, ds, hds, rfl, rfl⟩

theorem foldl_eq_ofDigits (ds : List ℕ) :
    ds.foldl (fun read d => 10 * read + d) 0 = Nat.ofDigits 10 ds.reverse := by
  rw [Nat.ofDigits_eq_foldr, List.foldr_reverse]
  simp only [Nat.cast_id, Nat.add_comm]

theorem value?_eq_some_iff {text : List Char} {n : ℕ} :
    value? text = some n ↔ Denotes text n := by
  have hvalue : value? text = some n ↔ text ≠ [] ∧ valueFrom? 0 text = some n := by
    cases text <;> simp [value?]
  rw [hvalue, valueFrom?_eq_some_iff]
  constructor
  · rintro ⟨hne, ds, hds, rfl, rfl⟩
    exact ⟨ds, by simpa using hne, hds, rfl, foldl_eq_ofDigits ds⟩
  · rintro ⟨ds, hne, hds, rfl, rfl⟩
    exact ⟨by simpa using hne, ds, hds, rfl, (foldl_eq_ofDigits ds).symm⟩

theorem denotes_digits (n : ℕ) : Denotes (digits n) n :=
  value?_eq_some_iff.mp (value?_digits n)

theorem word?_eq_some_iff {text : List Char} {word : UInt32} :
    word? text = some word ↔ Denotes text word.toNat := by
  rw [word?, Option.bind_eq_bind, Option.bind_eq_some_iff]
  constructor
  · rintro ⟨n, hvalue, hword⟩
    split at hword
    · rename_i hsmall
      cases hword
      rw [UInt32.toNat_ofNat_of_lt' hsmall]
      exact value?_eq_some_iff.mp hvalue
    · cases hword
  · intro h
    refine ⟨word.toNat, value?_eq_some_iff.mpr h, ?_⟩
    rw [if_pos word.toNat_lt, UInt32.ofNat_toNat]

theorem plus_notMem_of_denotes {text : List Char} {n : ℕ} (h : Denotes text n) :
    '+' ∉ text := by
  obtain ⟨ds, -, -, rfl, -⟩ := h
  intro hmem
  obtain ⟨d, -, hd⟩ := List.mem_map.mp hmem
  exact digit_ne_plus d hd

/-- Exactly the numerals are read as words. -/
theorem signedWord?_eq_some_iff {text : List Char} {word : UInt32} :
    signedWord? text = some word ↔ IsNumeral text word := by
  unfold signedWord?
  split
  · rename_i text
    rw [word?_eq_some_iff]
    constructor
    · intro h
      exact ⟨text, .inr rfl, h⟩
    · rintro ⟨run, hrun | hrun, h⟩
      · exact absurd (hrun ▸ List.mem_cons_self) (plus_notMem_of_denotes h)
      · cases hrun
        exact h
  · rename_i hplus
    rw [word?_eq_some_iff]
    constructor
    · intro h
      exact ⟨text, .inl rfl, h⟩
    · rintro ⟨run, rfl | hrun, h⟩
      · exact h
      · exact absurd hrun (hplus run)

end ScriptCoverage.Decimal
