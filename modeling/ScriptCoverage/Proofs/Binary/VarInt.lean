import Mathlib.Tactic.SplitIfs
import ScriptCoverage.Binary.VarInt
import ScriptCoverage.Proofs.Binary.LittleEndian

/-!
The forms of a count. A reader takes any of four forms that can hold the count; the
writer uses the shortest one.
-/

namespace ScriptCoverage.VarInt

/-- The four forms, each with the counts that it can hold. -/
inductive Form : List UInt8 → Nat → Prop where
  | one {n : Nat} (fits : n < 0xFD) : Form [UInt8.ofNat n] n
  | two {n : Nat} (fits : n < 256 ^ 2) : Form (0xFD :: LittleEndian.encode 2 n) n
  | four {n : Nat} (fits : n < 256 ^ 4) : Form (0xFE :: LittleEndian.encode 4 n) n
  | eight {n : Nat} (fits : n < 256 ^ 8) : Form (0xFF :: LittleEndian.encode 8 n) n

/-- No form of the count has fewer bytes. -/
structure Shortest (bytes : List UInt8) (n : Nat) : Prop where
  form : Form bytes n
  minimal : ∀ other, Form other n → bytes.length ≤ other.length

theorem form_encode {n : Nat} (h : n < 256 ^ 8) : Form (encode n) n := by
  unfold encode
  split_ifs with hone htwo hfour
  · exact .one hone
  · exact .two htwo
  · exact .four hfour
  · exact .eight h

theorem length_encode_le {bytes : List UInt8} {n : Nat} (h : Form bytes n) :
    (encode n).length ≤ bytes.length := by
  unfold encode
  cases h with
  | one fits => simp [if_pos fits]
  | two fits =>
      have hsize : n < UInt16.size := fits
      simp only [if_pos hsize]
      split_ifs <;> simp
  | four fits =>
      have hsize : n < UInt32.size := fits
      simp only [if_pos hsize]
      split_ifs <;> simp
  | eight fits => split_ifs <;> simp

theorem Form.lt {bytes : List UInt8} {n : Nat} (h : Form bytes n) : n < 256 ^ 8 := by
  cases h with
  | one fits => omega
  | two fits => omega
  | four fits => omega
  | eight fits => exact fits

/-- Forms of one count differ in their length. -/
theorem Form.eq_of_length_eq {x y : List UInt8} {n : Nat} (hx : Form x n) (hy : Form y n)
    (hlength : x.length = y.length) : x = y := by
  cases hx <;> cases hy <;> simp_all

theorem markedWidth?_eq_none_iff {b : UInt8} : markedWidth? b = none ↔ b.toNat < 0xFD := by
  have hb := b.toNat_lt
  unfold markedWidth?
  simp only [← UInt8.toNat_inj, UInt8.reduceToNat]
  split_ifs <;> simp <;> omega

/-- The first byte tells which of the forms it is. -/
theorem form_iff {bytes : List UInt8} {n : Nat} :
    Form bytes n ↔ ∃ first rest, bytes = first :: rest ∧
      match markedWidth? first with
      | some width => n < 256 ^ width ∧ rest = LittleEndian.encode width n
      | none => rest = [] ∧ n = first.toNat := by
  constructor
  · intro h
    cases h with
    | one fits =>
        have hfirst : (UInt8.ofNat n).toNat = n := by
          rw [UInt8.toNat_ofNat']
          omega
        refine ⟨_, [], rfl, ?_⟩
        rw [markedWidth?_eq_none_iff.mpr (by omega)]
        exact ⟨rfl, hfirst.symm⟩
    | two fits => exact ⟨_, _, rfl, fits, rfl⟩
    | four fits => exact ⟨_, _, rfl, fits, rfl⟩
    | eight fits => exact ⟨_, _, rfl, fits, rfl⟩
  · rintro ⟨first, rest, rfl, hbehind⟩
    split at hbehind
    · rename_i width hwidth
      obtain ⟨fits, rfl⟩ := hbehind
      unfold markedWidth? at hwidth
      split_ifs at hwidth with htwo hfour height
      · cases hwidth
        exact htwo ▸ .two fits
      · cases hwidth
        exact hfour ▸ .four fits
      · cases hwidth
        exact height ▸ .eight fits
    · rename_i hnone
      obtain ⟨rfl, rfl⟩ := hbehind
      have hform := Form.one (markedWidth?_eq_none_iff.mp hnone)
      rwa [UInt8.ofNat_toNat] at hform

/-- The writer's form is the shortest, and no other is as short. -/
theorem shortest_iff {bytes : List UInt8} {n : Nat} :
    Shortest bytes n ↔ n < 256 ^ 8 ∧ bytes = encode n := by
  constructor
  · intro h
    have hwritten := form_encode h.form.lt
    have hlength : bytes.length = (encode n).length :=
      Nat.le_antisymm (h.minimal _ hwritten) (length_encode_le h.form)
    exact ⟨h.form.lt, h.form.eq_of_length_eq hwritten hlength⟩
  · rintro ⟨hlt, rfl⟩
    exact ⟨form_encode hlt, fun other => length_encode_le⟩

/-- A form has a single byte, or a mark in front of two, four or eight. -/
theorem Form.length_mem {bytes : List UInt8} {n : Nat} (h : Form bytes n) :
    bytes.length ∈ [1, 3, 5, 9] := by
  cases h <;> simp

/-- The writer over words of 64 bits, which are cut to the width of a form before they are
written. -/
def encodeWord (v : UInt64) : List UInt8 :=
  if v < 0xFD then [v.toUInt8]
  else if v ≤ 0xFFFF then 0xFD :: LittleEndian.encode 2 v.toUInt16.toNat
  else if v ≤ 0xFFFFFFFF then 0xFE :: LittleEndian.encode 4 v.toUInt32.toNat
  else 0xFF :: LittleEndian.encode 8 v.toNat

/-- A word is cut only to a width that holds it. -/
theorem encodeWord_eq (v : UInt64) : encodeWord v = encode v.toNat := by
  have hone : v < 0xFD ↔ v.toNat < 0xFD := UInt64.lt_iff_toNat_lt
  have htwo : v ≤ 0xFFFF ↔ v.toNat < UInt16.size :=
    UInt64.le_iff_toNat_le.trans Nat.lt_succ_iff.symm
  have hfour : v ≤ 0xFFFFFFFF ↔ v.toNat < UInt32.size :=
    UInt64.le_iff_toNat_le.trans Nat.lt_succ_iff.symm
  simp only [encodeWord, encode, hone, htwo, hfour]
  split_ifs with hsmall hmiddle hlarge
  · rw [← UInt8.ofNat_uInt64ToNat]
  · rw [UInt64.toNat_toUInt16, Nat.mod_eq_of_lt hmiddle]
  · rw [UInt64.toNat_toUInt32, Nat.mod_eq_of_lt hlarge]
  · rfl

end ScriptCoverage.VarInt
