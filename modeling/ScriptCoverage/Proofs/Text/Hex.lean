import ScriptCoverage.Text.Blank
import ScriptCoverage.Text.Hex

/-!
Bytes are read back from their hexadecimal text, and nothing else is read but an even number of
digits, which are the text of the bytes once their letters are in lower case.
-/

namespace ScriptCoverage.Hex

private theorem digit_facts : ∀ d < 16,
    digitValue? (digit d) = some d ∧ Text.isBlank (digit d) = false := by
  decide

theorem digitValue?_digit {d : Nat} (h : d < 16) : digitValue? (digit d) = some d :=
  (digit_facts d h).1

theorem isBlank_digit {d : Nat} (h : d < 16) : Text.isBlank (digit d) = false :=
  (digit_facts d h).2

theorem length_encode (bytes : List UInt8) : (encode bytes).length = 2 * bytes.length := by
  induction bytes with
  | nil => rfl
  | cons b rest ih =>
      have hcons : encode (b :: rest) = byteText b ++ encode rest := rfl
      rw [hcons, List.length_append, ih, List.length_cons]
      simp only [byteText, List.length_cons, List.length_nil]
      omega

theorem isBlank_of_mem_encode {bytes : List UInt8} {c : Char} (h : c ∈ encode bytes) :
    Text.isBlank c = false := by
  obtain ⟨b, -, hc⟩ := List.mem_flatMap.mp h
  have hb := b.toNat_lt
  rcases List.mem_cons.mp hc with rfl | hlow
  · exact isBlank_digit (by omega)
  · rw [List.mem_singleton.mp hlow]
    exact isBlank_digit (by omega)

theorem decode_encode (bytes : List UInt8) : decode (encode bytes) = some bytes := by
  induction bytes with
  | nil => rfl
  | cons b rest ih =>
      have hb := b.toNat_lt
      have hcons : encode (b :: rest) =
          digit (b.toNat / 16) :: digit (b.toNat % 16) :: encode rest := rfl
      have hbyte : UInt8.ofNat (16 * (b.toNat / 16) + b.toNat % 16) = b := by
        rw [Nat.div_add_mod, UInt8.ofNat_toNat]
      rw [hcons, decode, digitValue?_digit (by omega), digitValue?_digit (by omega), ih]
      change some (UInt8.ofNat (16 * (b.toNat / 16) + b.toNat % 16) :: rest) = some (b :: rest)
      rw [hbyte]

theorem encode_injective : Function.Injective encode := by
  intro bytes others h
  exact Option.some_inj.mp (by rw [← decode_encode bytes, h, decode_encode])

/-- A digit of either case. -/
def IsDigit (c : Char) : Prop :=
  '0' ≤ c ∧ c ≤ '9' ∨ 'a' ≤ c ∧ c ≤ 'f' ∨ 'A' ≤ c ∧ c ≤ 'F'

instance (c : Char) : Decidable (IsDigit c) :=
  inferInstanceAs (Decidable (_ ∨ _))

theorem isSome_digitValue?_iff {c : Char} : (digitValue? c).isSome ↔ IsDigit c := by
  unfold digitValue? IsDigit
  repeat' split
  all_goals simp_all

theorem IsDigit.lt {c : Char} (h : IsDigit c) : c.toNat < 128 := by
  rcases h with ⟨-, h⟩ | ⟨-, h⟩ | ⟨-, h⟩
  all_goals exact Nat.lt_of_le_of_lt (Char.le_def.mp h) (by decide)

private theorem value_facts : ∀ n < 128, ∀ d ∈ digitValue? (Char.ofNat n),
    d < 16 ∧ digit d = (Char.ofNat n).toLower := by
  decide

theorem of_digitValue?_eq_some {c : Char} {d : Nat} (h : digitValue? c = some d) :
    d < 16 ∧ digit d = c.toLower := by
  have hdigit : IsDigit c := isSome_digitValue?_iff.mp (Option.isSome_of_eq_some h)
  have hfacts := value_facts c.toNat hdigit.lt
  rw [Char.ofNat_toNat] at hfacts
  exact hfacts d h

theorem exists_digitValue? {c : Char} (h : IsDigit c) : ∃ d, digitValue? c = some d :=
  Option.isSome_iff_exists.mp (isSome_digitValue?_iff.mpr h)

theorem of_decode_eq_some {text : List Char} {bytes : List UInt8}
    (h : decode text = some bytes) :
    (∀ c ∈ text, IsDigit c) ∧ encode bytes = Text.toLowerAscii text := by
  induction text using decode.induct generalizing bytes with
  | case1 =>
      cases h
      exact ⟨List.forall_mem_nil _, rfl⟩
  | case2 c => cases h
  | case3 high low rest ih =>
      simp only [decode, Option.bind_eq_bind, Option.bind_eq_some_iff, Option.some.injEq] at h
      obtain ⟨x, hx, y, hy, others, hrest, rfl⟩ := h
      obtain ⟨hxlt, hxdigit⟩ := of_digitValue?_eq_some hx
      obtain ⟨hylt, hydigit⟩ := of_digitValue?_eq_some hy
      obtain ⟨hdigits, hencode⟩ := ih hrest
      refine ⟨List.forall_mem_cons.mpr ⟨?_, List.forall_mem_cons.mpr ⟨?_, hdigits⟩⟩, ?_⟩
      · exact isSome_digitValue?_iff.mp (Option.isSome_of_eq_some hx)
      · exact isSome_digitValue?_iff.mp (Option.isSome_of_eq_some hy)
      · have hbyte : (UInt8.ofNat (16 * x + y)).toNat = 16 * x + y :=
          UInt8.toNat_ofNat_of_lt' (show 16 * x + y < 256 by omega)
        have hhigh : (16 * x + y) / 16 = x := by omega
        have hlow : (16 * x + y) % 16 = y := by omega
        rw [encode, List.flatMap_cons, ← encode, hencode, byteText, hbyte, hhigh, hlow, hxdigit,
          hydigit]
        rfl

theorem exists_decode {text : List Char} (hdigits : ∀ c ∈ text, IsDigit c)
    (heven : text.length % 2 = 0) : ∃ bytes, decode text = some bytes := by
  induction text using decode.induct with
  | case1 => exact ⟨[], rfl⟩
  | case2 c => cases heven
  | case3 high low rest ih =>
      obtain ⟨hhigh, hdigits⟩ := List.forall_mem_cons.mp hdigits
      obtain ⟨hlow, hdigits⟩ := List.forall_mem_cons.mp hdigits
      obtain ⟨x, hx⟩ := exists_digitValue? hhigh
      obtain ⟨y, hy⟩ := exists_digitValue? hlow
      rw [List.length_cons, List.length_cons, Nat.add_assoc, Nat.add_mod_right] at heven
      obtain ⟨bytes, hrest⟩ := ih hdigits heven
      exact ⟨UInt8.ofNat (16 * x + y) :: bytes, by simp [decode, hx, hy, hrest]⟩

end ScriptCoverage.Hex
