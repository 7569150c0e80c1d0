import Mathlib.Data.UInt
import Mathlib.Tactic.SplitIfs
import ScriptCoverage.Text.Utf8

/-!
A text is read back from its bytes, and no other bytes are read as that text. The
sequences of the UTF-8 table stand between the two sides: `next` accepts exactly these,
and a character is written as the only one that stands for it.
-/

namespace ScriptCoverage.Utf8

theorem within_iff {low high a : UInt8} :
    low ≤ a ∧ a ≤ high ↔ low.toNat ≤ a.toNat ∧ a.toNat ≤ high.toNat :=
  and_congr UInt8.le_iff_toNat_le UInt8.le_iff_toNat_le

theorem isTail_iff {b : UInt8} : isTail b = true ↔ 0x80 ≤ b.toNat ∧ b.toNat ≤ 0xBF := by
  simp [isTail, UInt8.le_iff_toNat_le]

/-- Four lead bytes narrow the range of the byte behind them. -/
theorem isSecond_iff {lead b : UInt8} :
    isSecond lead b = true ↔
      (0x80 ≤ b.toNat ∧ b.toNat ≤ 0xBF) ∧
        (lead.toNat = 0xE0 → 0xA0 ≤ b.toNat) ∧ (lead.toNat = 0xED → b.toNat ≤ 0x9F) ∧
        (lead.toNat = 0xF0 → 0x90 ≤ b.toNat) ∧ (lead.toNat = 0xF4 → b.toNat ≤ 0x8F) := by
  unfold isSecond secondRange
  simp only [← UInt8.toNat_inj, UInt8.reduceToNat]
  split_ifs <;> simp [UInt8.le_iff_toNat_le] <;> omega

/-- The sequences of one character, by their length. -/
inductive Sequence : List UInt8 → Char → Prop where
  | one {a : UInt8} {char : Char} (lead : a < 0x80) (value : char.toNat = a.toNat) :
      Sequence [a] char
  | two {a b : UInt8} {char : Char} (lead : 0xC2 ≤ a ∧ a ≤ 0xDF) (second : isTail b)
      (value : char.toNat = 64 * (a.toNat - 0xC0) + (b.toNat - 0x80)) :
      Sequence [a, b] char
  | three {a b c : UInt8} {char : Char} (lead : 0xE0 ≤ a ∧ a ≤ 0xEF)
      (second : isSecond a b) (third : isTail c)
      (value : char.toNat =
        64 * (64 * (a.toNat - 0xE0) + (b.toNat - 0x80)) + (c.toNat - 0x80)) :
      Sequence [a, b, c] char
  | four {a b c d : UInt8} {char : Char} (lead : 0xF0 ≤ a ∧ a ≤ 0xF4)
      (second : isSecond a b) (third : isTail c) (fourth : isTail d)
      (value : char.toNat =
        64 * (64 * (64 * (a.toNat - 0xF0) + (b.toNat - 0x80)) + (c.toNat - 0x80)) +
          (d.toNat - 0x80)) :
      Sequence [a, b, c, d] char

theorem toNat_ofNat {n : Nat} (h : n.isValidChar) : (Char.ofNat n).toNat = n := by
  rw [Char.ofNat, dif_pos h]
  rfl

/-- Three bytes make a number above those of two bytes, and none of a surrogate. -/
theorem three_range {a b c : UInt8} {n : Nat} (lead : 0xE0 ≤ a ∧ a ≤ 0xEF)
    (second : isSecond a b = true) (third : isTail c = true)
    (hn : n = 64 * (64 * (a.toNat - 0xE0) + (b.toNat - 0x80)) + (c.toNat - 0x80)) :
    0x800 ≤ n ∧ (n < 0xD800 ∨ 0xDFFF < n) ∧ n < 0x10000 := by
  have ha : 0xE0 ≤ a.toNat ∧ a.toNat ≤ 0xEF := within_iff.mp lead
  obtain ⟨hb, hlow, hsurrogate, -, -⟩ := isSecond_iff.mp second
  have hc := isTail_iff.mp third
  omega

/-- Four bytes make a number above those of three bytes, and of a character. -/
theorem four_range {a b c d : UInt8} {n : Nat} (lead : 0xF0 ≤ a ∧ a ≤ 0xF4)
    (second : isSecond a b = true) (third : isTail c = true) (fourth : isTail d = true)
    (hn : n = 64 * (64 * (64 * (a.toNat - 0xF0) + (b.toNat - 0x80)) + (c.toNat - 0x80)) +
      (d.toNat - 0x80)) : 0x10000 ≤ n ∧ n < 0x110000 := by
  have ha : 0xF0 ≤ a.toNat ∧ a.toNat ≤ 0xF4 := within_iff.mp lead
  obtain ⟨hb, -, -, hlow, hhigh⟩ := isSecond_iff.mp second
  have hc := isTail_iff.mp third
  have hd := isTail_iff.mp fourth
  omega

/-- A character at the front is read off its sequence. -/
theorem exists_sequence_of_next {lead : UInt8} {bytes rest : List UInt8} {char : Char} :
    next lead bytes = .char char rest →
      ∃ tail, Sequence (lead :: tail) char ∧ bytes = tail ++ rest := by
  fun_cases next lead bytes with
  | case1 =>
      rename_i hlead
      intro h
      obtain ⟨rfl, rfl⟩ := Front.char.inj h
      have ha : lead.toNat < 0x80 := UInt8.lt_iff_toNat_lt.mp hlead
      exact ⟨[], .one hlead (toNat_ofNat (.inl (by omega))), rfl⟩
  | case2 =>
      rename_i hlead b rest second
      intro h
      obtain ⟨rfl, rfl⟩ := Front.char.inj h
      have ha : lead.toNat ≤ 0xDF := UInt8.le_iff_toNat_le.mp hlead.2
      have hb := isTail_iff.mp second
      exact ⟨[b], .two hlead second (toNat_ofNat (.inl (by simp; omega))), rfl⟩
  | case5 =>
      rename_i hlead b second c rest third
      intro h
      obtain ⟨rfl, rfl⟩ := Front.char.inj h
      obtain ⟨-, hsurrogate, hhigh⟩ := three_range hlead second third rfl
      refine ⟨[b, c], .three hlead second third (toNat_ofNat ?_), rfl⟩
      exact hsurrogate.imp_right fun h => ⟨h, Nat.lt_trans hhigh (by decide)⟩
  | case10 =>
      rename_i hlead b second c third d rest fourth
      intro h
      obtain ⟨rfl, rfl⟩ := Front.char.inj h
      obtain ⟨hlow, hhigh⟩ := four_range hlead second third fourth rfl
      refine ⟨[b, c, d], .four hlead second third fourth (toNat_ofNat ?_), rfl⟩
      exact .inr ⟨Nat.lt_of_lt_of_le (by decide) hlow, hhigh⟩
  | _ => simp

theorem next_of_sequence {lead : UInt8} {tail : List UInt8} {char : Char}
    (h : Sequence (lead :: tail) char) (rest : List UInt8) :
    next lead (tail ++ rest) = .char char rest := by
  cases h with
  | one hlead value =>
      rw [next.eq_def, if_pos hlead, ← value, Char.ofNat_toNat, List.nil_append]
  | two hlead second value =>
      have hone : ¬lead < 0x80 := UInt8.not_lt.mpr (UInt8.le_trans (by decide) hlead.1)
      simp only [next, List.cons_append, List.nil_append, if_neg hone, if_pos hlead,
        if_pos second, scalar, List.foldl_cons, List.foldl_nil, ← value, Char.ofNat_toNat]
  | three hlead second third value =>
      have hone : ¬lead < 0x80 := UInt8.not_lt.mpr (UInt8.le_trans (by decide) hlead.1)
      have htwo : ¬(0xC2 ≤ lead ∧ lead ≤ 0xDF) := fun h =>
        absurd (UInt8.le_trans hlead.1 h.2) (by decide)
      simp only [next, List.cons_append, List.nil_append, if_neg hone, if_neg htwo,
        if_pos hlead, if_pos second, if_pos third, scalar, List.foldl_cons, List.foldl_nil,
        ← value, Char.ofNat_toNat]
  | four hlead second third fourth value =>
      have hone : ¬lead < 0x80 := UInt8.not_lt.mpr (UInt8.le_trans (by decide) hlead.1)
      have htwo : ¬(0xC2 ≤ lead ∧ lead ≤ 0xDF) := fun h =>
        absurd (UInt8.le_trans hlead.1 h.2) (by decide)
      have hthree : ¬(0xE0 ≤ lead ∧ lead ≤ 0xEF) := fun h =>
        absurd (UInt8.le_trans hlead.1 h.2) (by decide)
      simp only [next, List.cons_append, List.nil_append, if_neg hone, if_neg htwo,
        if_neg hthree, if_pos hlead, if_pos second, if_pos third, if_pos fourth,
        scalar, List.foldl_cons, List.foldl_nil, ← value, Char.ofNat_toNat]

theorem toNat_tailByte (n : Nat) : (tailByte n).toNat = 0x80 + n % 64 := by
  rw [tailByte, UInt8.toNat_ofNat']
  omega

theorem isTail_tailByte (n : Nat) : isTail (tailByte n) = true := by
  rw [isTail_iff, toNat_tailByte]
  omega

theorem tailByte_eq {b : UInt8} {n : Nat} (h : isTail b = true)
    (hn : n % 64 = b.toNat - 0x80) : tailByte n = b := by
  rw [isTail_iff] at h
  apply UInt8.toNat_inj.mp
  rw [toNat_tailByte]
  omega

theorem leadByte_eq {a : UInt8} {n : Nat} (hn : n = a.toNat) : UInt8.ofNat n = a := by
  rw [hn, UInt8.ofNat_toNat]

/-- A sequence is how its character is written. -/
theorem Sequence.eq_encodeChar {sequence : List UInt8} {char : Char}
    (h : Sequence sequence char) : sequence = encodeChar char := by
  unfold encodeChar
  cases h with
  | @one a _ hlead value =>
      have ha : a.toNat < 0x80 := UInt8.lt_iff_toNat_lt.mp hlead
      simp only [value, if_pos ha, UInt8.ofNat_toNat]
  | @two a b _ hlead second value =>
      have ha : 0xC2 ≤ a.toNat ∧ a.toNat ≤ 0xDF := within_iff.mp hlead
      have hb := isTail_iff.mp second
      have hbyte : UInt8.ofNat (0xC0 + char.toNat / 64) = a := leadByte_eq (by omega)
      dsimp only
      rw [if_neg (by omega), if_pos (by omega), hbyte, tailByte_eq second (by omega)]
  | @three a b c _ hlead second third value =>
      have ha : 0xE0 ≤ a.toNat ∧ a.toNat ≤ 0xEF := within_iff.mp hlead
      obtain ⟨hlow, -, hhigh⟩ := three_range hlead second third value
      have hb := (isSecond_iff.mp second).1
      have hc := isTail_iff.mp third
      have hbyte : UInt8.ofNat (0xE0 + char.toNat / 4096) = a := leadByte_eq (by omega)
      dsimp only
      rw [if_neg (by omega), if_neg (by omega), if_pos hhigh, hbyte,
        tailByte_eq (isTail_iff.mpr hb) (by omega), tailByte_eq third (by omega)]
  | @four a b c d _ hlead second third fourth value =>
      have ha : 0xF0 ≤ a.toNat ∧ a.toNat ≤ 0xF4 := within_iff.mp hlead
      obtain ⟨hlow, -⟩ := four_range hlead second third fourth value
      have hb := (isSecond_iff.mp second).1
      have hc := isTail_iff.mp third
      have hd := isTail_iff.mp fourth
      have hbyte : UInt8.ofNat (0xF0 + char.toNat / 262144) = a := leadByte_eq (by omega)
      dsimp only
      rw [if_neg (by omega), if_neg (by omega), if_neg (by omega), hbyte,
        tailByte_eq (isTail_iff.mpr hb) (by omega), tailByte_eq third (by omega),
        tailByte_eq fourth (by omega)]

theorem toNat_leadByte {n : Nat} (h : n < 256) : (UInt8.ofNat n).toNat = n := by
  rw [UInt8.toNat_ofNat']
  omega

/-- Every character is written as a sequence. -/
theorem sequence_encodeChar (char : Char) : Sequence (encodeChar char) char := by
  have hvalid : char.toNat < 0xD800 ∨ 0xDFFF < char.toNat ∧ char.toNat < 0x110000 := char.valid
  unfold encodeChar
  dsimp only
  split_ifs with hone htwo hthree
  · have ha := toNat_leadByte (n := char.toNat) (by omega)
    refine .one ?_ ha.symm
    rw [UInt8.lt_iff_toNat_lt, ha]
    exact hone
  · have ha := toNat_leadByte (n := 0xC0 + char.toNat / 64) (by omega)
    refine .two ?_ (isTail_tailByte _) ?_
    · rw [within_iff, ha]
      simp only [UInt8.reduceToNat]
      omega
    · rw [ha, toNat_tailByte]
      omega
  · have ha := toNat_leadByte (n := 0xE0 + char.toNat / 4096) (by omega)
    refine .three ?_ ?_ (isTail_tailByte _) ?_
    · rw [within_iff, ha]
      simp only [UInt8.reduceToNat]
      omega
    · rw [isSecond_iff, ha, toNat_tailByte]
      omega
    · rw [ha, toNat_tailByte, toNat_tailByte]
      omega
  · have ha := toNat_leadByte (n := 0xF0 + char.toNat / 262144) (by omega)
    refine .four ?_ ?_ (isTail_tailByte _) (isTail_tailByte _) ?_
    · rw [within_iff, ha]
      simp only [UInt8.reduceToNat]
      omega
    · rw [isSecond_iff, ha, toNat_tailByte]
      omega
    · rw [ha, toNat_tailByte, toNat_tailByte, toNat_tailByte]
      omega

theorem exists_next_encodeChar (char : Char) (rest : List UInt8) :
    ∃ lead bytes, encodeChar char ++ rest = lead :: bytes ∧
      next lead bytes = .char char rest := by
  have hsequence := sequence_encodeChar char
  cases hencoded : encodeChar char with
  | nil =>
      rw [hencoded] at hsequence
      cases hsequence
  | cons lead tail =>
      rw [hencoded] at hsequence
      exact ⟨lead, tail ++ rest, rfl, next_of_sequence hsequence rest⟩

theorem decode_encodeChar_append (char : Char) (rest : List UInt8) :
    decode (encodeChar char ++ rest) = (decode rest).map (char :: ·) := by
  obtain ⟨lead, bytes, hbytes, hnext⟩ := exists_next_encodeChar char rest
  rw [hbytes, decode]
  split
  · rename_i h
    rw [hnext] at h
    obtain ⟨rfl, rfl⟩ := Front.char.inj h
    rfl
  · rename_i h
    rw [hnext] at h
    cases h

theorem decodeLossy_encodeChar_append (char : Char) (rest : List UInt8) :
    decodeLossy (encodeChar char ++ rest) = char :: decodeLossy rest := by
  obtain ⟨lead, bytes, hbytes, hnext⟩ := exists_next_encodeChar char rest
  rw [hbytes, decodeLossy]
  split
  · rename_i h
    rw [hnext] at h
    obtain ⟨rfl, rfl⟩ := Front.char.inj h
    rfl
  · rename_i h
    rw [hnext] at h
    cases h

theorem decode_encode (text : List Char) : decode (encode text) = some text := by
  induction text with
  | nil => simp [encode, decode]
  | cons char rest ih =>
      rw [encode, List.flatMap_cons, decode_encodeChar_append]
      rw [← encode, ih, Option.map_some]

/-- A well-formed text is not changed by the lossy reading. -/
theorem decodeLossy_encode (text : List Char) : decodeLossy (encode text) = text := by
  induction text with
  | nil => simp [encode, decodeLossy]
  | cons char rest ih =>
      rw [encode, List.flatMap_cons, decodeLossy_encodeChar_append]
      rw [← encode, ih]

theorem eq_encode_of_decode {bytes : List UInt8} {text : List Char}
    (h : decode bytes = some text) : bytes = encode text := by
  fun_induction decode bytes generalizing text with
  | case1 =>
      cases h
      rfl
  | case2 lead bytes char rest hnext _ ih =>
      obtain ⟨later, hlater, rfl⟩ := Option.map_eq_some_iff.mp h
      obtain ⟨tail, hsequence, hbytes⟩ := exists_sequence_of_next hnext
      rw [encode, List.flatMap_cons, ← encode, ← ih hlater, ← hsequence.eq_encodeChar, hbytes,
        List.cons_append]
  | case3 => cases h

/-- Decoding accepts exactly what encoding writes. -/
theorem decode_eq_some_iff {bytes : List UInt8} {text : List Char} :
    decode bytes = some text ↔ bytes = encode text := by
  constructor
  · exact eq_encode_of_decode
  · rintro rfl
    exact decode_encode text

/-- The bytes of a character are those that it has in core's strings. -/
theorem encodeChar_eq_utf8EncodeChar (char : Char) :
    encodeChar char = String.utf8EncodeChar char := by
  have hvalid : char.toNat < 0xD800 ∨ 0xDFFF < char.toNat ∧ char.toNat < 0x110000 := char.valid
  have htail (n : Nat) : tailByte n = UInt8.ofNat (n % 64 + 128) :=
    congrArg UInt8.ofNat (Nat.add_comm _ _)
  simp only [encodeChar, String.utf8EncodeChar, Char.toNat_val, htail, Nat.lt_succ_iff]
  split_ifs
  · rfl
  · have hlead : 192 + char.toNat / 64 = char.toNat / 64 % 32 + 192 := by omega
    rw [hlead]
  · have hlead : 224 + char.toNat / 4096 = char.toNat / 4096 % 16 + 224 := by omega
    rw [hlead]
  · have hlead : 240 + char.toNat / 262144 = char.toNat / 262144 % 8 + 240 := by omega
    rw [hlead]

theorem length_encode (text : String) : (encode text.toList).length = text.utf8ByteSize := by
  rw [← String.size_toByteArray, ← String.utf8Encode_toList, List.utf8Encode,
    List.size_toByteArray, encode, funext encodeChar_eq_utf8EncodeChar]

/-- The bytes of the smaller character come first, whatever follows. -/
theorem encodeChar_append_lt {c d : Char} (h : c < d) (front back : List UInt8) :
    encodeChar c ++ front < encodeChar d ++ back := by
  have hlt : c.toNat < d.toNat := h
  have hvalid : d.toNat < 0xD800 ∨ 0xDFFF < d.toNat ∧ d.toNat < 0x110000 := d.valid
  simp only [encodeChar]
  split_ifs
  all_goals
    simp (disch := omega) only [List.cons_append, List.nil_append, List.cons_lt_cons_iff,
      UInt8.lt_iff_toNat_lt, ← UInt8.toNat_inj, toNat_tailByte, toNat_leadByte]
    omega

/-- Texts stand in the same order as their bytes. -/
theorem encode_lt {text other : List Char} (h : text < other) : encode text < encode other := by
  induction h with
  | @nil d rest =>
      obtain ⟨lead, bytes, hbytes, -⟩ := exists_next_encodeChar d (encode rest)
      change [] < encodeChar d ++ encode rest
      rw [hbytes]
      exact List.nil_lt_cons lead bytes
  | rel h => exact encodeChar_append_lt h _ _
  | @cons c rest other _ ih =>
      exact List.append_left_lt ih

end ScriptCoverage.Utf8
