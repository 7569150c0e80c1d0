import ScriptCoverage.Proofs.ContractHash
import ScriptCoverage.Proofs.Text.Utf8

/-!
The texts of a contract hash. A text spells forty digits if it consists of these, of either case
and with or without a mark in front, between blanks; exactly such texts are read, and two of
them name one contract when their digits agree up to case. A reader that counts and decodes the
bytes of a text instead of its characters reads the same.
-/

namespace ScriptCoverage

namespace Hex

/-- The value of a byte that stands for a digit of either case. -/
def byteDigit? (b : UInt8) : Option Nat :=
  if 0x30 ≤ b ∧ b ≤ 0x39 then some (b.toNat - 0x30)
  else if 0x61 ≤ b ∧ b ≤ 0x66 then some (b.toNat - 0x61 + 10)
  else if 0x41 ≤ b ∧ b ≤ 0x46 then some (b.toNat - 0x41 + 10)
  else none

/-- Reads the bytes of a text. -/
def decodeBytes : List UInt8 → Option (List UInt8)
  | [] => some []
  | [_] => none
  | high :: low :: rest => do
      let h ← byteDigit? high
      let l ← byteDigit? low
      let bytes ← decodeBytes rest
      some (UInt8.ofNat (16 * h + l) :: bytes)

private theorem byteDigit_facts :
    ∀ n < 128, byteDigit? (UInt8.ofNat n) = digitValue? (Char.ofNat n) := by
  decide

theorem byteDigit?_of_lead {b : UInt8} (h : 0xC2 ≤ b.toNat) : byteDigit? b = none := by
  have hb : ∀ high : UInt8, high.toNat ≤ 0x66 → ¬ b ≤ high := by
    intro high hhigh hle
    rw [UInt8.le_iff_toNat_le] at hle
    omega
  rw [byteDigit?, if_neg, if_neg, if_neg]
  all_goals exact fun hrange => hb _ (by decide) hrange.2

theorem not_isDigit_iff {c : Char} : ¬ IsDigit c ↔ digitValue? c = none := by
  rw [← isSome_digitValue?_iff, Option.not_isSome_iff_eq_none]

/-- A digit is one byte, and the first byte of any other character is no digit. -/
theorem exists_encodeChar (c : Char) : ∃ lead tail, Utf8.encodeChar c = lead :: tail ∧
    byteDigit? lead = digitValue? c ∧ (IsDigit c → tail = []) := by
  have hsequence := Utf8.sequence_encodeChar c
  by_cases hascii : c.toNat < 128
  · refine ⟨UInt8.ofNat c.toNat, [], ?_, ?_, fun _ => rfl⟩
    · rw [Utf8.encodeChar, if_pos hascii]
    · rw [byteDigit_facts c.toNat hascii, Char.ofNat_toNat]
  · have hnot : ¬ IsDigit c := fun h => hascii h.lt
    rw [not_isDigit_iff.mp hnot]
    generalize Utf8.encodeChar c = sequence at hsequence
    cases hsequence with
    | one lead value => exact absurd (value ▸ UInt8.lt_iff_toNat_lt.mp lead) hascii
    | two lead =>
        exact ⟨_, _, rfl, byteDigit?_of_lead (Utf8.within_iff.mp lead).1, fun h => absurd h hnot⟩
    | three lead =>
        exact ⟨_, _, rfl, byteDigit?_of_lead ((by decide : 0xC2 ≤ 0xE0).trans
          (Utf8.within_iff.mp lead).1), fun h => absurd h hnot⟩
    | four lead =>
        exact ⟨_, _, rfl, byteDigit?_of_lead ((by decide : 0xC2 ≤ 0xF0).trans
          (Utf8.within_iff.mp lead).1), fun h => absurd h hnot⟩

theorem decodeBytes_of_none {lead : UInt8} (h : byteDigit? lead = none) (tail : List UInt8) :
    decodeBytes (lead :: tail) = none := by
  cases tail with
  | nil => rfl
  | cons low rest => rw [decodeBytes, h]; rfl

theorem decode_of_none {c : Char} (h : digitValue? c = none) (rest : List Char) :
    decode (c :: rest) = none := by
  cases rest with
  | nil => rfl
  | cons low rest => rw [decode, h]; rfl

/-- The bytes of a text are read as its characters are. -/
theorem decodeBytes_encode (text : List Char) : decodeBytes (Utf8.encode text) = decode text := by
  induction text using decode.induct with
  | case1 => rfl
  | case2 c =>
      obtain ⟨lead, tail, hbytes, hlead, htail⟩ := exists_encodeChar c
      rw [Utf8.encode, List.flatMap_singleton, hbytes]
      by_cases hc : IsDigit c
      · rw [htail hc]
        rfl
      · rw [decodeBytes_of_none (hlead.trans (not_isDigit_iff.mp hc))]
        rfl
  | case3 high low rest ih =>
      obtain ⟨lead, tail, hbytes, hlead, htail⟩ := exists_encodeChar high
      obtain ⟨lead', tail', hbytes', hlead', htail'⟩ := exists_encodeChar low
      rw [Utf8.encode, List.flatMap_cons, List.flatMap_cons, ← Utf8.encode, hbytes, hbytes']
      by_cases hhigh : IsDigit high
      · rw [htail hhigh]
        by_cases hlow : IsDigit low
        · rw [htail' hlow]
          simp only [List.cons_append, List.nil_append, decodeBytes, decode, hlead, hlead', ih]
        · have hnone := not_isDigit_iff.mp hlow
          simp only [List.cons_append, List.nil_append, decodeBytes, decode, hlead, hlead', hnone]
          rfl
      · have hnone := not_isDigit_iff.mp hhigh
        rw [decode_of_none hnone]
        exact decodeBytes_of_none (hlead.trans hnone) _

theorem length_encode_of_isDigit {text : List Char} (h : ∀ c ∈ text, IsDigit c) :
    (Utf8.encode text).length = text.length := by
  induction text with
  | nil => rfl
  | cons c rest ih =>
      obtain ⟨hc, hrest⟩ := List.forall_mem_cons.mp h
      obtain ⟨lead, tail, hbytes, -, htail⟩ := exists_encodeChar c
      rw [Utf8.encode, List.flatMap_cons, ← Utf8.encode, hbytes, htail hc, List.singleton_append,
        List.length_cons, List.length_cons, ih hrest]

end Hex

namespace ContractHash

/-- What may stand in front of the digits. -/
def marks : List (List Char) := [[], ['0', 'x'], ['0', 'X']]

/-- The digits of a hash, of either case. -/
structure AreDigits (digits : List Char) : Prop where
  length : digits.length = 2 * byteCount
  hexadecimal : ∀ c ∈ digits, Hex.IsDigit c

/-- Blanks, a mark or none, the digits of a hash, blanks. -/
def Spells (text digits : List Char) : Prop :=
  AreDigits digits ∧ ∃ lead mark trail, text = lead ++ ((mark ++ digits) ++ trail) ∧
    mark ∈ marks ∧ (∀ c ∈ lead, Text.isBlank c = true) ∧ ∀ c ∈ trail, Text.isBlank c = true

variable {text digits : List Char} {hash : ContractHash}

theorem isBlank_of_isDigit {c : Char} (h : Hex.IsDigit c) : Text.isBlank c = false := by
  have hfacts : ∀ n < 128, Hex.IsDigit (Char.ofNat n) → Text.isBlank (Char.ofNat n) = false := by
    decide
  have hc := hfacts c.toNat h.lt
  rw [Char.ofNat_toNat] at hc
  exact hc h

theorem exists_mark (text : List Char) : ∃ mark ∈ marks, text = mark ++ withoutMark text := by
  rw [withoutMark]
  unfold isMarked
  split
  · exact ⟨['0', 'x'], by simp [marks], rfl⟩
  · exact ⟨['0', 'X'], by simp [marks], rfl⟩
  · exact ⟨[], by simp [marks], rfl⟩

theorem AreDigits.isMarked (h : AreDigits digits) : isMarked digits = false := by
  unfold ContractHash.isMarked
  split
  · have hx := h.hexadecimal 'x' (by simp)
    exact absurd hx (by decide)
  · have hx := h.hexadecimal 'X' (by simp)
    exact absurd hx (by decide)
  · rfl

theorem AreDigits.withoutMark_append (h : AreDigits digits) {mark : List Char}
    (hmark : mark ∈ marks) : withoutMark (mark ++ digits) = digits := by
  simp only [marks, List.mem_cons, List.not_mem_nil, or_false] at hmark
  rcases hmark with rfl | rfl | rfl
  · rw [List.nil_append, withoutMark, h.isMarked]
    rfl
  · rfl
  · rfl

theorem AreDigits.isWord_append (h : AreDigits digits) {mark : List Char} (hmark : mark ∈ marks) :
    Text.IsWord (mark ++ digits) where
  nonempty := by
    have hne : digits ≠ [] := List.ne_nil_of_length_pos (h.length ▸ by decide)
    exact List.append_ne_nil_of_right_ne_nil _ hne
  visible := by
    intro c hc
    rcases List.mem_append.mp hc with hfront | hdigit
    · have hvisible : (marks.all fun mark => mark.all fun c => !Text.isBlank c) = true := by decide
      have hc := List.all_eq_true.mp (List.all_eq_true.mp hvisible mark hmark) c hfront
      exact (Bool.not_eq_true' _).mp hc
    · exact isBlank_of_isDigit (h.hexadecimal c hdigit)

theorem spells_iff :
    Spells text digits ↔ AreDigits digits ∧ withoutMark (Text.trim text) = digits := by
  constructor
  · rintro ⟨hdigits, lead, mark, trail, rfl, hmark, hlead, htrail⟩
    rw [Text.trim_between_blanks hlead (hdigits.isWord_append hmark) htrail]
    exact ⟨hdigits, hdigits.withoutMark_append hmark⟩
  · rintro ⟨hdigits, rfl⟩
    obtain ⟨lead, trail, hlead, htrail, htext⟩ := Text.exists_eq_trim text
    obtain ⟨mark, hmark, htrim⟩ := exists_mark (Text.trim text)
    exact ⟨hdigits, lead, mark, trail, by rwa [← htrim], hmark, hlead, htrail⟩

/-- A text spells one hash at most. -/
theorem Spells.unique {others : List Char} (h : Spells text digits) (h' : Spells text others) :
    others = digits :=
  (spells_iff.mp h').2.symm.trans (spells_iff.mp h).2

theorem ofBytes_eq_iff {bytes : List UInt8} (h : bytes.length = byteCount) :
    ofBytes bytes = hash ↔ bytes = hash.toBytes := by
  constructor
  · rintro rfl
    exact (toBytes_ofBytes h).symm
  · rintro rfl
    exact ofBytes_toBytes hash

theorem ofBytes?_eq_ok_iff {bytes : List UInt8} :
    ofBytes? bytes = .ok hash ↔ bytes = hash.toBytes := by
  rw [ofBytes?]
  split
  · rename_i hlength
    rw [Except.ok.injEq, ofBytes_eq_iff hlength]
  · rename_i hlength
    refine ⟨fun h => (by cases h), ?_⟩
    rintro rfl
    exact absurd hash.length_toBytes hlength

theorem length_of_decode {bytes : List UInt8} (hdigits : AreDigits digits)
    (hdecode : Hex.decode digits = some bytes) : bytes.length = byteCount := by
  have hlength : 2 * bytes.length = digits.length := by
    rw [← Hex.length_encode, (Hex.of_decode_eq_some hdecode).2, Text.toLowerAscii, List.length_map]
  rw [hdigits.length] at hlength
  exact Nat.eq_of_mul_eq_mul_left (by decide) hlength

/-- Exactly the spellings of a hash are read, and the digits are those of its bytes, the last
byte first. -/
theorem parse?_eq_some_iff : parse? text = some hash ↔
    ∃ digits, Spells text digits ∧ Hex.decode digits = some hash.toBytes.reverse := by
  rw [parse?]
  constructor
  · intro h
    split at h
    · rename_i hcount
      obtain ⟨bytes, hdecode, hhash⟩ := Option.map_eq_some_iff.mp h
      have hdigits : AreDigits (withoutMark (Text.trim text)) :=
        ⟨hcount, (Hex.of_decode_eq_some hdecode).1⟩
      have hlength : bytes.reverse.length = byteCount := by
        rw [List.length_reverse, length_of_decode hdigits hdecode]
      have hbytes : bytes.reverse = hash.toBytes := (ofBytes_eq_iff hlength).mp hhash
      refine ⟨_, spells_iff.mpr ⟨hdigits, rfl⟩, ?_⟩
      rw [hdecode, ← hbytes, List.reverse_reverse]
    · cases h
  · rintro ⟨digits, hspells, hdecode⟩
    obtain ⟨hdigits, hbody⟩ := spells_iff.mp hspells
    rw [hbody, if_pos hdigits.length, hdecode, Option.map_some, List.reverse_reverse,
      ofBytes_toBytes]

theorem decode_of_parse {text : String} (hspells : Spells text.toList digits)
    (hparse : parse text = .ok hash) : Hex.decode digits = some hash.toBytes.reverse := by
  obtain ⟨others, hothers, hdecode⟩ := parse?_eq_some_iff.mp (parse_eq_ok_iff.mp hparse)
  rwa [hspells.unique hothers] at hdecode

theorem exists_parse_of_spells {text : String} (hspells : Spells text.toList digits) :
    ∃ hash, parse text = .ok hash := by
  obtain ⟨hdigits, -⟩ := spells_iff.mp hspells
  obtain ⟨bytes, hdecode⟩ := Hex.exists_decode hdigits.hexadecimal (by rw [hdigits.length]; rfl)
  have hlength : bytes.reverse.length = byteCount := by
    rw [List.length_reverse, length_of_decode hdigits hdecode]
  refine ⟨ofBytes bytes.reverse, parse_eq_ok_iff.mpr (parse?_eq_some_iff.mpr ⟨digits, hspells, ?_⟩)⟩
  rw [toBytes_ofBytes hlength, List.reverse_reverse, hdecode]

/-- What is printed for a hash is any spelling of it, marked and in lower case. -/
theorem text_of_parse {text : String} (hspells : Spells text.toList digits)
    (hparse : parse text = .ok hash) :
    hash.text = String.ofList ('0' :: 'x' :: Text.toLowerAscii digits) := by
  rw [ContractHash.text, chars, (Hex.of_decode_eq_some (decode_of_parse hspells hparse)).2]

/-- Reads a hash from the bytes of a text. -/
def parseEncoded? (text : List Char) : Option ContractHash :=
  let body := Utf8.encode (withoutMark (Text.trim text))
  if body.length = 2 * byteCount then
    (Hex.decodeBytes body).map fun bytes => ofBytes bytes.reverse
  else none

/-- No text with forty bytes but fewer characters is read, and no text with forty characters but
more bytes. -/
theorem parseEncoded?_eq (text : List Char) : parseEncoded? text = parse? text := by
  simp only [parseEncoded?, parse?, Hex.decodeBytes_encode]
  cases hdecode : Hex.decode (withoutMark (Text.trim text)) with
  | none => simp only [Option.map_none, ite_self]
  | some bytes => rw [Hex.length_encode_of_isDigit (Hex.of_decode_eq_some hdecode).1]

/-- The texts and the bytes of contract hashes correspond. A hash is read back from its text and
from its bytes. A text is read if it spells forty digits, and then the hash has these digits,
in lower case, in its text and the decoded bytes, in reverse order, as its bytes: so two texts
name the same contract if and only if their digits agree up to case. It makes no difference
whether characters or bytes are counted and decoded. -/
theorem text_and_bytes_correspond :
    (∀ hash : ContractHash, parse hash.text = .ok hash ∧ ofBytes? hash.toBytes = .ok hash) ∧
    (∀ bytes hash, ofBytes? bytes = .ok hash ↔ bytes = hash.toBytes) ∧
    (∀ text, (∃ hash, parse text = .ok hash) ↔ ∃ digits, Spells text.toList digits) ∧
    (∀ text digits hash, Spells text.toList digits → parse text = .ok hash →
      hash.text = String.ofList ('0' :: 'x' :: Text.toLowerAscii digits) ∧
      ∃ bytes, Hex.decode digits = some bytes ∧ bytes.length = byteCount ∧
        hash.toBytes = bytes.reverse) ∧
    (∀ text text' digits digits' hash hash',
      Spells text.toList digits → parse text = .ok hash →
      Spells text'.toList digits' → parse text' = .ok hash' →
        (hash = hash' ↔ Text.toLowerAscii digits = Text.toLowerAscii digits')) ∧
    ∀ text, parseEncoded? text = parse? text := by
  refine ⟨fun hash => ⟨parse_text hash, ofBytes?_eq_ok_iff.mpr rfl⟩, fun _ _ => ofBytes?_eq_ok_iff,
    ?spelled, ?printed, ?same, parseEncoded?_eq⟩
  case spelled =>
    intro text
    constructor
    · rintro ⟨hash, hparse⟩
      obtain ⟨digits, hspells, -⟩ := parse?_eq_some_iff.mp (parse_eq_ok_iff.mp hparse)
      exact ⟨digits, hspells⟩
    · rintro ⟨digits, hspells⟩
      exact exists_parse_of_spells hspells
  case printed =>
    intro text digits hash hspells hparse
    have hlength : hash.toBytes.reverse.length = byteCount := by
      rw [List.length_reverse, length_toBytes]
    exact ⟨text_of_parse hspells hparse, _, decode_of_parse hspells hparse, hlength,
      hash.toBytes.reverse_reverse.symm⟩
  case same =>
    intro text text' digits digits' hash hash' hspells hparse hspells' hparse'
    obtain ⟨-, hencode⟩ := Hex.of_decode_eq_some (decode_of_parse hspells hparse)
    obtain ⟨-, hencode'⟩ := Hex.of_decode_eq_some (decode_of_parse hspells' hparse')
    rw [← hencode, ← hencode']
    constructor
    · rintro rfl
      rfl
    · intro h
      have hbytes := List.reverse_injective (Hex.encode_injective h)
      rw [← ofBytes_toBytes hash, hbytes, ofBytes_toBytes]

end ContractHash

end ScriptCoverage
