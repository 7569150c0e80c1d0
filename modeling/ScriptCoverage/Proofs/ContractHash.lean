import ScriptCoverage.ContractHash
import ScriptCoverage.Proofs.Binary.LittleEndian
import ScriptCoverage.Proofs.Text.Hex
import ScriptCoverage.Proofs.Text.Lines

/-!
A contract hash is read back from its bytes and from its text.
-/

namespace ScriptCoverage.ContractHash

theorem length_toBytes (hash : ContractHash) : hash.toBytes.length = byteCount := by
  simp [toBytes, byteCount]

theorem ofBytes_toBytes (hash : ContractHash) : ofBytes hash.toBytes = hash := by
  have hlow : hash.toBytes.take 8 = LittleEndian.encode 8 hash.low.toNat := by
    simp [toBytes]
  have hmid : (hash.toBytes.drop 8).take 8 = LittleEndian.encode 8 hash.mid.toNat := by
    simp [toBytes]
  have hhigh : (hash.toBytes.drop 16).take 4 = LittleEndian.encode 4 hash.high.toNat := by
    have htop : hash.toBytes.drop 16 = LittleEndian.encode 4 hash.high.toNat :=
      List.drop_left' (by simp)
    rw [htop, List.take_of_length_le (by simp)]
  rw [ofBytes, hlow, hmid, hhigh, LittleEndian.decode_encode 8 _ hash.low.toNat_lt,
    LittleEndian.decode_encode 8 _ hash.mid.toNat_lt,
    LittleEndian.decode_encode 4 _ hash.high.toNat_lt, UInt64.ofNat_toNat, UInt64.ofNat_toNat,
    UInt32.ofNat_toNat]

theorem toBytes_ofBytes {bytes : List UInt8} (h : bytes.length = byteCount) :
    (ofBytes bytes).toBytes = bytes := by
  have word {part : List UInt8} {width : Nat} (hpart : part.length = width) :
      LittleEndian.encode width (LittleEndian.decode part) = part := by
    rw [← hpart, LittleEndian.encode_decode]
  have fits {part : List UInt8} {width : Nat} (hpart : part.length = width) :
      LittleEndian.decode part < 256 ^ width := by
    rw [← hpart]
    exact LittleEndian.decode_lt part
  unfold byteCount at h
  have hlow : (bytes.take 8).length = 8 := by simp [h]
  have hmid : ((bytes.drop 8).take 8).length = 8 := by simp [h]
  have hhigh : ((bytes.drop 16).take 4).length = 4 := by simp [h]
  have hend : (bytes.drop 16).take 4 = (bytes.drop 8).drop 8 := by
    rw [List.drop_drop, List.take_of_length_le (by simp [h])]
  rw [toBytes, ofBytes, UInt64.toNat_ofNat_of_lt' (fits hlow),
    UInt64.toNat_ofNat_of_lt' (fits hmid), UInt32.toNat_ofNat_of_lt' (fits hhigh), word hlow,
    word hmid, word hhigh, hend, List.append_assoc, List.take_append_drop,
    List.take_append_drop]

theorem isWord_chars (hash : ContractHash) : Text.IsWord hash.chars where
  nonempty := List.cons_ne_nil _ _
  visible := by
    intro c hc
    rcases List.mem_cons.mp hc with rfl | hc
    · decide
    · rcases List.mem_cons.mp hc with rfl | hc
      · decide
      · exact Hex.isBlank_of_mem_encode hc

theorem parse?_chars (hash : ContractHash) : parse? hash.chars = some hash := by
  have htrim : Text.trim hash.chars = hash.chars :=
    Text.trim_of_trimmed hash.isWord_chars.trimmed
  have hbody : withoutMark hash.chars = Hex.encode hash.toBytes.reverse := rfl
  have hlength : (Hex.encode hash.toBytes.reverse).length = 2 * byteCount := by
    rw [Hex.length_encode, List.length_reverse, length_toBytes]
  rw [parse?, htrim, hbody, if_pos hlength, Hex.decode_encode, Option.map_some,
    List.reverse_reverse, ofBytes_toBytes]

theorem parse_eq_ok_iff {text : String} {hash : ContractHash} :
    parse text = .ok hash ↔ parse? text.toList = some hash := by
  rw [parse]
  cases parse? text.toList <;> simp

/-- A hash is read back from its text. -/
theorem parse_text (hash : ContractHash) : parse hash.text = .ok hash := by
  rw [parse, text, String.toList_ofList, parse?_chars]

end ScriptCoverage.ContractHash
