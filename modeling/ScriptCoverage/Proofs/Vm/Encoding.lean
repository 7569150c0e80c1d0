import Mathlib.Data.List.Infix
import ScriptCoverage.Proofs.Binary.LittleEndian
import ScriptCoverage.Vm.Instruction

/-!
The bytes of one instruction. A decoder that reads at some address succeeds exactly when
an encoding starts there, and no encoding is the beginning of another one, so it is the
only encoding that starts there.
-/

namespace ScriptCoverage

/-- The width of the length that stands before the operand of PUSHDATA1, PUSHDATA2 and
PUSHDATA4. -/
def Opcode.countWidth? (op : UInt8) : Option Nat :=
  if op = 0x0C then some 1
  else if op = 0x0D then some 2
  else if op = 0x0E then some 4
  else none

theorem Opcode.operandForm_of_none {op : UInt8} (h : countWidth? op = none) :
    operandForm op = .fixed (operandWidth op) := by
  unfold countWidth? at h
  unfold operandForm
  grind

theorem Opcode.operandForm_of_some {op : UInt8} {width : Nat}
    (h : countWidth? op = some width) : operandForm op = .counted width := by
  unfold countWidth? at h
  unfold operandForm
  grind

/-- A relative target takes at least one byte. -/
theorem Opcode.operandWidth_pos_of_isBranch {op : UInt8} (h : isBranch op = true) :
    0 < operandWidth op := by
  simp only [isBranch, Bool.and_eq_true, decide_eq_true_eq] at h
  obtain ⟨hfirst, hlast⟩ := h
  unfold operandWidth
  by_cases hjump : op ≤ jmpLeLong
  · have hrange : (decide (jmp ≤ op) && decide (op ≤ jmpLeLong)) = true := by
      simp [hfirst, hjump]
    rw [if_pos hrange]
    split <;> decide
  · have hcall : op = 0x34 ∨ op = 0x35 := by
      simp only [jmpLeLong, callLong, UInt8.le_iff_toNat_le, UInt8.reduceToNat] at hjump hlast
      simp only [← UInt8.toNat_inj, UInt8.reduceToNat]
      omega
    rcases hcall with rfl | rfl
    · decide
    · decide

namespace Instruction

/-- An instruction is encoded as its opcode, the length of its operand if the opcode is
one of the three that count, and the operand. -/
inductive Encodes : List UInt8 → Instruction → Prop where
  | plain {op : UInt8} {operand : List UInt8} (form : Opcode.countWidth? op = none)
      (width : operand.length = Opcode.operandWidth op) :
      Encodes (op :: operand) ⟨op, operand, 1 + operand.length⟩
  | counted {op : UInt8} {width : Nat} {operand : List UInt8}
      (form : Opcode.countWidth? op = some width) (fits : operand.length < 256 ^ width) :
      Encodes (op :: (LittleEndian.encode width operand.length ++ operand))
        ⟨op, operand, 1 + width + operand.length⟩

def IsEncoding (bytes : List UInt8) : Prop :=
  ∃ insn, Encodes bytes insn

theorem Encodes.size_eq {bytes : List UInt8} {insn : Instruction} (h : Encodes bytes insn) :
    insn.size = bytes.length := by
  cases h with
  | plain form width => simp [Nat.add_comm]
  | counted form fits =>
      simp only [List.length_cons, List.length_append, LittleEndian.length_encode]
      omega

theorem Encodes.length_pos {bytes : List UInt8} {insn : Instruction} (h : Encodes bytes insn) :
    0 < bytes.length := by
  cases h with
  | plain form width => exact Nat.succ_pos _
  | counted form fits => exact Nat.succ_pos _

/-- A jump or call is more than its opcode. -/
theorem Encodes.two_le_length {bytes : List UInt8} {insn : Instruction} (h : Encodes bytes insn)
    (hbranch : insn.isBranch = true) : 2 ≤ bytes.length := by
  cases h with
  | @plain op operand form width =>
      have hpos : 0 < Opcode.operandWidth op := Opcode.operandWidth_pos_of_isBranch hbranch
      rw [List.length_cons]
      omega
  | @counted op width operand form fits =>
      have hpos : 0 < width := by
        unfold Opcode.countWidth? at form
        grind
      rw [List.length_cons, List.length_append, LittleEndian.length_encode]
      omega

theorem takeOperand_eq_ok_iff {address countWidth width : Nat} {op : UInt8}
    {bytes : List UInt8} {insn : Instruction} :
    takeOperand address op countWidth width bytes = .ok insn ↔
      ∃ operand, operand <+: bytes ∧ operand.length = width ∧
        insn = ⟨op, operand, 1 + countWidth + operand.length⟩ := by
  unfold takeOperand
  by_cases hshort : (bytes.take width).length < width
  · rw [if_pos hshort]
    constructor
    · intro h
      cases h
    · rintro ⟨operand, hbegins, hwidth, -⟩
      have hlength := hbegins.length_le
      rw [List.length_take] at hshort
      omega
  · rw [if_neg hshort]
    have hwidth : (bytes.take width).length = width := by
      rw [List.length_take] at hshort ⊢
      omega
    constructor
    · intro h
      cases h
      exact ⟨bytes.take width, List.take_prefix _ _, hwidth, by rw [hwidth]⟩
    · rintro ⟨operand, hbegins, hlength, rfl⟩
      have hoperand : operand = bytes.take width := by
        rw [List.prefix_iff_eq_take.mp hbegins, hlength]
      rw [← hoperand, hlength]

/-- Reading the operand of a counting opcode is reading a length and as many bytes. -/
theorem decodeFront_of_some {address width : Nat} {op : UInt8} {bytes : List UInt8}
    (form : Opcode.countWidth? op = some width) :
    decodeFront address op bytes =
      if (bytes.take width).length < width then
        .error (.truncatedCount address width bytes.length)
      else
        takeOperand address op width (LittleEndian.decode (bytes.take width))
          (bytes.drop width) := by
  rw [decodeFront, Opcode.operandForm_of_some form]

/-- The decoder accepts exactly the encodings, whatever follows them. -/
theorem decodeFront_eq_ok_iff {address : Nat} {op : UInt8} {bytes : List UInt8}
    {insn : Instruction} :
    decodeFront address op bytes = .ok insn ↔
      ∃ encoding, Encodes encoding insn ∧ encoding <+: op :: bytes := by
  constructor
  · intro h
    cases form : Opcode.countWidth? op with
    | none =>
        rw [decodeFront, Opcode.operandForm_of_none form] at h
        obtain ⟨operand, hbegins, hwidth, rfl⟩ := takeOperand_eq_ok_iff.mp h
        exact ⟨op :: operand, .plain form hwidth, List.cons_prefix_cons.mpr ⟨rfl, hbegins⟩⟩
    | some width =>
        rw [decodeFront_of_some form] at h
        split at h
        · cases h
        · rename_i hlong
          obtain ⟨operand, ⟨rest, hrest⟩, hlength, rfl⟩ := takeOperand_eq_ok_iff.mp h
          have hwidth : (bytes.take width).length = width := by
            rw [List.length_take] at hlong ⊢
            omega
          have hcount : LittleEndian.encode width operand.length = bytes.take width := by
            have hencode := LittleEndian.encode_decode (bytes.take width)
            rwa [hwidth, ← hlength] at hencode
          have hfits : operand.length < 256 ^ width := by
            have hlt := LittleEndian.decode_lt (bytes.take width)
            rwa [hwidth, ← hlength] at hlt
          refine ⟨_, .counted form hfits, rest, ?_⟩
          rw [hcount, List.cons_append, List.append_assoc, hrest, List.take_append_drop]
  · rintro ⟨encoding, hencodes, hbegins⟩
    cases hencodes with
    | plain form width =>
        obtain ⟨rfl, hoperand⟩ := List.cons_prefix_cons.mp hbegins
        rw [decodeFront, Opcode.operandForm_of_none form]
        exact takeOperand_eq_ok_iff.mpr ⟨_, hoperand, width, by simp⟩
    | @counted op' width operand form fits =>
        obtain ⟨rfl, rest, hrest⟩ := List.cons_prefix_cons.mp hbegins
        rw [List.append_assoc] at hrest
        have hcount : bytes.take width = LittleEndian.encode width operand.length := by
          rw [← hrest]
          exact List.take_left' (LittleEndian.length_encode _ _)
        have hafter : bytes.drop width = operand ++ rest := by
          rw [← hrest]
          exact List.drop_left' (LittleEndian.length_encode _ _)
        rw [decodeFront_of_some form, hcount, hafter, LittleEndian.length_encode,
          if_neg (Nat.lt_irrefl _), LittleEndian.decode_encode _ _ fits]
        exact takeOperand_eq_ok_iff.mpr ⟨operand, List.prefix_append _ _, rfl, rfl⟩

/-- Decoding at an address succeeds exactly when an encoding starts there. -/
theorem decodeAt_eq_ok_iff {code : List UInt8} {address : Nat} {insn : Instruction} :
    decodeAt code address = .ok insn ↔
      ∃ encoding, Encodes encoding insn ∧ encoding <+: code.drop address := by
  unfold decodeAt
  cases hdrop : code.drop address with
  | nil =>
      constructor
      · intro h
        cases h
      · rintro ⟨encoding, hencodes, hbegins⟩
        have hpos := hencodes.length_pos
        rw [List.prefix_nil.mp hbegins] at hpos
        cases hpos
  | cons op bytes => exact decodeFront_eq_ok_iff

/-- Encodings that start the same bytes are the same, and encode the same. -/
theorem Encodes.unique {first second bytes : List UInt8} {insn insn' : Instruction}
    (hfirst : Encodes first insn) (hsecond : Encodes second insn') (hbegins : first <+: bytes)
    (hbegins' : second <+: bytes) : first = second ∧ insn = insn' := by
  have hok : decodeAt bytes 0 = .ok insn := decodeAt_eq_ok_iff.mpr ⟨first, hfirst, hbegins⟩
  have hok' : decodeAt bytes 0 = .ok insn' := decodeAt_eq_ok_iff.mpr ⟨second, hsecond, hbegins'⟩
  have hsame : insn = insn' := by
    rw [hok] at hok'
    exact Except.ok.inj hok'
  have hlength : first.length = second.length := by
    rw [← hfirst.size_eq, ← hsecond.size_eq, hsame]
  rw [List.prefix_iff_eq_take.mp hbegins, List.prefix_iff_eq_take.mp hbegins', hlength]
  exact ⟨rfl, hsame⟩

end Instruction

end ScriptCoverage
