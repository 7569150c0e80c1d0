import ScriptCoverage.Proofs.Vm.Encoding

/-!
Decoding at one address. Each error stands for one way in which the bytes from there on are
too few, and says how many are needed and how many there are; where no error applies, an
instruction is read, from its own bytes and from no fewer.
-/

namespace ScriptCoverage

namespace Instruction

/-- What the bytes from an address on lack. The length before an operand is asked for before
the operand. -/
inductive Lacks (code : List UInt8) (address : Nat) : DecodeError → Prop where
  | opcode (beyond : code.length ≤ address) :
      Lacks code address (.outOfRange address code.length)
  | count {op : UInt8} {width : Nat} (opcode : code[address]? = some op)
      (form : Opcode.countWidth? op = some width)
      (short : code.length - (address + 1) < width) :
      Lacks code address (.truncatedCount address width (code.length - (address + 1)))
  | plainOperand {op : UInt8} (opcode : code[address]? = some op)
      (form : Opcode.countWidth? op = none)
      (short : code.length - (address + 1) < Opcode.operandWidth op) :
      Lacks code address
        (.truncatedOperand address (Opcode.operandWidth op) (code.length - (address + 1)))
  | countedOperand {op : UInt8} {width needed : Nat} (opcode : code[address]? = some op)
      (form : Opcode.countWidth? op = some width)
      (counted : width ≤ code.length - (address + 1))
      (count : needed = LittleEndian.decode ((code.drop (address + 1)).take width))
      (short : code.length - (address + 1 + width) < needed) :
      Lacks code address
        (.truncatedOperand address needed (code.length - (address + 1 + width)))

variable {code bytes : List UInt8} {address countWidth width : Nat} {op : UInt8}
  {e : DecodeError} {insn : Instruction}

theorem length_take_lt_iff : (bytes.take width).length < width ↔ bytes.length < width := by
  rw [List.length_take]
  omega

theorem takeOperand_eq :
    takeOperand address op countWidth width bytes =
      if bytes.length < width then .error (.truncatedOperand address width bytes.length)
      else .ok ⟨op, bytes.take width, 1 + countWidth + width⟩ := by
  simp only [takeOperand, length_take_lt_iff]

theorem takeOperand_eq_error_iff :
    takeOperand address op countWidth width bytes = .error e ↔
      bytes.length < width ∧ e = .truncatedOperand address width bytes.length := by
  rw [takeOperand_eq]
  split
  · simp [*, eq_comm]
  · simp [*]

theorem decodeFront_eq_error_iff_of_none (form : Opcode.countWidth? op = none) :
    decodeFront address op bytes = .error e ↔
      bytes.length < Opcode.operandWidth op ∧
        e = .truncatedOperand address (Opcode.operandWidth op) bytes.length := by
  rw [decodeFront, Opcode.operandForm_of_none form]
  exact takeOperand_eq_error_iff

theorem decodeFront_eq_error_iff_of_some (form : Opcode.countWidth? op = some width) :
    decodeFront address op bytes = .error e ↔
      bytes.length < width ∧ e = .truncatedCount address width bytes.length ∨
        width ≤ bytes.length ∧ bytes.length - width < LittleEndian.decode (bytes.take width) ∧
          e = .truncatedOperand address (LittleEndian.decode (bytes.take width))
            (bytes.length - width) := by
  rw [decodeFront_of_some form]
  simp only [length_take_lt_iff]
  split
  · rename_i hshort
    simp [hshort, Nat.not_le.mpr hshort, eq_comm]
  · rename_i hcounted
    rw [takeOperand_eq_error_iff, List.length_drop]
    simp [hcounted, Nat.not_lt.mp hcounted]

/-- What bytes lack that start with an opcode without a counted operand. -/
theorem lacks_iff_of_none (opcode : code[address]? = some op)
    (form : Opcode.countWidth? op = none) :
    Lacks code address e ↔
      code.length - (address + 1) < Opcode.operandWidth op ∧
        e = .truncatedOperand address (Opcode.operandWidth op) (code.length - (address + 1)) := by
  have hinside : address < code.length := (List.getElem?_eq_some_iff.mp opcode).1
  constructor
  · intro h
    cases h with
    | opcode beyond => omega
    | count opcode' form' | countedOperand opcode' form' =>
        rw [Option.some_inj.mp (opcode'.symm.trans opcode), form] at form'
        cases form'
    | plainOperand opcode' _ short =>
        rw [Option.some_inj.mp (opcode'.symm.trans opcode)] at short ⊢
        exact ⟨short, rfl⟩
  · rintro ⟨hshort, rfl⟩
    exact .plainOperand opcode form hshort

/-- What bytes lack that start with an opcode with a counted operand. -/
theorem lacks_iff_of_some (opcode : code[address]? = some op)
    (form : Opcode.countWidth? op = some width) :
    Lacks code address e ↔
      code.length - (address + 1) < width ∧
          e = .truncatedCount address width (code.length - (address + 1)) ∨
        ∃ needed, width ≤ code.length - (address + 1) ∧
          needed = LittleEndian.decode ((code.drop (address + 1)).take width) ∧
          code.length - (address + 1 + width) < needed ∧
          e = .truncatedOperand address needed (code.length - (address + 1 + width)) := by
  have hinside : address < code.length := (List.getElem?_eq_some_iff.mp opcode).1
  have hwidth {op' : UInt8} {width' : Nat} (opcode' : code[address]? = some op')
      (form' : Opcode.countWidth? op' = some width') : width' = width := by
    rw [Option.some_inj.mp (opcode'.symm.trans opcode), form] at form'
    exact (Option.some_inj.mp form').symm
  constructor
  · intro h
    cases h with
    | opcode beyond => omega
    | count opcode' form' short =>
        rw [hwidth opcode' form'] at short ⊢
        exact .inl ⟨short, rfl⟩
    | plainOperand opcode' form' =>
        rw [Option.some_inj.mp (opcode'.symm.trans opcode), form] at form'
        cases form'
    | countedOperand opcode' form' counted count short =>
        rw [hwidth opcode' form'] at counted count short ⊢
        exact .inr ⟨_, counted, count, short, rfl⟩
  · rintro (⟨hshort, rfl⟩ | ⟨needed, hcounted, hcount, hshort, rfl⟩)
    · exact .count opcode form hshort
    · exact .countedOperand opcode form hcounted hcount hshort

/-- Decoding fails with the error that applies. -/
theorem decodeAt_eq_error_iff : decodeAt code address = .error e ↔ Lacks code address e := by
  unfold decodeAt
  cases hdrop : code.drop address with
  | nil =>
      have hbeyond : code.length ≤ address := List.drop_eq_nil_iff.mp hdrop
      constructor
      · rintro ⟨⟩
        exact .opcode hbeyond
      · intro h
        cases h with
        | opcode => rfl
        | count opcode | plainOperand opcode | countedOperand opcode =>
            rw [List.getElem?_eq_none hbeyond] at opcode
            cases opcode
  | cons op bytes =>
      have hop : code[address]? = some op := by
        rw [← List.head?_drop, hdrop, List.head?_cons]
      have hbytes : code.drop (address + 1) = bytes := by
        rw [← List.drop_drop, hdrop, List.drop_one, List.tail_cons]
      have hlength : code.length - (address + 1) = bytes.length := by
        rw [← hbytes, List.length_drop]
      cases form : Opcode.countWidth? op with
      | none => rw [decodeFront_eq_error_iff_of_none form, lacks_iff_of_none hop form, hlength]
      | some width =>
          have hrest : code.length - (address + 1 + width) = bytes.length - width := by omega
          rw [decodeFront_eq_error_iff_of_some form, lacks_iff_of_some hop form, hlength, hrest,
            hbytes]
          refine or_congr_right ⟨?_, ?_⟩
          · rintro ⟨hcounted, hshort, he⟩
            exact ⟨_, hcounted, rfl, hshort, he⟩
          · rintro ⟨needed, hcounted, rfl, hshort, he⟩
            exact ⟨hcounted, hshort, he⟩

/-- An instruction lies within the buffer. -/
theorem size_le_of_decodeAt (h : decodeAt code address = .ok insn) :
    address + insn.size ≤ code.length := by
  obtain ⟨encoding, hencodes, hbegins⟩ := decodeAt_eq_ok_iff.mp h
  have hpos := hencodes.length_pos
  have hlength := hbegins.length_le
  rw [List.length_drop] at hlength
  rw [hencodes.size_eq]
  omega

/-- An instruction is read from its own bytes alone. -/
theorem decodeAt_of_agrees {other : List UInt8} (h : decodeAt code address = .ok insn)
    (hagrees : ∀ i, address ≤ i → i < address + insn.size → other[i]? = code[i]?) :
    decodeAt other address = .ok insn := by
  obtain ⟨encoding, hencodes, hbegins⟩ := decodeAt_eq_ok_iff.mp h
  have hsame : (other.drop address).take encoding.length =
      (code.drop address).take encoding.length := by
    apply List.ext_getElem?
    intro i
    rw [List.getElem?_take, List.getElem?_take, List.getElem?_drop, List.getElem?_drop]
    by_cases hi : i < encoding.length
    · have hlt : address + i < address + insn.size := by
        rw [hencodes.size_eq]
        omega
      rw [hagrees (address + i) (Nat.le_add_right _ _) hlt]
    · rw [if_neg hi, if_neg hi]
  refine decodeAt_eq_ok_iff.mpr ⟨encoding, hencodes, List.prefix_iff_eq_take.mpr ?_⟩
  rw [hsame]
  exact List.prefix_iff_eq_take.mp hbegins

/-- It cannot be read when one of its bytes is cut off: another instruction would have to
start with the bytes that are left. -/
theorem exists_lacks_of_take {cut : Nat} (h : decodeAt code address = .ok insn)
    (hwithin : cut < address + insn.size) : ∃ e, Lacks (code.take cut) address e := by
  obtain ⟨encoding, hencodes, hbegins⟩ := decodeAt_eq_ok_iff.mp h
  cases hcut : decodeAt (code.take cut) address with
  | error e => exact ⟨e, decodeAt_eq_error_iff.mp hcut⟩
  | ok insn' =>
      obtain ⟨encoding', hencodes', hbegins'⟩ := decodeAt_eq_ok_iff.mp hcut
      have hbegins'' : encoding' <+: code.drop address := by
        refine hbegins'.trans ?_
        rw [List.drop_take]
        exact List.take_prefix _ _
      obtain ⟨-, rfl⟩ := hencodes.unique hencodes' hbegins hbegins''
      have hsize := size_le_of_decodeAt hcut
      rw [List.length_take] at hsize
      omega

/-- Cutting an instruction off behind its opcode truncates its operand or the length of it. -/
theorem truncated_of_take {cut : Nat} (h : decodeAt code address = .ok insn)
    (hbehind : address < cut) (hwithin : cut < address + insn.size) :
    ∃ needed available,
      decodeAt (code.take cut) address = .error (.truncatedCount address needed available) ∨
      decodeAt (code.take cut) address = .error (.truncatedOperand address needed available) := by
  obtain ⟨e, hlacks⟩ := exists_lacks_of_take h hwithin
  have herror := decodeAt_eq_error_iff.mpr hlacks
  have hsize := size_le_of_decodeAt h
  cases hlacks with
  | opcode beyond =>
      rw [List.length_take] at beyond
      omega
  | count => exact ⟨_, _, .inl herror⟩
  | plainOperand | countedOperand => exact ⟨_, _, .inr herror⟩

end Instruction

end ScriptCoverage
