import ScriptCoverage.Proofs.Vm.Decoding

/-!
Decoding on a machine with words of 64 bits. Sums, differences and slices have no result here
where they would leave their range. Decoding at an address always has one, the one that it has
in unbounded numbers, whatever the address is and whatever length an operand claims to have.
-/

namespace ScriptCoverage

theorem Opcode.countWidth_le {op : UInt8} {width : Nat} (form : countWidth? op = some width) :
    width ≤ 4 := by
  unfold countWidth? at form
  grind

theorem Opcode.operandWidth_le (op : UInt8) : operandWidth op ≤ 32 := by
  unfold operandWidth
  split
  · split <;> decide
  · cases hlookup : widths.lookup op with
    | none => decide
    | some width =>
        obtain ⟨before, after, hsplit, -⟩ := List.lookup_eq_some_iff.mp hlookup
        have hall : ∀ entry ∈ widths, entry.2 ≤ 32 := by decide
        refine hall (op, width) ?_
        rw [hsplit]
        exact List.mem_append_right _ List.mem_cons_self

namespace Word

def sum? (x y : UInt64) : Option UInt64 :=
  if x.toNat + y.toNat < UInt64.size then some (x + y) else none

def difference? (x y : UInt64) : Option UInt64 :=
  if y ≤ x then some (x - y) else none

/-- The bytes from one place of a buffer to another. -/
def slice? (code : List UInt8) (first last : UInt64) : Option (List UInt8) :=
  if first ≤ last ∧ last.toNat ≤ code.length then
    some ((code.drop first.toNat).take (last.toNat - first.toNat))
  else none

/-- The number in a field of at most four bytes. -/
def field? (bytes : List UInt8) : Option UInt32 :=
  if bytes.length ≤ 4 then some (UInt32.ofNat (LittleEndian.decode bytes)) else none

theorem sum?_ofNat {m n : Nat} (h : m + n < UInt64.size) :
    sum? (.ofNat m) (.ofNat n) = some (.ofNat (m + n)) := by
  have hm : (UInt64.ofNat m).toNat = m := UInt64.toNat_ofNat_of_lt' (by omega)
  have hn : (UInt64.ofNat n).toNat = n := UInt64.toNat_ofNat_of_lt' (by omega)
  rw [sum?, hm, hn, if_pos h, UInt64.ofNat_add]

theorem ofNat_le_ofNat_iff {m n : Nat} (hm : m < UInt64.size) (hn : n < UInt64.size) :
    UInt64.ofNat m ≤ UInt64.ofNat n ↔ m ≤ n := by
  rw [UInt64.le_iff_toNat_le, UInt64.toNat_ofNat_of_lt' hm, UInt64.toNat_ofNat_of_lt' hn]

theorem ofNat_lt_ofNat_iff {m n : Nat} (hm : m < UInt64.size) (hn : n < UInt64.size) :
    UInt64.ofNat m < UInt64.ofNat n ↔ m < n := by
  rw [UInt64.lt_iff_toNat_lt, UInt64.toNat_ofNat_of_lt' hm, UInt64.toNat_ofNat_of_lt' hn]

theorem difference?_ofNat {m n : Nat} (hm : m < UInt64.size) (h : n ≤ m) :
    difference? (.ofNat m) (.ofNat n) = some (.ofNat (m - n)) := by
  rw [difference?, if_pos ((ofNat_le_ofNat_iff (by omega) hm).mpr h)]
  refine congrArg some (UInt64.toNat_inj.mp ?_)
  rw [UInt64.toNat_sub_of_le _ _ ((ofNat_le_ofNat_iff (by omega) hm).mpr h),
    UInt64.toNat_ofNat_of_lt' hm, UInt64.toNat_ofNat_of_lt' (by omega),
    UInt64.toNat_ofNat_of_lt' (by omega)]

theorem slice?_ofNat {code : List UInt8} {first width : Nat} (hsize : code.length < UInt64.size)
    (h : first + width ≤ code.length) :
    slice? code (.ofNat first) (.ofNat (first + width)) = some ((code.drop first).take width) := by
  have hfirst : (UInt64.ofNat first).toNat = first := UInt64.toNat_ofNat_of_lt' (by omega)
  have hlast : (UInt64.ofNat (first + width)).toNat = first + width :=
    UInt64.toNat_ofNat_of_lt' (by omega)
  have hinside : UInt64.ofNat first ≤ UInt64.ofNat (first + width) ∧
      first + width ≤ code.length :=
    ⟨(ofNat_le_ofNat_iff (by omega) (by omega)).mpr (Nat.le_add_right _ _), h⟩
  rw [slice?, hfirst, hlast, if_pos hinside, Nat.add_sub_cancel_left]

theorem field?_eq_some {bytes : List UInt8} (h : bytes.length ≤ 4) :
    ∃ number, field? bytes = some number ∧ number.toNat = LittleEndian.decode bytes := by
  have hdecode : LittleEndian.decode bytes < UInt32.size :=
    (LittleEndian.decode_lt bytes).trans_le (Nat.pow_le_pow_right (by decide) h)
  exact ⟨_, if_pos h, UInt32.toNat_ofNat_of_lt' hdecode⟩

end Word

namespace Instruction

variable {code bytes : List UInt8} {address countWidth width : Nat} {op : UInt8}

/-- Takes an operand of the given width, computing with words. -/
def takeWords (code : List UInt8) (address : UInt64) (op : UInt8) (start width : UInt64) :
    Option (Except DecodeError Instruction) := do
  let available ← Word.difference? (.ofNat code.length) start
  if available < width then
    return .error (.truncatedOperand address.toNat width.toNat available.toNat)
  else
    let stop ← Word.sum? start width
    let operand ← Word.slice? code start stop
    let size ← Word.difference? stop address
    return .ok ⟨op, operand, size.toNat⟩

/-- Decodes at an address, computing with words. -/
def decodeWords (code : List UInt8) (address : UInt64) :
    Option (Except DecodeError Instruction) := do
  let length := UInt64.ofNat code.length
  if length ≤ address then
    return .error (.outOfRange address.toNat length.toNat)
  else
    let op ← code[address.toNat]?
    let start ← Word.sum? address (.ofNat 1)
    match Opcode.operandForm op with
    | .fixed width => takeWords code address op start (.ofNat width)
    | .counted width =>
        let available ← Word.difference? length start
        if available < .ofNat width then
          return .error (.truncatedCount address.toNat width available.toNat)
        else
          let stop ← Word.sum? start (.ofNat width)
          let count ← Word.slice? code start stop
          let needed ← Word.field? count
          takeWords code address op stop needed.toUInt64

theorem takeWords_eq (hsize : code.length < UInt64.size) (hwidth : width < UInt64.size)
    (hstart : address + 1 + countWidth ≤ code.length) :
    takeWords code (.ofNat address) op (.ofNat (address + 1 + countWidth)) (.ofNat width) =
      some (takeOperand address op countWidth width (code.drop (address + 1 + countWidth))) := by
  have haddress : (UInt64.ofNat address).toNat = address := UInt64.toNat_ofNat_of_lt' (by omega)
  have hneeded : (UInt64.ofNat width).toNat = width := UInt64.toNat_ofNat_of_lt' hwidth
  have hwords : UInt64.ofNat (code.length - (address + 1 + countWidth)) < UInt64.ofNat width ↔
      code.length - (address + 1 + countWidth) < width :=
    Word.ofNat_lt_ofNat_iff (by omega) hwidth
  have havailable : (UInt64.ofNat (code.length - (address + 1 + countWidth))).toNat =
      code.length - (address + 1 + countWidth) := UInt64.toNat_ofNat_of_lt' (by omega)
  simp only [takeWords, Word.difference?_ofNat hsize hstart, Option.bind_eq_bind,
    Option.bind_some, hwords, takeOperand_eq, List.length_drop]
  split
  · rw [haddress, hneeded, havailable]
    rfl
  · rename_i hfits
    have hstop : address + 1 + countWidth + width ≤ code.length := by omega
    have hmade : (UInt64.ofNat (address + 1 + countWidth + width - address)).toNat =
        1 + countWidth + width := by
      rw [UInt64.toNat_ofNat_of_lt' (by omega)]
      omega
    rw [Word.sum?_ofNat (by omega), Option.bind_some, Word.slice?_ofNat hsize hstop,
      Option.bind_some, Word.difference?_ofNat (by omega) (by omega), Option.bind_some, hmade]
    rfl

/-- Behind an opcode, decoding with words is decoding the bytes that follow it. -/
theorem decodeWords_of_cons (hsize : code.length < UInt64.size)
    (hdrop : code.drop address = op :: bytes) :
    decodeWords code (.ofNat address) = some (decodeFront address op bytes) := by
  have hop : code[address]? = some op := by
    rw [← List.head?_drop, hdrop, List.head?_cons]
  have hbytes : code.drop (address + 1) = bytes := by
    rw [← List.drop_drop, hdrop, List.drop_one, List.tail_cons]
  have hinside : address + 1 ≤ code.length := (List.getElem?_eq_some_iff.mp hop).1
  have haddress : (UInt64.ofNat address).toNat = address := UInt64.toNat_ofNat_of_lt' (by omega)
  have hstart : Word.sum? (.ofNat address) (.ofNat 1) = some (.ofNat (address + 1)) :=
    Word.sum?_ofNat (by omega)
  have hbelow : ¬UInt64.ofNat code.length ≤ UInt64.ofNat address := by
    rw [Word.ofNat_le_ofNat_iff hsize (by omega)]
    omega
  simp only [decodeWords, if_neg hbelow, haddress, hop, hstart, Option.bind_eq_bind,
    Option.bind_some]
  have hsmall : 32 < UInt64.size := by decide
  cases form : Opcode.countWidth? op with
  | none =>
      have hwidth := Opcode.operandWidth_le op
      have htake : takeWords code (.ofNat address) op (.ofNat (address + 1 + 0))
          (.ofNat (Opcode.operandWidth op)) = _ := takeWords_eq hsize (by omega) hinside
      rw [Nat.add_zero, hbytes] at htake
      rw [decodeFront, Opcode.operandForm_of_none form]
      exact htake
  | some width =>
      have hwidth := Opcode.countWidth_le form
      have hlength : code.length - (address + 1) = bytes.length := by
        rw [← hbytes, List.length_drop]
      have hwords : UInt64.ofNat bytes.length < UInt64.ofNat width ↔ bytes.length < width :=
        Word.ofNat_lt_ofNat_iff (by omega) (by omega)
      simp only [decodeFront_of_some form, Opcode.operandForm_of_some form, length_take_lt_iff,
        Word.difference?_ofNat hsize hinside, hlength, Option.bind_some, hwords]
      split
      · rw [UInt64.toNat_ofNat_of_lt' (by omega)]
        rfl
      · rename_i hcounted
        have hcount : (bytes.take width).length ≤ 4 := by
          rw [List.length_take]
          omega
        obtain ⟨needed, hfield, hneeded⟩ := Word.field?_eq_some hcount
        have hafter : code.drop (address + 1 + width) = bytes.drop width := by
          rw [← List.drop_drop, hbytes]
        have hfits : needed.toNat < UInt64.size := needed.toNat_lt.trans (by decide)
        have hpayload : needed.toUInt64 = .ofNat needed.toNat := by
          apply UInt64.toNat_inj.mp
          rw [UInt32.toNat_toUInt64, UInt64.toNat_ofNat_of_lt' hfits]
        rw [Word.sum?_ofNat (by omega), Option.bind_some, Word.slice?_ofNat hsize (by omega),
          Option.bind_some, hbytes, hfield, Option.bind_some, hpayload, ← hneeded, ← hafter]
        exact takeWords_eq hsize hfits (by omega)

/-- On a machine with words of 64 bits decoding stays within range, and decodes the same. -/
theorem decodeWords_eq (hsize : code.length < UInt64.size) (start : UInt64) :
    decodeWords code start = some (decodeAt code start.toNat) := by
  obtain ⟨address, haddress, rfl⟩ : ∃ address < UInt64.size, UInt64.ofNat address = start :=
    ⟨start.toNat, start.toNat_lt, UInt64.ofNat_toNat⟩
  rw [UInt64.toNat_ofNat_of_lt' haddress, decodeAt]
  cases hdrop : code.drop address with
  | nil =>
      have hbeyond := (Word.ofNat_le_ofNat_iff hsize haddress).mpr (List.drop_eq_nil_iff.mp hdrop)
      simp only [decodeWords, if_pos hbeyond, UInt64.toNat_ofNat_of_lt' haddress,
        UInt64.toNat_ofNat_of_lt' hsize]
      rfl
  | cons op bytes => exact decodeWords_of_cons hsize hdrop

/-- Decoding at an address is exact, local and safe. It fails with exactly the error that says
what is lacking there, and succeeds if nothing is. An instruction that is read depends on its own
bytes alone, and needs them all. Computing with words of 64 bits gives the same and never leaves
their range or the buffer. -/
theorem decoding_exact_local_safe (code : List UInt8) (address : Nat) :
    (∀ e, decodeAt code address = .error e ↔ Lacks code address e) ∧
    ((∃ insn, decodeAt code address = .ok insn) ↔ ∀ e, ¬Lacks code address e) ∧
    (∀ insn, decodeAt code address = .ok insn →
      address + insn.size ≤ code.length ∧
      (∀ other : List UInt8,
        (∀ i, address ≤ i → i < address + insn.size → other[i]? = code[i]?) →
          decodeAt other address = .ok insn) ∧
      ∀ cut, address < cut → cut < address + insn.size → ∃ needed available,
        decodeAt (code.take cut) address = .error (.truncatedCount address needed available) ∨
        decodeAt (code.take cut) address =
          .error (.truncatedOperand address needed available)) ∧
    (code.length < UInt64.size → ∀ start : UInt64, start.toNat = address →
      decodeWords code start = some (decodeAt code address)) := by
  refine ⟨fun _ => decodeAt_eq_error_iff, ?succeeds, fun insn h => ⟨?inside, ?own, ?whole⟩,
    ?words⟩
  case succeeds =>
    simp only [← decodeAt_eq_error_iff]
    cases decodeAt code address with
    | error e => simp
    | ok insn => simp
  case inside => exact size_le_of_decodeAt h
  case own => exact fun _ => decodeAt_of_agrees h
  case whole => exact fun _ => truncated_of_take h
  case words =>
    rintro hsize start rfl
    exact decodeWords_eq hsize start

/-- A pushed text between two other instructions, and one that claims the largest length. -/
theorem decoding_exact_local_safe_pushed :
    (∀ other : List UInt8,
      (∀ i, 1 ≤ i → i < 5 → other[i]? = ([0x21, 0x0C, 2, 7, 8, 0x40] : List UInt8)[i]?) →
        decodeAt other 1 = .ok ⟨0x0C, [7, 8], 4⟩) ∧
      (∃ needed available,
        decodeAt [0x21, 0x0C, 2, 7] 1 = .error (.truncatedCount 1 needed available) ∨
        decodeAt [0x21, 0x0C, 2, 7] 1 = .error (.truncatedOperand 1 needed available)) ∧
      decodeWords [0x0E, 0xFF, 0xFF, 0xFF, 0xFF, 7] 0 =
        some (.error (.truncatedOperand 0 0xFFFFFFFF 1)) := by
  obtain ⟨-, -, hread, -⟩ := decoding_exact_local_safe [0x21, 0x0C, 2, 7, 8, 0x40] 1
  obtain ⟨-, hown, hwhole⟩ := hread ⟨0x0C, [7, 8], 4⟩ (by decide)
  obtain ⟨-, -, -, hwords⟩ := decoding_exact_local_safe [0x0E, 0xFF, 0xFF, 0xFF, 0xFF, 7] 0
  refine ⟨hown, hwhole 4 (by decide) (by decide), ?_⟩
  rw [hwords (by decide) 0 rfl]
  decide

end Instruction

end ScriptCoverage
