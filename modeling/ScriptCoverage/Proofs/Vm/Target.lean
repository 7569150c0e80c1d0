import Mathlib.Algebra.Ring.Int.Defs
import ScriptCoverage.Proofs.Vm.WordDecoding

/-!
Where jumps and calls lead. A short form has one byte for its displacement and a long form has
four, and every decoded jump or call has as many; so its target is the sum of its address and a
signed number, and is missing only where that sum is no address. Computing the sum with signed
words of 64 bits gives the same and never overflows.
-/

namespace ScriptCoverage

namespace LittleEndian

/-- The number of `bytes` in two's complement. The highest byte carries the sign. -/
def signed : List UInt8 → Int
  | [] => 0
  | [top] => if top < 0x80 then top.toNat else top.toNat - 256
  | b :: rest => b.toNat + 256 * signed rest

/-- What the sign of a number takes from it, and the half of the range in which it is. -/
theorem signed_cases {bytes : List UInt8} (h : bytes ≠ []) :
    signed bytes = decode bytes ∧ 2 * decode bytes < 256 ^ bytes.length ∨
      signed bytes = decode bytes - (256 ^ bytes.length : Nat) ∧
        256 ^ bytes.length ≤ 2 * decode bytes := by
  induction bytes with
  | nil => exact absurd rfl h
  | cons b rest ih =>
      have hb := b.toNat_lt
      cases rest with
      | nil =>
          simp only [signed, decode, UInt8.lt_iff_toNat_lt, UInt8.reduceToNat, List.length_cons,
            List.length_nil]
          split <;> omega
      | cons c rest =>
          simp only [signed, decode, List.length_cons, Nat.pow_succ] at ih ⊢
          have htail := ih (List.cons_ne_nil c rest)
          omega

/-- Two's complement is the representative next to zero. -/
theorem signed_eq_bmod {bytes : List UInt8} (h : bytes ≠ []) :
    signed bytes = Int.bmod (decode bytes) (256 ^ bytes.length) := by
  have hlt := decode_lt bytes
  have hmod : (decode bytes : Int) % (256 ^ bytes.length : Nat) = decode bytes := by
    rw [← Int.natCast_emod, Nat.mod_eq_of_lt hlt]
  rw [Int.bmod_def, hmod]
  rcases signed_cases h with ⟨hsigned, hlow⟩ | ⟨hsigned, hhigh⟩
  · rw [hsigned, if_pos (by omega)]
  · rw [hsigned, if_neg (by omega)]

end LittleEndian

namespace Opcode

/-- The jumps and calls with a displacement of one byte. -/
def shortBranches : List UInt8 :=
  [0x22, 0x24, 0x26, 0x28, 0x2A, 0x2C, 0x2E, 0x30, 0x32, 0x34]

/-- The jumps and calls with a displacement of four bytes. -/
def longBranches : List UInt8 :=
  [0x23, 0x25, 0x27, 0x29, 0x2B, 0x2D, 0x2F, 0x31, 0x33, 0x35]

variable {op : UInt8}

theorem short_facts (h : op ∈ shortBranches) : isBranch op = true ∧ isLongBranch op = false ∧
    countWidth? op = none ∧ operandWidth op = 1 := by
  have hfacts : (shortBranches.all fun op => isBranch op = true ∧ isLongBranch op = false ∧
      countWidth? op = none ∧ operandWidth op = 1) = true := by decide
  exact of_decide_eq_true (List.all_eq_true.mp hfacts op h)

theorem long_facts (h : op ∈ longBranches) : isBranch op = true ∧ isLongBranch op = true ∧
    countWidth? op = none ∧ operandWidth op = 4 := by
  have hfacts : (longBranches.all fun op => isBranch op = true ∧ isLongBranch op = true ∧
      countWidth? op = none ∧ operandWidth op = 4) = true := by decide
  exact of_decide_eq_true (List.all_eq_true.mp hfacts op h)

/-- Short and long forms make up the whole range of opcodes from JMP to CALL_L. -/
theorem isBranch_iff : isBranch op = true ↔ op ∈ shortBranches ++ longBranches := by
  have hrange : ∀ n < 20, UInt8.ofNat (0x22 + n) ∈ shortBranches ++ longBranches := by decide
  constructor
  · intro h
    simp only [isBranch, jmp, callLong, Bool.and_eq_true, decide_eq_true_eq,
      UInt8.le_iff_toNat_le, UInt8.reduceToNat] at h
    have hop := hrange (op.toNat - 0x22) (by omega)
    rwa [Nat.add_sub_cancel' h.1, UInt8.ofNat_toNat] at hop
  · intro h
    rcases List.mem_append.mp h with hshort | hlong
    · exact (short_facts hshort).1
    · exact (long_facts hlong).1

end Opcode

namespace Instruction

/-- What a jump or call adds to its address: its operand as a signed number of one byte in a
short form, of four bytes in a long one. -/
inductive Displaces : Instruction → Int → Prop where
  | short {op : UInt8} {operand : List UInt8} {size : Nat} (form : op ∈ Opcode.shortBranches)
      (width : operand.length = 1) :
      Displaces ⟨op, operand, size⟩ (LittleEndian.signed operand)
  | long {op : UInt8} {operand : List UInt8} {size : Nat} (form : op ∈ Opcode.longBranches)
      (width : operand.length = 4) :
      Displaces ⟨op, operand, size⟩ (LittleEndian.signed operand)

variable {code : List UInt8} {address : Nat} {insn : Instruction} {d : Int} {start : UInt32}

/-- Whatever operand is read for a jump or call has the width of its form. -/
theorem Encodes.exists_displaces {bytes : List UInt8} (h : Encodes bytes insn)
    (hbranch : insn.opcode ∈ Opcode.shortBranches ++ Opcode.longBranches) :
    ∃ d, insn.Displaces d := by
  cases h with
  | @plain op operand form width =>
      rcases List.mem_append.mp hbranch with hshort | hlong
      · obtain ⟨-, -, -, hone⟩ := Opcode.short_facts hshort
        exact ⟨_, .short hshort (width.trans hone)⟩
      · obtain ⟨-, -, -, hfour⟩ := Opcode.long_facts hlong
        exact ⟨_, .long hlong (width.trans hfour)⟩
  | @counted op width operand form fits =>
      -- no jump or call counts its operand
      rcases List.mem_append.mp hbranch with hshort | hlong
      · obtain ⟨-, -, hnone, -⟩ := Opcode.short_facts hshort
        rw [hnone] at form
        cases form
      · obtain ⟨-, -, hnone, -⟩ := Opcode.long_facts hlong
        rw [hnone] at form
        cases form

theorem Displaces.isBranch (h : insn.Displaces d) : insn.isBranch = true := by
  cases h with
  | short form => exact (Opcode.short_facts form).1
  | long form => exact (Opcode.long_facts form).1

theorem Displaces.displacement?_eq (h : insn.Displaces d) : insn.displacement? = some d := by
  cases h with
  | @short op operand size form width =>
      obtain ⟨b, rfl⟩ := List.length_eq_one_iff.mp width
      obtain ⟨-, hshort, -, -⟩ := Opcode.short_facts form
      have hsigned := LittleEndian.signed_eq_bmod (List.cons_ne_nil b [])
      simp only [displacement?, hshort, Bool.false_eq_true, if_false, List.head?_cons,
        Option.map_some, hsigned]
      rfl
  | @long op operand size form width =>
      obtain ⟨-, hlong, -, -⟩ := Opcode.long_facts form
      have hne : operand ≠ [] := List.ne_nil_of_length_pos (width ▸ by decide)
      rw [displacement?, if_pos hlong, if_pos width, LittleEndian.signed_eq_bmod hne, width]
      rfl

/-- The target of a jump or call is the sum of its address and its displacement, where that is
an address. -/
theorem Displaces.target?_eq_some_iff (h : insn.Displaces d) {target : UInt32} :
    insn.target? start = some target ↔ (target.toNat : Int) = start.toNat + d := by
  have htarget := target.toNat_lt
  rw [target?, if_pos h.isBranch, h.displacement?_eq]
  simp only [Option.bind_eq_bind, Option.bind_some]
  constructor
  · intro hsome
    split at hsome
    · rename_i hrange
      have hsum : ((start.toNat : Int) + d).toNat < UInt32.size := by omega
      rw [← Option.some_inj.mp hsome, UInt32.toNat_ofNat_of_lt' hsum]
      omega
    · cases hsome
  · intro hsum
    have hrange : 0 ≤ (start.toNat : Int) + d ∧ (start.toNat : Int) + d < UInt32.size := by
      have hsize : UInt32.size = 2 ^ 32 := rfl
      omega
    rw [if_pos hrange, ← hsum, Int.toNat_natCast, UInt32.ofNat_toNat]

theorem Displaces.target?_eq_none_iff (h : insn.Displaces d) :
    insn.target? start = none ↔
      (start.toNat : Int) + d < 0 ∨ (2 : Int) ^ 32 ≤ start.toNat + d := by
  constructor
  · intro hnone
    by_contra hrange
    have hsum : ((start.toNat : Int) + d).toNat < UInt32.size := by
      have hsize : UInt32.size = 2 ^ 32 := rfl
      omega
    have hsome : insn.target? start = some (UInt32.ofNat ((start.toNat : Int) + d).toNat) := by
      rw [h.target?_eq_some_iff, UInt32.toNat_ofNat_of_lt' hsum]
      omega
    rw [hnone] at hsome
    cases hsome
  · intro hrange
    cases htarget : insn.target? start with
    | none => rfl
    | some target =>
        have hsum := h.target?_eq_some_iff.mp htarget
        have hlt := target.toNat_lt
        omega

theorem target?_of_not_branch
    (h : insn.opcode ∉ Opcode.shortBranches ++ Opcode.longBranches) :
    insn.target? start = none := by
  rw [target?, isBranch, if_neg (mt Opcode.isBranch_iff.mp h)]

end Instruction

namespace Word

/-- The sum of two signed words, unless it overflows. -/
def signedSum? (x y : Int64) : Option Int64 :=
  if Int64.minValue.toInt ≤ x.toInt + y.toInt ∧ x.toInt + y.toInt ≤ Int64.maxValue.toInt then
    some (x + y)
  else none

/-- A signed word as an address, if it is one. -/
def address? (x : Int64) : Option UInt32 :=
  if 0 ≤ x ∧ x < 0x100000000 then some x.toUInt64.toUInt32 else none

theorem toInt_toInt8 (b : UInt8) : b.toInt8.toInt = Int.bmod b.toNat UInt8.size :=
  BitVec.toInt_eq_toNat_bmod b.toBitVec

theorem toInt_toInt32 (word : UInt32) : word.toInt32.toInt = Int.bmod word.toNat UInt32.size :=
  BitVec.toInt_eq_toNat_bmod word.toBitVec

theorem toInt_toInt64 (word : UInt64) : word.toInt64.toInt = Int.bmod word.toNat (2 ^ 64) :=
  BitVec.toInt_eq_toNat_bmod word.toBitVec

theorem toInt_ofAddress (address : UInt32) : address.toUInt64.toInt64.toInt = address.toNat := by
  have hlt := address.toNat_lt
  rw [toInt_toInt64, UInt32.toNat_toUInt64]
  exact Int.bmod_eq_of_le (by omega) (by omega)

theorem signedSum?_eq_some {x y : Int64} (hlow : -2 ^ 63 ≤ x.toInt + y.toInt)
    (hhigh : x.toInt + y.toInt < 2 ^ 63) :
    ∃ sum, signedSum? x y = some sum ∧ sum.toInt = x.toInt + y.toInt := by
  have hmin : Int64.minValue.toInt = -2 ^ 63 := rfl
  have hmax : Int64.maxValue.toInt = 2 ^ 63 - 1 := rfl
  refine ⟨x + y, if_pos ⟨by omega, by omega⟩, ?_⟩
  rw [Int64.toInt_add]
  exact Int.bmod_eq_of_le (by omega) (by omega)

theorem address?_eq (x : Int64) : address? x =
    if 0 ≤ x.toInt ∧ x.toInt < UInt32.size then some (UInt32.ofNat x.toInt.toNat) else none := by
  have hbound : (0x100000000 : Int64).toInt = UInt32.size := rfl
  have hzero : (0 : Int64).toInt = 0 := rfl
  simp only [address?, Int64.le_iff_toInt_le, Int64.lt_iff_toInt_lt, hbound, hzero]
  split
  · rename_i hrange
    have hword := toInt_toInt64 x.toUInt64
    have hlt := x.toUInt64.toNat_lt
    rw [Int64.toInt64_toUInt64, Int.bmod_def] at hword
    have hnat : x.toInt.toNat = x.toUInt64.toNat := by omega
    rw [hnat]
    rfl
  · rfl

end Word

namespace Instruction

/-- The displacement of a jump or call, as a signed word. -/
def displacementWord? (insn : Instruction) : Option Int64 :=
  if Opcode.isLongBranch insn.opcode then
    if insn.operand.length = 4 then
      (Word.field? insn.operand).map fun word => word.toInt32.toInt64
    else none
  else insn.operand.head?.map fun b => b.toInt8.toInt64

/-- The target of a jump or call, computed with signed words. There is no result at all where
the sum overflows. -/
def targetWords? (insn : Instruction) (start : UInt32) : Option (Option UInt32) :=
  if insn.isBranch then
    match insn.displacementWord? with
    | some d => (Word.signedSum? start.toUInt64.toInt64 d).map Word.address?
    | none => some none
  else some none

/-- A displacement has 32 bits at most. -/
theorem displacementWord?_eq (insn : Instruction) :
    insn.displacementWord?.map Int64.toInt = insn.displacement? ∧
      ∀ d ∈ insn.displacementWord?, -2 ^ 31 ≤ d.toInt ∧ d.toInt < 2 ^ 31 := by
  unfold displacementWord? displacement?
  split
  · split
    · rename_i hfour
      obtain ⟨word, hfield, hword⟩ := Word.field?_eq_some (Nat.le_of_eq hfour)
      rw [hfield, ← hword]
      refine ⟨?_, ?_⟩
      · simp only [Option.map_some, Int32.toInt_toInt64, Word.toInt_toInt32]
      · rintro d ⟨⟩
        have hlow := Int32.le_toInt word.toInt32
        have hhigh := Int32.toInt_lt word.toInt32
        rw [Int32.toInt_toInt64]
        exact ⟨hlow, hhigh⟩
    · simp
  · cases insn.operand with
    | nil => simp
    | cons b rest =>
        refine ⟨?_, ?_⟩
        · simp only [List.head?_cons, Option.map_some, Int8.toInt_toInt64, Word.toInt_toInt8]
        · rintro d ⟨⟩
          have hlow := Int8.le_toInt b.toInt8
          have hhigh := Int8.toInt_lt b.toInt8
          rw [Int8.toInt_toInt64]
          omega

/-- The sum never overflows, and gives the target that it has in unbounded numbers. -/
theorem targetWords?_eq (insn : Instruction) (start : UInt32) :
    insn.targetWords? start = some (insn.target? start) := by
  obtain ⟨hdisplacement, hbounds⟩ := displacementWord?_eq insn
  unfold targetWords? target?
  split
  · rw [← hdisplacement]
    cases hword : insn.displacementWord? with
    | none => rfl
    | some d =>
        obtain ⟨hlow, hhigh⟩ := hbounds d hword
        have hstart := Word.toInt_ofAddress start
        have hlt := start.toNat_lt
        obtain ⟨sum, hsum, hvalue⟩ := Word.signedSum?_eq_some
          (x := start.toUInt64.toInt64) (y := d) (by omega) (by omega)
        simp only [hsum, Option.map_some, Word.address?_eq, hvalue, hstart, Option.bind_eq_bind,
          Option.bind_some]
  · rfl

/-- The targets of jumps and calls are exact. What is decoded as a jump or call displaces by a
signed number of one or of four bytes, and its target from any address is the sum of the two;
only a sum that is no address leaves it without a target. Nothing else has a target. With signed
words of 64 bits the sum does not overflow and the target is the same. -/
theorem branch_targets_exact (start : UInt32) :
    (∀ code address insn, decodeAt code address = .ok insn →
      insn.opcode ∈ Opcode.shortBranches ++ Opcode.longBranches → ∃ d, insn.Displaces d ∧
        (∀ target, insn.target? start = some target ↔
          (target.toNat : Int) = start.toNat + d) ∧
        (insn.target? start = none ↔
          (start.toNat : Int) + d < 0 ∨ (2 : Int) ^ 32 ≤ start.toNat + d)) ∧
    (∀ insn : Instruction, insn.opcode ∉ Opcode.shortBranches ++ Opcode.longBranches →
      insn.target? start = none) ∧
    ∀ insn : Instruction, insn.targetWords? start = some (insn.target? start) := by
  refine ⟨?branches, fun _ => target?_of_not_branch, fun insn => targetWords?_eq insn start⟩
  intro code address insn hdecode hbranch
  obtain ⟨encoding, hencodes, -⟩ := decodeAt_eq_ok_iff.mp hdecode
  obtain ⟨d, hd⟩ := hencodes.exists_displaces hbranch
  exact ⟨d, hd, fun _ => hd.target?_eq_some_iff, hd.target?_eq_none_iff⟩

/-- A short jump back to the first address, and a long call to one past the last. -/
theorem branch_targets_exact_bothEnds :
    (⟨0x22, [0x80], 2⟩ : Instruction).target? 128 = some 0 ∧
      (⟨0x35, [0xFF, 0xFF, 0xFF, 0x7F], 5⟩ : Instruction).target? 0x80000001 = none := by
  have hback : (⟨0x22, [0x80], 2⟩ : Instruction).displacement? = some (-128) := by decide
  have hlast : (⟨0x35, [0xFF, 0xFF, 0xFF, 0x7F], 5⟩ : Instruction).displacement? =
      some 0x7FFFFFFF := by decide
  obtain ⟨d, hd, hsome, -⟩ := (branch_targets_exact 128).1 [0x22, 0x80, 0x40] 0
    ⟨0x22, [0x80], 2⟩ (by decide) (by decide)
  obtain rfl := Option.some_inj.mp (hd.displacement?_eq.symm.trans hback)
  obtain ⟨d', hd', -, hnone⟩ := (branch_targets_exact 0x80000001).1
    [0x40, 0x35, 0xFF, 0xFF, 0xFF, 0x7F] 1 ⟨0x35, [0xFF, 0xFF, 0xFF, 0x7F], 5⟩
    (by decide) (by decide)
  obtain rfl := Option.some_inj.mp (hd'.displacement?_eq.symm.trans hlast)
  exact ⟨(hsome 0).mpr (by decide), hnone.mpr (.inr (by decide))⟩

end Instruction

end ScriptCoverage
