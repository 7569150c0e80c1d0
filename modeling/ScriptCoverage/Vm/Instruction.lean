import ScriptCoverage.Binary.LittleEndian
import ScriptCoverage.Vm.Opcode

/-!
Decoding a script. An instruction is an opcode, the count of a counted operand,
and the operand; `decodeAt` reads the one at an address and `disassemble` reads
them end to end from address 0 up to the first that is cut off.
-/

namespace ScriptCoverage

inductive DecodeError where
  | outOfRange (address length : Nat)
  | truncatedOperand (address needed available : Nat)
  | truncatedCount (address needed available : Nat)
  | scriptTooLarge (length : Nat)
  deriving DecidableEq

def DecodeError.message : DecodeError → String
  | .outOfRange address length => s!"Address {address} is out of range (script length {length})"
  | .truncatedOperand address needed available =>
      s!"Truncated operand at {address}: need {needed} bytes, {available} available"
  | .truncatedCount address needed available =>
      s!"Truncated length prefix at {address}: need {needed} bytes, {available} available"
  | .scriptTooLarge length => s!"Script of {length} bytes exceeds the addressable range"

structure Instruction where
  opcode : UInt8
  operand : List UInt8
  /-- Bytes of the whole encoding. -/
  size : Nat
  deriving DecidableEq

namespace Instruction

def isBranch (insn : Instruction) : Bool :=
  Opcode.isBranch insn.opcode

def mnemonic (insn : Instruction) : String :=
  Opcode.mnemonic insn.opcode

def text (insn : Instruction) : String :=
  if insn.operand.isEmpty then insn.mnemonic
  else insn.mnemonic ++ " 0x" ++ String.ofList (Hex.encode insn.operand)

/-- The operand of a jump or call, read as a signed number of its own width. -/
def displacement? (insn : Instruction) : Option Int :=
  if Opcode.isLongBranch insn.opcode then
    if insn.operand.length = 4 then
      some (Int.bmod (LittleEndian.decode insn.operand) UInt32.size)
    else none
  else insn.operand.head?.map fun b => Int.bmod b.toNat UInt8.size

/-- Where a jump or call that stands at `address` leads, if that is an address. -/
def target? (insn : Instruction) (address : UInt32) : Option UInt32 :=
  if insn.isBranch then do
    let d ← insn.displacement?
    let target := (address.toNat : Int) + d
    if 0 ≤ target ∧ target < UInt32.size then some (UInt32.ofNat target.toNat) else none
  else none

def takeOperand (address : Nat) (op : UInt8) (countWidth width : Nat)
    (bytes : List UInt8) : Except DecodeError Instruction :=
  let operand := bytes.take width
  if operand.length < width then .error (.truncatedOperand address width bytes.length)
  else .ok ⟨op, operand, 1 + countWidth + width⟩

/-- The instruction whose opcode is `op`, followed by `bytes`. -/
def decodeFront (address : Nat) (op : UInt8) (bytes : List UInt8) :
    Except DecodeError Instruction :=
  match Opcode.operandForm op with
  | .fixed width => takeOperand address op 0 width bytes
  | .counted countWidth =>
      let count := bytes.take countWidth
      if count.length < countWidth then
        .error (.truncatedCount address countWidth bytes.length)
      else
        takeOperand address op countWidth (LittleEndian.decode count) (bytes.drop countWidth)

def decodeAt (code : List UInt8) (address : Nat) : Except DecodeError Instruction :=
  match code.drop address with
  | [] => .error (.outOfRange address code.length)
  | op :: bytes => decodeFront address op bytes

end Instruction

/-- Instructions with their addresses, and what stopped the reading, if anything. -/
structure Disassembly where
  items : List (UInt32 × Instruction)
  failure : Option DecodeError
  deriving DecidableEq

namespace Disassembly

def push (address : Nat) (insn : Instruction) (rest : Disassembly) : Disassembly :=
  { rest with items := (UInt32.ofNat address, insn) :: rest.items }

def decodeFrom (address : Nat) : List UInt8 → Disassembly
  | [] => ⟨[], none⟩
  | op :: bytes =>
      if UInt32.size ≤ address then ⟨[], some (.scriptTooLarge (address + bytes.length + 1))⟩
      else
        match Instruction.decodeFront address op bytes with
        | .error e => ⟨[], some e⟩
        | .ok insn =>
            (decodeFrom (address + insn.size) (bytes.drop (insn.size - 1))).push address insn
termination_by code => code.length
decreasing_by simp only [List.length_drop, List.length_cons]; omega

end Disassembly

def disassemble (code : List UInt8) : Disassembly :=
  Disassembly.decodeFrom 0 code

end ScriptCoverage
