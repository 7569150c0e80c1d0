import ScriptCoverage.Text.Hex

/-!
The instruction set of NeoVM, as far as decoding needs it: how the operand of an
opcode is sized, which opcodes jump or call to a relative target, and their names.
Every byte is an opcode here; one without a name takes no operand.
-/

namespace ScriptCoverage.Opcode

/-- How the operand after an opcode is sized. -/
inductive OperandForm where
  | fixed (width : Nat)
  | counted (countWidth : Nat)
  deriving DecidableEq

def jmp : UInt8 := 0x22
def jmpLeLong : UInt8 := 0x33
def callLong : UInt8 := 0x35

/-- Short and long forms alternate from JMP on, the short form first. -/
def isLongForm (op : UInt8) : Bool :=
  (op - jmp) % 2 == 1

/-- Jumps and calls with a relative target. -/
def isBranch (op : UInt8) : Bool :=
  jmp ≤ op && op ≤ callLong

def isLongBranch (op : UInt8) : Bool :=
  isBranch op && isLongForm op

/-- The width of an operand that has a fixed one, except for the relative jumps. -/
def widths : List (UInt8 × Nat) := [
  (0x00, 1), (0x01, 2), (0x02, 4), (0x03, 8), (0x04, 16), (0x05, 32), (0x0A, 4),
  (0x34, 1), (0x35, 4), (0x37, 2), (0x3B, 2), (0x3C, 8), (0x3D, 1), (0x3E, 4), (0x41, 4),
  (0x56, 1), (0x57, 2), (0x5F, 1), (0x67, 1), (0x6F, 1), (0x77, 1), (0x7F, 1), (0x87, 1),
  (0xC4, 1), (0xD9, 1), (0xDB, 1)]

def operandWidth (op : UInt8) : Nat :=
  if jmp ≤ op && op ≤ jmpLeLong then if isLongForm op then 4 else 1
  else (widths.lookup op).getD 0

def operandForm (op : UInt8) : OperandForm :=
  if op = 0x0C then .counted 1
  else if op = 0x0D then .counted 2
  else if op = 0x0E then .counted 4
  else .fixed (operandWidth op)

def names : List (UInt8 × String) := [
  (0x00, "PUSHINT8"), (0x01, "PUSHINT16"), (0x02, "PUSHINT32"), (0x03, "PUSHINT64"),
  (0x04, "PUSHINT128"), (0x05, "PUSHINT256"), (0x08, "PUSHT"), (0x09, "PUSHF"),
  (0x0A, "PUSHA"), (0x0B, "PUSHNULL"), (0x0C, "PUSHDATA1"), (0x0D, "PUSHDATA2"),
  (0x0E, "PUSHDATA4"), (0x0F, "PUSHM1"), (0x21, "NOP"), (0x22, "JMP"), (0x23, "JMP_L"),
  (0x24, "JMPIF"), (0x25, "JMPIF_L"), (0x26, "JMPIFNOT"), (0x27, "JMPIFNOT_L"),
  (0x28, "JMPEQ"), (0x29, "JMPEQ_L"), (0x2A, "JMPNE"), (0x2B, "JMPNE_L"),
  (0x2C, "JMPGT"), (0x2D, "JMPGT_L"), (0x2E, "JMPGE"), (0x2F, "JMPGE_L"),
  (0x30, "JMPLT"), (0x31, "JMPLT_L"), (0x32, "JMPLE"), (0x33, "JMPLE_L"),
  (0x34, "CALL"), (0x35, "CALL_L"), (0x36, "CALLA"), (0x37, "CALLT"), (0x38, "ABORT"),
  (0x39, "ASSERT"), (0x3A, "THROW"), (0x3B, "TRY"), (0x3C, "TRY_L"), (0x3D, "ENDTRY"),
  (0x3E, "ENDTRY_L"), (0x3F, "ENDFINALLY"), (0x40, "RET"), (0x41, "SYSCALL"),
  (0x43, "DEPTH"), (0x45, "DROP"), (0x46, "NIP"), (0x48, "XDROP"), (0x49, "CLEAR"),
  (0x4A, "DUP"), (0x4B, "OVER"), (0x4D, "PICK"), (0x4E, "TUCK"), (0x50, "SWAP"),
  (0x51, "ROT"), (0x52, "ROLL"), (0x53, "REVERSE3"), (0x54, "REVERSE4"),
  (0x55, "REVERSEN"), (0x56, "INITSSLOT"), (0x57, "INITSLOT"), (0x5F, "LDSFLD"),
  (0x67, "STSFLD"), (0x6F, "LDLOC"), (0x77, "STLOC"), (0x7F, "LDARG"), (0x87, "STARG"),
  (0x88, "NEWBUFFER"), (0x89, "MEMCPY"), (0x8B, "CAT"), (0x8C, "SUBSTR"),
  (0x8D, "LEFT"), (0x8E, "RIGHT"), (0x90, "INVERT"), (0x91, "AND"), (0x92, "OR"),
  (0x93, "XOR"), (0x97, "EQUAL"), (0x98, "NOTEQUAL"), (0x99, "SIGN"), (0x9A, "ABS"),
  (0x9B, "NEGATE"), (0x9C, "INC"), (0x9D, "DEC"), (0x9E, "ADD"), (0x9F, "SUB"),
  (0xA0, "MUL"), (0xA1, "DIV"), (0xA2, "MOD"), (0xA3, "POW"), (0xA4, "SQRT"),
  (0xA5, "MODMUL"), (0xA6, "MODPOW"), (0xA8, "SHL"), (0xA9, "SHR"), (0xAA, "NOT"),
  (0xAB, "BOOLAND"), (0xAC, "BOOLOR"), (0xB1, "NZ"), (0xB3, "NUMEQUAL"),
  (0xB4, "NUMNOTEQUAL"), (0xB5, "LT"), (0xB6, "LE"), (0xB7, "GT"), (0xB8, "GE"),
  (0xB9, "MIN"), (0xBA, "MAX"), (0xBB, "WITHIN"), (0xBE, "PACKMAP"),
  (0xBF, "PACKSTRUCT"), (0xC0, "PACK"), (0xC1, "UNPACK"), (0xC2, "NEWARRAY0"),
  (0xC3, "NEWARRAY"), (0xC4, "NEWARRAY_T"), (0xC5, "NEWSTRUCT0"), (0xC6, "NEWSTRUCT"),
  (0xC8, "NEWMAP"), (0xCA, "SIZE"), (0xCB, "HASKEY"), (0xCC, "KEYS"), (0xCD, "VALUES"),
  (0xCE, "PICKITEM"), (0xCF, "APPEND"), (0xD0, "SETITEM"), (0xD1, "REVERSEITEMS"),
  (0xD2, "REMOVE"), (0xD3, "CLEARITEMS"), (0xD4, "POPITEM"), (0xD8, "ISNULL"),
  (0xD9, "ISTYPE"), (0xDB, "CONVERT"), (0xE0, "ABORTMSG"), (0xE1, "ASSERTMSG")]

/-- The first opcode of a family whose members are numbered, its size and name. -/
def families : List (UInt8 × UInt8 × String) := [
  (0x10, 17, "PUSH"), (0x58, 7, "LDSFLD"), (0x60, 7, "STSFLD"), (0x68, 7, "LDLOC"),
  (0x70, 7, "STLOC"), (0x78, 7, "LDARG"), (0x80, 7, "STARG")]

def mnemonic (op : UInt8) : String :=
  match families.find? fun (first, size, _) => first ≤ op && op - first < size with
  | some (first, _, name) => name ++ toString (op - first)
  | none =>
      match names.lookup op with
      | some name => name
      | none => "0x" ++ String.ofList (Hex.byteText op)

end ScriptCoverage.Opcode
