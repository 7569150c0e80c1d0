import ScriptCoverage.Vm.Instruction

/-!
A script that decodes completely, with its instructions. `window` takes the ones
between two addresses by cutting the listing at both ends, which is right because
addresses ascend.
-/

namespace ScriptCoverage

structure Script where
  bytes : List UInt8
  listing : List (UInt32 × Instruction)
  disassembled : disassemble bytes = ⟨listing, none⟩

namespace Script

def ofBytes (bytes : List UInt8) : Except DecodeError Script :=
  match h : disassemble bytes with
  | ⟨listing, none⟩ => .ok ⟨bytes, listing, h⟩
  | ⟨_, some e⟩ => .error e

def length (script : Script) : Nat :=
  script.bytes.length

def addresses (script : Script) : List UInt32 :=
  script.listing.map (·.1)

/-- The instructions from address `first` to address `last`, both included. -/
def window (script : Script) (first last : UInt32) : List (UInt32 × Instruction) :=
  (script.listing.dropWhile (·.1 < first)).takeWhile (·.1 ≤ last)

end Script

end ScriptCoverage
