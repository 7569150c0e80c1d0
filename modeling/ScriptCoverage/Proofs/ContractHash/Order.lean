import ScriptCoverage.Proofs.ContractHash
import ScriptCoverage.Proofs.Data.Lexicographic
import ScriptCoverage.Text.Utf8

/-!
The order of contract hashes. The words of a hash are compared from the top, which is the order
of the numbers that the bytes of the hashes stand for, and the order of their texts byte by
byte.
-/

namespace ScriptCoverage

namespace LittleEndian

end LittleEndian

namespace Hex

end Hex

namespace ContractHash

/-- The number that the bytes of a hash stand for, the lowest byte first. -/
def value (hash : ContractHash) : ℕ :=
  LittleEndian.decode hash.toBytes

end ContractHash

end ScriptCoverage
