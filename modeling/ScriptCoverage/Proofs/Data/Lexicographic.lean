import Mathlib.Data.Nat.Basic
import Mathlib.Order.Compare

/-!
Lexicographic comparison of lists of one length, and of numbers by their digits in some base,
the last digit first to be compared.
-/

namespace ScriptCoverage.Lexicographic

variable {α β : Type} [Ord α] [Ord β]

end ScriptCoverage.Lexicographic
