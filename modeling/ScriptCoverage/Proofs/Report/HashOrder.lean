import ScriptCoverage.Proofs.ContractHash.Order
import ScriptCoverage.Proofs.Recording.Lifecycle
import ScriptCoverage.Proofs.Report.Cobertura
import ScriptCoverage.Proofs.Session.Isolation

/-!
Contracts stand in the order of their printed hashes: in a collector, among the trees of a
session, as packages of a Cobertura report and as dumps.
-/

namespace ScriptCoverage

namespace ContractHash

end ContractHash

namespace Session

end Session

end ScriptCoverage
