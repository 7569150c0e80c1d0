import ScriptCoverage.Config.ConfigJson
import ScriptCoverage.Main
import ScriptCoverage.Proofs.Coverage.BranchWindows
import ScriptCoverage.Proofs.Report.Sharding
import ScriptCoverage.Proofs.Session.Isolation
import ScriptCoverage.Proofs.Binary.VarInt
import ScriptCoverage.Proofs.Nef.Layout
import ScriptCoverage.Proofs.Nef.Reader
import ScriptCoverage.Proofs.Nef.RoundTrip
import ScriptCoverage.Proofs.Recording.Lifecycle
import ScriptCoverage.Proofs.Coverage.RateSum
import ScriptCoverage.Proofs.Coverage.Rates
import ScriptCoverage.Proofs.Report.Agreement
import ScriptCoverage.Proofs.Coverage.Growth
import ScriptCoverage.Proofs.Coverage.MethodRanges
import ScriptCoverage.Proofs.Report.BranchKeys
import ScriptCoverage.Proofs.Config.SettingOrder
import ScriptCoverage.Proofs.Config.Merge
import ScriptCoverage.Proofs.Vm.WordDecoding
import ScriptCoverage.Proofs.Vm.Window
import ScriptCoverage.Proofs.Recording.Sums
import ScriptCoverage.Proofs.Session.Statistics
import ScriptCoverage.Proofs.Session.Lifecycle
import ScriptCoverage.Proofs.Coverage.AddressEntries
import ScriptCoverage.Proofs.Recording.Overflow
import ScriptCoverage.Proofs.Symbols.Table
import ScriptCoverage.Proofs.Symbols.NumberPattern
import ScriptCoverage.Proofs.ContractHash.Text
import ScriptCoverage.Proofs.Report.HashOrder
import ScriptCoverage.Proofs.Session.Tracking
import ScriptCoverage.Proofs.Vm.Target
import ScriptCoverage.Proofs.Coverage.Rounding
import ScriptCoverage.Proofs.Config.ContractArgument
import ScriptCoverage.Proofs.Report.DirectorySink
import ScriptCoverage.Proofs.Report.XmlEscape
import ScriptCoverage.Proofs.Nef.Count
import ScriptCoverage.Proofs.Report.LcovReader
