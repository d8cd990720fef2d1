import PugContracts.Main
import PugContracts.Proofs.Check.Reload
import PugContracts.Proofs.Resolution.Guarantee
import PugContracts.Proofs.Resolution.Outcome
import PugContracts.Proofs.Cache.Cause
import PugContracts.Proofs.Check.Pending
import PugContracts.Proofs.Resolution.Compare
import PugContracts.Proofs.Resolution.Replay
import PugContracts.Proofs.Check.Fresh
import PugContracts.Proofs.Check.Notify
import PugContracts.Proofs.Program.Origins
import PugContracts.Proofs.Check.Missing
import PugContracts.Proofs.Check.Independence
import PugContracts.Proofs.Check.References
import PugContracts.Proofs.Program.Balance
import PugContracts.Proofs.Template.RoundTrip
import PugContracts.Proofs.Graph.Trails
import PugContracts.Proofs.Program.Emission
import PugContracts.Proofs.Check.Unchanged
import PugContracts.Proofs.Resolution.Content
import PugContracts.Proofs.Template.Branches
import PugContracts.Proofs.Template.AttributeLine
import PugContracts.Proofs.Contract.Expectation
import PugContracts.Proofs.Contract.Members
import PugContracts.Proofs.Contract.Directives
import PugContracts.Proofs.Check.Rerun
import PugContracts.Proofs.Template.BrokenList
import PugContracts.Proofs.Template.Interpolation
import PugContracts.Proofs.Program.Order
import PugContracts.Proofs.Program.TemplateLiteral
import PugContracts.Proofs.Engine.Output
import PugContracts.Proofs.Program.Bindings
import PugContracts.Proofs.Scan.Agreement
import PugContracts.Proofs.Template.Progress
import PugContracts.Proofs.Contract.AbsoluteImport
import PugContracts.Proofs.Scan.Separator
