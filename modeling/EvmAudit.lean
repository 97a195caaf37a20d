import EvmAudit.Machine.Given
import EvmAudit.Machine.View
import EvmAudit.Main
import EvmAudit.Proofs.Audit.Callstack
import EvmAudit.Proofs.Audit.SinglePath
import EvmAudit.Proofs.Audit.Timing
import EvmAudit.Proofs.Audit.Verdict
import EvmAudit.Proofs.Explore.Bytes
import EvmAudit.Proofs.Explore.CallData
import EvmAudit.Proofs.Explore.Charges
import EvmAudit.Proofs.Explore.Copies
import EvmAudit.Proofs.Explore.Positions
import EvmAudit.Proofs.Explore.Recorded
import EvmAudit.Proofs.Explore.Spending
import EvmAudit.Proofs.Explore.StackWords
import EvmAudit.Proofs.Explore.Storage
import EvmAudit.Proofs.Explore.Targets
import EvmAudit.Proofs.Explore.Transitions
import EvmAudit.Proofs.Listing.Mentions
import EvmAudit.Proofs.Machine.Orders
import EvmAudit.Proofs.Machine.Wraps
import EvmAudit.Proofs.Names
import EvmAudit.Recorded
import EvmAudit.Survey
import EvmAudit.Trial.Run
import EvmAudit.Proofs.Listing.Unchecked
import EvmAudit.Proofs.Machine.CodeText
import EvmAudit.Proofs.Source.Lines
import EvmAudit.Proofs.Source.Parameters
