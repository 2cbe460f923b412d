import FaultIsolation.Register.Name
import FaultIsolation.Main
import FaultIsolation.Proofs.JumpEntry
import FaultIsolation.Proofs.BranchLanding
import FaultIsolation.Proofs.BundleStart
import FaultIsolation.Proofs.Mediation
import FaultIsolation.Proofs.PointerDiscipline
import FaultIsolation.Proofs.IndexDiscipline
import FaultIsolation.Proofs.Cut
import FaultIsolation.Proofs.ExactVerdict
import FaultIsolation.Proofs.Relocation
import FaultIsolation.Proofs.Seam
import FaultIsolation.Proofs.Joining
import FaultIsolation.Proofs.RegisterFile
import FaultIsolation.Proofs.Execution
import FaultIsolation.Proofs.Addressing
import FaultIsolation.Proofs.IdiomExecution
import FaultIsolation.Proofs.Accounting
import FaultIsolation.Proofs.Overlap
import FaultIsolation.Proofs.Unconditional
import FaultIsolation.Proofs.Decoding
import FaultIsolation.Proofs.ReportShape
import FaultIsolation.Proofs.RelocatedReport
import FaultIsolation.Proofs.Resumption
import FaultIsolation.Proofs.StrayJumps
import FaultIsolation.Proofs.Inquiry
import FaultIsolation.Proofs.PendingPointer
import FaultIsolation.Proofs.FlatScan
import FaultIsolation.Proofs.ModeAgreement
import FaultIsolation.Proofs.SelfDelimiting
import FaultIsolation.Proofs.RegisterNames
