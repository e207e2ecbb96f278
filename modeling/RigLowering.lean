import RigLowering.Proofs.DistinctWrites
import RigLowering.Proofs.EventNames
import RigLowering.Proofs.FailedCalls
import RigLowering.Proofs.FieldFeasibility
import RigLowering.Proofs.Idempotence
import RigLowering.Proofs.KnownClasses
import RigLowering.Proofs.RegisteredClasses
import RigLowering.Proofs.RepeatedRebuilds
import RigLowering.Proofs.SavedGraphs
import RigLowering.Proofs.TypingOverTime
import RigLowering.Proofs.Vacancy
import RigLowering.Proofs.WriteOrder
import RigLowering.Proofs.Placement
import RigLowering.Proofs.LinkTransfers
import RigLowering.Proofs.UnmatchedPins
import RigLowering.Proofs.AuditFindings
import RigLowering.Proofs.TypeOrder
import RigLowering.Proofs.LinkSymmetry
import RigLowering.Proofs.LinkTotals
import RigLowering.Proofs.RegistrationOrder
import RigLowering.Proofs.IndexOrder
import RigLowering.Proofs.PinIdentity
import RigLowering.Proofs.NameSearch
