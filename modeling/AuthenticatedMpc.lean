import AuthenticatedMpc.Field.Keystream
import AuthenticatedMpc.Share
import AuthenticatedMpc.Simulation.Hub
import AuthenticatedMpc.Simulation.Keeper
import AuthenticatedMpc.Simulation.Player
import AuthenticatedMpc.Simulation.Probe
import AuthenticatedMpc.Wire
import AuthenticatedMpc.Proofs.Circuit.Batches
import AuthenticatedMpc.Proofs.Circuit.Recording
import AuthenticatedMpc.Proofs.Documents.Configurations
import AuthenticatedMpc.Proofs.Documents.Packets
import AuthenticatedMpc.Proofs.Evaluation.Aftermath
import AuthenticatedMpc.Proofs.Evaluation.Backlog
import AuthenticatedMpc.Proofs.Evaluation.Batches
import AuthenticatedMpc.Proofs.Evaluation.Calls
import AuthenticatedMpc.Proofs.Evaluation.Canonical
import AuthenticatedMpc.Proofs.Evaluation.Concealment
import AuthenticatedMpc.Proofs.Evaluation.FailStop
import AuthenticatedMpc.Proofs.Evaluation.Honesty
import AuthenticatedMpc.Proofs.Evaluation.Outputs
import AuthenticatedMpc.Proofs.Evaluation.Partition
import AuthenticatedMpc.Proofs.Evaluation.Release
import AuthenticatedMpc.Proofs.Field.Encoding
import AuthenticatedMpc.Proofs.Field.Exactness
import AuthenticatedMpc.Proofs.Field.Numerals
import AuthenticatedMpc.Proofs.Field.Uniformity
import AuthenticatedMpc.Proofs.Limbs.Carries
import AuthenticatedMpc.Proofs.Limbs.Products
import AuthenticatedMpc.Proofs.MacCheck.Acceptance
import AuthenticatedMpc.Proofs.MacCheck.Binding
import AuthenticatedMpc.Proofs.MacCheck.Detection
import AuthenticatedMpc.Proofs.MacCheck.Folding
import AuthenticatedMpc.Proofs.MacCheck.Precedence
import AuthenticatedMpc.Proofs.MacCheck.Slicing
import AuthenticatedMpc.Proofs.MacCheck.Soundness
import AuthenticatedMpc.Proofs.Rounds.Accounting
import AuthenticatedMpc.Proofs.Sharing.LinearPrograms
import AuthenticatedMpc.Proofs.Sharing.Privacy
import AuthenticatedMpc.Proofs.Simulation.Agreement
import AuthenticatedMpc.Proofs.Simulation.Completeness
import AuthenticatedMpc.Proofs.Simulation.Confluence
import AuthenticatedMpc.Proofs.Simulation.Delivery
import AuthenticatedMpc.Proofs.Simulation.Lockstep
import AuthenticatedMpc.Proofs.Simulation.Skew
import AuthenticatedMpc.Proofs.Simulation.Traffic
import AuthenticatedMpc.Proofs.Simulation.Unanimity
