import QuantumCircuits.Service.Dispatch
import QuantumCircuits.Remote
import QuantumCircuits.Experiment
import QuantumCircuits.Tooling.MergeBot
import QuantumCircuits.Proofs.Reachability
import QuantumCircuits.Proofs.CompleteStrategy
import QuantumCircuits.Proofs.NeighbourSwaps
import QuantumCircuits.Proofs.ParallelCopies
import QuantumCircuits.Proofs.RecordedBits
import QuantumCircuits.Proofs.Channels
import QuantumCircuits.Proofs.PlacedPhases
import QuantumCircuits.Proofs.LateOperations
import QuantumCircuits.Proofs.PackedResults
import QuantumCircuits.Proofs.OperationGraphs
import QuantumCircuits.Proofs.FreeVectors
import QuantumCircuits.Proofs.SentSchedules
import QuantumCircuits.Proofs.PartMeetings
import QuantumCircuits.Proofs.SweepListings
import QuantumCircuits.Proofs.NestedControls
import QuantumCircuits.Proofs.OptedOutLines
import QuantumCircuits.Proofs.NaturalOrder
import QuantumCircuits.Proofs.StableQueues
