import Backend.Compile
import Backend.Proofs.Behaviour
import Backend.Proofs.LoweredRun
import Backend.Proofs.Rewriting
import Backend.Proofs.Termination
import Backend.Proofs.Slots
import Backend.Proofs.Pins
import Backend.Proofs.Arguments
import Backend.Proofs.Convention
import Backend.Proofs.Compilation
import Backend.Proofs.Entry
import Backend.Proofs.Outcome
import Backend.Proofs.SpillFrame
import Backend.Proofs.Operands
import Backend.Proofs.Shape
import Backend.Proofs.Naming
import Backend.Proofs.Settled
import Backend.Proofs.Refusal
import Backend.Proofs.FlowEquations
import Backend.Proofs.Cores
import Backend.Proofs.Induced
import Backend.Proofs.Contention
import Backend.Proofs.Merging
import Backend.Proofs.ControlFlow
import Backend.Proofs.SpillEffect
import Backend.Proofs.Interference
import Backend.Proofs.Scopes
import Backend.Proofs.Edits
import Backend.Proofs.Linking
