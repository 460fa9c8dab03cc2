import QuantumCircuits.Operation.Unitary
import QuantumCircuits.Operation.Placing

/-! # The matrix of a circuit

A circuit without measurements, or with measurements at the ends of wires only, acts on states by a unitary matrix. -/
namespace QuantumCircuits
open Operation PlainPow
variable [RealScalar R]
/-- Operations with a matrix; a measurement is taken apart into the flips of its results. -/
def Operation.unitaryExpander (stuck : Operation R → Option Fault) : Expander (Operation R) where
  step op := match op with
    | .gate (.measurement _ _ invert) qs =>
      .ok (some ((qs.zip invert).filterMap fun (q,b) => if b then some (.gate .X [q]) else none))
    | op => op.parts?
  keep op := (op.hasUnitary).toOption.getD false
  stuck := stuck

def Operation.applyAll (qs : Qubits) (ops : Ops R) (t : Tensor R) : Outcome (Tensor R) :=
  ops.foldlM (fun t op => do
    match ← op.act? t (op.qubits.map qs.idxOf) with
    | some t => .ok t
    | none => .error (op.refusal .unitary)) t
namespace Circuit
variable [OperationText R] (c : OpCircuit R)
def measurementsAreTerminal : Bool := c.allTerminal isMeasurement

def hasUnitary : Outcome Bool := do
  if !c.measurementsAreTerminal then .ok false
  else
    let ops ← (unitaryExpander fun _ => none).expand c.operations
    ops.allM fun op => op.hasUnitary

def unitarySteps : Outcome (Ops R) :=
  (unitaryExpander fun op => some (.type
    ("Operation without a known matrix or decomposition: " ++ OperationText.structural op))).expand c.operations

def checkMeasurements (ignoreTerminal : Bool) : Check :=
  if !ignoreTerminal && c.operations.any isMeasurement then
    .error (.value "Circuit contains a measurement.")
  else if !c.measurementsAreTerminal then .error (.value "Circuit contains a non-terminal measurement.")
  else .ok ()

def orderedQubits (order : QubitOrder) (present : Qubits) : Outcome Qubits :=
  order.orderFor (Qubit.distinct (c.qubits ++ present))

def unitary (order : QubitOrder) (present : Qubits) (ignoreTerminal : Bool) : Outcome (Mat R) := do
  c.checkMeasurements ignoreTerminal
  let qs ← c.orderedQubits order present
  let n := qs.length
  let ops ← c.unitarySteps
  let t ← applyAll qs ops (.ofMat (Tensor.qubitShape (2*n)) (Mat.identity (2^n)))
  .ok (t.toMat (2^n) (2^n))

/-- The state that the circuit makes of another; `initial` gives the state for a number of qubits. -/
def applyTo (initial : Nat → Outcome (Tensor R)) (order : QubitOrder) (present : Qubits)
    (ignoreTerminal : Bool) : Outcome (Tensor R) := do
  c.checkMeasurements ignoreTerminal
  let qs ← c.orderedQubits order present
  applyAll qs (← c.unitarySteps) (← initial qs.length)
end Circuit
end QuantumCircuits
