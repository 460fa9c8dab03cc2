import QuantumCircuits.Circuit.Unitary
import QuantumCircuits.Simulation.StateVector
import QuantumCircuits.Study

/-! # Simulators

A state is carried through the moments of a circuit, and measurements are reported under their keys. To run a circuit
many times, all repetitions are simulated, or, where no measurement is followed by anything, the final state is sampled. -/
namespace QuantumCircuits
abbrev Report := List (String × List Bool)
namespace Report
def extend (r : Report) (key : String) (bits : List Bool) : Report :=
  if r.any (·.1 == key) then r.map fun (k,bs) => if k == key then (k,bs ++ bits) else (k,bs) else r ++ [(key,bits)]
def replace (r : Report) (key : String) (bits : List Bool) : Report :=
  if r.any (·.1 == key) then r.map fun (k,bs) => if k == key then (k,bits) else (k,bs) else r ++ [(key,bits)]
def merge (r s : Report) : Report := s.foldl (fun acc (k,bits) => acc.replace k bits) r
def text (r : Report) : String :=
  Text.join " " ((r.mergeSort fun a b => Text.le a.1 b.1).map fun (k,bits) => k ++ "=" ++ bitText bits)
def beq (r s : Report) : Bool := r.length == s.length && r.all fun (k,bits) => s.lookup k == some bits
end Report
/-- Measured bits, some of them inverted; a list of inversions that is too short drops the bits beyond it. -/
def invertBits (invert bits : List Bool) : List Bool :=
  if invert.isEmpty then bits else bits.zipWith (fun b i => b != i) invert
structure Simulator (R S : Type) (M : Type → Type) where
  check : OpCircuit R → Check
  start : Nat → InitialState R → Outcome S
  /-- Carries out a moment on qubits in order; measurements are left out unless asked for. -/
  advance : Qubits → Bool → S → OpMoment R → ExceptT Fault M (S × Report)
  sample : List Int → Int → S → ExceptT Fault M (List (List Bool))
  samplesAtEnd : OpCircuit R → Bool
  repeatsKeys : Bool
namespace Simulator
variable [RealScalar R] [OperationText R] {S : Type} {M : Type → Type} [Monad M] (sim : Simulator R S M)
variable (c : OpCircuit R) (r : Resolver R) (reps : Int)
def resolve (c : OpCircuit R) : OpCircuit R := c.map fun op => op.resolve r.get?

def walk (sim : Simulator R S M) (qs : Qubits) (perform : Bool) : S → List (OpMoment R) →
    ExceptT Fault M (List (S × Report))
  | _, [] => pure []
  | s, m :: ms => do
    let (t,report) ← sim.advance qs perform s m
    return (t,report) :: (← walk sim qs perform t ms)

/-- The steps of a circuit; an empty one has a single step at which nothing has happened. -/
def steps (order : QubitOrder) (initial : InitialState R) (perform : Bool) : ExceptT Fault M (List (S × Report)) := do
  let c := resolve r c
  ExceptT.mk (pure (sim.check c))
  let qs ← ExceptT.mk (pure (c.orderedQubits order []))
  let s ← ExceptT.mk (pure (sim.start qs.length initial))
  if c.moments.isEmpty then return [(s,[])] else sim.walk qs perform s c.moments

def simulate (order : QubitOrder) (initial : InitialState R) : ExceptT Fault M (S × Report) := do
  let all ← sim.steps c r order initial true
  match all.getLast? with
  | some (s,_) => return (s,all.foldl (fun acc (_,report) => acc.merge report) [])
  | none => throw (.bare .index)

def measured : List (String × Qubits) :=
  c.operations.filterMap fun op => op.measurementKey?.map fun k => (k,op.qubits)

def checkSampled : List String → List (String × Qubits) → Check
  | _, [] => .ok ()
  | seen, (k,_) :: r =>
    if seen.contains k then .error (.value ("Duplicate MeasurementGate with key " ++ k)) else checkSampled (k :: seen) r

def splitRows (rows : List (List Bool)) : Nat → List (String × Qubits) → Measurements
  | _, [] => []
  | start, (k,qs) :: r =>
    (k,rows.map fun row => (row.drop start).take qs.length) :: splitRows rows (start+qs.length) r

def sampleMeasured (qs : Qubits) (ms : List (String × Qubits)) (reps : Int) (s : S) : ExceptT Fault M Measurements := do
  ExceptT.mk (pure (checkSampled [] ms))
  let rows ← sim.sample ((ms.flatMap (·.2)).map fun q => (qs.idxOf q : Int)) reps s
  return splitRows rows 0 ms

def runSampled : ExceptT Fault M Measurements := do
  let all ← sim.steps c .empty .sorted (.basis 0) false
  match all.getLast? with
  | some (s,_) => sim.sampleMeasured c.sortedQubits (measured c) reps s
  | none => return []

def addRows (m : Measurements) (report : Report) : Measurements :=
  report.foldl (fun acc (k,bits) =>
    if acc.any (·.1 == k) then acc.map fun (l,rows) => if l == k then (l,rows ++ [bits]) else (l,rows)
    else acc ++ [(k,[bits])]) m

def checkRows (m : Measurements) : Check :=
  if m.all fun (_,rows) => rows.all fun r => r.length == (rows.headD []).length then .ok () else fails .value

def checkRepeated (keys : List String) : Check :=
  (keys.foldlM (fun (seen : List String) k =>
    if seen.contains k then Except.error (Fault.value ("Repeated Measurement key " ++ k)) else .ok (k :: seen)) []).map
      fun _ => ()

def runRepeated : ExceptT Fault M Measurements := do
  let keys := (measured c).map (·.1)
  if !sim.repeatsKeys then ExceptT.mk (pure (checkRepeated keys))
  let start : Measurements := if sim.repeatsKeys then [] else keys.map fun k => (k,[])
  let m ← (List.replicate reps.toNat ()).foldlM (fun m _ => do
    let all ← sim.steps c .empty .sorted (.basis 0) true
    return all.foldl (fun m (_,report) => addRows m report) m) start
  ExceptT.mk (pure (checkRows m))
  return m

def runOnce : ExceptT Fault M Measurements := do
  let resolved := resolve r c
  ExceptT.mk (pure (sim.check resolved))
  if sim.samplesAtEnd c then sim.runSampled resolved reps else sim.runRepeated resolved reps

def run : ExceptT Fault M (Trial R) := do
  return ⟨r,← sim.runOnce c r reps,reps⟩
end Simulator

/-! ## Simulation of density matrices

Every operation that is not a measurement acts by the Kraus matrices of its gate. -/
namespace MixedState
variable [RealScalar R] [OperationText R] [NumberText R] {M : Type → Type} [Monad M] [Chance R M]
def expander : Expander (Operation R) where
  step := Operation.parts?
  keep op := match op with
    | .expectation .. => true
    | op => (op.hasChannel).toOption.getD false || op.isMeasurement
  stuck op := some (.type ("Can't simulate operations that don't implement SupportsUnitary, SupportsApplyUnitary, "
    ++ "SupportsMixture, SupportsChannel or is a measurement: " ++ OperationText.structural op))

def channelGate : Operation R → Outcome (Gate R)
  | .gate g _ | .parallel g _ => .ok g
  | .acquainted qs _ => .ok (.opportunity qs.length)
  | _ => fails .attribute

def applyChannel (n : Nat) (at' : List Nat) (op : Operation R) (t : Tensor R) : Outcome (Tensor R) := do
  let g ← channelGate op
  match ← g.kraus? with
  | none => .error (channelRefusal (classText g.kindPath) (g.offers .channel))
  | some ks =>
    if g.numQubits ≠ at'.length then fails .value
    else .ok (t.applyKraus ks at' (at'.map (· + n)))

def advanceOp (qs : Qubits) (perform : Bool) (s : Tensor R × Report) (op : Operation R) :
    ExceptT Fault M (Tensor R × Report) := do
  let (t,report) := s
  let at' := op.qubits.map qs.idxOf
  match op with
  | .expectation .. => return (t,report)
  | .gate (.measurement _ key invert) _ =>
    if !perform then return (t,report)
    let (bits,t) ← DensityMatrix.measure (at'.map fun (i : Nat) => (i : Int)) t
    return (t,report.extend key (invertBits invert bits))
  | op => return (← ExceptT.mk (pure (applyChannel qs.length at' op t)),report)

def advance (qs : Qubits) (perform : Bool) (t : Tensor R) (m : OpMoment R) : ExceptT Fault M (Tensor R × Report) := do
  let ops ← ExceptT.mk (pure (expander.expand m.ops))
  ops.foldlM (advanceOp qs perform) (t,[])

def simulator (p : Precision) : Simulator R (Tensor R) M where
  check _ := .ok ()
  start n initial := do .ok (.ofMat (Tensor.qubitShape (2*n)) (← initial.density n p))
  advance := advance
  sample indices reps t := DensityMatrix.sample indices reps t
  samplesAtEnd := Circuit.measurementsAreTerminal
  repeatsKeys := true
end MixedState

/-! ## Simulation of state vectors

Operations with a matrix act on the amplitudes, measurements and mixtures pick an outcome. -/
namespace WaveFunction
variable [RealScalar R] [OperationText R] [NumberText R] {M : Type → Type} [Monad M] [Chance R M]
def isDisplay : Operation R → Bool
  | .expectation .. => true
  | _ => false

def hasUnitary (op : Operation R) : Bool := (op.hasUnitary).toOption.getD false

def expander : Expander (Operation R) where
  step := Operation.parts?
  keep op := hasUnitary op || op.hasMixture || op.isMeasurement
  stuck op := some (.type ("Can't simulate unknown operations that don't specify a _unitary_ method, a _decompose_ method, "
    ++ "(_has_unitary_ + _apply_unitary_) methods,(_has_mixture_ + _mixture_) methods, or are measurements.: "
    ++ OperationText.structural op))

def applyUnitary (at' : List Nat) (op : Operation R) (t : Tensor R) : Outcome (Tensor R) := do
  match ← op.act? t at' with
  | some t => .ok t
  | none => .error (.type ("object of type '" ++ classText op.kindPath
      ++ "' has no _apply_unitary_ or _unitary_ methods (or they returned None or NotImplemented)."))

def advanceOp (qs : Qubits) (perform : Bool) (s : Tensor R × Report) (op : Operation R) :
    ExceptT Fault M (Tensor R × Report) := do
  let (t,report) := s
  let at' := op.qubits.map qs.idxOf
  if hasUnitary op then return (← ExceptT.mk (pure (applyUnitary at' op t)),report)
  match op with
  | .gate (.measurement _ key invert) _ =>
    if !perform then return (t,report)
    let (bits,entries) ← StateVector.measure (at'.map fun (i : Nat) => (i : Int)) t.entries
    return (⟨t.shape,entries⟩,report.extend key (invertBits invert bits))
  | op =>
    match op.mixture? with
    | none => return (t,report)
    | some parts =>
      let r ← Chance.draw (parts.map (·.1))
      let u := (parts.map (·.2)).getD r default
      return (t.applyMatrix u at',report)

def advance (qs : Qubits) (perform : Bool) (t : Tensor R) (m : OpMoment R) : ExceptT Fault M (Tensor R × Report) := do
  let ops ← ExceptT.mk (pure (expander.expand (m.ops.filter fun op => !isDisplay op)))
  ops.foldlM (advanceOp qs perform) (t,[])

def samplesAtEnd (c : OpCircuit R) : Bool := c.allTerminal fun op => op.isMeasurement || op.hasMixture

def simulator (p : Precision) : Simulator R (Tensor R) M where
  check _ := .ok ()
  start n initial := do .ok ⟨Tensor.qubitShape n,← initial.vector n p⟩
  advance := advance
  sample indices reps t := StateVector.sample indices reps t.entries
  samplesAtEnd := samplesAtEnd
  repeatsKeys := true
end WaveFunction
end QuantumCircuits
