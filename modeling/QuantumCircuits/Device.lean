import QuantumCircuits.Optimizer
import QuantumCircuits.Drawing

/-! # Superconducting devices

Qubits on a grid, rotations about all axes, and controlled phases between neighbours. -/
namespace QuantumCircuits
variable {R : Type} [RealScalar R]
section
open OperationText
structure XmonDevice (R : Type) where
  name : Option String
  measurement : Duration R
  rotation : Duration R
  interaction : Duration R
  qubits : Qubits
namespace XmonDevice
def beq (a b : XmonDevice R) : Bool :=
  a.measurement == b.measurement && a.rotation == b.rotation && a.interaction == b.interaction
    && Operation.sameQubits a.qubits b.qubits
def isPhase : Operation R → Bool
  | .gate (.power .cz ..) _ => true
  | _ => false
def gateOf? : Operation R → Option (Gate R)
  | .parallel g _ => some g
  | op => op.gate?
def isQuietGate : Gate R → Bool
  | .power .x .. | .power .y .. | .power .z .. | .phasedX .. | .measurement .. => true
  | _ => false

/-- Whether an operation interferes with a controlled phase at the same time: it is one itself, on a neighbour. -/
def interacts (a b : Operation R) : Bool :=
  !(match gateOf? b with
    | some g => isQuietGate g
    | none => false)
    && a.qubits.any fun q => b.qubits.any fun p => q.isAdjacent p

/-- Whether one of several operations meets a test; each that is looked at must have a gate. -/
def anyWithGate (test : Operation R → Bool) : Ops R → Outcome Bool
  | [] => .ok false
  | op :: ops =>
    if (gateOf? op).isNone then fails .attribute else if test op then .ok true else anyWithGate test ops
def withOthers {α : Type} (xs : List α) : List (α × List α) := xs.zipIdx.map fun (x,i) => (x,xs.eraseIdx i)
def isQuiet (ops : Ops R) : Bool :=
  (withOthers ops).all fun (op,others) => !(isPhase op && others.any (interacts op))
def repeatedKey? : List String → List String → Option String
  | [], _ => none
  | k :: ks, seen => if seen.contains k then some k else repeatedKey? ks (k :: seen)
def checkKeys (ops : Ops R) : Check :=
  match repeatedKey? (ops.filterMap Operation.measurementKey?) [] with
  | some k => .error (.value s!"Measurement key {k} repeated")
  | none => .ok ()
variable [OperationText R] (d : XmonDevice R) (op : Operation R)
def checkGate (g : Gate R) : Check :=
  if Conversion.isXmonGate g then .ok () else .error (.value ("Unsupported gate type: " ++ gate g))
def checkQubit (q : Qubit) : Check :=
  match q with
  | .grid _ _ =>
    if d.qubits.contains q then .ok () else .error (.value ("Qubit not on device: " ++ q.structural))
  | _ => .error (.value ("Unsupported qubit type: " ++ q.structural))
def checkOp : Check :=
  match op.gate? with
  | none => .error (.value ("Unsupported operation: " ++ structural op))
  | some g => do
    checkGate g
    op.qubits.forM d.checkQubit
    match op.qubits with
    | [p,q] =>
      if g.isMeasurement || p.isAdjacent q then .ok ()
      else .error (.value s!"Non-local interaction: {structural op}.")
    | _ => .ok ()
def checkMoment (m : OpMoment R) : Check := do
  m.ops.forM d.checkOp
  if isQuiet m.ops then .ok ()
  else .error (.value ("Adjacent Exp11 operations: " ++ Text.join " and " (m.ops.map text) ++ "."))
def checkCircuit (c : OpCircuit R) : Check := do
  c.moments.forM d.checkMoment
  checkKeys c.operations
def canAdd (m : OpMoment R) : Outcome Bool := do
  d.checkMoment m
  if m.actsOnAny op.qubits then .ok false
  else if isPhase op then do .ok !(← anyWithGate (interacts op) m.ops)
  else .ok true
def decompose : Outcome (Ops R) := (Conversion.xmonExpander false).expand [op]
def rules : DeviceRules (Operation R) where
  decompose op := do .ok (.node ((← decompose op).map .leaf))
  checkOp := d.checkOp
  checkMoment := d.checkMoment
  checkCircuit := d.checkCircuit
  canAdd := d.canAdd
def duration : Outcome (Duration R) := match op.gate? with
  | some (.power .cz ..) => .ok d.interaction
  | some (.measurement ..) => .ok d.measurement
  | some (.power .x ..) | some (.power .y ..) | some (.phasedX ..) => .ok d.rotation
  | some (.power .z ..) => .ok (.ofPicos 0)
  | _ => .error (.value ("Unsupported gate type: " ++ structural op))
def structural [NumberText R] (d : XmonDevice R) : String := d.name.getD
  (s!"XmonDevice(measurement_duration={d.measurement.structural}, exp_w_duration={d.rotation.structural}, "
    ++ s!"exp_11_duration={d.interaction.structural} qubits={Qubit.sortedText d.qubits})")
def letters (rows : List String) : List (Char × Qubit) :=
  rows.zipIdx.flatMap fun (row,r) =>
    row.toList.zipIdx.filterMap fun (ch,c) => if ch = '-' then none else some (ch,.grid r c)
def ofGrid (name : String) (rows : List String) : XmonDevice R :=
  ⟨some name,.ofPicos 1000000,.ofPicos 20000,.ofPicos 50000,(letters rows).map (·.2)⟩
def foxtail : XmonDevice R := ofGrid "cirq.google.Foxtail" ["AAAAABBBBBB","CCCCCCDDDDD"]
def bristlecone : XmonDevice R := ofGrid "cirq.google.Bristlecone"
  ["-----AB-----",
   "----ABCD----",
   "---ABCDEF---",
   "--ABCDEFGH--",
   "-ABCDEFGHIJ-",
   "ABCDEFGHIJKL",
   "-CDEFGHIJKL-",
   "--EFGHIJKL--",
   "---GHIJKL---",
   "----IJKL----",
   "-----KL-----"]
end XmonDevice

/-! ## Ion traps

Qubits on a line; any two of them can interact. -/
open XmonDevice
structure IonDevice (R : Type) where
  measurement : Duration R
  interaction : Duration R
  rotation : Duration R
  qubits : Qubits
namespace IonDevice
def beq (a b : IonDevice R) : Bool :=
  a.measurement == b.measurement && a.rotation == b.rotation && a.interaction == b.interaction
    && Operation.sameQubits a.qubits b.qubits
def isInteraction : Operation R → Bool
  | .gate (.power .xx ..) _ => true
  | _ => false

/-- Whether an operation other than a rotation or measurement shares a qubit with an interaction. -/
def interacts (a b : Operation R) : Bool :=
  !(match gateOf? b with
    | some g => isQuietGate g
    | none => false)
    && a.qubits.any b.qubits.contains
variable [OperationText R] (d : IonDevice R) (op : Operation R)
def checkGate (g : Gate R) : Check :=
  if Ion.isNative g then .ok () else .error (.value ("Unsupported gate type: " ++ gate g))
def checkQubit (q : Qubit) : Check :=
  match q with
  | .line _ => if d.qubits.contains q then .ok () else .error (.value ("Qubit not on device: " ++ q.structural))
  | _ => .error (.value ("Unsupported qubit type: " ++ q.structural))
def checkOp : Check :=
  match op.gate? with
  | none => .error (.value ("Unsupported operation: " ++ structural op))
  | some g => do
    checkGate g
    op.qubits.forM d.checkQubit
def checkMoment (m : OpMoment R) : Check := m.ops.forM d.checkOp
def checkCircuit (c : OpCircuit R) : Check := do
  c.moments.forM d.checkMoment
  checkKeys c.operations
def canAdd (m : OpMoment R) : Outcome Bool :=
  if m.actsOnAny op.qubits then .ok false
  else if isInteraction op then do .ok !(← anyWithGate (interacts op) m.ops)
  else .ok true
def rules : DeviceRules (Operation R) where
  decompose op := do .ok (.node ((← Ion.convert false op).map .leaf))
  checkOp := d.checkOp
  checkMoment := d.checkMoment
  checkCircuit := d.checkCircuit
  canAdd := canAdd
def duration : Outcome (Duration R) := match op.gate? with
  | some (.power .xx ..) => .ok d.interaction
  | some (.power .x ..) | some (.power .y ..) | some (.power .z ..) => .ok d.rotation
  | some (.measurement ..) => .ok d.measurement
  | _ => .error (.value ("Unsupported gate type: " ++ structural op))
def structural [NumberText R] (d : IonDevice R) : String :=
  s!"IonDevice(measurement_duration={d.measurement.structural}, twoq_gates_duration={d.interaction.structural}, "
    ++ s!"oneq_gates_duration={d.rotation.structural} qubits={Qubit.sortedText d.qubits})"
end IonDevice

/-! ## Neutral atom devices

Qubits on a grid. -/
open PlainPow PlainZero
structure NeutralAtomDevice (R : Type) where
  measurement : Duration R
  gate : Duration R
  radius : R
  maxZ : Int
  maxXY : Int
  maxControlled : Int
  qubits : Qubits
inductive AtomKind where
  | z | xy | controlled | measure | idle
  deriving DecidableEq
namespace NeutralAtomDevice
def make (d : NeutralAtomDevice R) : Outcome (NeutralAtomDevice R) := do
  if min d.maxZ d.maxXY < d.maxControlled then
    .error (.value "max_parallel_c must be less than or equal to themin of max_parallel_z and max_parallel_xy")
  d.qubits.forM fun q => match q with
    | .grid _ _ => Except.ok ()
    | q => .error (.value ("Unsupported qubit type: " ++ q.structural))
  .ok d
def beq (a b : NeutralAtomDevice R) : Bool :=
  a.measurement == b.measurement && a.gate == b.gate && a.radius == b.radius && a.maxZ == b.maxZ
    && a.maxXY == b.maxXY && a.maxControlled == b.maxControlled && Operation.sameQubits a.qubits b.qubits
def distance : Qubit → Qubit → R
  | .grid r c, .grid s e => RealScalar.sqrt (RealScalar.ofInt ((r-s)^(2 : Nat)+(c-e)^(2 : Nat)))
  | _, _ => 0
def kind : Gate R → AtomKind
  | .power .z .. => .z
  | .power .x .. | .power .y .. | .phasedX .. => .xy
  | .power .cnot .. | .power .cz .. | .power .ccx .. | .power .ccz .. => .controlled
  | .measurement .. => .measure
  | _ => .idle
variable [OperationText R] (d : NeutralAtomDevice R) (op : Operation R)
def checkGate (g : Gate R) : Check := match g with
  | .power .cnot e _ _ | .power .cz e _ _ | .power .ccx e _ _ | .power .ccz e _ _ => do
    if ← Conversion.isWholeExponent e then .ok ()
    else .error (.value "controlled gates must have integer exponents")
  | .power .x .. | .power .y .. | .power .z .. | .phasedX .. | .measurement .. | .identity _ => .ok ()
  | g => .error (.value ("Unsupported gate: " ++ OperationText.gate g))
def checkControlled (qs : Qubits) : Check := do
  if d.maxControlled < qs.length then
    .error (.value "Too many qubits acted on in parallel by a controlled gate operation")
  if 1 < qs.length then
    qs.forM fun p => qs.forM fun q =>
      if d.radius < (distance p q : R) then
        Except.error (.value s!"Qubits {p.structural}, {q.structural} are too far away")
      else .ok ()
  .ok ()
def checkParallel (g : Gate R) (count : Nat) : Check := match kind g with
  | .z => if d.maxZ < count then .error (.value "Too many Z gates in parallel") else .ok ()
  | .xy =>
    if d.maxXY < count && count ≠ d.qubits.length then .error (.value "Bad number of XY gates in parallel") else .ok ()
  | _ => .ok ()
def checkOp : Check :=
  match gateOf? op with
  | none => .error (.value ("Unsupported operation: " ++ OperationText.structural op))
  | some g => do
    checkGate g
    op.qubits.forM fun q =>
      if d.qubits.contains q then Except.ok () else .error (.value ("Qubit not on device: " ++ q.structural))
    match g, op with
    | .measurement .., _ | .identity _, _ => .ok ()
    | g, .parallel .. => d.checkParallel g op.qubits.length
    | _, op => d.checkControlled op.qubits
def ofKind (k : AtomKind) (ops : Ops R) : Ops R := ops.filter fun op => match gateOf? op with
  | some g => kind g = k
  | none => false
def areAlike (k : AtomKind) (ops : Ops R) : Bool := match (ofKind k ops).filterMap gateOf? with
  | [] => true
  | g :: gs => gs.all (g == ·)
def tooClose (d : NeutralAtomDevice R) : List Qubits → Bool
  | [] => false
  | a :: rest =>
    rest.any (fun b => a.any fun p => b.any fun q => (distance p q : R) ≤ d.radius) || tooClose d rest
def qubitCount (k : AtomKind) (ops : Ops R) : Nat := ((ofKind k ops).map fun op => op.qubits.length).sum

/-- What is wrong with operations at the same time, in the order in which it is looked for. -/
def conflicts (ops : Ops R) : List (Bool × String) :=
  let groups := (ofKind .controlled ops).map Operation.qubits
  [(!areAlike .z ops,"Non-identical simultaneous Z gates"),(!areAlike .xy ops,"Non-identical simultaneous XY gates"),
    (!areAlike .controlled ops,"Non-identical simultaneous controlled gates"),
    (d.maxControlled < qubitCount .controlled ops,"Too many qubits acted on by controlled gates"),
    (!groups.isEmpty && 0 < qubitCount .xy ops + qubitCount .z ops,
      "Can't perform non-controlled operations at same time as controlled operations"),
    (d.tooClose groups,"Interacting controlled operations"),
    (d.maxZ < qubitCount .z ops,"Too many simultaneous Z gates"),
    (d.maxXY < qubitCount .xy ops && qubitCount .xy ops ≠ d.qubits.length,"Bad number of simultaneous XY gates"),
    (!(ofKind .measure ops).isEmpty && (!groups.isEmpty || 0 < qubitCount .xy ops + qubitCount .z ops),
      "Measurements can't be simultaneous with other operations")]
def checkTogether (ops : Ops R) : Check :=
  (d.conflicts ops).forM fun c => if c.1 then .error (.value c.2) else .ok ()
def checkMoment (m : OpMoment R) : Check := do
  m.ops.forM d.checkOp
  d.checkTogether m.ops
def endsWithMeasurement : List (OpMoment R) → Bool
  | [] => true
  | m :: rest =>
    if m.ops.any Operation.isMeasurement then rest.all fun m => m.ops.isEmpty else endsWithMeasurement rest
def checkCircuit (c : OpCircuit R) : Check := do
  c.moments.forM d.checkMoment
  if endsWithMeasurement c.moments then .ok () else .error (.value "Non-empty moment after measurement")
def canAdd (m : OpMoment R) : Bool :=
  !m.actsOnAny op.qubits && (match (do d.checkMoment (← m.withOp op) : Check) with
    | .ok _ => true
    | .error _ => false)
def rules : DeviceRules (Operation R) where
  decompose op := do .ok (.node ((← (Conversion.neutralAtomExpander false).expand [op]).map .leaf))
  checkOp := d.checkOp
  checkMoment := d.checkMoment
  checkCircuit := d.checkCircuit
  canAdd op m := .ok (d.canAdd op m)
def duration : Outcome (Duration R) := do
  d.checkOp op
  .ok (match gateOf? op with
    | some (.measurement ..) => d.measurement
    | _ => d.gate)
def structural [NumberText R] (d : NeutralAtomDevice R) : String :=
  s!"cirq.NeutralAtomDevice(measurement_duration={d.measurement.structural}, gate_duration={d.gate.structural}, "
    ++ s!"max_parallel_z={d.maxZ}, max_parallel_xy={d.maxXY}, max_parallel_c={d.maxControlled}, "
    ++ s!"control_radius={NumberText.text d.radius}, qubits={Qubit.sortedText d.qubits})"
end NeutralAtomDevice
end

/-! ## Devices

A device says which operations it can carry out, which of them at the same time, and how long they take. -/
inductive Device (R : Type) where
  | unconstrained
  | xmon (d : XmonDevice R)
  | ion (d : IonDevice R)
  | neutralAtom (d : NeutralAtomDevice R)
  | acquaintance
namespace Device
def beq : Device R → Device R → Bool
  | unconstrained, unconstrained | acquaintance, acquaintance => true
  | xmon a, xmon b => a.beq b
  | ion a, ion b => a.beq b
  | neutralAtom a, neutralAtom b => a.beq b
  | _, _ => false
instance : BEq (Device R) := ⟨beq⟩
def isUnconstrained : Device R → Bool
  | unconstrained => true
  | _ => false
def qubits? : Device R → Option Qubits
  | xmon d => some d.qubits
  | ion d => some d.qubits
  | neutralAtom d => some d.qubits
  | unconstrained | acquaintance => none
def neighborsOf (d : Device R) (q : Qubit) : Outcome Qubits :=
  let present (qs : Qubits) : Outcome Qubits := .ok (qs.filter (d.qubits?.getD []).contains)
  match d, q with
  | xmon _, .grid r c | neutralAtom _, .grid r c =>
    present [.grid (r+1) c,.grid (r-1) c,.grid r (c+1),.grid r (c-1)]
  | ion _, .line x => present [.line (x+1),.line (x-1)]
  | _, _ => fails .attribute
def spot : Qubit → Int × Int
  | .grid r c => (c,r)
  | .line x => (x,0)
  | .named _ => (0,0)
def drawing (d : Device R) (qs : Qubits) : Outcome String := do
  let picture ← (Qubit.distinct qs).foldlM (fun (t : TextDiagram) q => do
    let (x,y) := spot q
    (← d.neighborsOf q).foldlM (fun (t : TextDiagram) p =>
      t.gridLine (2*x) (2*y) (2*(spot p).1) (2*(spot p).2) false) (t.write x y q.text)) TextDiagram.empty
  picture.render { columnSpace := 3, rowSpace := 2 }
section
variable [OperationText R]
def isAcquaintanceGate : Gate R → Bool
  | .opportunity _ | .permutation .. => true
  | _ => false
def checkAcquaintance (op : Operation R) : Check :=
  if (op.gate?.map isAcquaintanceGate).getD false then .ok ()
  else
    let shown := OperationText.structural op
    .error (.value (s!"not (isinstance({shown}, " ++ classText "cirq.ops.raw_types.Operation"
      ++ ") and ininstance(" ++ shown ++ ".gate, ("
      ++ classText "cirq.contrib.acquaintance.gates.AcquaintanceOpportunityGate" ++ ", "
      ++ classText "cirq.contrib.acquaintance.permutation.PermutationGate" ++ "))"))
def checkOp : Device R → Operation R → Check
  | unconstrained, _ => .ok ()
  | xmon d, op => d.checkOp op
  | ion d, op => d.checkOp op
  | neutralAtom d, op => d.checkOp op
  | acquaintance, op => checkAcquaintance op
def checkGate : Device R → Gate R → Check
  | xmon _, g => XmonDevice.checkGate g
  | ion _, g => IonDevice.checkGate g
  | neutralAtom _, g => NeutralAtomDevice.checkGate g
  | unconstrained, _ | acquaintance, _ => fails .attribute
def rules : Device R → DeviceRules (Operation R)
  | unconstrained => .none
  | xmon d => d.rules
  | ion d => d.rules
  | neutralAtom d => d.rules
  | acquaintance =>
    { DeviceRules.none with
      checkOp := checkAcquaintance
      checkMoment := fun m => m.ops.forM checkAcquaintance
      checkCircuit := fun c => c.moments.forM fun m => m.ops.forM checkAcquaintance }
def duration : Device R → Operation R → Outcome (Duration R)
  | unconstrained, _ => .ok (.ofPicos 0)
  | xmon d, op => d.duration op
  | ion d, op => d.duration op
  | neutralAtom d, op => d.duration op
  | acquaintance, _ => .error ⟨.unimplemented,some ""⟩
def structural [NumberText R] : Device R → String
  | unconstrained => "cirq.UnconstrainedDevice"
  | xmon d => d.structural
  | ion d => d.structural
  | neutralAtom d => d.structural
  | acquaintance => "UnconstrainedAcquaintanceDevice"
def text [NumberText R] (d : Device R) : Outcome String := match d.qubits? with
  | some qs => d.drawing qs
  | none => .ok d.structural
end
end Device
structure BoundCircuit (R : Type) where
  circuit : OpCircuit R
  device : Device R
namespace BoundCircuit
def beq (a b : BoundCircuit R) : Bool := a.circuit == b.circuit && a.device == b.device
variable [OperationText R]
def bind (c : OpCircuit R) (d : Device R) : Outcome (BoundCircuit R) := do
  d.rules.checkCircuit c
  .ok ⟨c,d⟩
def structural [NumberText R] (b : BoundCircuit R) : String :=
  let moments := if b.circuit.moments.isEmpty then [] else ["moments=" ++ b.circuit.structural]
  let device := if b.device.isUnconstrained then [] else ["device=" ++ b.device.structural]
  "cirq.Circuit(" ++ Text.join ", " (moments ++ device) ++ ")"

/-- One circuit after the other; of the devices one must be unconstrained or both the same. -/
def add (a b : BoundCircuit R) : Outcome (BoundCircuit R) := do
  let d := if b.device.isUnconstrained then a.device else b.device
  let e := if a.device.isUnconstrained then b.device else a.device
  if !(d == e) then .error (.value "Can't add circuits with incompatible devices.")
  (a.circuit.moments ++ b.circuit.moments).forM d.rules.checkMoment
  bind ⟨a.circuit.moments ++ b.circuit.moments⟩ d
def addInPlace (a b : BoundCircuit R) : Outcome (BoundCircuit R) := do
  if !(b.device == a.device) && !b.device.isUnconstrained then
    .error (.value "Other circuit's device is not compatible.")
  b.circuit.moments.forM a.device.rules.checkMoment
  .ok { a with circuit := ⟨a.circuit.moments ++ b.circuit.moments⟩ }
def repeated (n : Int) (b : BoundCircuit R) : Outcome (BoundCircuit R) := bind (b.circuit.times n) b.device
def inverse? (b : BoundCircuit R) : Outcome (Option (BoundCircuit R)) := do
  let mut c : OpCircuit R := .empty
  for m in b.circuit.moments.reverse do
    let mut ops := #[]
    for op in m.ops do
      match ← op.inverse? with
      | none => return none
      | some inv => ops := ops.push inv
    let (d,done) := c.append b.device.rules (.moment ⟨ops.toList⟩) .earliest
    let _ ← done
    c := d
  .ok (some { b with circuit := c })
end BoundCircuit
end QuantumCircuits
