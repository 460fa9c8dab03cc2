import QuantumCircuits.Device
import QuantumCircuits.Tooling.World
import QuantumCircuits.Circuit.Export
import QuantumCircuits.Circuit.Unitary
import QuantumCircuits.Study

/-! # Timing of simulators

Random circuits on a line of a grid, and a table of the time that their simulation takes per gate. -/
namespace QuantumCircuits
namespace Benchmark
structure Draws (R : Type) where
  kinds : List Int
  places : List Int
  angles : List R
abbrev Drawing (R : Type) := StateT (Draws R) (Except Fault)
variable {R : Type}
def nextOf {α : Type} : List α → Outcome (α × List α)
  | [] => fails .stopped
  | x :: xs => .ok (x,xs)
inductive GateKind where
  | phase | rotation | interaction
  deriving DecidableEq
def GateKind.all : List GateKind := [phase,rotation,interaction]
def kind : Drawing R GateKind := do
  let d ← get
  let (k,rest) ← nextOf d.kinds
  set { d with kinds := rest }
  let i := if k < 0 then k+3 else k
  match if i < 0 then none else GateKind.all[i.toNat]? with
  | some g => pure g
  | none => throw (.bare .index)
def below (n : Int) : Drawing R Int := do
  let d ← get
  let (k,rest) ← nextOf d.places
  set { d with places := rest }
  if n = 0 then throw (.bare .zeroDivision) else pure (k.fmod n)
def angle : Drawing R R := do
  let d ← get
  let (x,rest) ← nextOf d.angles
  set { d with angles := rest }
  pure x
variable [RealScalar R] [OperationText R]
def device : XmonDevice R where
  name := none
  measurement := .ofNanos (RealScalar.ofInt 1000)
  rotation := .ofNanos (RealScalar.ofInt 20)
  interaction := .ofNanos (RealScalar.ofInt 50)
  qubits := (List.range 100).map fun (k : Nat) => .grid 0 k
def randomOperation (qubits : Int) : Drawing R (Operation R) := do
  match ← kind with
  | .rotation =>
    let q ← below qubits
    let p ← angle
    let e ← angle
    pure (.gate (.phasedXOf (.num p) (.num e) Gate.nought) [.grid 0 q])
  | .phase =>
    let q ← below qubits
    pure (.gate (.power .z (.num (← angle)) Gate.nought false) [.grid 0 q])
  | .interaction =>
    let q ← below (qubits-1)
    pure (.gate (.power .cz (.num (← angle)) Gate.nought false) [.grid 0 q,.grid 0 (q+1)])
def randomCircuit (qubits : Int) : Nat → OpCircuit R → Drawing R (OpCircuit R)
  | 0, c => pure c
  | n+1, c => do
    let op ← randomOperation qubits
    let (c,done) := c.append device.rules (.leaf op) .earliest
    match done with
    | .ok _ => randomCircuit qubits n c
    | .error f => throw f
inductive Method where
  | sharded | unitary | mixed
  deriving DecidableEq
def Method.name : Method → String
  | sharded => "xmon"
  | unitary => "unitary"
  | mixed => "density_matrix"
def Method.all : List Method := [sharded,unitary,mixed]
def Method.ofName? (s : String) : Option Method := all.find? (·.name == s)
def options : Tooling.OptionParser where
  program := "Benchmark a simulator."
  options :=
    [⟨"sim_type",.choice (Method.all.map Method.name),.str "xmon"⟩,⟨"min_num_qubits",.number,.int 4⟩,
     ⟨"max_num_qubits",.number,.int 26⟩,⟨"num_gates",.number,.int 100⟩,⟨"num_repetitions",.number,.int 10⟩,
     ⟨"num_prefix_qubits",.number,.int 2⟩,⟨"use_processes",.flag,.bool false⟩]
structure Timed where
  command : String
  setup : String
  repetitions : Json
structure Plan where
  method : Json
  least : Int
  most : Int
  gates : Json
  shardQubits : Json
  processes : Json
  repetitions : Json
  setup : String
def Plan.timed (p : Plan) (qubits : Int) : Timed where
  command := s!"simulate('{p.method.display}', {qubits}, {p.gates.display}, {p.shardQubits.display}, {p.processes.display})"
  setup := p.setup
  repetitions := p.repetitions
structure Timings where
  calls : List Timed := []
  lines : List String := ["num_qubits,seconds per gate"]
  result : Check := .ok ()
def Plan.run (p : Plan) (acc : Timings) : List Int → List Number → Timings
  | [], _ => acc
  | q :: qs, times =>
    let acc := { acc with calls := acc.calls ++ [p.timed q] }
    match times with
    | [] => { acc with result := fails .stopped }
    | t :: times =>
      let n := p.repetitions.toInt*p.gates.toInt
      if n = 0 then { acc with result := fails .zeroDivision }
      else
        let each := Number.float (t.toFloat/(Number.int n).toFloat)
        p.run { acc with lines := acc.lines ++ [s!"{q},{each.text}"] } qs times
def Plan.timings (p : Plan) (times : List Number) : Timings :=
  p.run {} ((List.range (p.most+1-p.least).toNat).map fun (k : Nat) => p.least+k) times
end Benchmark

/-! ## Random circuits on a grid

Layers of controlled phases on neighbours, in a pattern of eight that offers every pair one. -/
namespace Supremacy
variable [RealScalar R] [OperationText R] (sites : List Site)
def patternOrder : List Nat := [0,3,2,1,4,7,6,5]
def pattern (layer : Int) : Nat := patternOrder.getD (layer % 8).toNat 0
def pairOf (k : Nat) (s : Site) : Site := if k % 2 = 1 then ⟨s.row+1,s.col⟩ else ⟨s.row,s.col+1⟩
def startsPair (k : Nat) (s : Site) : Bool :=
  let (r,c) : Int × Int := if k % 2 = 1 then (1,2) else (2,1)
  (s.row*r+s.col*c) % 4 == ((k/2 % 4 : Nat) : Int)
def layerPairs (layer : Int) : List (Site × Site) :=
  let k := pattern layer
  sites.filterMap fun s =>
    if sites.contains (pairOf k s) && startsPair k s then some (s,pairOf k s) else none
def phase (p : Site × Site) : Operation R := .gate .CZ [p.1.toQubit,p.2.toQubit]
def layerOps (layer : Int) : Ops R := (layerPairs sites layer).map phase
def nextLayer (sites : List Site) : Nat → Nat → Option (Nat × List (Site × Site))
  | 0, _ => none
  | n+1, layer => match layerPairs sites layer with
    | [] => nextLayer sites n (layer+1)
    | ps => some (layer+1,ps)
def squareRoot (isY : Bool) : Gate R := .axisPower (if isY then .y else .x) (.num RealScalar.half)
def append (c : OpCircuit R) (ops : Ops R) (s : Strategy) : Outcome (OpCircuit R) := do
  let (c,done) := c.append .none (.node (ops.map .leaf)) s
  let _ ← done
  .ok c
structure Progress (R : Type) where
  circuit : OpCircuit R
  layer : Nat
  choices : Nat

/-- Adds the next layer that is not empty; there is one among eight unless no sites are neighbours. -/
def addLayer (p : Progress R) : Outcome (Progress R) := match nextLayer sites 8 p.layer with
  | none => fails .recursion
  | some (layer,ps) => do
    .ok { p with circuit := ← append p.circuit (ps.map phase) .newThenInline, layer := layer }
def filler (isY : Bool) : Option (Gate R) → Option (Gate R × Bool)
  | none => none
  | some g => if g == .CZ then some (squareRoot isY,true) else if g == .T then none else some (.T,false)
def fill (choose : Nat → Bool) (i : Nat) (p : Progress R) (s : Site) : Outcome (Progress R) :=
  let q := s.toQubit
  if (p.circuit.opAt? q i).isSome then .ok p
  else match filler (choose p.choices) ((p.circuit.opAt? q (i-1 : Int)).bind Operation.gate?) with
    | none => .ok p
    | some (g,isChoice) => do
      .ok { p with circuit := ← append p.circuit [.gate g [q]] .earliest, choices := p.choices+isChoice.toNat }
def addMoment (choose : Nat → Bool) (p : Progress R) (i : Nat) : Outcome (Progress R) := do
  sites.foldlM (fill choose i) (← addLayer sites p)
def addFirst (p : Progress R) : Outcome (Progress R) := do
  let p ← addLayer sites p
  let c ← sites.foldlM (fun (c : OpCircuit R) s =>
    if (c.opAt? s.toQubit 1).isSome then .ok c else append c [.gate .T [s.toQubit]] .earliest) p.circuit
  .ok { p with circuit := c }
def hadamards : Ops R := sites.map fun s => .gate .H [s.toQubit]
def generate (depth : Int) (choose : Nat → Bool) : Outcome (OpCircuit R) := do
  let start : Progress R := ⟨← append .empty (hadamards sites) .earliest,0,0⟩
  let first ← if depth = 0 then .ok start else addFirst sites start
  let p ← ((List.range (depth+1).toNat).drop 2).foldlM (addMoment sites choose) first
  append p.circuit (hadamards sites) .newThenInline
def gridSites (rows cols : Nat) : List Site :=
  (List.range rows).flatMap fun (r : Nat) => (List.range cols).map fun (c : Nat) => ⟨r,c⟩
def diamondSites (rows : Nat) : Outcome (List Site) :=
  if rows < 1 || 11 < rows then fails .assertion
  else
    let all := Site.sort ((XmonDevice.bristlecone (R := R)).qubits.filterMap fun q => (Site.ofQubit q).toOption)
    let n : Int := rows
    let part := all.filter fun s => s.row ≤ n-1 && s.row+s.col < n+6 && s.row-s.col < n-5
    .ok (part.filter fun s => 1 < (part.filter s.isAdjacent).length)
end Supremacy

/-! ## Workloads

Standard circuits, and what is collected from them. -/
namespace Workload
open Operation Gate Circuit Text
abbrev Op := Operation Number
variable (g : Gate Number)
def layer (qs : Qubits) : List Op := qs.map fun q => .gate g [q]
def ladder (qs : Qubits) : List Op := (qs.zip (qs.drop 1)).map fun (a,b) => .gate g [a,b]
def measureAll (key : String) (qs : Qubits) : Op := .gate (.measurement qs.length key []) qs
def onFirst (qs : Qubits) : Outcome Op :=
  if qs.length < g.numQubits then fails .index else .ok (.gate g (qs.take g.numQubits))
variable (n : Nat) (qs : Qubits)
def lineQubits : Qubits := (List.range n).map fun (k : Nat) => .line k
def pairedRows : Qubits :=
  [0,1].flatMap fun (r : Int) => (List.range (n/2)).map fun (c : Nat) => .grid r c
namespace Writing
def turns : List (Gate Number) :=
  let angle : Param Number := .num (.float 0.3)
  [.phasedXOf (.num (.float 0.25)) (.num (.float 0.5)) nought,.T,.S,.rotation .x angle,.rotation .y angle,.rotation .z angle]
def joint : List (Gate Number) :=
  [.CCZ,.CCX,.cswap,.SWAP,.ISWAP,pow' .xx one,pow' .yy one,pow' .zz one]
def circuit : Outcome (Circuit Op) := do
  let joined ← joint.mapM fun g => onFirst g qs
  ofOps (layer .H qs ++ ladder .CNOT qs ++ qs.flatMap (fun q => turns.map fun g => .gate g [q]) ++ joined ++ [measureAll "all" qs])
def sketch : TextDiagram :=
  (((TextDiagram.empty.write 0 0 "a").write 2 1 "bb").horizontalLine 0 0 4).verticalLine 2 0 2
def findings : Outcome (List String) := do
  let qs := pairedRows n
  let c ← circuit qs
  let named := qs.zipIdx.map fun (_,k) => Qubit.named s!"n{k}"
  let d ← ofOps (layer .X named ++ [measureAll "n" named])
  let drawn ← c.diagramText {} depict .sorted
  let program ← c.qasm {} .sorted
  let long := [drawn,← c.diagramText { unicode := false, transposed := true } depict .sorted,drawn,
    (BoundCircuit.mk c .unconstrained).structural,program,program,← d.qasm {} .sorted]
  .ok (long.map (takeStart 200) ++ [← sketch.render {},← sketch.render { unicode := false, columnSpace := 2 },
    (Qubit.named "foo").text,(Qubit.named "foo").structural,
    bracketed ((List.range 3).map fun k => (Qubit.named s!"p{k}").structural)])
end Writing
namespace Exporting
def circuit : Outcome (Circuit Op) := do
  ofOps (layer .H qs ++ layer (pow' .x (.float 0.5)) qs ++ layer .T qs
    ++ (qs.zip (qs.drop 1)).flatMap (fun (a,b) => [.gate .CNOT [a,b],.gate .CZ [a,b]])
    ++ [← onFirst .SWAP qs,measureAll "m" qs])
def findings : Outcome (List (Option String)) := do
  let c ← circuit (lineQubits n)
  .ok [some (← c.latex .sorted),some (← c.columnsUrl false true),none]
end Exporting
namespace Building
def operations : List Op :=
  layer .H qs ++ ladder .CNOT qs ++ qs.flatMap (fun q => [.gate .T [q],.gate .S [q],.gate .X [q]])
    ++ [measureAll "m" qs]
def build (s : Strategy) (qs : Qubits) : Outcome (Circuit Op) :=
  ofTree .none (.node ((operations qs).map .leaf)) s
def truth (b : Bool) : String := if b then "True" else "False"
def place (i : Option Int) : String := match i with
  | some i => toString i
  | none => "None"
def shape (q : Qubit) (c : Circuit Op) : List String :=
  [toString c.size,truth (c.allTerminal isMeasurement),toString (c.operations.filter (·.hasGateKind "CNotPowGate")).length,
    toString c.sortedQubits.length,place (c.next? [q] 0 none),place (c.prev? [q] none none),
    (match c.opAt? q 0 with
      | some op => OperationText.structural op
      | none => "None"),
    quoted (match c.moments.head? with
      | some m => m.structural
      | none => "")]
def findings : Outcome (List String) := do
  let qs := lineQubits n
  let q ← orFail .index qs.head?
  let built ← [Strategy.earliest,.new,.inline,.newThenInline].mapM fun s => build s qs
  let c ← build .earliest qs
  let start : Frontier := .ofPairs (qs.map fun q => (q,0))
  let alone := c.reach (.ofPairs [(q,0)]) fun _ => false
  let twice := c.times 2
  .ok ((built.flatMap (shape q) ++ [toString c.size,truth (c == c.times 1),truth (c.allTerminal isMeasurement),
    place (c.next? [q] 0 none),toString (c.between start (c.reach start isMeasurement) false).length,
    bracketed (alone.map fun (q,i) => s!"({q.structural}, {i})"),
    toString (twice.moments.drop 1).length,toString (twice.moments.drop 2).length]).map (takeStart 40))
end Building
end Workload

/-! ## Least squares

From the normal equations, by elimination. -/
namespace LeastSquares
variable [RealScalar R] (a : List (List R))
def dot (u v : List R) : R := RealScalar.sum (u.zipWith (· * ·) v)
def column (j : Nat) : List R := a.map fun r => r.getD j 0
def normalRows (b : List R) (n : Nat) : List (List R) :=
  (List.range n).map fun i => ((List.range n).map fun j => dot (column a i) (column a j)) ++ [dot (column a i) b]
def takePivot (j : Nat) : List (List R) → Option (List R × List (List R))
  | [] => none
  | r :: rs => match takePivot j rs with
    | none => some (r,[])
    | some (p,others) =>
      if RealScalar.abs (r.getD j 0) < RealScalar.abs (p.getD j 0) then some (p,r :: others) else some (r,rs)
def clearBy (j : Nat) (pivot r : List R) : List R :=
  let factor := r.getD j 0
  r.zipWith (fun x y => x-factor*y) pivot

/-- One column after the other gets a pivot, which is taken away from all other rows. -/
def eliminate : List Nat → List (List R) → List (List R) → List (List R)
  | [], done, _ => done
  | j :: js, done, rest => match takePivot j rest with
    | none => done
    | some (p,others) =>
      let pivot := p.map fun x => x / p.getD j 0
      eliminate js (done.map (clearBy j pivot) ++ [pivot]) (others.map (clearBy j pivot))
def solve (b : List R) (n : Nat) : List R :=
  (eliminate (List.range n) [] (normalRows a b n)).map fun r => r.getD n 0
end LeastSquares

/-! ## Characterization of qubits

The response to rotations, the survival of the ground state under random Clifford gates that cancel, and the density
matrix of a state from measurements in several bases. -/
namespace Characterization
open RealScalar Circuit
structure Sampler (R : Type) (M : Type → Type) where
  sweep : OpCircuit R → Sweep R → Int → M (List (List (List Bool)))
section
variable [RealScalar R]
def halves (n : Int) : Param R := .num (ratio n 2)
def xs (n : Int) : Gate R := Gate.X.withExponent (halves n)
def ys (n : Int) : Gate R := Gate.Y.withExponent (halves n)
def zs (n : Int) : Gate R := Gate.Z.withExponent (halves n)
def twoStep (a b : Int → Gate R) : List (List (Gate R)) :=
  [2,1,-1].flatMap fun i => [0,1,-1].flatMap fun j => [[a i,b j],[b i,a j]]
def cliffordsXY : List (List (Gate R)) :=
  twoStep xs ys ++ [[xs 0],[Gate.Y,Gate.X],[xs (-1),ys 1,xs 1],[xs (-1),ys (-1),xs 1],[xs 1,ys 1,xs 1],[xs (-1),ys 1,xs (-1)]]
def cliffordsXZ : List (List (Gate R)) :=
  twoStep xs zs ++ [[xs 1,zs 1,xs (-1)],[xs 1,zs (-1),xs (-1)],[xs (-1),zs (-1),xs (-1)],[xs (-1),zs 1,xs (-1)]]
def cosets : List (List (Gate R)) := [[xs 0],[ys 1,xs 1],[xs (-1),ys (-1)]]
def cosetsX : List (List (Gate R)) := [[xs 1],[xs 1,ys 1,xs 1],[ys (-1)]]
def cosetsY : List (List (Gate R)) := [[ys 1],[xs (-1),ys (-1),xs 1],[Gate.Y,xs 1]]
def sequenceMatrix : List (Gate R) → Outcome (Mat R)
  | [] => fails .index
  | g :: gs => do
    gs.foldlM (fun m h => do
      let n ← h.orRefuse .unitary h.matrix?
      if n.cols ≠ m.rows then fails .value else .ok (n.mul m)) (← g.orRefuse .unitary g.matrix?)
def onQubit (q : Qubit) (gs : List (Gate R)) : Ops R := gs.map fun g => .gate g [q]
def twoQubitClifford (p q : Qubit) (k : Nat) : Outcome (Ops R) := do
  let get (i : Nat) (gs : List (List (Gate R))) : Outcome (List (Gate R)) := orFail .index gs[i]?
  let kind := k % 20
  let first ← get (k/480) cliffordsXY
  let second ← get (k % 480/20) cliffordsXY
  let phase : Operation R := .gate .CZ [p,q]
  let rest ←
    if kind = 0 then Except.ok []
    else if kind = 1 then
      .ok ([phase] ++ onQubit p [ys (-1)] ++ onQubit q [ys 1] ++ [phase] ++ onQubit p [ys 1] ++ onQubit q [ys (-1)]
        ++ [phase] ++ onQubit q [ys 1])
    else if kind ≤ 10 then do
      .ok ([phase] ++ onQubit p (← get ((kind-2)/3) cosets) ++ onQubit q (← get ((kind-2) % 3) cosetsY))
    else do
      .ok ([phase] ++ onQubit p [ys 1] ++ onQubit q [xs (-1)] ++ [phase] ++ onQubit p (← get ((kind-11)/3) cosetsY)
        ++ onQubit q (← get ((kind-11) % 3) cosetsX))
  .ok (onQubit p first ++ onQubit q second ++ rest)
def inverseAt (m : Mat R) (ms : List (Mat R)) : Outcome Nat :=
  let step (best : Nat × R) (x : R × Nat) : Nat × R := if best.2 < x.1 then (x.2,x.1) else best
  match (ms.map fun c => (m.mul c).trace.norm).zipIdx with
  | [] => fails .value
  | (x,i) :: rest => .ok (rest.foldl step (i,x)).1
end
section
variable [RealScalar R] [OperationText R] {M : Type → Type} [Monad M] [MonadExceptOf Fault M] (s : Sampler R M) (c : OpCircuit R)
def ensure {α : Type} : Outcome α → M α
  | .ok a => pure a
  | .error f => throw f
def measured (qs : Qubits) : Outcome (OpCircuit R) := do
  let (c,done) := c.append .none (.leaf (.gate (.measurement qs.length "z" []) qs)) .earliest
  let _ ← done
  .ok c
def continued (ops : Ops R) (qs : Qubits) : Outcome (OpCircuit R) := do
  let (c,done) := c.append .none (.node (ops.map .leaf)) .earliest
  let _ ← done
  measured c qs
def Sampler.rows (reps : Int) : M (List (List Bool)) := do
  return (← s.sweep c .unit reps).headD []
def share (p : List Bool → Bool) (rows : List (List Bool)) : R :=
  inexact (ofNat (rows.filter p).length) / inexact (ofNat rows.length)
def excited : List (List Bool) → R := share (·.any id)
def ground : List (List Bool) → R := share fun r => !r.any id
def mean (ps : List R) : R := sum ps / ofNat ps.length
def rabi (q : Qubit) (maxAngle : R) (points : Nat) (reps : Int) : M (List (R × R)) := do
  let rotation : Operation R := .gate (Gate.X.withExponent (.expr (.symbol "theta"))) [q]
  let c ← ensure (do measured (← ofOps [rotation]) [q])
  let zero : R := inexact 0
  let results ← s.sweep c (.linspace "theta" zero (maxAngle/pi) points) reps
  return results.zipIdx.map fun (rows,i) => (Sweep.spaced zero maxAngle points i,excited rows)
def randomSingle (q : Qubit) (group : List (List (Gate R))) (ids : List Nat) : Outcome (OpCircuit R) := do
  let gates ← ids.mapM fun i => orFail .index group[i]?
  let all := gates.flatten
  let back ← inverseAt (← sequenceMatrix all) (← group.mapM sequenceMatrix)
  measured (← ofOps (onQubit q (all ++ group.getD back []))) [q]
def benchmarkSingle (choose : Nat → Nat → M (List Nat)) (q : Qubit)
    (group : List (List (Gate R))) (counts : List Nat) (circuits : Nat) (reps : Int) : M (List (Nat × R)) :=
  counts.mapM fun n => do
    let ps ← (List.range circuits).mapM fun _ => do
      let ids ← choose 24 n
      return excited (← s.rows (← ensure (randomSingle q group ids)) reps)
    return (n,inexact 1 - mean ps)
def randomPair (p q : Qubit) (clifford : Nat → Outcome (Ops R)) (ms : List (Mat R)) (ids : List Nat) : Outcome (OpCircuit R) := do
  let append (c : OpCircuit R) (i : Nat) : Outcome (OpCircuit R) := do
    let (c,done) := c.append .none (.node ((← clifford i).map .leaf)) .earliest
    let _ ← done
    .ok c
  let c ← ids.foldlM append .empty
  let back ← inverseAt (← c.unitary .sorted [] true) ms
  measured (← append c back) [p,q]
def benchmarkPair (choose : Nat → Nat → M (List Nat)) (p q : Qubit)
    (clifford : Nat → Outcome (Ops R)) (size : Nat) (counts : List Nat) (circuits : Nat) (reps : Int) :
    M (List (Nat × R)) := do
  let ms ← ensure ((List.range size).mapM fun i => do (← ofOps (← clifford i)).unitary .sorted [] true)
  counts.mapM fun n => do
    let ps ← (List.range circuits).mapM fun _ => do
      let ids ← choose size n
      return ground (← s.rows (← ensure (randomPair p q clifford ms ids)) reps)
    return (n,mean ps)
def tomographySingle (q : Qubit) (c : OpCircuit R) (reps : Int) : M (Mat R) := do
  let half : R := half
  let along (ops : Ops R) : M R := do return excited (← s.rows (← ensure (continued c ops [q])) reps)
  let z ← along []
  let im := (← along (onQubit q [xs 1]))-half
  let re := half-(← along (onQubit q [ys (-1)]))
  return .ofRows [[.ofReal (inexact 1 - z),⟨re,im⟩],[⟨re,-im⟩,.ofReal z]]

/-- Which coefficients a pair of bases measures: the first row of their equations, their places, and their signs. -/
def basisIndices (i j : Int) : Int × List Int × List Int :=
  let a := 3-i
  let b := 3-j
  let sign (negative : Bool) : Int := if negative then -1 else 1
  (3*(3*i+j),[b-1,4*a-1,4*a+b-1],[sign (j == 2),sign (i == 2),sign (i == 2 && j == 0)])
def basisEquations (i j : Int) : List (List R) :=
  let (_,places,signs) := basisIndices i j
  [[1,1,1],[-1,1,-1],[1,-1,-1]].map fun (row : List Int) =>
    (List.range 15).map fun (k : Nat) => ofInt ((places.zip (row.zipWith (· * ·) signs)).lookup (k : Int) |>.getD 0)
def basisRotation (i : Nat) : Gate R :=
  if i = 0 then Gate.X.withExponent (.num 0) else if i = 1 then xs 1 else ys 1
def halfPaulis : List (Mat R) :=
  let h : Cpx R := .ofReal half
  let k : Cpx R := ⟨0,half⟩
  [.ofRows [[h,0],[0,h]],.ofRows [[0,h],[h,0]],.ofRows [[0,-k],[k,0]],.ofRows [[h,0],[0,-h]]]

/-- The density matrix of two qubits: the coefficients that fit measurements in nine pairs of bases best. -/
def tomographyPair (p q : Qubit) (c : OpCircuit R) (reps : Int) : M (Mat R) := do
  let bases := (List.range 3).flatMap fun i => (List.range 3).map fun j => (i,j)
  let shares ← bases.mapM fun (i,j) => do
    let ops := onQubit q [basisRotation i] ++ onQubit p [basisRotation j]
    let rows ← s.rows (← ensure (continued c ops [p,q])) reps
    return [[false,false],[false,true],[true,false]].map fun outcome =>
      inexact (ofNat (rows.filter (· == outcome)).length) / inexact (ofInt reps)
  let equations : List (List R) := bases.flatMap fun (i,j) => basisEquations i j
  let values := shares.flatten.map fun x => ofInt 4 * x - 1
  let coefficients := 1 :: LeastSquares.solve equations values 15
  let terms := coefficients.zipIdx.map fun (x,k) =>
    ((halfPaulis.getD (k/4) (.identity 2)).kron (halfPaulis.getD (k % 4) (.identity 2))).scale (.ofReal x)
  return terms.foldl Mat.add (.zero 4 4)
end
end Characterization

/-! ## Plots of results

A plot is a list of calls to a plotting program. -/
namespace Plot
open PlainPow
inductive Value where
  | text (s : String)
  | number (x : Number)
  | numbers (xs : List Number)
  | texts (xs : List String)
  | figure
  | flag (b : Bool)
structure Call where
  name : String
  arguments : List Value := []
  named : List (String × Value) := []
def curve (xLabel yLabel : String) (xs ys : List Number) (style : List (String × Value)) : List Call :=
  [⟨"plt.figure",[],[]⟩,⟨"plt.plot",[.numbers xs,.numbers ys,.text "ro-"],("figure",.figure) :: style⟩,
   ⟨"plt.xlabel",[.text xLabel],[("figure",.figure)]⟩,
   ⟨"plt.ylabel",[.text yLabel],[("figure",.figure)]⟩,
   ⟨"fig.show",[],[]⟩]
def oscillation : List Number → List Number → List (String × Value) → List Call :=
  curve "Rabi Angle (Radian)" "Excited State Probability"
def decay : List Number → List Number → List (String × Value) → List Call :=
  curve "Number of Cliffords" "Ground State Probability"
def bars (rows cols : Nat) (entries : List Number) (zLabel : String) (position : Nat) (kets : Option (List String))
    (title : Option String) : Outcome (List Call) :=
  match entries with
  | [] => fails .value
  | _ =>
    let places (f : Nat → Nat → Nat) : List Number :=
      (List.range rows).flatMap fun i => (List.range cols).map fun j => .int (f i j)
    let all (x : Number) : Value := .numbers (entries.map fun _ => x)
    let least := entries.foldl (fun a b => if b < a then b else a) (Number.int 0)
    let most := entries.foldl (fun a b => if a < b then b else a) (Number.int 0)
    let ticks (n : Nat) : Value := .numbers ((List.range n).map fun (i : Nat) => Number.int i + .float 0.15)
    .ok ([⟨"fig.add_subplot",[.number (.int position)],[("projection",.text "3d")]⟩,
      ⟨"ax.bar3d",[.numbers (places fun i _ => i),.numbers (places fun _ j => j),all (.int 0),all (.float 0.3),all (.float 0.3),
        .numbers entries],[("color",.text "#ff0080"),("alpha",.number (.int 1))]⟩,
      ⟨"ax.set_zlabel",[.text zLabel],[]⟩,
      ⟨"ax.set_zlim3d",[.number least,.number most],[]⟩]
      ++ (match kets with
        | some ks => [⟨"plt.xticks",[ticks cols,.texts ks],[]⟩,⟨"plt.yticks",[ticks rows,.texts ks],[]⟩]
        | none => [])
      ++ match title with
        | some t => [⟨"ax.set_title",[.text t],[]⟩]
        | none => [])
def kets (n : Nat) : List String :=
  (List.range (2^n)).map fun k =>
    "|" ++ Text.join ", " ((List.range n).reverse.map fun b => if k.testBit b then "1" else "0") ++ ">"
def wholeRoot (n : Nat) : Nat := (List.range (n+1)).countP (fun k => k*k ≤ n) - 1
def density (m : Mat Number) : Outcome (List Call) := do
  let kets := kets (wholeRoot m.rows)
  let part (f : Cpx Number → Number) : String → Nat → Option (List String) → Option String → Outcome (List Call) :=
    bars m.rows m.cols (m.entries.toList.map f)
  let real ← part Cpx.re "Real($\\rho$)" 121 (some kets) (some "Density Matrix (Real Part)")
  let imaginary ← part Cpx.im "Imaginary($\\rho$)" 122 (some kets) (some "Density Matrix (Imaginary Part)")
  .ok ([⟨"plt.figure",[],[("figsize",.numbers [.int 12,.int 5])]⟩] ++ real ++ imaginary ++ [⟨"fig.show",[],[]⟩])
end Plot
end QuantumCircuits
