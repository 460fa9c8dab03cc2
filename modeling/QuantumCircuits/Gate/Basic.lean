import QuantumCircuits.Linear
import QuantumCircuits.Value
import QuantumCircuits.Acquaintance.Permutation
import QuantumCircuits.Pauli

/-! # Single-qubit noise channels

A channel is a mixture of unitaries or a list of Kraus operators, chosen by one to three probabilities. -/
namespace QuantumCircuits
variable {R : Type} [RealScalar R]
open RealScalar Angle
inductive Channel (R : Type) where
  | asymmetricDepolarize (px py pz : R)
  | depolarize (p : R)
  | generalizedDamp (p gamma : R)
  | amplitudeDamp (gamma : R)
  | phaseDamp (gamma : R)
  | phaseFlip (p : R)
  | bitFlip (p : R)
namespace Channel
def checkAsymmetric (px py pz : R) : Check := do
  let _ ← probability "p_x" px
  let _ ← probability "p_y" py
  let _ ← probability "p_z" pz
  let _ ← probability "p_x + p_y + p_z" (px+py+pz)
  pure ()

def check (c : Channel R) : Outcome (Channel R) := do
  let one : R := ratio 1 1
  let none : R := ratio 0 1
  match c with
  | asymmetricDepolarize px py pz => checkAsymmetric px py pz
  | depolarize p =>
    let t := p / ofInt 3
    checkAsymmetric t t t
  | generalizedDamp p gamma =>
    let _ ← probability "gamma" gamma
    let _ ← probability "p" p
    pure ()
  | amplitudeDamp gamma | phaseDamp gamma =>
    let _ ← probability "gamma" gamma
    pure ()
  | phaseFlip p =>
    let _ ← probability "p" p
    checkAsymmetric none none (one-p)
  | bitFlip p =>
    let _ ← probability "p" p
    checkAsymmetric (one-p) none none
  .ok c

def eye : Mat R := Mat.identity 2
def matX : Mat R := .ofRealRows [[0,1],[1,0]]
def matY : Mat R := .ofRows [[0,-Cpx.I],[Cpx.I,0]]
def matZ : Mat R := .ofRealRows [[1,0],[0,-1]]

def pauliMixture (px py pz : R) : List (R × Mat R) :=
  [(1-(px+py+pz),eye),(px,matX),(py,matY),(pz,matZ)]

def mixture? (c : Channel R) : Option (List (R × Mat R)) :=
  let one : R := ratio 1 1
  match c with
  | asymmetricDepolarize px py pz => some (pauliMixture px py pz)
  | depolarize p => let t := p / ofInt 3; some (pauliMixture t t t)
  | phaseFlip p => some [(1-(one-p),eye),(one-p,matZ)]
  | bitFlip p => some [(1-(one-p),eye),(one-p,matX)]
  | _ => none

def dampKraus (p gamma : R) : List (Mat R) :=
  let one : R := ratio 1 1
  let p0 := sqrt p
  let p1 := sqrt (one-p)
  let g := sqrt gamma
  let h := sqrt (one-gamma)
  [.ofRealRows [[p0,0],[0,p0*h]],.ofRealRows [[0,p0*g],[0,0]],.ofRealRows [[p1*h,0],[0,p1]],.ofRealRows [[0,0],[p1*g,0]]]

def kraus? (c : Channel R) : Option (List (Mat R)) :=
  let one : R := ratio 1 1
  match c with
  | generalizedDamp p gamma => some (dampKraus p gamma)
  | amplitudeDamp gamma => some ((dampKraus one gamma).take 2)
  | phaseDamp gamma =>
    some [.ofRealRows [[1,0],[0,sqrt (one-gamma)]],.ofRealRows [[0,0],[0,sqrt gamma]]]
  | _ => none

def parameters : Channel R → List R
  | asymmetricDepolarize px py pz => [px,py,pz]
  | generalizedDamp p gamma => [p,gamma]
  | depolarize p | phaseFlip p | bitFlip p => [p]
  | amplitudeDamp gamma | phaseDamp gamma => [gamma]

def names : Channel R → String × List String × String
  | asymmetricDepolarize .. => ("asymmetric_depolarize",["p_x","p_y","p_z"],"A")
  | depolarize _ => ("depolarize",["p"],"D")
  | generalizedDamp .. => ("generalized_amplitude_damp",["p","gamma"],"GAD")
  | amplitudeDamp _ => ("amplitude_damp",["gamma"],"AD")
  | phaseDamp _ => ("phase_damp",["gamma"],"PD")
  | phaseFlip _ => ("phase_flip",["p"],"PF")
  | bitFlip _ => ("bit_flip",["p"],"BF")

def kindName : Channel R → String
  | asymmetricDepolarize .. => "AsymmetricDepolarizingChannel"
  | depolarize _ => "DepolarizingChannel"
  | generalizedDamp .. => "GeneralizedAmplitudeDampingChannel"
  | amplitudeDamp _ => "AmplitudeDampingChannel"
  | phaseDamp _ => "PhaseDampingChannel"
  | phaseFlip _ => "PhaseFlipChannel"
  | bitFlip _ => "BitFlipChannel"

def beq (c d : Channel R) : Bool := c.kindName == d.kindName && c.parameters == d.parameters
instance : BEq (Channel R) := ⟨beq⟩
variable [NumberText R]
def text (c : Channel R) : String :=
  let (name,ps,_) := c.names
  name ++ "(" ++ Text.join "," ((ps.zip c.parameters).map fun (n,x) => s!"{n}={NumberText.text x}") ++ ")"

def symbol (c : Channel R) : String :=
  c.names.2.2 ++ "(" ++ Text.join "," (c.parameters.map NumberText.text) ++ ")"
end Channel

/-! ## Gates

Most gates are powers of a fixed gate: an exponent, which may hold symbols, and a shift that adds a global phase in
proportion to the exponent. -/

inductive PowerKind where
  | x | y | z | h | cz | cnot | swap | iswap | xx | yy | zz | ccz | ccx
  deriving DecidableEq

inductive Gate (R : Type) where
  /-- A power of a fixed gate; `axis` marks powers of the three Pauli gates themselves. -/
  | power (kind : PowerKind) (exponent : Param R) (shift : R) (axis : Bool)
  | phasedX (phase exponent : Param R) (shift : R)
  | identity (n : Nat)
  | measurement (n : Nat) (key : String) (invert : List Bool)
  /-- A matrix on one or two qubits; `isComplex` says that its entries are kept as complex numbers. -/
  | matrix (m : Mat R) (isComplex : Bool)
  /-- Controls that may already be chosen, then the qubits of the controlled gate. -/
  | controlled (controls : List (Option Qubit)) (sub : Gate R)
  | clifford (c : Clifford)
  | interaction (p0 : Pauli) (inv0 : Bool) (p1 : Pauli) (inv1 : Bool) (exponent : Param R)
  | cswap
  | channel (c : Channel R)
  | universal (lambda theta phi : R)
  | inverse (g : Gate R)
  | opportunity (n : Nat)
  | permutation (p : Permuter) (swap : Gate R)
namespace PowerKind
def numQubits : PowerKind → Nat
  | x | y | z | h => 1
  | cz | cnot | swap | iswap | xx | yy | zz => 2
  | ccz | ccx => 3

def familyName : PowerKind → String
  | x => "XPowGate"
  | y => "YPowGate"
  | z => "ZPowGate"
  | h => "HPowGate"
  | cz => "CZPowGate"
  | cnot => "CNotPowGate"
  | swap => "SwapPowGate"
  | iswap => "ISwapPowGate"
  | xx => "XXPowGate"
  | yy => "YYPowGate"
  | zz => "ZZPowGate"
  | ccz => "CCZPowGate"
  | ccx => "CCXPowGate"

def baseName : PowerKind → String
  | x => "X"
  | y => "Y"
  | z => "Z"
  | h => "H"
  | cz => "CZ"
  | cnot => "CNOT"
  | swap => "SWAP"
  | iswap => "ISWAP"
  | xx => "XX"
  | yy => "YY"
  | zz => "ZZ"
  | ccz => "CCZ"
  | ccx => "TOFFOLI"

def all : List PowerKind := [x,y,z,h,cz,cnot,swap,iswap,xx,yy,zz,ccz,ccx]
end PowerKind
namespace Gate
def numQubits : Gate R → Nat
  | power k _ _ _ => k.numQubits
  | phasedX .. | clifford _ | channel _ | universal .. => 1
  | identity n | measurement n _ _ | opportunity n => n
  | matrix m _ => if m.rows = 2 then 1 else 2
  | controlled cs sub => sub.numQubits+cs.length
  | interaction .. => 2
  | cswap => 3
  | inverse g => g.numQubits
  | permutation p _ => p.numQubits

def one : R := ratio 1 1
def nought : R := ratio 0 1
def pow' (k : PowerKind) (e : R) : Gate R := power k (.num e) nought false

def X : Gate R := power .x (.num one) nought true
def Y : Gate R := power .y (.num one) nought true
def Z : Gate R := power .z (.num one) nought true
def H : Gate R := pow' .h one
def S : Gate R := pow' .z (ratio 1 2)
def T : Gate R := pow' .z (ratio 1 4)
def CZ : Gate R := pow' .cz one
def CNOT : Gate R := pow' .cnot one
def SWAP : Gate R := pow' .swap one
def ISWAP : Gate R := pow' .iswap one
def CCZ : Gate R := pow' .ccz one
def CCX : Gate R := pow' .ccx one

def axisPower (p : Pauli) (e : Param R) : Gate R :=
  power (match p with
    | .x => .x
    | .y => .y
    | .z => .z) e nought true

def ofAxis (p : Pauli) : Gate R := axisPower p (.num one)

/-- A rotation about an axis in the equator; about the first two axes it is a power of their gates. -/
def phasedXOf (phase exponent : Param R) (shift : R) : Gate R :=
  let p := phase.canonicalHalfTurns
  if p.isInt 0 then power .x exponent shift false
  else if p.isNum (ratio 1 2) then power .y exponent shift false
  else if p.isInt 1 && !exponent.isSymbol then power .x (-exponent) shift false
  else if p.isNum (ratio (-1) 2) && !exponent.isSymbol then power .y (-exponent) shift false
  else phasedX p exponent shift

def controlledBy (controls : List (Option Qubit)) : Gate R → Gate R
  | controlled cs sub => controlled (controls ++ cs) sub
  | g => controlled controls g

def controlledOf (sub : Gate R) (chosen : Option Qubits) (count : Option Nat) : Outcome (Gate R) :=
  let qs := chosen.getD []
  let n := count.getD (match chosen with
    | none => 1
    | some qs => qs.length)
  if n < qs.length then .error (.value "More specified control qubits than num_controls")
  else .ok (controlledBy (List.replicate (n-qs.length) none ++ qs.map some) sub)

/-- A measurement; its list of inverted bits is no longer than the number of qubits. -/
def measurementOf (n : Nat) (key : String) (invert : List Bool) : Outcome (Gate R) :=
  if n < invert.length then .error (.value "len(invert_mask) > num_qubits") else .ok (measurement n key invert)

def flipBits (invert : List Bool) (bits : List Nat) : List Bool :=
  let n := bits.foldl (fun m b => max m (b+1)) invert.length
  let mask := (List.range n).map fun k => invert.getD k false
  bits.foldl (fun m b => m.set b (!(m.getD b false))) mask

def matrixOf (rows : Nat) (m : Mat R) (isComplex : Bool) : Outcome (Gate R) :=
  if m.rows == rows && m.cols == rows && m.isUnitary .usual then .ok (matrix m isComplex) else fails .value

def rotation (k : PowerKind) (rads : Param R) : Gate R :=
  let e : Param R := match rads with
    | .num x => .num (x/pi)
    | .expr e => .expr (e.timesPower .circle (-1))
    | p => p
  power k e (ratio (-1) 2) false

def ofStep (swap : Gate R) : NetworkStep Qubit → Gate R × Qubits
  | .acquaint qs => (opportunity qs.length,qs)
  | .permute p qs => (permutation p swap,qs)

def isParameterized : Gate R → Bool
  | power _ e _ _ | interaction _ _ _ _ e => e.isParameterized
  | phasedX p e _ => p.isSymbol || e.isSymbol
  | controlled _ sub => sub.isParameterized
  | _ => false

def withExponent (e : Param R) : Gate R → Gate R
  | power k _ s a => if s == 0 then power k e nought a else power k e s a
  | phasedX p _ s => phasedXOf p e s
  | interaction p0 i0 p1 i1 _ => interaction p0 i0 p1 i1 e
  | g => g

def resolve (env : String → Option (Param R)) : Gate R → Gate R
  | power k e s a => (power k e s a).withExponent (e.resolve env)
  | phasedX p e s => phasedXOf (p.resolve env) (e.resolve env) s
  | interaction p0 i0 p1 i1 e => interaction p0 i0 p1 i1 (e.resolve env)
  | controlled cs sub => controlledBy cs (sub.resolve env)
  | g => g

/-- Qubits of the gate that may be exchanged have equal keys; `none` when the order of all qubits matters. -/
def exchangeKey? : Gate R → Option (Nat → Nat)
  | power k _ _ _ => match k with
    | .cz | .swap | .iswap | .xx | .yy | .zz | .ccz => some fun _ => 0
    | .ccx => some fun i => if i < 2 then 1 else 0
    | _ => none
  | interaction p0 i0 p1 i1 _ => some fun i => if p0 = p1 ∧ i0 = i1 then 0 else i
  | cswap => some fun i => if i = 0 then 0 else 1
  | opportunity _ => some fun _ => 0
  | _ => none

def kindPath : Gate R → String
  | power k _ _ axis => match k, axis with
    | .x, true => "cirq.ops.pauli_gates._PauliX"
    | .y, true => "cirq.ops.pauli_gates._PauliY"
    | .z, true => "cirq.ops.pauli_gates._PauliZ"
    | .xx, _ | .yy, _ | .zz, _ => "cirq.ops.parity_gates." ++ k.familyName
    | .ccz, _ | .ccx, _ => "cirq.ops.three_qubit_gates." ++ k.familyName
    | _, _ => "cirq.ops.common_gates." ++ k.familyName
  | phasedX .. => "cirq.ops.phased_x_gate.PhasedXPowGate"
  | identity _ => "cirq.ops.common_gates.IdentityGate"
  | measurement .. => "cirq.ops.common_gates.MeasurementGate"
  | matrix m _ => "cirq.ops.matrix_gates." ++ (if m.rows = 2 then "Single" else "Two") ++ "QubitMatrixGate"
  | controlled .. => "cirq.ops.controlled_gate.ControlledGate"
  | clifford _ => "cirq.ops.clifford_gate.SingleQubitCliffordGate"
  | interaction .. => "cirq.ops.pauli_interaction_gate.PauliInteractionGate"
  | cswap => "cirq.ops.three_qubit_gates.CSwapGate"
  | channel c => "cirq.ops.common_channels." ++ c.kindName
  | universal .. => "cirq.circuits.qasm_output.QasmUGate"
  | inverse _ => "cirq.ops.raw_types._InverseCompositeGate"
  | opportunity _ => "cirq.contrib.acquaintance.gates.AcquaintanceOpportunityGate"
  | permutation p _ => "cirq.contrib.acquaintance." ++ (match p with
    | .swap => "permutation.SwapPermutationGate"
    | .linear .. => "permutation.LinearPermutationGate"
    | .shift .. => "shift.CircularShiftGate"
    | .swapNetwork .. => "gates.SwapNetworkGate"
    | .shiftNetwork .. => "shift_swap_network.ShiftSwapNetworkGate"
    | .bipartite .. => "bipartite.BipartiteSwapNetworkGate")

def kindName (g : Gate R) : String := ((Text.splitAt '.' g.kindPath).getLast?).getD ""

def broaderKinds (g : Gate R) : List String :=
  let width : List String := match g with
    | power .. | phasedX .. | matrix .. | clifford _ | interaction .. | channel _ | universal .. | cswap =>
      if g.numQubits = 1 then ["SingleQubitGate"] else if g.numQubits = 2 then ["TwoQubitGate"] else ["ThreeQubitGate"]
    | _ => []
  let special : List String := match g with
    | power k _ _ axis => [k.familyName,"EigenGate"] ++ (if axis then ["Pauli"] else [])
    | interaction .. => ["EigenGate"]
    | permutation .. => ["PermutationGate"]
    | _ => []
  let exchange := if g.exchangeKey?.isSome then ["InterchangeableQubitsGate"] else []
  width ++ special ++ exchange ++ ["Gate"]

def isKind (name : String) (g : Gate R) : Bool := g.kindName == name || g.broaderKinds.contains name

def isMeasurement : Gate R → Bool
  | measurement .. => true
  | _ => false
end Gate

/-! ## Eigenvalues of the power gates

A power gate is a sum of projectors, each with a phase: the exponent times the factor of the projector plus the shift,
in half turns. -/
namespace PowerKind
def h' : R := half
def mat (rs : List (List R)) : Mat R := .ofRealRows rs
def projector (n : Nat) (ones : List Nat) : Mat R := Mat.diagonal ((List.range n).map fun i => if ones.contains i then 1 else 0)

/-- Half the identity plus or minus half the exchange of two basis states, and given diagonal entries. -/
def exchangePart (n a b : Nat) (plus : Bool) (others : List Nat) : Mat R :=
  Mat.ofFn n n fun i j =>
    if (i = a ∧ j = a) ∨ (i = b ∧ j = b) then ⟨h',0⟩
    else if (i = a ∧ j = b) ∨ (i = b ∧ j = a) then ⟨if plus then h' else -h',0⟩
    else if i = j ∧ others.contains i then 1
    else 0

def components : PowerKind → List (R × Mat R)
  | x => [(0,mat [[h',h'],[h',h']]),(1,mat [[h',-h'],[-h',h']])]
  | y =>
    [(0,.ofRows [[⟨h',0⟩,⟨0,-h'⟩],[⟨0,h'⟩,⟨h',0⟩]]),(1,.ofRows [[⟨h',0⟩,⟨0,h'⟩],[⟨0,-h'⟩,⟨h',0⟩]])]
  | z => [(0,projector 2 [0]),(1,projector 2 [1])]
  | h =>
    let s : R := sqrt two
    let n (k : Int) : R := ofInt k
    let d0 := n 4 + n 2 * s
    let d1 := n 4 - n 2 * s
    [(0,mat [[(n 3 + n 2 * s)/d0,(n 1 + s)/d0],[(n 1 + s)/d0,n 1 / d0]]),
     (1,mat [[(n 3 - n 2 * s)/d1,(n 1 - s)/d1],[(n 1 - s)/d1,n 1 / d1]])]
  | cz => [(0,projector 4 [0,1,2]),(1,projector 4 [3])]
  | cnot => [(0,exchangePart 4 2 3 true [0,1]),(1,exchangePart 4 2 3 false [])]
  | swap => [(0,exchangePart 4 1 2 true [0,3]),(1,exchangePart 4 1 2 false [])]
  | iswap =>
    [(0,projector 4 [0,3]),(ratio 1 2,exchangePart 4 1 2 true []),(ratio (-1) 2,exchangePart 4 1 2 false [])]
  | xx =>
    [(0,mat [[h',0,0,h'],[0,h',h',0],[0,h',h',0],[h',0,0,h']]),(1,mat [[h',0,0,-h'],[0,h',-h',0],[0,-h',h',0],[-h',0,0,h']])]
  | yy =>
    [(0,mat [[h',0,0,-h'],[0,h',h',0],[0,h',h',0],[-h',0,0,h']]),(1,mat [[h',0,0,h'],[0,h',-h',0],[0,-h',h',0],[h',0,0,h']])]
  | zz => [(0,projector 4 [0,3]),(1,projector 4 [1,2])]
  | ccz => [(0,projector 8 [0,1,2,3,4,5,6]),(1,projector 8 [7])]
  | ccx => [(0,exchangePart 8 6 7 true [0,1,2,3,4,5]),(1,exchangePart 8 6 7 false [])]

def factors : PowerKind → List R
  | iswap => [0,ratio 1 2,ratio (-1) 2]
  | _ => [0,1]
end PowerKind
namespace Pauli
def projector (p : Pauli) (negated : Bool) : Mat R :=
  let c := match p with
    | .x => PowerKind.x.components
    | .y => PowerKind.y.components
    | .z => PowerKind.z.components
  ((c.getD (if negated then 1 else 0) (0,default)) : R × Mat R).2
end Pauli
namespace Eigen
def matrix (components : List (R × Mat R)) (exponent shift : R) : Mat R :=
  match components.map fun (f,m) => m.scale (Cpx.iPow (two*exponent*(f+shift))) with
  | [] => Mat.zero 0 0
  | m :: ms => ms.foldl Mat.add m

def distinct (xs : List R) : List R := xs.foldl (fun acc x => if acc.any (· == x) then acc else acc ++ [x]) []
variable (factors : List R)
def periods : List R :=
  (factors.filter fun f => !(f == 0)).map fun f => abs (two/f)
def period (shift : R) : Outcome (Option R) :=
  commonPeriod periodTolerance (periods (distinct (factors.map (· + shift))))

def relativePeriod : Outcome (Option R) :=
  match factors with
  | [] => .ok none
  | f :: fs => commonPeriod periodTolerance (periods (distinct (fs.map (· - f))))

def canonicalExponent (exponent : Param R) (shift : R) : Outcome (Param R) := do
  match ← period factors shift with
  | none => .ok exponent
  | some p => .ok (match exponent with
    | .num x => if p == 0 then .num x else .num (mod x p)
    | e => e)
end Eigen
namespace Gate
def eigen? : Gate R → Option (List R × List (R × Mat R) × Param R × R)
  | power k e s _ => some (k.factors,k.components,e,s)
  | interaction p0 i0 p1 i1 e =>
    let one' := (p0.projector (!i0)).kron (p1.projector (!i1))
    some ([ratio 0 1,ratio 1 1],[(0,Mat.identity 4 - one'),(1,one')],e,ratio 0 1)
  | _ => none
end Gate

/-! ## Equality of gates

Powers are equal when their exponents agree modulo the period of the gate. Two opportunities or plain swaps of a network
are different even if they look the same. -/
open Eigen
def Eigen.knownPeriod (factors : List R) (shift : R) : Option R := match period factors shift with
  | .ok p => p
  | .error _ => none
namespace Gate
/-- The greatest common divisor scheme of the phased family: both periods must be whole. -/
def phasedPeriod (shift : R) : Option R :=
  let ps := ([shift,1+shift].filter fun e => !(e == 0)).map fun e => RealScalar.abs (RealScalar.two/e)
  let whole := ps.map RealScalar.round
  if (ps.zip whole).any fun (p,n) => !(p == ofInt n) then none
  else match whole with
    | [n] => some (ofInt n)
    | [m,n] => some (ofInt (m*n) / ofInt (Nat.gcd m.natAbs n.natAbs))
    | _ => none

def canonicalExponent? : Gate R → Option (Outcome (Param R))
  | power k e s _ => some (canonicalExponent k.factors e s)
  | interaction _ _ _ _ e => some (canonicalExponent [ratio 0 1,ratio 1 1] e (ratio 0 1))
  | phasedX _ e s => some (.ok (match phasedPeriod s,e with
    | some p,.num x => .num (mod x p)
    | some p,e => if e.isSymbol then e else e.mod p
    | none,e => e))
  | _ => none

def reducedExponent (g : Gate R) (e : Param R) : Param R := match g.canonicalExponent? with
  | some (.ok p) => p
  | _ => e

def movedImages (images : List (Nat × Nat)) : List (Nat × Nat) :=
  (images.filter fun (i,j) => i ≠ j).mergeSort fun a b => a.1 ≤ b.1

def beqWith (sub : Gate R → Gate R → Bool) : Gate R → Gate R → Bool
  | power k e s a, power k' e' s' a' =>
    k == k' && (power k e s a).reducedExponent e == (power k' e' s' a').reducedExponent e' && s == s'
  | phasedX p e s, phasedX p' e' s' =>
    p == p' && (phasedX p e s).reducedExponent e == (phasedX p' e' s').reducedExponent e' && s == s'
  | identity n, identity n' => n == n'
  | measurement n k i, measurement n' k' i' => n == n' && k == k' && i == i'
  | matrix m _, matrix m' _ => m == m'
  | controlled cs g, controlled cs' g' => cs.length == cs'.length && sub g g'
  | clifford c, clifford c' => c == c'
  | interaction p0 i0 p1 i1 e, interaction p0' i0' p1' i1' e' =>
    p0 == p0' && i0 == i0' && p1 == p1' && i1 == i1' &&
      (interaction p0 i0 p1 i1 e).reducedExponent e == (interaction p0' i0' p1' i1' e').reducedExponent e'
  | cswap, cswap => true
  | channel c, channel c' => c == c'
  | inverse g, inverse g' => sub g g'
  | permutation p g, permutation p' g' => (match p,p' with
    | .swap,_ => false
    | .linear _ im,.linear _ im' => movedImages im == movedImages im'
    | p,p' => p == p') && sub g g'
  | _, _ => false

def beqAt : Nat → Gate R → Gate R → Bool
  | 0 => fun _ _ => false
  | n+1 => beqWith (beqAt n)

def depth : Gate R → Nat
  | controlled _ g | inverse g | permutation _ g => g.depth+1
  | _ => 1

def beq (a b : Gate R) : Bool := beqAt a.depth a b
instance : BEq (Gate R) := ⟨beq⟩

def exponentsClose (atol : R) (factors factors' : List R) (e e' : Param R) (s s' : R) : Bool :=
  match e, e', knownPeriod factors s, knownPeriod factors' s' with
  | .num x, .num y, some p, some q => (PeriodicValue.make (.num x) p).near atol (PeriodicValue.make (.num y) q)
  | .num x, .num y, none, none => near atol x y
  | .num _, .num _, _, _ => false
  | _, _, _, _ => e == e'

/-- Equality up to a tolerance, for gates that have one; the axes of interactions are not compared. -/
def near (atol : R) : Gate R → Gate R → Bool
  | power k e s _, power k' e' s' _ =>
    k == k' && exponentsClose atol k.factors k'.factors e e' s s' && RealScalar.near atol s s'
  | interaction _ _ _ _ e, interaction _ _ _ _ e' =>
    let f : List R := [ratio 0 1,ratio 1 1]
    exponentsClose atol f f e e' (ratio 0 1) (ratio 0 1)
  | matrix m _, matrix m' _ => m.sameShape m' && m.close (.absolute atol) m'
  | a, b => a == b
end Gate
end QuantumCircuits
