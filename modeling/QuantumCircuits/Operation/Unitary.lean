import QuantumCircuits.Operation.Basic
import QuantumCircuits.Gate.Text

/-! # Matrices and state updates

Common gates say directly what they do to a state; the others act through their matrix, and gates without a matrix of
their own through their decomposition. -/
namespace QuantumCircuits
section
open RealScalar Mat Cpx PlainPow
variable [RealScalar R]
def Mat.underIdentity (size : Nat) (m : Mat R) : Mat R := (identity (size-m.rows)).directSum m
namespace Gate
def shiftPhase (e s : R) : Cpx R := iPow (two*e*s)
def powerMatrix (k : PowerKind) (e s : R) : Mat R := Eigen.matrix k.components e s
def needsValue (kind : PowerKind) : Fault := (power kind (.num (0 : R)) 0 true).refusal .unitary

def cliffordMatrix (c : Clifford) : Mat R :=
  if c = Clifford.hadamard then powerMatrix .h one nought
  else c.rotations.foldl (fun m (p,n) =>
    let k := match p with
      | .x => PowerKind.x
      | .y => .y
      | .z => .z
    powerMatrix k (one * ratio n 2) nought * m) (Mat.identity 2)

def phasedXMatrix (p e s : R) : Mat R :=
  let z := powerMatrix .z (one*p) nought
  let x := powerMatrix .x (one*e) nought
  ((z*x)*z.conj).scale (cis (pi*s*e))

def rotationMatrix (k : PowerKind) (halfTurns : R) : Mat R :=
  powerMatrix k (halfTurns*pi/pi) (ratio (-1) 2)

/-- The matrix that a gate states itself; `sub` gives that of a gate within it. -/
def ownMatrix (sub : Gate R → Outcome (Option (Mat R))) (g : Gate R) : Outcome (Option (Mat R)) :=
  match g with
  | power k (.num e) s _ => .ok (some (powerMatrix k e s))
  | phasedX p e s =>
    if p.isSymbol || e.isSymbol then .ok none
    else match p, e with
      | .num p, .num e => .ok (some (phasedXMatrix p e s))
      | .num _, _ => .error (needsValue (R := R) .x)
      | _, _ => .error (needsValue (R := R) .z)
  | interaction .. => match g.eigen? with
    | some (_,components,.num e,s) => .ok (some (Eigen.matrix components e s))
    | _ => .ok none
  | identity n => .ok (some (Mat.identity (2^n)))
  | matrix m _ => .ok (some m)
  | controlled cs h => do .ok ((← sub h).map (underIdentity (2^(h.numQubits+cs.length))))
  | clifford c => .ok (some (cliffordMatrix c))
  | cswap => .ok (some (ofFn 8 8 fun i j => if (i = 5 ∧ j = 6) ∨ (i = 6 ∧ j = 5) then 1
      else if i = j ∧ i ≠ 5 ∧ i ≠ 6 then 1 else 0))
  | universal lambda theta phi =>
    .ok (some ((rotationMatrix .z phi * rotationMatrix .y theta) * rotationMatrix .z lambda))
  | _ => .ok none

def powerUpdate (k : PowerKind) (e s : R) (axes : List Nat) (t : Tensor R) : Option (Tensor R) :=
  let p := shiftPhase e s
  let isOne := e == ofInt 1
  let turn := iPow (two*e)
  match k with
  | .x => if isOne then some ((t.exchange axes [0] [1]).phase p) else none
  | .z => some ((t.phaseWhere axes [1] turn).phase p)
  | .h =>
    if isOne then
      some ((t.halves (axes.headD 0)).map fun x => x * scale (sqrt two) p)
    else none
  | .cz => some ((t.phaseWhere axes [1,1] turn).phase p)
  | .cnot => if isOne then some ((t.exchange axes [1,1] [1,0]).phase p) else none
  | .swap => if isOne then some ((t.exchange axes [1,0] [0,1]).phase p) else none
  | .iswap =>
    if isOne then
      some ((((t.exchange axes [1,0] [0,1]).phaseWhere axes [1,0] Cpx.I).phaseWhere axes [0,1] Cpx.I).phase p)
    else none
  | .zz => some (((t.phase p).phaseWhere axes [0,1] turn).phaseWhere axes [1,0] turn)
  | .ccz => some ((t.phaseWhere axes [1,1,1] (cis (e*pi))).phase p)
  | _ => none
end Gate
def Tensor.underControls {ε : Type} (controls axes : List Nat) (t : Tensor R)
    (act : Tensor R → List Nat → Except ε (Option (Tensor R))) : Except ε (Option (Tensor R)) := do
  .ok ((← act (t.slice controls) (axes.map (Tensor.placeWithout controls))).map fun part => t.setSlice controls part)

/-- What a gate says it does to some axes of a state; `sub` gives what a gate within it does. -/
def Gate.ownAction (sub : Gate R → Tensor R → List Nat → Outcome (Option (Tensor R))) (g : Gate R) (t : Tensor R)
    (axes : List Nat) : Outcome (Option (Tensor R)) :=
  match g with
  | .power .ccx (.num e) s _ =>
    match axes with
    | c :: c' :: rest => (t.phase (shiftPhase e s)).underControls [c,c'] rest (sub (.axisPower .x (.num (one*e))))
    | _ => .ok none
  | .power k (.num e) s _ => .ok (powerUpdate k e s axes t)
  | .identity _ => .ok (some t)
  | .cswap =>
    match axes with
    | c :: rest => t.underControls [c] rest (sub .SWAP)
    | _ => .ok none
  | .controlled cs h => t.underControls (axes.take cs.length) (axes.drop cs.length) (sub h)
  | _ => .ok none
mutual
def Gate.matrixAt : Nat → Gate R → Outcome (Option (Mat R))
  | 0, _ => fails .recursion
  | n+1, g => do
    match ← Gate.ownMatrix (Gate.matrixAt n) g with
    | some m => .ok (some m)
    | none =>
      let qs := Qubit.lineRange g.numQubits
      match ← g.decomposeOnce? qs with
      | none => .ok none
      | some ops => Operation.productAt n qs ops

def Operation.productAt : Nat → Qubits → Ops R → Outcome (Option (Mat R))
  | 0, _, _ => fails .recursion
  | n+1, qs, ops => do
    let k := qs.length
    let start : Tensor R := .ofMat (List.replicate (2*k) 2) (identity (2^k))
    let result ← ops.foldlM (fun acc op => match acc with
      | none => Except.ok none
      | some t => Operation.applyAt n op t (op.qubits.map qs.idxOf)) (some start)
    .ok (result.map fun t => t.toMat (2^k) (2^k))

def Gate.applyAt : Nat → Gate R → Tensor R → List Nat → Outcome (Option (Tensor R))
  | 0, _, _, _ => fails .recursion
  | n+1, g, t, axes => do
    match ← Gate.ownAction (Gate.applyAt n) g t axes with
    | some r => .ok (some r)
    | none =>
      match ← Gate.matrixAt n g with
      | none => .ok none
      | some m => if m.rows = 2^axes.length then .ok (some (t.applyMatrix m axes)) else fails .value

def Operation.applyAt : Nat → Operation R → Tensor R → List Nat → Outcome (Option (Tensor R))
  | 0, _, _, _ => fails .recursion
  | n+1, op, t, axes => match op with
    | .gate g _ => Gate.applyAt n g t axes
    | .controlled cs sub =>
      Tensor.underControls (axes.take cs.length) (axes.drop cs.length) t (Operation.applyAt n sub)
    | .parallel g _ => axes.foldlM (fun acc a => match acc with
      | none => Except.ok none
      | some t => Gate.applyAt n g t [a]) (some t)
    | op => do
      match ← op.decomposeOnce? with
      | none => .ok none
      | some ops =>
        match ← Operation.productAt n op.qubits ops with
        | none => .ok none
        | some m => .ok (some (t.applyMatrix m axes))
end
namespace Gate
def matrix? (g : Gate R) : Outcome (Option (Mat R)) := g.matrixAt nesting
def act? (g : Gate R) (t : Tensor R) (axes : List Nat) : Outcome (Option (Tensor R)) := g.applyAt nesting t axes
def statedMatrix? (g : Gate R) : Outcome (Option (Mat R)) := ownMatrix matrix? g
end Gate
namespace Operation
def statedMatrix? : Operation R → Outcome (Option (Mat R))
  | gate g _ => g.matrix?
  | acquainted qs _ => (Gate.opportunity qs.length : Gate R).matrix?
  | controlled cs sub => do
    .ok ((← matrixOf sub).map (underIdentity (2^(cs.length+sub.qubits.length))))
  | parallel g qs => do
    .ok ((← g.matrix?).map fun m => (List.range (qs.length-1)).foldl (fun acc _ => acc.outer m) m)
  | _ => .ok none
where
  matrixOf (op : Operation R) : Outcome (Option (Mat R)) := do
    match ← statedMatrix? op with
    | some m => .ok (some m)
    | none =>
      match ← op.decomposeOnce? with
      | none => .ok none
      | some ops => productAt nesting op.qubits ops

def matrix? (op : Operation R) : Outcome (Option (Mat R)) := do
  match ← op.statedMatrix? with
  | some m => .ok (some m)
  | none =>
    match ← op.decomposeOnce? with
    | none => .ok none
    | some ops => productAt nesting op.qubits ops

def wrappings : Operation R → Nat
  | controlled _ sub => sub.wrappings+1
  | parallel .. => 4
  | _ => 0

def act? (op : Operation R) (t : Tensor R) (axes : List Nat) : Outcome (Option (Tensor R)) :=
  op.applyAt (nesting+(op.wrappings-1)) t axes
end Operation

/-! ## Mixtures and channels of operations

A mixture is a list of matrices with probabilities, a channel a list of Kraus matrices. A mixture is a channel once its
matrices are weighed with the square roots of the probabilities. -/
variable (g : Gate R) (op : Operation R)
def Mat.corner (size at' : Nat) : Mat R := Mat.ofFn size size fun i j => if i = at' ∧ j = at' then 1 else 0
namespace Gate
def mixture? : Gate R → Option (List (R × Mat R))
  | channel c => c.mixture?
  | _ => none

def mixtureChannel? : Outcome (Option (List (R × Mat R))) :=
  match g.mixture? with
  | some m => .ok (some m)
  | none => do .ok ((← g.statedMatrix?).map fun u => [(RealScalar.ratio 1 1,u)])

def weighed (ms : List (R × Mat R)) : List (Mat R) := ms.map fun (p,u) => u.scale (.ofReal (RealScalar.sqrt p))

/-- The Kraus matrices; those of a measurement are the projectors onto the first and the last basis state. -/
def kraus? : Outcome (Option (List (Mat R))) :=
  match g with
  | measurement n _ _ => .ok (some [Mat.corner (2^n) 0,Mat.corner (2^n) (2^n-1)])
  | channel c => .ok (match c.kraus? with
    | some ks => some ks
    | none => c.mixture?.map weighed)
  | g => do .ok ((← g.statedMatrix?).map fun u => [u])
end Gate
namespace Operation
def mixture? : Operation R → Option (List (R × Mat R))
  | gate g _ => g.mixture?
  | _ => none

def mixtureChannel? : Outcome (Option (List (R × Mat R))) :=
  match op.mixture? with
  | some m => .ok (some m)
  | none => do .ok ((← op.statedMatrix?).map fun u => [(RealScalar.ratio 1 1,u)])

def kraus? : Outcome (Option (List (Mat R))) := do
  let own ← match op with
    | gate g _ => g.kraus?
    | _ => Except.ok none
  match own with
  | some ks => .ok (some ks)
  | none => .ok ((← op.statedMatrix?).map fun u => [u])
end Operation
namespace Tensor
def applyBoth (act : Tensor R → List Nat → Outcome (Option (Tensor R))) (left right : List Nat) (t : Tensor R) :
    Outcome (Option (Tensor R)) := do
  match ← act t left with
  | none => .ok none
  | some l => .ok ((← act l.conj right).map Tensor.conj)
end Tensor

/-- The arrays that a channel needs: a state that is written over, the sum of its images, a copy of it, and half an image. -/
structure ChannelArrays (R : Type) where
  state : Tensor R
  sum : Tensor R
  copy : Tensor R
  half : Tensor R
namespace ChannelArrays
variable (left right : List Nat) (a : ChannelArrays R)
def ofState (t : Tensor R) : ChannelArrays R := ⟨t,t,t,t⟩
def addImage (k : Mat R) : ChannelArrays R :=
  let half := a.copy.applyMatrix k left
  let state := half.applyMatrix k.conj right
  { a with state, half, sum := a.sum.add state }

def applyKraus (ks : List (Mat R)) : ChannelArrays R :=
  ks.foldl (addImage left right) { a with sum := a.sum.map fun _ => 0, copy := a.state }

/-- What acts on states acts from both sides; anything else acts by its Kraus matrices. -/
def run? (act : Tensor R → List Nat → Outcome (Option (Tensor R))) (kraus : Outcome (Option (List (Mat R)))) :
    Outcome (Option (Tensor R)) := do
  match ← a.state.applyBoth act left right with
  | some r => .ok (some r)
  | none => .ok ((← kraus).map fun ks => (a.applyKraus left right ks).sum)
end ChannelArrays
def Tensor.applyKraus (ks : List (Mat R)) (left right : List Nat) (t : Tensor R) : Tensor R :=
  ((ChannelArrays.ofState t).applyKraus left right ks).sum

def Gate.applyChannel? (left right : List Nat) (t : Tensor R) : Outcome (Option (Tensor R)) :=
  (ChannelArrays.ofState t).run? left right g.act? g.kraus?

def Operation.applyChannel? (left right : List Nat) (t : Tensor R) : Outcome (Option (Tensor R)) :=
  (ChannelArrays.ofState t).run? left right op.act? op.kraus?

def Operation.innerGate? : Operation R → Option (Gate R)
  | .gate g _ | .parallel g _ => some g
  | .controlled _ sub => sub.innerGate?
  | _ => none

/-- Whether a gate has a matrix: powers have one unless their exponent holds symbols; gates without a statement of
their own have one if every part of their decomposition has. -/
def Gate.hasUnitaryAt : Nat → Gate R → Outcome Bool
  | 0, _ => fails .recursion
  | n+1, g => match g with
    | .power _ e _ _ | .interaction _ _ _ _ e => .ok !e.isParameterized
    | .matrix .. | .clifford _ | .cswap => .ok true
    | .controlled _ sub => sub.hasUnitaryAt n
    | g => do
      if (← g.statedMatrix?).isSome then .ok true
      else match ← g.decomposeOnce? (Qubit.lineRange g.numQubits) with
        | some ops => ops.allM fun op => match op.innerGate? with
          | some h => h.hasUnitaryAt n
          | none => .ok false
        | none => .ok false
def Gate.hasUnitary : Outcome Bool := g.hasUnitaryAt nesting

def Operation.hasUnitary : Operation R → Outcome Bool
  | .gate g _ | .parallel g _ => g.hasUnitary
  | .controlled _ sub => sub.hasUnitary
  | .phasor p t => do (← Decomposition.phasor p t).allM fun op => match op with
    | .gate g _ => g.hasUnitary
    | _ => .ok true
  | .acquainted .. | .pauli _ | .expectation .. => .ok false

def Gate.hasMixture : Bool := g.mixture?.isSome

def Gate.hasMixtureChannel : Outcome Bool := do
  if g.hasMixture then .ok true
  else match g with
    | .channel _ => .ok false
    | g => if ← g.hasUnitary then .ok true else .ok (← g.mixtureChannel?).isSome

def Gate.hasChannel : Outcome Bool := do
  match g with
  | .measurement .. | .channel _ => .ok true
  | g => if ← g.hasMixtureChannel then .ok true else .ok (← g.kraus?).isSome

/-- An operation that is a gate on qubits counts as a mixture only if its gate is one of its own accord. -/
def Operation.hasMixture : Operation R → Bool
  | .gate g _ => g.hasMixture
  | _ => false

def Operation.hasMixtureChannel : Outcome Bool := do
  match op with
  | .gate g _ => .ok g.hasMixture
  | .acquainted .. => .ok false
  | op => if ← op.hasUnitary then .ok true else .ok (← op.mixtureChannel?).isSome

def Operation.hasChannel : Outcome Bool := do
  match op with
  | .gate g _ => g.hasChannel
  | .acquainted .. => .ok false
  | op => if ← op.hasMixtureChannel then .ok true else .ok (← op.kraus?).isSome
end

/-! ## Phases before and after, and how far an operation is from the identity -/
open RealScalar
variable [RealScalar R]
def phaseMatrix (turns : R) : Mat R := Mat.diagonal [1,Cpx.cis (two*pi*turns)]

def Gate.phaseBy? (turns : R) (index : Nat) : Gate R → Outcome (Option (Gate R))
  | .power .x e _ _ => .ok (some (.phasedXOf (.num (turns*two)) e nought))
  | .power .y e _ _ => .ok (some (.phasedXOf (.num (ratio 1 2 + turns*two)) e nought))
  | .power .z e s a => .ok (some (.power .z e s a))
  | .power .cz e s a => .ok (some (.power .cz e s a))
  | .phasedX p e s =>
    if index ≠ 0 then fails .assertion
    else .ok (some (.phasedXOf (p.addReal (turns*two)) e s))
  | .matrix m _ =>
    let z : Mat R := phaseMatrix turns
    let z := if m.rows = 2 then z
      else if index = 0 then z.kron (Mat.identity 2) else (Mat.identity 2).kron z
    do .ok (some (← Gate.matrixOf m.rows ((z*m)*z.adjoint) true))
  | _ => .ok none

def Operation.phaseBy? (turns : R) (index : Nat) : Operation R → Outcome (Option (Operation R))
  | .gate g qs => do .ok ((← g.phaseBy? turns index).map fun h => .gate h qs)
  | .parallel g qs => do .ok ((← g.phaseBy? turns index).map fun h => .parallel h qs)
  | _ => .ok none

def powerBound (factors : List R) : Param R → Option R
  | .num e =>
    let lo := factors.foldl minOf 0
    let hi := factors.foldl maxOf 0
    some (abs ((hi-lo)*e * ratio 7 2))
  | _ => none

def capped (x : Option R) : R := match x with
  | some v => if v < ratio 1 1 then v else ratio 1 1
  | none => ratio 1 1

/-- An upper bound on how far the gate takes a state from where it was, at most one. -/
def Gate.traceBound : Gate R → R
  | .power k e _ _ => capped (powerBound k.factors e)
  | .interaction _ _ _ _ e => capped (powerBound [0,1] e)
  | .phasedX _ e _ => capped (powerBound [0,1] e)
  | .matrix m _ =>
    if m.rows = 2 then
      let (a,b) := Spectral.ofTwoRows m
      capped (some (abs (a/b).arg * ratio 6 5))
    else capped none
  | .controlled _ sub => sub.traceBound
  | _ => capped none

def Operation.traceBound : Operation R → R
  | .gate g _ => g.traceBound
  | .controlled _ sub => sub.traceBound
  | .phasor _ t => capped (powerBound [0,1] t)
  | _ => capped none

/-! ## Expansions of gates in products of Pauli matrices

The common gates have closed forms; any other matrix is expanded by inner products. -/
open Cpx PlainPow
namespace PauliExpansion
abbrev Terms (R : Type) := List (String × Cpx R)
def minusI : Cpx R := -Cpx.I

def rotation (e s : R) (axes : List (String × R)) : Terms R :=
  let phase := iPow (two*e*(s+half))
  let angle := pi*e/two
  ("I",scale (cos angle) phase)
    :: axes.map fun (n,w) => (n,scale (sin angle * w) (minusI*phase))

def subspace (e s : R) (d : Int) (whole : String) (plus minus : List String) : Terms R :=
  let g := Gate.shiftPhase e s
  let c := scale (sin (pi*e/two) / ofInt d) (minusI * iPow e)
  (whole,g*(1-c)) :: plus.map (fun n => (n,g*c)) ++ minus.map fun n => (n,g*(-c))

def power (k : PowerKind) (e s : R) : Option (Terms R) :=
  match k with
  | .x => some (rotation e s [("X",1)])
  | .y => some (rotation e s [("Y",1)])
  | .z => some (rotation e s [("Z",1)])
  | .h =>
    let w : R := 1 / sqrt two
    some (rotation e s [("X",w),("Z",w)])
  | .cz => some (subspace e s 2 "II" ["IZ","ZI"] ["ZZ"])
  | .cnot => some (subspace e s 2 "II" ["IX","ZI"] ["ZX"])
  | .swap => some (subspace e s 2 "II" ["XX","YY","ZZ"] [])
  | .iswap =>
    let g := Gate.shiftPhase e s
    let angle := pi*e / ofInt 4
    let c := cos angle
    let d := sin angle
    some [("II",scale (c*c) g),("XX",scale (c*d) (g*Cpx.I)),("YY",scale (d*c) (g*Cpx.I)),("ZZ",scale (d*d) g)]
  | .ccz => some (subspace e s 4 "III" ["IIZ","IZI","ZII","ZZZ"] ["ZZI","ZIZ","IZZ"])
  | .ccx => some (subspace e s 4 "III" ["IIX","IZI","ZII","ZZX"] ["ZZI","ZIX","IZX"])
  | .xx | .yy | .zz => none

def clean (atol : R) (ts : Terms R) : Terms R := ts.filter fun (_,c) => !(c.norm ≤ atol)

def ofMat (m : Mat R) : Outcome (Terms R) :=
  let n := Nat.log2 m.rows
  if m.rows = m.cols ∧ 2^n = m.rows then .ok (OperatorBasis.expand m (OperatorBasis.products n)) else fails .value
end PauliExpansion
def Gate.statedExpansion? : Gate R → Outcome (Option (PauliExpansion.Terms R))
  | .power k (.num e) s _ => .ok (PauliExpansion.power k e s)
  | .phasedX (.num p) (.num e) s =>
    let a := pi*p
    .ok (some (PauliExpansion.rotation e s [("X",cos a),("Y",sin a)]))
  | .phasedX p e _ => if p.isSymbol || e.isSymbol then .ok none else fails .type
  | .identity n => .ok (some [(String.ofList (List.replicate n 'I'),1)])
  | .cswap =>
    let q : Cpx R := .ofReal (ratio 1 4)
    .ok (some [("III",.ofReal (ratio 3 4)),("IXX",q),("IYY",q),("IZZ",q),("ZII",q),("ZXX",-q),("ZYY",-q),("ZZZ",-q)])
  | _ => .ok none

def Gate.pauliExpansion? (atol : R) (g : Gate R) : Outcome (Option (PauliExpansion.Terms R)) := do
  match ← g.statedExpansion? with
  | some ts => .ok (some (PauliExpansion.clean atol ts))
  | none =>
    match ← g.matrix? with
    | some m => .ok (some (PauliExpansion.clean atol (← PauliExpansion.ofMat m)))
    | none => .ok none

def Operation.pauliExpansion? (atol : R) (op : Operation R) : Outcome (Option (PauliExpansion.Terms R)) := do
  match ← op.matrix? with
  | some m => .ok (some (PauliExpansion.clean atol (← PauliExpansion.ofMat m)))
  | none => .ok none

/-! ## Linear combinations of gates

All gates of a combination act on the same number of qubits. -/
abbrev GateCombination := LinearDict (Gate Number) (Scalar Number)
namespace GateCombination
def numQubits? (ts : List (Gate Number × Scalar Number)) : Option Nat :=
  (ts.find? fun (_,c) => !(c == 0)).map fun (g,_) => g.numQubits

def admits : Admission (Gate Number) (Scalar Number) := fun ts g => match numQubits? ts with
  | none => true
  | some n => n == g.numQubits

def build (ps : List (Gate Number × Scalar Number)) : LinearDict.Step (Gate Number) (Scalar Number) :=
  LinearDict.build admits admits ps
def single (g : Gate Number) (c : Scalar Number) : GateCombination := (build [(g,c)]).1

def gateName (g : Gate Number) : String := match g.text with
  | .ok s => s
  | .error _ => ""

def format (spec : String) (d : GateCombination) : String := (LinearDict.format? gateName spec d).getD ""
variable (d : GateCombination)
def text : String := format ".3f" d
def refusal (d : GateCombination) (g : Gate Number) : Fault :=
  .value (gateName g ++ " is not compatible with linear combination " ++ format "" d)

def matrix : Outcome (Mat Number) :=
  match numQubits? d.terms with
  | none => .error (.value "Unknown number of qubits")
  | some n => d.items.foldlM (fun acc (g,c) => do
      .ok (acc.add ((← g.orRefuse .unitary g.matrix?).scale c.toComplex))) (Mat.zero (2^n) (2^n))

def pauliExpansion : Outcome (PauliExpansion.Terms Number) := do
  let sum ← d.items.foldlM (fun (acc : LinearDict String (Scalar Number)) (g,c) => do
    match ← g.pauliExpansion? (.float 1e-9) with
    | none => .error (.type s!"No Pauli expansion for object {gateName g} of type {classText g.kindPath}")
    | some ts =>
      let terms := LinearDict.ofPairs (ts.map fun (n,z) => (n,Scalar.complex z))
      .ok (acc.addInPlace (terms.scale c).1).1) (LinearDict.ofPairs [])
  .ok (sum.items.map fun (n,c) => (n,c.toComplex))
end GateCombination
end QuantumCircuits
