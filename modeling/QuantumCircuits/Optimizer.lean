import QuantumCircuits.Operation.Unitary
import QuantumCircuits.Circuit.Insert
import QuantumCircuits.Operation.Placing

/-! # Gates for a single-qubit unitary

Up to a global phase: a rotation about the third axis, one about an axis in the equator and one about the third axis. -/
namespace QuantumCircuits
variable [RealScalar R]
namespace SingleQubit
open RealScalar
variable (atol : R) (m : Mat R)
def signedTurn (x : R) : R := mod (x+half) (ofInt 1) - half
def isNegligible (tolerance turns : R) : Bool := abs (signedTurn turns) ≤ tolerance
def nearMultiple (period atol x : R) : Bool :=
  let h := period/two
  abs (mod (x+h) period - h) ≤ atol
def isCliffordTurn (atol halfTurns : R) : Bool := nearMultiple half atol halfTurns
def quarterTurns (halfTurns : R) : Int := round (two*halfTurns) % 4
def isQuarterTurn (atol h : R) : Bool := isCliffordTurn atol h && quarterTurns h % 2 == 1
def isHalfTurn (atol h : R) : Bool := isCliffordTurn atol h && quarterTurns h == 2
def isNoTurn (atol h : R) : Bool := isCliffordTurn atol h && quarterTurns h == 0
structure ZMZ (R : Type) where
  before : R
  axis : Pauli
  middle : R
  after : R

/-- Rotations about the outer axes by quarter turns are moved into the axis in the middle, and half turns of the outer
axes into its sign. -/
def ZMZ.turned (s : ZMZ R) : ZMZ R :=
  if isCliffordTurn atol s.before then
    let s := if (isQuarterTurn atol s.before || isQuarterTurn atol s.after)
        != (isHalfTurn atol s.middle && isNoTurn atol (s.before-s.after)) then
        { s with before := s.before+half, after := s.after-half, axis := .y }
      else s
    if isHalfTurn atol s.before || isHalfTurn atol s.after then
      { s with before := s.before - ofInt 1, after := s.after + ofInt 1, middle := -s.middle }
    else s
  else s

/-- The outer rotations are joined where the middle one is none, or a half turn. -/
def ZMZ.joined (s : ZMZ R) : ZMZ R :=
  if isNoTurn atol s.middle then { s with before := s.before+s.after, after := 0 }
  else if isHalfTurn atol s.middle then { s with before := 0, after := s.after-s.before }
  else s
def rotations : List (Pauli × R) :=
  let (before,middle,after) := angles m
  let s : ZMZ R := ⟨before/pi-half,.x,middle/pi,
    after/pi+half⟩
  let s := (s.turned atol).joined atol
  [(Pauli.z,s.before),(s.axis,s.middle),(Pauli.z,s.after)].filter fun (_,h) => !isNoTurn atol h
def gates : List (Gate R) := (rotations atol m).map fun (p,h) => .axisPower p (.num h)

/-- Turns about an axis in the equator, the phase of that axis, and turns about the third axis after it. -/
def turns : R × R × R :=
  let (before,middle,after) := angles m
  let tau : R := two*pi
  (signedTurn (middle/tau),signedTurn (ratio 1 4 - before/tau),signedTurn ((after+before)/tau))

/-- A rotation about an axis in the equator and a phase; negligible ones are left out, and a phase after a half turn
is moved into its axis. -/
def phasedXZ : List (Gate R) :=
  let (xy,phase,z) := turns m
  let two : R := two
  let parts : List (Gate R) := [.phasedXOf (.num (two*phase)) (.num (two*xy)) Gate.nought,.axisPower .z (.num (two*z))]
  let parts := parts.filter fun g => atol < g.traceBound
  if parts.length == 2 && half-atol ≤ abs xy then
    [.phasedXOf (.num (two*phase+z)) (.num Gate.one) Gate.nought]
  else parts
end SingleQubit

/-! ## Edits of a circuit

A pass that moves operations first notes what is to change, and makes all changes at the end. -/
structure Edits (R : Type) where
  removed : List (Int × Operation R) := []
  added : List (Int × Operation R) := []
  inserted : List (Int × Operation R) := []
namespace Edits
def remove (i : Nat) (op : Operation R) (e : Edits R) : Edits R := { e with removed := e.removed ++ [((i : Int),op)] }
def add (i : Nat) (op : Operation R) (e : Edits R) : Edits R := { e with added := e.added ++ [((i : Int),op)] }
def insert (i : Nat) (op : Operation R) (e : Edits R) : Edits R := { e with inserted := e.inserted ++ [((i : Int),op)] }
def replace (i : Nat) (op new : Operation R) (e : Edits R) : Edits R := (e.remove i op).add i new
variable [OperationText R]
def apply (r : DeviceRules (Operation R)) (c : OpCircuit R) (e : Edits R) : Circuit.Edit (Operation R) Unit :=
  match c.batchRemove r e.removed with
  | .error f => (c,.error f)
  | .ok c =>
    match c.batchInsertInto r e.added with
    | .error f => (c,.error f)
    | .ok c =>
      match c.batchInsert r (e.inserted.map fun (i,op) => (i,.leaf op)) with
      | .error f => (c,.error f)
      | .ok c => (c,.ok ())
end Edits
namespace Param
def halved : Param R → Param R
  | num x => num (x/RealScalar.two)
  | expr e => expr (e.scaleBy (.fraction 1 2))
  | residue e m => residue e m
def isNegligibleTurn (tolerance : R) : Param R → Outcome Bool
  | num x => .ok (SingleQubit.isNegligible tolerance x)
  | expr e => match e.value? with
    | some x => .ok (SingleQubit.isNegligible tolerance x)
    | none => fails .type
  | residue _ _ => fails .type
end Param
namespace Operation
def knownExponent? (k : PowerKind) : Operation R → Option (Param R)
  | gate (.power l e _ _) _ => if l = k && !e.isSymbol then some e else none
  | _ => none

/-- Exponent and phase of a rotation about an axis in the equator, both as half turns in `(-1, 1]`. -/
def equatorTurns? (op : Operation R) : Option (Param R × Param R) :=
  if op.isParameterized then none
  else match op with
    | gate (.phasedX p e _) _ => some (e.canonicalHalfTurns,p.canonicalHalfTurns)
    | gate (.power .y e _ _) _ => some (e.canonicalHalfTurns,.num (RealScalar.ratio 1 2))
    | gate (.power .x e _ _) _ => some (e.canonicalHalfTurns,.num (RealScalar.ratio 0 1))
    | _ => none
def zPower (e : Param R) (q : Qubit) : Operation R := gate (.axisPower .z (Param.mul (.num Gate.one) e)) [q]
end Operation

/-! ## Moving half turns about equatorial axes to the end

One half turn is held for each qubit at most. Phases turn its axis, two of them leave a phase, and a measurement takes
it in as a flip of the result. Where it cannot pass it is put back. -/
namespace EjectPauli
open Gate RealScalar
structure State (R : Type) where
  held : List (Qubit × Param R) := []
  edits : Edits R := {}
namespace State
variable (s : State R) (q : Qubit)
def held? : Option (Param R) := (s.held.find? fun e => e.1 = q).map (·.2)
def release : State R := { s with held := s.held.filter fun e => e.1 ≠ q }
def hold (p : Param R) : State R := { s with held := (s.release q).held ++ [(q,p)] }
def turn (t : Param R) : State R := match s.held? q with
  | some p => s.hold q (p.add t)
  | none => s
def edit (f : Edits R → Edits R) : State R := { s with edits := f s.edits }
def dump (i : Nat) (qs : Qubits) (s : State R) : State R :=
  (Qubit.sort qs).foldl (fun (s : State R) q => match s.held? q with
    | some p => (s.edit (·.insert i (.gate (.phasedXOf p (.num one) nought) [q]))).release q
    | none => s) s
end State
def crossWhole (tolerance : R) (i : Nat) (op : Operation R) (phase : Param R) (s : State R) : Outcome (State R) :=
  let q := op.qubits.headD default
  let s := s.edit (·.remove i op)
  match s.held? q with
  | none => .ok (s.hold q phase)
  | some a => do
    let t := (phase.add (-a)).mul (.num (ofInt 2))
    let s := s.release q
    if ← t.halved.isNegligibleTurn tolerance then .ok s else .ok (s.edit (·.add i (.zPower t q)))

/-- A partial turn that is passed is reflected in the axis of what is held. -/
def crossPartial (i : Nat) (op : Operation R) (exponent phase : Param R) (s : State R) : State R :=
  let q := op.qubits.headD default
  match s.held? q with
  | none => s
  | some a =>
    s.edit (·.replace i op (.gate (.phasedXOf ((a.mul (.num (ofInt 2))).add (-phase)) exponent nought) [q]))
def crossOne (i : Nat) (op : Operation R) (t : Param R) (q : Qubit) (s : State R) : State R :=
  let other := match op.qubits with
    | [a,b] => if q = b then a else b
    | _ => q
  s.edit fun e => (e.replace i op (.gate (.power .cz (Param.mul (.num one) (-t)) nought false) op.qubits)).insert i
    (.zPower t other)

/-- A measurement reports the opposite for the qubits on which a half turn is held. -/
def intoMeasurement (i : Nat) (op : Operation R) (s : State R) : State R :=
  match op with
  | .gate (.measurement n key invert) qs =>
    let flips := qs.zipIdx.filterMap fun (q,k) => if (s.held? q).isSome then some k else none
    (qs.foldl State.release s).edit (·.replace i op (.gate (.measurement n key (flipBits invert flips)) qs))
  | _ => s
def step (tolerance : R) (s : State R) (at' : Nat × Operation R) : Outcome (State R) :=
  let (i,op) := at'
  let affected := op.qubits.filter fun q => (s.held? q).isSome
  match op.equatorTurns? with
  | some (e,p) => do
    if ← (e.add (.num (ofInt (-1)))).isNegligibleTurn tolerance then crossWhole tolerance i op p s
    else .ok (crossPartial i op e p s)
  | none =>
    if affected.isEmpty then .ok s
    else match op.knownExponent? .z, op.knownExponent? .cz with
      | some t, _ => .ok ((affected.foldl (fun s q => s.turn q t.halved) s).edit (·.remove i op))
      | none, some t => match affected with
        | [q] => .ok (crossOne i op t q s)
        | _ => .ok (op.qubits.foldl (fun s q => s.turn q t.halved) s)
      | none, none =>
        let s := if op.isMeasurement then intoMeasurement i op s else s
        .ok (s.dump i op.qubits)
variable [OperationText R]
def edits (tolerance : R) (c : OpCircuit R) : Outcome (Edits R) := do
  let s ← c.placed.foldlM (step tolerance) {}
  .ok (s.dump c.size (s.held.map (·.1))).edits
def run (tolerance : R) (r : DeviceRules (Operation R)) (c : OpCircuit R) : Circuit.Edit (Operation R) Unit :=
  match edits tolerance c with
  | .error f => (c,.error f)
  | .ok e => e.apply r c
end EjectPauli

/-! ## Moving phases to the end

Operations that phases can pass are changed accordingly; at others, and at the end, the phases are put back.
Measurements make them disappear. -/
namespace EjectZ
structure State (R : Type) where
  phases : List (Qubit × Param R) := []
  edits : Edits R := {}
namespace State
def phase (s : State R) (q : Qubit) : Param R := ((s.phases.find? fun e => e.1 = q).map (·.2)).getD (.num 0)
def setPhase (s : State R) (q : Qubit) (p : Param R) : State R :=
  { s with phases := if s.phases.any fun e => e.1 = q then s.phases.map fun e => if e.1 = q then (q,p) else e
      else s.phases ++ [(q,p)] }
def note (s : State R) (q : Qubit) : State R := s.setPhase q (s.phase q)
def dump (tolerance : R) (i : Nat) (qs : Qubits) (s : State R) : Outcome (State R) :=
  qs.foldlM (fun (s : State R) q => do
    let p := s.phase q
    let negligible ← p.isNegligibleTurn tolerance
    let s := if negligible then s
      else { s with edits := s.edits.insert i (.zPower (p.mul (.num (RealScalar.ofInt 2))) q) }
    .ok (s.setPhase q (.num 0))) s
end State
/-- The operation after the phases before it have been moved past it; `none` when it cannot be passed. -/
def passed (tolerance : R) (phases : List (Param R)) (op : Operation R) : Outcome (Option (Operation R)) :=
  phases.zipIdx.foldlM (fun (acc : Option (Operation R)) (p,i) => do
    if ← p.isNegligibleTurn tolerance then .ok acc
    else match acc with
      | none => .ok none
      | some op => op.phaseBy? (-p.value) i) (some op)
def step (tolerance : R) (s : State R) (at' : Nat × Operation R) : Outcome (State R) :=
  let (i,op) := at'
  match op.knownExponent? .z with
  | some h =>
    let q := op.qubits.headD default
    .ok { s.setPhase q ((s.phase q).add h.halved) with edits := s.edits.remove i op }
  | none => do
    let s := if op.isMeasurement then op.qubits.foldl (fun s q => s.setPhase q (.num 0)) s
      else op.qubits.foldl State.note s
    let phases := op.qubits.map s.phase
    if ← phases.allM (·.isNegligibleTurn tolerance) then .ok s
    else
      match ← passed tolerance phases op with
      | some new => .ok { s with edits := s.edits.replace i op new }
      | none => s.dump tolerance i op.qubits
variable [OperationText R]
def edits (tolerance : R) (c : OpCircuit R) : Outcome (Edits R) := do
  let s ← c.placed.foldlM (step tolerance) {}
  .ok (← s.dump tolerance c.size (s.phases.map (·.1))).edits
def run (tolerance : R) (r : DeviceRules (Operation R)) (c : OpCircuit R) : Circuit.Edit (Operation R) Unit :=
  match edits tolerance c with
  | .error f => (c,.error f)
  | .ok e => e.apply r c
end EjectZ

/-! ## Merging runs of single-qubit operations -/
namespace MergeSingle
variable [OperationText R]
def endsRun (op : Operation R) : Bool := op.qubits.length ≠ 1 || !(op.hasUnitary.toOption.getD false)
def replacer (substitute : Qubit → Ops R → Outcome (Ops R)) : Replacer (Operation R) :=
  fun c i op => match op.qubits with
    | [q] =>
      match c.untilBlocked [(q,(i : Int))] endsRun with
      | [] => .ok none
      | run => do
        let last := run.foldl (fun m e => max m e.1) i
        .ok (some ⟨last+1-i,[q],← substitute q (run.map (·.2))⟩)
    | _ => .ok none
def product (ops : Ops R) : Outcome (Mat R) := do
  let ms ← ops.mapM fun op => op.orRefuse .unitary op.matrix?
  match ms.reverse with
  | [] => .ok (Mat.identity 2)
  | m :: rest => .ok (rest.foldl (· * ·) m)
def isRealMatrix : Operation R → Bool
  | .gate (.matrix _ isComplex) _ => !isComplex
  | _ => false
def asMatrix (q : Qubit) (ops : Ops R) : Outcome (Ops R) := do
  .ok [.gate (← Gate.matrixOf 2 (← product ops) (!ops.all isRealMatrix)) [q]]
def bySynthesis (synthesis : Mat R → List (Gate R)) (q : Qubit) (ops : Ops R) : Outcome (Ops R) := do
  .ok ((synthesis (← product ops)).map fun g => .gate g [q])
def intoMatrices : Replacer (Operation R) := replacer asMatrix
def intoPhasedXZ (atol : R) : Replacer (Operation R) := replacer (bySynthesis (SingleQubit.phasedXZ atol))
end MergeSingle

/-! ## Operations for a two-qubit unitary

A two-qubit unitary is taken apart into single-qubit unitaries and interactions along the three axes. -/
namespace TwoQubit
open RealScalar
variable (q0 q1 : Qubit) (atol : R)
def h (q : Qubit) : Operation R := .gate .H [q]
def cz (a b : Qubit) : Operation R := .gate .CZ [a,b]
def turn (p : Pauli) (e : R) (q : Qubit) : Operation R := .gate (.axisPower p (.num e)) [q]
def exponentOf (rads : R) : R := rads * ofInt (-2) / pi
def half : R := ratio 1 2
def minusHalf : R := ratio (-1) 2
def alongOne (x : R) : Ops R :=
  [h q1,cz q0 q1,turn .x (exponentOf x) q0,cz q0 q1,h q1]
def alongTwo (x y : R) : Ops R :=
  [turn .x half q0,h q1,cz q0 q1,h q1,turn .x (exponentOf x) q0,turn .y (exponentOf y) q1,h q1,cz q0 q1,h q1,turn .x minusHalf q0]
def alongThree (x y z : R) : Ops R :=
  [turn .x half q0,h q1,cz q0 q1,h q1,turn .x (exponentOf x + half) q0,turn .y (exponentOf y + half) q1,
   h q0,cz q1 q0,h q0,turn .x minusHalf q1,turn .z (exponentOf z + half) q1,h q1,cz q0 q1,h q1]
def isTrivial (atol rads : R) : Bool :=
  abs rads < atol || abs (abs rads - pi / ofInt 4) < atol
structure Frame (R : Type) where
  axis : Pauli
  exponent : R
def Frame.enter : Option (Frame R) → Ops R
  | some f => [turn f.axis f.exponent q0,turn f.axis f.exponent q1]
  | none => []
def Frame.leave : Option (Frame R) → Ops R
  | some f => [turn f.axis (-f.exponent) q0,turn f.axis (-f.exponent) q1]
  | none => []
def byPhase (q0 q1 : Qubit) (rads : R) (frame : Option (Frame R)) : Ops R :=
  if abs rads < atol then []
  else
    let e := exponentOf rads
    let phase := if isTrivial atol rads then cz q0 q1
      else .gate (.power .cz (.num (ofInt (-2) * e)) Gate.nought false) [q0,q1]
    Frame.enter q0 q1 frame ++ [phase,turn .z e q0,turn .z e q1] ++ Frame.leave q0 q1 frame
def interactions (allowPartial : Bool) (atol : R) (q0 q1 : Qubit) (coefficients : R × R × R) : Ops R :=
  let (x,y,z) := coefficients
  if allowPartial || [x,y,z].all (isTrivial atol) then
    byPhase atol q0 q1 x (some ⟨.y,minusHalf⟩) ++ byPhase atol q0 q1 y (some ⟨.x,half⟩) ++ byPhase atol q0 q1 z none
  else if atol ≤ abs z then alongThree q0 q1 x y z
  else if atol ≤ y then alongTwo q0 q1 x y
  else alongOne q0 q1 x
def ionGate (rads : R) : Gate R :=
  .power .xx (.num (rads * ofInt 2 / pi)) minusHalf false
def byIonGate (q0 q1 : Qubit) (rads : R) (frame : Option (Frame R)) : Ops R :=
  if abs rads < atol then []
  else Frame.enter q0 q1 frame ++ [.gate (ionGate (ofInt (-1) * rads)) [q0,q1]] ++ Frame.leave q0 q1 frame
def ionInteractions (q0 q1 : Qubit) (coefficients : R × R × R) : Ops R :=
  let (x,y,z) := coefficients
  byIonGate atol q0 q1 x none ++ byIonGate atol q0 q1 y (some ⟨.z,minusHalf⟩) ++ byIonGate atol q0 q1 z (some ⟨.y,half⟩)
def singles (m : Mat R) (q : Qubit) : Ops R :=
  (SingleQubit.gates atol m).map fun g => .gate g [q]
def around (q0 q1 : Qubit) (k : Kak R) (inner : Ops R) : Ops R :=
  singles atol k.before.1 q0 ++ singles atol k.before.2 q1 ++ inner
    ++ singles atol k.after.1 q0 ++ singles atol k.after.2 q1
def tolerance : R := ratio 1 100000000
def kak (m : Mat R) : Outcome (Kak R) := Kak.ofUnitary ⟨ratio 1 100000,atol⟩ m
variable [OperationText R]
/-- Single-qubit operations are merged, half turns and phases moved to the end, and all is packed as early as possible. -/
def tidy (ops : Ops R) : Outcome (Ops R) := do
  let after (e : Circuit.Edit (Operation R) Unit) : Outcome (OpCircuit R) := do
    e.2
    .ok e.1
  let c ← Circuit.ofOps ops
  let c ← after ((MergeSingle.intoPhasedXZ tolerance).run c)
  let c ← after (EjectPauli.run tolerance .none c)
  let c ← after (EjectZ.run (ratio 0 1) .none c)
  .ok (← Circuit.ofOps c.operations).operations
def operations (allowPartial : Bool) (atol : R) (clean : Bool) (q0 q1 : Qubit) (m : Mat R) : Outcome (Ops R) := do
  let k ← kak atol m
  let ops := around atol q0 q1 k (interactions allowPartial atol q0 q1 k.coefficients)
  if clean then tidy ops else .ok ops
def ionOperations (atol : R) (q0 q1 : Qubit) (m : Mat R) : Outcome (Ops R) := do
  let k ← kak atol m
  tidy (around atol q0 q1 k (ionInteractions atol q0 q1 k.coefficients))
end TwoQubit

/-! ## Conversion to the gates of ion traps -/
namespace Ion
open RealScalar TwoQubit
variable [OperationText R]
def isNative : Gate R → Bool
  | .power .xx .. | .power .x .. | .power .y .. | .power .z .. | .measurement .. => true
  | _ => false
def quarter : R := pi/two
def turn (k : PowerKind) (rads : R) (q : Qubit) : Operation R := .gate (.rotation k (.num rads)) [q]
def convert (ignore : Bool) (op : Operation R) : Outcome (Ops R) :=
  match op.gate? with
  | none => .error (.type (OperationText.structural op ++ " is not a gate operation."))
  | some g =>
    if isNative g then .ok [op]
    else match g, op.qubits with
      | .power .h (.num e) _ _, q :: _ =>
        if e == ofInt 1 then .ok [turn .x pi q,turn .y (-quarter) q] else fromMatrix g
      | .power .cnot (.num e) _ _, [a,b] =>
        if e == ofInt 1 then
          .ok [turn .y quarter a,.gate (ionGate (pi / ofInt 4)) [a,b],turn .x (-quarter) a,
            turn .x (-quarter) b,turn .y (-quarter) a]
        else fromMatrix g
      | _, _ => fromMatrix g
where
  fromMatrix (g : Gate R) : Outcome (Ops R) := do
    let m ← if op.qubits.length ≤ 2 then op.matrix? else .ok none
    match m, op.qubits with
    | some m, [q] => .ok ((SingleQubit.phasedXZ (ofInt 0) m).map fun g => .gate g [q])
    | some m, [a,b] => ionOperations tolerance a b m
    | _, _ =>
      if ignore then .ok [op]
      else .error (.type (s!"Don't know how to work with {OperationText.gate g}. It isn't a native Ion Trap operation, "
        ++ "a 1 or 2 qubit gate with a known unitary, or composite."))
def convertCircuit (ignore : Bool) (c : OpCircuit R) : Outcome (OpCircuit R) :=
  c.operations.foldlM (fun (out : OpCircuit R) op => do
    let (out,done) := out.append .none (.node ((← convert ignore op).map .leaf)) .earliest
    let _ ← done
    .ok out) .empty
end Ion

/-! ## Merging runs of operations on two qubits

Operations on two qubits only are multiplied, and the product is made anew when that needs fewer interactions, or
interactions of a better kind. -/
namespace MergeInteractions
def exchanged (m : Mat R) : Mat R :=
  let order (i : Nat) : Nat := if i = 1 then 2 else if i = 2 then 1 else i
  Mat.ofFn 4 4 fun i j => m.get (order i) (order j)
def matrixOn? (q0 q1 : Qubit) (op : Operation R) : Outcome (Option (Mat R)) := do
  match ← op.matrix? with
  | none => .ok none
  | some m =>
    .ok (if op.qubits = [q0,q1] then some m
      else if op.qubits = [q1,q0] then some (exchanged m)
      else if op.qubits = [q0] then some (m.kron (Mat.identity 2))
      else if op.qubits = [q1] then some ((Mat.identity 2).kron m)
      else none)
variable [OperationText R] (allowPartial : Bool)
def opsAt (c : OpCircuit R) (q0 q1 : Qubit) (i : Nat) : Ops R :=
  match c.opAt? q0 i, c.opAt? q1 i with
  | some a, some b => if a.qubits.contains q1 then [a] else [a,b]
  | some a, none => [a]
  | none, some b => [b]
  | none, none => []
structure Run (R : Type) where
  ops : Ops R
  last : Option Nat
  product : Mat R
def scan (c : OpCircuit R) (q0 q1 : Qubit) : List Nat → Run R → Outcome (Run R)
  | [], r => .ok r
  | i :: rest, r => do
    let ops := opsAt c q0 q1 i
    let ms ← ops.mapM (matrixOn? q0 q1)
    if ms.all Option.isSome then
      let r := if ops.isEmpty then r
        else ⟨r.ops ++ ops,some i,(ms.filterMap id).foldl (fun p m => m*p) r.product⟩
      scan c q0 q1 rest r
    else .ok r
def runFrom (c : OpCircuit R) (q0 q1 : Qubit) (i : Nat) : Outcome (Run R) :=
  scan c q0 q1 ((List.range (c.size-i)).map (· + i)) ⟨[],none,Mat.identity 4⟩
def interactionCount (ops : Ops R) : Nat := (ops.filter fun op => op.qubits.length = 2).length
def mustChange (ops : Ops R) : Bool :=
  let other : Operation R → Bool
    | .gate (.power .cz _ _ _) _ => false
    | op => op.qubits.length = 2
  let isPartial : Operation R → Bool
    | .gate (.power .cz e _ _) _ => !e.isInt 1
    | _ => false
  ops.any other || (!allowPartial && ops.any isPartial)
def replacer (synthesis : Qubit → Qubit → Mat R → Outcome (Ops R)) : Replacer (Operation R) := fun c i op => match op.qubits with
  | [q0,q1] => do
    let run ← runFrom c q0 q1 i
    let old := interactionCount run.ops
    let change := mustChange allowPartial run.ops
    if !change && old ≤ 1 then .ok none
    else
      let new ← synthesis q0 q1 run.product
      if change || interactionCount new < old then
        .ok (some ⟨(run.last.getD i)+1-i,[q0,q1],new⟩)
      else .ok none
  | _ => .ok none
def pass (atol : R) : Replacer (Operation R) :=
  replacer allowPartial (TwoQubit.operations allowPartial atol false)
end MergeInteractions

/-! ## Conversion to sets of gates

Operations are taken apart until they belong to a set of gates. -/
namespace Conversion
open RealScalar SingleQubit TwoQubit
variable [OperationText R] (ignore : Bool) (op : Operation R)
def expanderWith (first : Operation R → Outcome (Option (Ops R))) (keep : Operation R → Bool)
    (stuck : Operation R → Option Fault) : Expander (Operation R) where
  step op := do
    match ← first op with
    | some ops => .ok (some ops)
    | none => op.parts?
  keep := keep
  stuck := stuck
def inPlace (parts : Ops R) : Option (Replacement (Operation R)) := some ⟨1,op.qubits,parts⟩
def unlessKept (d : Expander (Operation R)) : Replacer (Operation R) := fun _ _ op => do
  if d.keep op then .ok none
  else
    let parts ← d.expand [op]
    match ← d.step op with
    | none => .ok none
    | some _ => .ok (inPlace op parts)
def unlessEqual (d : Expander (Operation R)) : Replacer (Operation R) := fun c i op => do
  let r ← unlessKept d c i op
  .ok (r.filter fun r => !(r.ops == [op]))
def expandAll (keep : Operation R → Bool) : Replacer (Operation R) := unlessEqual { Operation.expander with keep := keep }
def unknown (rest : String) : Fault :=
  .type s!"Don't know how to work with {OperationText.structural op}. It isn't {rest}"
def unlessIgnored (f : Operation R → Fault) (op : Operation R) : Option Fault :=
  if ignore then none else some (f op)
def fromMatrix (single : Mat R → Qubit → Option (Ops R)) (double : Qubit → Qubit → Mat R → Outcome (Ops R)) (op : Operation R) :
    Outcome (Option (Ops R)) :=
  match op.qubits with
  | [q] => do
    match ← op.matrix? with
    | some m => .ok (single m q)
    | none => .ok none
  | [q0,q1] => do
    match ← op.matrix? with
    | some m => .ok (some (← double q0 q1 m))
    | none => .ok none
  | _ => .ok none
def isFullPhase (allowPartial : Bool) : Operation R → Bool
  | .gate (.power .cz e _ _) _ => allowPartial || e.canonicalHalfTurns.isInt 1
  | _ => false
def isPhaseOrSingle (allowPartial : Bool) (op : Operation R) : Bool :=
  isFullPhase allowPartial op || op.isMeasurement || (op.qubits.length == 1 && op.hasUnitary.toOption.getD false)
def toPhases (ignore allowPartial : Bool) : Replacer (Operation R) :=
  unlessEqual (expanderWith (fromMatrix (fun _ _ => none) (operations allowPartial tolerance true)) (isPhaseOrSingle allowPartial)
    (unlessIgnored ignore (unknown · "composite or an operation with a known unitary effect on 1 or 2 qubits.")))
def phasedXZOn (m : Mat R) (q : Qubit) : Option (Ops R) :=
  some ((phasedXZ (ofInt 0) m).map fun g => .gate g [q])
def isXmonGate : Gate R → Bool
  | .power .cz .. | .power .x .. | .power .y .. | .power .z .. | .measurement .. | .phasedX .. => true
  | _ => false
def isXmon : Operation R → Bool
  | .gate g _ => isXmonGate g
  | _ => false
def xmonExpander : Expander (Operation R) :=
  expanderWith (fromMatrix phasedXZOn (operations true tolerance false)) isXmon
    (unlessIgnored ignore (unknown · "a native xmon operation, a 1 or 2 qubit gate with a known unitary, or composite."))
def toXmon : Replacer (Operation R) := unlessKept (xmonExpander ignore)
def isWholeExponent : Param R → Outcome Bool
  | .num x => match exactInt? x with
    | some _ => fails .attribute
    | none => .ok (isWhole x)
  | _ => fails .type
def isNeutralAtomGate : Gate R → Outcome Bool
  | .power .x .. | .power .y .. | .power .z .. | .phasedX .. | .measurement .. | .identity _ => .ok true
  | .power .cnot e .. | .power .cz e .. | .power .ccx e .. | .power .ccz e .. => isWholeExponent e
  | _ => .ok false
def isNeutralAtom : Operation R → Outcome Bool
  | .gate g _ | .parallel g _ => isNeutralAtomGate g
  | _ => .ok false
def neutralAtomExpander : Expander (Operation R) :=
  expanderWith (fun op => do
      let _ ← isNeutralAtom op
      fromMatrix phasedXZOn (operations false tolerance true) op)
    (fun op => (isNeutralAtom op).toOption.getD false)
    (unlessIgnored ignore (unknown · "a native atom operation, a 1 or 2 qubit gate with a known unitary, or composite."))
def toNeutralAtom : Replacer (Operation R) := unlessKept (neutralAtomExpander ignore)

/-- Rotations by quarter turns as one Clifford gate; `none` when one of them is not. -/
def cliffordOf? (atol : R) (m : Mat R) : Option Clifford :=
  (rotations atol m).foldl (fun (acc : Option Clifford) (p,h) => do
    let c ← acc
    if isCliffordTurn (ratio 1 100000000) h then
      some (c.mergedWith (.quarterTurns p (quarterTurns h)))
    else none) (some .identity)
def isClifford : Operation R → Bool
  | .gate (.clifford _) _ => true
  | _ => false
def cliffordFault : Fault :=
  if op.qubits.length == 1 && op.hasUnitary.toOption.getD false then
    .value ("Single qubit operation is not in the Clifford group: " ++ OperationText.structural op)
  else unknown op "composite or a 1-qubit operation with a known unitary effect."
def cliffordExpander (atol : R) : Expander (Operation R) :=
  expanderWith (fun op => match op.qubits with
    | [_] => fromMatrix (fun m q => (cliffordOf? atol m).map fun c => [.gate (.clifford c) [q]])
      (fun _ _ _ => .ok []) op
    | _ => .ok none) isClifford (unlessIgnored ignore cliffordFault)
def toCliffords (atol : R) : Replacer (Operation R) := fun _ _ op => do
  .ok (inPlace op (← (cliffordExpander ignore atol).expand [op]))

/-- Rotations of one qubit as phases along Pauli strings; neighbouring quarter turns as Clifford gates, where these are
kept. -/
def phasorsOf (keepCliffords : Bool) (atol : R) (m : Mat R) (q : Qubit) : Ops R :=
  (rotations atol m).foldl (fun (out : Ops R) (p,h) =>
    if keepCliffords && isCliffordTurn (ratio 1 100000000) h then
      let c := Clifford.quarterTurns p (round (h * ofInt 2))
      match out.getLast? with
      | some (.gate (.clifford d) _) => out.dropLast ++ [.gate (.clifford (d.mergedWith c)) [q]]
      | _ => out ++ [.gate (.clifford c) [q]]
    else out ++ [.phasorOf (.ofTerms [(q,p)] ⟨Gate.one,Gate.nought⟩) (.num (roundTo 10 h))]) []
def toPhasors (ignore keepCliffords : Bool) (atol : R) : Replacer (Operation R) := fun _ _ op =>
  match op with
  | .phasor .. => .ok none
  | op =>
    if keepCliffords && isClifford op then .ok none
    else do
      let parts ← match op.qubits with
        | [q] => do .ok ((← op.matrix?).map fun m => phasorsOf keepCliffords atol m q)
        | _ => .ok none
      match parts with
      | some parts => .ok (inPlace op parts)
      | none =>
        if ignore then .ok none
        else .error (unknown op "a 1-qubit operation with a known unitary effect.")
end Conversion

/-! ## Leaving out what does nothing -/
namespace Cleaning
def dropEmpty {α : Type} (r : DeviceRules α) (c : Circuit α) : Circuit.Edit α Unit :=
  let kept := c.moments.filter fun m => !m.ops.isEmpty
  match kept.forM r.checkMoment with
  | .error f => (c,.error f)
  | .ok () => (⟨kept⟩,.ok ())
variable [OperationText R]
def dropNegligible (tolerance : R) (r : DeviceRules (Operation R)) (c : OpCircuit R) : Circuit.Edit (Operation R) Unit :=
  let removed := (c.placed.filter fun (_,op) => op.traceBound ≤ tolerance).map fun (i,op) => ((i : Int),op)
  match c.batchRemove r removed with
  | .error f => (c,.error f)
  | .ok c => (c,.ok ())
end Cleaning

/-! ## Optimizing for superconducting devices -/
namespace Xmon
variable [OperationText R]
def tolerance : R := RealScalar.ratio 1 100000
def passes (allowPartial : Bool) (r : DeviceRules (Operation R)) : List (OpCircuit R → Circuit.Edit (Operation R) Unit) :=
  [(Conversion.toXmon false).run,(MergeInteractions.pass allowPartial tolerance).run,
   (MergeSingle.intoPhasedXZ tolerance).run,EjectPauli.run tolerance r,EjectZ.run tolerance r,
   Cleaning.dropNegligible tolerance r]
def optimize (allowPartial : Bool) (r : DeviceRules (Operation R)) (c : OpCircuit R) : Outcome (OpCircuit R) :=
  (passes allowPartial r).foldlM (fun c pass => do
    let (c,out) := pass c
    out
    .ok c) c
end Xmon
end QuantumCircuits
