import QuantumCircuits.Gate.Basic

/-! # Operations

A gate on qubits, an operation with controls, a gate on each of several qubits, a Pauli string, a phase along one, or
a display of an expectation value. -/
namespace QuantumCircuits
open RealScalar
def classText (path : String) : String := "<class '" ++ path ++ "'>"

inductive Operation (R : Type) where
  | gate (g : Gate R) (qs : Qubits)
  | controlled (controls : Qubits) (sub : Operation R)
  | parallel (g : Gate R) (qs : Qubits)
  | pauli (p : PauliString R)
  | phasor (p : PauliString R) (halfTurns : Param R)
  | expectation (p : PauliString R) (samples : Option Nat) (key : String)
  | acquainted (qs : Qubits) (indices : List Int)
abbrev Ops (R : Type) := List (Operation R)
abbrev OpCircuit (R : Type) := Circuit (Operation R)
abbrev OpMoment (R : Type) := Moment (Operation R)
namespace Operation
variable [RealScalar R]
def qubits : Operation R → Qubits
  | gate _ qs | parallel _ qs | acquainted qs _ => qs
  | controlled cs sub => cs ++ sub.qubits
  | pauli p | expectation p _ _ => p.qubits
  | phasor p _ => p.support

def gate? : Operation R → Option (Gate R)
  | gate g _ => some g
  | acquainted qs _ => some (.opportunity qs.length)
  | _ => none

/-- A gate on qubits; controls that a gate has already chosen are put in their places. -/
def ofGate (g : Gate R) (qs : Qubits) : Operation R :=
  match g with
  | .controlled cs sub =>
    let merge := cs.foldl (fun (acc : Qubits × Qubits) c => match c,acc.2 with
      | some q,rest => (acc.1 ++ [q],rest)
      | none,q :: rest => (acc.1 ++ [q],rest)
      | none,[] => acc) ([],qs)
    gate (.controlled (cs.map fun _ => none) sub) (merge.1 ++ merge.2)
  | g => gate g qs

def phasorOf (p : PauliString R) (halfTurns : Param R) : Operation R :=
  phasor p (match halfTurns with
    | .num x => .num (ofInt 1 - mod (ofInt 1 - x) (ofInt 2))
    | e => e)

def sameQubits (qs rs : Qubits) : Bool := qs.all rs.contains && rs.all qs.contains

def sameGroups (g h : Gate R) (qs rs : Qubits) : Bool :=
  match g.exchangeKey?, h.exchangeKey? with
  | some k, some l =>
    let groups (key : Nat → Nat) (qs : Qubits) : List Nat := ((List.range qs.length).map key).eraseDups
    let group (key : Nat → Nat) (qs : Qubits) (v : Nat) : Qubits :=
      ((List.range qs.length).filter fun i => key i == v).map fun i => qs.getD i default
    let ks := groups k qs
    let ls := groups l rs
    ks.all ls.contains && ls.all ks.contains && ks.all fun v => sameQubits (group k qs v) (group l rs v)
  | none, none => qs == rs
  | _, _ => false

def beq : Operation R → Operation R → Bool
  | gate g qs, gate h rs => g == h && sameGroups g h qs rs
  | controlled cs a, controlled ds b => cs == ds && beq a b
  | parallel g qs, parallel h rs => g == h && sameQubits qs rs
  | pauli p, pauli q => p == q
  | phasor p t, phasor q u => p == q && t == u
  | expectation p n k, expectation q m l => p == q && n == m && k == l
  | _, _ => false

instance : BEq (Operation R) := ⟨beq⟩

def near (atol : R) : Operation R → Operation R → Bool
  | gate g qs, gate h rs => g.near atol h && sameGroups g h qs rs
  | a, b => a == b

def isParameterized : Operation R → Bool
  | gate g _ | parallel g _ => g.isParameterized
  | controlled _ sub => sub.isParameterized
  | phasor _ t => t.isParameterized
  | _ => false

def resolve (env : String → Option (Param R)) : Operation R → Operation R
  | gate g qs => gate (g.resolve env) qs
  | controlled cs sub => controlled cs (sub.resolve env)
  | parallel g qs => parallel (g.resolve env) qs
  | phasor p t => phasorOf p (t.resolve env)
  | op => op

def kindPath : Operation R → String
  | gate .. => "cirq.ops.gate_operation.GateOperation"
  | controlled .. => "cirq.ops.controlled_operation.ControlledOperation"
  | parallel .. => "cirq.ops.parallel_gate_operation.ParallelGateOperation"
  | pauli _ => "cirq.ops.pauli_string.PauliString"
  | phasor .. => "cirq.contrib.paulistring.pauli_string_phasor.PauliStringPhasor"
  | expectation _ none _ => "cirq.ops.display.PauliStringExpectation"
  | expectation _ (some _) _ => "cirq.ops.display.ApproxPauliStringExpectation"
  | acquainted .. => "cirq.contrib.acquaintance.executor.AcquaintanceOperation"

def measurementKey? : Operation R → Option String
  | gate (.measurement _ key _) _ => some key
  | _ => none

def isMeasurement (op : Operation R) : Bool := op.measurementKey?.isSome

def hasGateKind (name : String) (op : Operation R) : Bool := match op.gate? with
  | some g => g.isKind name
  | none => false

def passing? : Operation R → Option PauliString.Passing
  | gate (.clifford c) [q] => some (.rotation c q)
  | gate (.power .cz _ _ _) [q0,q1] => some (.interaction .z false .z false q0 q1)
  | gate (.interaction p0 i0 p1 i1 _) [q0,q1] => some (.interaction p0 i0 p1 i1 q0 q1)
  | _ => none
end Operation

/-! ## What gates and operations can be asked for

Not every gate has a matrix, a decomposition, symbols for a diagram and so on. -/

inductive Facet where
  | unitary | decompose | pow | diagram | qasm | mixture | channel | phase | key
  deriving DecidableEq
namespace Facet
def name : Facet → String
  | unitary => "_unitary_"
  | decompose => "_decompose_"
  | pow => "__pow__"
  | diagram => "_circuit_diagram_info_"
  | qasm => "_qasm_"
  | mixture => "_mixture_"
  | channel => "_channel_"
  | phase => "_phase_by_"
  | key => "_measurement_key_"

def refusal (f : Facet) (kind : String) (offered : Bool) : Fault :=
  let start := "object of type '" ++ kind ++ "' "
  if offered then
    .type (start ++ "does have a " ++ f.name ++ " method, but it returned NotImplemented"
      ++ (if f = decompose || f = qasm then " or None." else "."))
  else .type (start ++ "has no " ++ f.name ++ " method.")
end Facet
def mixtureRefusal (kind : String) (offered : Bool) : Fault :=
  .type ("object of type '" ++ kind ++ "' " ++ (if offered then
    "does have a _mixture_ or _unitary_ method, but it returned NotImplemented." else "has no _mixture_ or _unitary_ method."))

def actionRefusal (kind asked : String) : Fault :=
  .type s!"object of type '{kind}' has no {asked} methods (or they returned None or NotImplemented)."
def stateRefusal (kind : String) : Fault := actionRefusal kind "_apply_unitary_ or _unitary_"
def densityRefusal (kind : String) : Fault :=
  actionRefusal kind "_apply_channel_, _apply_unitary_, _unitary_, or _channel_"

def channelRefusal (kind : String) (offered : Bool) : Fault :=
  .type ("object of type '" ++ kind ++ "' " ++ (if offered then
    "does have a _channel_, _mixture_ or _unitary_ method, but it returned NotImplemented."
    else "has no _channel_ or _mixture_ or _unitary_ method."))
variable [RealScalar R] (f : Facet)
def Gate.offers : Gate R → Bool
  | .power k _ _ _ => match f with
    | .unitary | .pow | .diagram => true
    | .decompose => [PowerKind.h,.cnot,.swap,.iswap,.ccz,.ccx].contains k
    | .qasm => [PowerKind.x,.y,.z,.h,.cz,.cnot,.swap,.ccz,.ccx].contains k
    | .phase => [PowerKind.x,.y,.z,.cz].contains k
    | _ => false
  | .phasedX .. => [Facet.unitary,.decompose,.pow,.diagram,.qasm,.phase].contains f
  | .identity _ => [Facet.unitary,.pow,.diagram].contains f
  | .measurement .. => [Facet.pow,.diagram,.qasm,.channel,.key].contains f
  | .matrix .. => [Facet.unitary,.pow,.diagram,.phase].contains f
  | .controlled .. | .clifford _ | .interaction .. => [Facet.unitary,.decompose,.pow,.diagram].contains f
  | .cswap => [Facet.unitary,.decompose,.pow,.diagram,.qasm].contains f
  | .channel c => match f with
    | .pow | .diagram => true
    | .mixture => c.mixture?.isSome
    | .channel => c.kraus?.isSome
    | _ => false
  | .universal .. => [Facet.unitary,.pow,.qasm].contains f
  | .inverse _ => [Facet.decompose,.pow].contains f
  | .opportunity _ => [Facet.pow,.diagram].contains f
  | .permutation .. => [Facet.decompose,.pow,.diagram].contains f

def Operation.offers : Operation R → Bool
  | .gate .. | .acquainted .. => true
  | .controlled .. => [Facet.unitary,.decompose,.pow,.diagram].contains f
  | .parallel .. => [Facet.unitary,.decompose,.pow,.diagram,.phase].contains f
  | .phasor .. => [Facet.decompose,.pow,.diagram].contains f
  | .pauli _ | .expectation .. => false

def Gate.refusal (g : Gate R) : Fault := f.refusal (classText g.kindPath) (g.offers f)
def Operation.refusal (op : Operation R) : Fault := f.refusal (classText op.kindPath) (op.offers f)

def Gate.orRefuse {α : Type} (f : Facet) (g : Gate R) (a : Outcome (Option α)) : Outcome α := do
  match ← a with
  | some x => .ok x
  | none => .error (g.refusal f)

def Operation.orRefuse {α : Type} (f : Facet) (op : Operation R) (a : Outcome (Option α)) : Outcome α := do
  match ← a with
  | some x => .ok x
  | none => .error (op.refusal f)

/-! ## Decompositions, powers and inverses

A gate that is not given by an exponent has an inverse if its decomposition is a list of invertible operations. The two
notions call each other, so both take a bound on the depth of nesting. -/
namespace Decomposition
open Gate Param
def frac (n : Int) (d : Nat) : Param R := .num (ratio n d)
def op (k : PowerKind) (e : Param R) (qs : Qubits) : Operation R := .gate (.power k e nought false) qs
def cnot (a b : Qubit) : Operation R := .gate CNOT [a,b]
def hadamard (q : Qubit) : Operation R := .gate H [q]
def xPower (n : Int) (d : Nat) (q : Qubit) : Operation R := .gate (.axisPower .x (frac n d)) [q]
def yPower (n : Int) (d : Nat) (q : Qubit) : Operation R := .gate (.axisPower .y (frac n d)) [q]
def phase (n : Int) (d : Nat) (e : Param R) (q : Qubit) : Operation R := op .z (mul (frac n d) e) [q]
def minusOne : Param R := .num (ofInt (-1))
def t (q : Qubit) : Operation R := op .z (frac 1 4) [q]
def tInverse (q : Qubit) : Operation R := op .z (frac (-1) 4) [q]

def ccz (e : Param R) (a b c : Qubit) : Ops R :=
  let (a,b,c) :=
    if b.hasPlace then
      if !b.isAdjacent a then (a,c,b) else if !b.isAdjacent c then (b,a,c) else (a,b,c)
    else (a,b,c)
  let p (q : Qubit) : Operation R := phase 1 4 e q
  let m (q : Qubit) : Operation R := op .z ((mul (frac 1 4) e).mul minusOne) [q]
  let along : Ops R := [cnot a b,cnot b c]
  [p a,p b,p c] ++ along ++ [m b,p c] ++ along ++ [m c] ++ along ++ [m c] ++ along

def cswapInside (a b c : Qubit) : Ops R :=
  [cnot a b,cnot b a,cnot c b,hadamard c,t c,cnot b c,t a,tInverse b,t c,cnot a b,cnot b c,t b,tInverse c,
   cnot a b,cnot b c,xPower 1 2 b,tInverse c,cnot b a,cnot b c,cnot a b,cnot b c,hadamard c,
   op .z (frac (-1) 2) [c],xPower (-1) 2 a]

def cswapOutside (a b c : Qubit) : Ops R :=
  let along : Ops R := [cnot a b,cnot b c]
  [cnot c b,yPower (-1) 2 c,t a,t b,t c] ++ along ++ [tInverse b,t c] ++ along ++ [tInverse c] ++ along
    ++ [tInverse c,xPower 1 2 b] ++ along ++ [op .z (frac 1 2) [c],xPower 1 2 b,xPower (-1) 2 c]

def cswap (c t1 t2 : Qubit) : Ops R :=
  if t1.hasPlace && !t1.isAdjacent t2 then cswapInside t1 c t2
  else if t1.hasPlace && !t1.isAdjacent c then cswapOutside c t2 t1
  else cswapOutside c t1 t2

def power (k : PowerKind) (e : Param R) (qs : Qubits) : Option (Ops R) :=
  match k, qs with
  | .h, q :: _ =>
    some (if e.isInt 1 then [yPower 1 2 q,.gate (.power .x (.num one) (ratio (-1) 4) false) [q]]
      else [op .y (frac 1 4) [q],op .x e [q],op .y (frac (-1) 4) [q]])
  | .cnot, [c,t] => some [op .y (frac (-1) 2) [t],op .cz (mul (.num one) e) [c,t],op .y (frac 1 2) [t]]
  | .swap, [a,b] => some [cnot a b,op .cnot (mul (.num one) e) [b,a],cnot a b]
  | .iswap, [a,b] =>
    some [cnot a b,hadamard a,cnot b a,phase 1 2 e a,cnot b a,phase 1 2 (-e) a,hadamard a,cnot a b]
  | .ccz, [a,b,c] => if e.isParameterized then none else some (ccz e a b c)
  | .ccx, [a,b,t] => some [hadamard t,op .ccz (mul (.num one) e) [a,b,t],hadamard t]
  | _, _ => none

def phasedX (p e : Param R) (q : Qubit) : Option (Ops R) :=
  if p.isParameterized then none
  else
    let z := mul (.num one) p
    some [.gate (.axisPower .z (z.mul minusOne)) [q],.gate (.axisPower .x (mul (.num one) e)) [q],.gate (.axisPower .z z) [q]]

def clifford (c : Clifford) (q : Qubit) : Ops R :=
  if c = Clifford.hadamard then [hadamard q]
  else c.rotations.map fun (p,n) => .gate (.axisPower p (.num (one * ratio n 2))) [q]

def interaction (p0 : Pauli) (i0 : Bool) (p1 : Pauli) (i1 : Bool) (e : Param R) (q0 q1 : Qubit) : Ops R :=
  let r0 := Clifford.ofOne .z ⟨p0,i0⟩
  let r1 := Clifford.ofOne .z ⟨p1,i1⟩
  [.gate (.clifford r0.inverse) [q0],.gate (.clifford r1.inverse) [q1],op .cz (mul (.num one) e) [q0,q1],
   .gate (.clifford r0) [q0],.gate (.clifford r1) [q1]]

def phasor (p : PauliString R) (halfTurns : Param R) : Outcome (Ops R) :=
  match p.support with
  | [] => .ok []
  | q :: rest =>
    if !(p.coefficient == (1 : Cpx R) || p.coefficient == (-1 : Cpx R)) then
      .error ⟨.unimplemented,some "TODO: arbitrary coefficients."⟩
    else
      let turn := p.toZBasis.map fun (c,q) => (Operation.gate (.clifford c) [q] : Operation R)
      let back := p.toZBasis.reverse.map fun (c,q) => (Operation.gate (.clifford c.inverse) [q] : Operation R)
      let gather := rest.map fun r => cnot r q
      let spread := rest.reverse.map fun r => op .cnot (mul (.num one) minusOne) [r,q]
      let middle := mul (.num one) (halfTurns.mul (.num p.coefficient.re))
      .ok (turn ++ gather ++ [.gate (.axisPower .z middle) [q]] ++ spread ++ back)
end Decomposition
open Decomposition
def Gate.matrixPower (m : Mat R) (e : Param R) : Outcome (Option (Gate R)) :=
  match e with
  | .num x => do
    let n := Spectral.mapValues (fun z => z.rpow x) m
    .ok (some (← Gate.matrixOf m.rows n true))
  | _ => .ok none

def Gate.cliffordPower (c : Clifford) (e : Param R) : Outcome (Option (Gate R)) :=
  if e.isNum (RealScalar.ratio 1 2) || e.isNum (RealScalar.ratio (-1) 2) then
    match c.halfTurnRoot? (e.isNum (RealScalar.ratio 1 2)) with
    | some r => .ok (some (.clifford r))
    | none => fails .key
  else if e.isInt (-1) then .ok (some (.clifford c.inverse))
  else .ok none

def notInvertible (path : String) : Fault :=
  .type (s!"object of type '{path}' isn't invertible. It has no __pow__ method "
    ++ "(or the method returned NotImplemented) and it isn't an iterable of invertible objects.")
mutual
def Gate.decomposeAt : Nat → Gate R → Qubits → Outcome (Option (Ops R))
  | 0, _, _ => fails .recursion
  | n+1, g, qs => match g with
    | .power k e s a =>
      if (Gate.power k e s a).offers .decompose && k ≠ .h && qs.length ≠ k.numQubits && !(k = .ccz && e.isParameterized) then
        fails .value
      else .ok (power k e qs)
    | .phasedX p e _ => match qs with
      | [q] => .ok (phasedX p e q)
      | _ => fails .assertion
    | .clifford c => match qs with
      | [q] => .ok (some (clifford c q))
      | _ => fails .value
    | .interaction p0 i0 p1 i1 e => match qs with
      | [q0,q1] => .ok (some (interaction p0 i0 p1 i1 e q0 q1))
      | _ => fails .value
    | .cswap => match qs with
      | [c,t1,t2] => .ok (some (cswap c t1 t2))
      | _ => fails .value
    | .controlled cs sub => do
      match ← Gate.decomposeAt n sub (qs.drop cs.length) with
      | none => .ok none
      | some ops => .ok (some (ops.map (Operation.controlled (qs.take cs.length))))
    | .inverse h => do
      match ← Gate.decomposeAt n h qs with
      | none => .error (h.refusal .decompose)
      | some ops =>
        let inverses ← ops.mapM fun o => Operation.powAt n o minusOne
        if inverses.all Option.isSome then .ok (some (inverses.reverse.filterMap id))
        else .error (notInvertible "<class 'list'>")
    | .permutation p swap => match p with
      | .swap => if qs.length ≠ swap.numQubits then fails .value else .ok (some [.ofGate swap qs])
      | p => do
        let steps ← p.steps qs
        .ok (some (steps.map fun s => let (g,qs) := Gate.ofStep swap s; .gate g qs))
    | _ => .ok none

def Gate.powAt : Nat → Gate R → Param R → Outcome (Option (Gate R))
  | 0, _, _ => fails .recursion
  | n+1, g, x => match g with
    | .power _ e _ _ | .phasedX _ e _ | .interaction _ _ _ _ e => .ok (some (g.withExponent (e.mul x)))
    | .matrix m _ => Gate.matrixPower m x
    | .controlled cs sub => do .ok ((← Gate.powAt n sub x).map (Gate.controlledBy cs))
    | .clifford c => Gate.cliffordPower c x
    | .inverse h => .ok (if x.isInt 1 then some (.inverse h) else if x.isInt (-1) then some h else none)
    | .permutation (.linear k images) swap =>
      .ok (if x.isInt 1 then some g
        else if x.isInt (-1) then some (.permutation (.linear k (images.map fun (i,j) => (j,i))) swap) else none)
    | _ =>
      if x.isInt 1 then .ok (some g)
      else if x.isInt (-1) then do
        match ← Gate.decomposeAt n g (Qubit.lineRange g.numQubits) with
        | none => .ok none
        | some ops =>
          let inverses ← ops.mapM fun o => Operation.powAt n o minusOne
          .ok (if inverses.all Option.isSome then some (.inverse g) else none)
      else .ok none

def Operation.powAt : Nat → Operation R → Param R → Outcome (Option (Operation R))
  | 0, _, _ => fails .recursion
  | n+1, op, x => match op with
    | .gate g qs => do .ok ((← Gate.powAt n g x).map fun h => .ofGate h qs)
    | .acquainted qs _ => do
      .ok ((← Gate.powAt n (.opportunity qs.length) x).map fun h => .gate h qs)
    | .controlled cs sub => do .ok ((← Operation.powAt n sub x).map (Operation.controlled cs))
    | .parallel g qs => do .ok ((← Gate.powAt n g x).map fun h => .parallel h qs)
    | .phasor p t => .ok (some (.phasorOf p (t.mul x)))
    | .pauli _ | .expectation .. => .ok none
end
def nesting : Nat := 100
namespace Gate
def decomposeOnce? (g : Gate R) (qs : Qubits) : Outcome (Option (Ops R)) := decomposeAt nesting g qs
def pow? (g : Gate R) (x : Param R) : Outcome (Option (Gate R)) := powAt nesting g x
end Gate
namespace Operation
def decomposeOnce? : Operation R → Outcome (Option (Ops R))
  | gate g qs => g.decomposeOnce? qs
  | controlled cs sub => do .ok ((← decomposeOnce? sub).map fun ops => ops.map (controlled cs))
  | parallel g qs => .ok (some (qs.map fun q => ofGate g [q]))
  | phasor p t => do .ok (some (← Decomposition.phasor p t))
  | pauli _ | expectation .. | acquainted .. => .ok none

def pow? (op : Operation R) (x : Param R) : Outcome (Option (Operation R)) := powAt nesting op x
def inverse? (op : Operation R) : Outcome (Option (Operation R)) := op.pow? minusOne

def inverses? (ops : Ops R) : Outcome (Option (Ops R)) := do
  let rs ← ops.mapM inverse?
  .ok (if rs.all Option.isSome then some (rs.reverse.filterMap id) else none)
end Operation

/-! ## Repeated decomposition

Items are taken apart from the left until only items that are kept, and items that cannot be taken apart, are left. -/

/-- How items are taken apart: one step, the items that are kept as they are, and what to do with an item that is
neither kept nor can be taken apart. -/
structure Expander (α : Type) where
  step : α → Outcome (Option (List α))
  keep : α → Bool := fun _ => false
  stuck : α → Option Fault := fun _ => none
namespace Expander
variable (d : Expander α)
def leaves : Nat → α → Outcome (List α)
  | 0, _ => fails .recursion
  | n+1, a =>
    if d.keep a then .ok [a]
    else do
      match ← d.step a with
      | some parts => .ok (← parts.mapM (leaves n)).flatten
      | none => match d.stuck a with
        | some f => .error f
        | none => .ok [a]

def expand (items : List α) : Outcome (List α) := do .ok (← items.mapM (d.leaves nesting)).flatten
end Expander
namespace Operation
/-- What takes the place of an operation. A Pauli string is a collection as well, and is replaced by itself. -/
def parts? {R : Type} [RealScalar R] : Operation R → Outcome (Option (Ops R))
  | pauli p => .ok (some [pauli p])
  | op => op.decomposeOnce?

def expander {R : Type} [RealScalar R] : Expander (Operation R) := { step := parts? }
end Operation
end QuantumCircuits
