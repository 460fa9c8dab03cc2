import QuantumCircuits.Optimizer

/-! # Separating phases along Pauli strings

All phases along Pauli strings are pulled to the front, past the operations before them; what is left is the other
half. -/
namespace QuantumCircuits
variable {R : Type} [RealScalar R]
namespace PauliPhase
variable [OperationText R] (c : OpCircuit R)
def settled (e : Circuit.Edit (Operation R) Unit) : Outcome (OpCircuit R) := do
  e.2
  .ok e.1

def convert (keepCliffords : Bool) (atol : R) (c : OpCircuit R) : Outcome (OpCircuit R) := do
  let c ← settled ((Conversion.toPhases false false).run c)
  let c ← settled (MergeSingle.intoMatrices.run c)
  let c ← settled ((Conversion.toPhasors true keepCliffords atol).run c)
  settled (Cleaning.dropEmpty .none c)

def isPhasor (op : Operation R) : Bool := (Phasor.of? op).isSome
def crossed (i : Nat) : Ops R :=
  (c.moments.take i).reverse.flatMap fun m => m.ops.filter fun op => !isPhasor op
def pulled : Outcome (List (Phasor R)) :=
  (c.placed.filterMap fun (i,op) => (Phasor.of? op).map (i,·)).mapM fun (i,p) => p.pass false (crossed c i)
def stringHalf : Outcome (OpCircuit R) := do
  Circuit.ofOps ((← pulled c).map Phasor.toOp)
def regularHalf : OpCircuit R :=
  ⟨c.moments.map fun m => ⟨m.ops.filter fun op => !isPhasor op⟩⟩

def separate (leaveCliffords : Bool) (atol : R) (c : OpCircuit R) : Outcome (OpCircuit R × OpCircuit R) := do
  let c ← convert leaveCliffords atol c
  .ok (← stringHalf c,regularHalf c)

/-! ## The graph of phases

An edge goes from an earlier phase to a later one when their strings do not commute. Phases along equal strings that are
not ordered by the graph are merged, and those that do nothing are taken out. -/
structure Graph (R : Type) where
  nodes : List (Nat × Phasor R)
  edges : List (Nat × Nat)
namespace Graph
def append (g : Graph R) (p : Phasor R) : Graph R :=
  let k := g.nodes.length
  ⟨g.nodes ++ [(k,p)],g.edges ++ (g.nodes.filter fun (_,o) => !o.string.commutesWith p.string).map fun (i,_) => (i,k)⟩

def ofPhasors (ps : List (Phasor R)) : Graph R := ps.foldl append ⟨[],[]⟩
def get? (g : Graph R) (n : Nat) : Option (Phasor R) := g.nodes.lookup n
def remove (g : Graph R) (n : Nat) : Graph R :=
  ⟨g.nodes.filter fun e => e.1 ≠ n,g.edges.filter fun e => e.1 ≠ n && e.2 ≠ n⟩
def set (g : Graph R) (n : Nat) (p : Phasor R) : Graph R :=
  { g with nodes := g.nodes.map fun e => if e.1 = n then (n,p) else e }
def numbers (g : Graph R) : List Nat := g.nodes.map (·.1)

def descendants (g : Graph R) (n : Nat) : List Nat :=
  g.numbers.foldl (fun found k =>
    if g.edges.any fun (a,b) => b == k && (a == n || found.contains a) then found ++ [k] else found) []

def ancestors (g : Graph R) (n : Nat) : List Nat :=
  g.numbers.reverse.foldl (fun found k =>
    if g.edges.any fun (a,b) => a == k && (b == n || found.contains b) then found ++ [k] else found) []

def unordered (g : Graph R) (n : Nat) : List Nat :=
  let ordered := g.ancestors n ++ g.descendants n
  g.numbers.filter fun k => k ≠ n && !ordered.contains k
def absorb (n : Nat) (g : Graph R) (others : List Nat) : Outcome (Graph R) :=
  others.foldlM (fun (g : Graph R) k => match g.get? n,g.get? k with
    | some p,some q =>
      if p.string.sameTerms q.string then do .ok ((g.remove k).set n (← p.merge q)) else .ok g
    | _,_ => .ok g) g

/-- Merges equal strings that are not ordered; `arrange` chooses the order in which nodes are looked at. -/
def mergeEqual (arrange : List Nat → List Nat) (g : Graph R) : Outcome (Graph R) :=
  g.numbers.foldlM (fun (g : Graph R) n =>
    if g.numbers.contains n then absorb n g (arrange (g.unordered n)) else .ok g) g

def isNegligible (p : Phasor R) : Outcome Bool := match p.halfTurns with
  | .num x => .ok (SingleQubit.nearMultiple (RealScalar.ofInt 2) (RealScalar.ratio 1 100000000) x)
  | _ => fails .type

def dropNegligible (g : Graph R) : Outcome (Graph R) :=
  g.nodes.foldlM (fun (g : Graph R) (n,p) => do .ok (if ← isNegligible p then g.remove n else g)) g

def simplify (arrange : List Nat → List Nat) (g : Graph R) : Outcome (Graph R) := do
  let h ← (← g.mergeEqual arrange).dropNegligible
  if _smaller : h.nodes.length < g.nodes.length then simplify arrange h else .ok h
termination_by g.nodes.length
end Graph
end PauliPhase

/-! ## Merging Clifford gates

Clifford gates are moved to the end, rotation by rotation, and merged with others that they meet. -/
namespace PauliPhase.CliffordMerge
structure Moving where
  axes : List (Qubit × Pauli)
  negated : Bool
namespace Moving
variable (m : Moving)
def qubits : Qubits := m.axes.map (·.1)
def meets (op : Operation R) : Bool := op.qubits.any m.qubits.contains
def isSingle : Bool := m.axes.length == 1

def pass (op : Operation R) : Moving := match op.passing? with
  | none => m
  | some p =>
    let (axes,flip) := PauliString.passOne true m.axes p
    ⟨axes,m.negated ^^ flip⟩
end Moving
inductive Meeting where
  | stop | change | skip
  deriving DecidableEq

/-- Clifford gates stop a rotation about one qubit, controlled phases only where they are to, and phases about the same
axis are passed unchanged. -/
def meeting (stopAtPhase : Bool) (m : Moving) : Operation R → Meeting
  | .gate (.clifford _) _ => if m.isSingle then .stop else .change
  | .gate (.power .cz ..) _ => if stopAtPhase then .stop else .change
  | .phasor p _ => match p.terms with
    | [(q,a)] => if PauliString.find? q m.axes = some a then .skip else .stop
    | _ => .stop
  | _ => .stop

/-- The furthest place at which the rotation is about one qubit, what it is there, and whether it has passed anything. -/
structure MergePoint where
  index : Nat
  moving : Moving
  passed : Bool

def seek (stopAtPhase : Bool) : Ops R → Nat → Moving → MergePoint → MergePoint
  | [], _, _, b => b
  | op :: ops, i, m, b =>
    if !m.meets op then seek stopAtPhase ops (i+1) m b
    else
      let reach (m : Moving) : MergePoint :=
        if m.isSingle then ⟨i+1,m,true⟩ else { b with passed := true }
      match meeting stopAtPhase m op with
      | .stop => if m.isSingle then { b with index := i, moving := m } else b
      | .change => seek stopAtPhase ops (i+1) (m.pass op) (reach (m.pass op))
      | .skip => seek stopAtPhase ops (i+1) m (reach m)

def isFullPhase : Operation R → Bool
  | .gate (.power .cz e _ _) _ => e.isInt 1
  | _ => false

/-- Puts a Clifford gate on a qubit at a place, merging it with what is there; `none` when it has got nowhere. -/
def settle (ops : Ops R) (b : MergePoint) (q : Qubit) (axis : Pauli) (quarter : Int) : Option (Ops R) :=
  let c := Clifford.quarterTurns axis quarter
  let gate : Operation R := .gate (.clifford c) [q]
  let onward := if 0 < b.index && b.passed then some (ops.insertIdx b.index gate) else none
  match ops[b.index]? with
  | none => onward
  | some other =>
    if !other.qubits.contains q then onward
    else match other with
      | .gate (.clifford d) _ => some (ops.set b.index (.gate (.clifford (c.mergedWith d)) [q]))
      | .phasor p t =>
        some ((ops.set b.index (.phasorOf (p.passOver false [.rotation c q]) t)).insertIdx (b.index+1) gate)
      | other =>
        if isFullPhase other && quarter == 2 then
          let kick := match other.qubits with
            | [q0,q1] => if axis = .z then [] else [.gate (.clifford .zHalf) [if q = q0 then q1 else q0]]
            | _ => []
          some (ops.take (b.index+1) ++ [gate] ++ kick ++ ops.drop (b.index+1))
        else onward

/-- Moves one rotation of a Clifford gate on; what cannot be moved is gathered in the gate that stays. -/
def moveRotation (q : Qubit) (s : Ops R × Clifford) (rotation : Pauli × Int) : Ops R × Clifford :=
  let (ops,stays) := s
  let image := stays.transform rotation.1
  let quarter := if image.flip then -rotation.2 else rotation.2
  let start : Moving := ⟨[(q,image.axis)],false⟩
  let b := seek (quarter == 2) ops 0 start ⟨0,start,false⟩
  match b.moving.axes with
  | [(r,axis)] =>
    let quarter := (if b.moving.negated then -quarter else quarter) % 4
    match settle ops b r axis quarter with
    | some ops => (ops,stays)
    | none => (ops,stays.mergedWith (.quarterTurns axis quarter))
  | _ => (ops,stays)

/-- The operations before, nearest first, without the controlled phase that cancels a given one. -/
def cancel? (op : Operation R) : Ops R → Option (Ops R)
  | [] => none
  | o :: rest =>
    if op.qubits.all fun q => !o.qubits.contains q then (cancel? op rest).map (o :: ·)
    else if !isFullPhase o then none
    else if op == o then some rest
    else (cancel? op rest).map (o :: ·)

def isClifford : Operation R → Bool
  | .gate (.clifford _) _ => true
  | _ => false

/-- Clifford gates weigh more the more other operations come after them, so that moving one on makes the whole lighter. -/
def weight : Ops R → Nat
  | [] => 0
  | op :: ops => (if isClifford op then 7^(ops.filter fun o => !isClifford o).length else 0) + weight ops

def advance (before : Ops R) (op : Operation R) (after : Ops R) : Ops R × Ops R :=
  match op with
  | .gate (.clifford c) [q] =>
    let (after,stays) := c.rotations.reverse.foldl (moveRotation q) (after,.identity)
    (if stays = .identity then before else .gate (.clifford stays) [q] :: before,after)
  | op =>
    if isFullPhase op then ((cancel? op before).getD (op :: before),after) else (op :: before,after)

def sweep (before after : Ops R) : Outcome (Ops R) :=
  match after with
  | [] => .ok before.reverse
  | op :: rest =>
    let next := advance before op rest
    if _lighter : weight next.2 < weight (op :: rest) ∨
        (weight next.2 = weight (op :: rest) ∧ next.2.length < (op :: rest).length) then
      sweep next.1 next.2
    else fails .recursion
termination_by (weight after,after.length)
decreasing_by
  rcases _lighter with h | ⟨h,h'⟩
  · exact Prod.Lex.left _ _ h
  · rw [h]; exact Prod.Lex.right _ h'
variable [OperationText R]
def optimize (atol : R) (c : OpCircuit R) : Outcome (OpCircuit R) := do
  Circuit.ofOps (← sweep [] (← convert true atol c).operations)
end PauliPhase.CliffordMerge

/-! ## Putting phases back into a circuit

Each phase goes to the latest of the places where its string is as short as possible, once no phase after it in the
graph is left. -/
namespace PauliPhase
structure Placement (R : Type) where
  phasor : Phasor R
  index : Nat
  node : Nat
namespace Placement
def better (a b : Placement R) : Bool :=
  a.phasor.string.size < b.phasor.string.size || (a.phasor.string.size == b.phasor.string.size && b.index < a.index)

def best? : List (Placement R) → Option (Placement R)
  | [] => none
  | p :: ps => some (ps.foldl (fun b p => if p.better b then p else b) p)
end Placement
def canCross (op : Operation R) : Bool := match op with
  | .gate (.clifford _) _ | .gate (.interaction ..) _ | .gate (.power .cz ..) _ => true
  | _ => false
variable [OperationText R]
def placementsFrom (node : Nat) : Ops R → Nat → Phasor R → Outcome (List (Placement R) × Phasor R)
  | [], _, p => .ok ([],p)
  | op :: ops, i, p =>
    let isFree := op.qubits.all fun q => !p.string.support.contains q
    let commutes := match Phasor.of? op with
      | some o => o.string.commutesWith p.string
      | none => false
    if isFree || commutes then placementsFrom node ops (i+1) p
    else if canCross op then do
      let p ← p.pass true [op]
      let (rest,last) ← placementsFrom node ops (i+1) p
      .ok (⟨p,i+1,node⟩ :: rest,last)
    else .ok ([],p)

/-- The placements of several phases; no more are tried after one that ends with a string on one qubit. -/
def placements (g : Graph R) (ops : Ops R) : List Nat → Outcome (List (Placement R))
  | [] => .ok []
  | n :: ns => match g.get? n with
    | none => placements g ops ns
    | some p => do
      let (found,last) ← placementsFrom n ops 0 p
      let found := ⟨p,0,n⟩ :: found
      if last.string.size == 1 then .ok found else .ok (found ++ (← placements g ops ns))

def Graph.last (g : Graph R) : List Nat := g.numbers.filter fun n => !g.edges.any fun e => e.1 == n

/-- Moves phases into the operations until none can be moved, in at most so many moves. -/
def place (arrange : List Nat → List Nat) : Nat → Graph R → Ops R → Outcome (Graph R × Ops R)
  | 0, g, ops => .ok (g,ops)
  | k+1, g, ops => do
    match Placement.best? (← placements g ops (arrange g.last)) with
    | none => .ok (g,ops)
    | some b => place arrange k (g.remove b.node) (ops.insertIdx b.index b.phasor.toOp)

def recombine (arrange : List Nat → List Nat) (g : Graph R) (right : OpCircuit R) : Outcome (OpCircuit R) := do
  let (rest,ops) ← place arrange g.nodes.length g right.operations
  if rest.nodes.isEmpty then Circuit.ofOps ops else fails .assertion
end PauliPhase

/-! ## Optimizing by phases along Pauli strings -/
namespace PauliPhase
variable [OperationText R]
def checkSingle (c : OpCircuit R) : Outcome (OpCircuit R) :=
  if c.operations.all fun op => match op with
      | .phasor p _ => p.size == 1
      | _ => true then .ok c
  else fails .assertion

def optimizeStrings (moveCliffords : Bool) (atol : R) (c : OpCircuit R) : Outcome (OpCircuit R) := do
  let (left,right) ← separate (!moveCliffords) atol c
  let g ← (Graph.ofPhasors (left.operations.filterMap Phasor.of?)).simplify id
  checkSingle (← recombine id g right)

/-- Optimizes strings and Clifford gates in turn, until the number of moments stays the same or the rounds are used up. -/
def rounds (prepare : OpCircuit R → Outcome (OpCircuit R)) (atol : R) : Nat → OpCircuit R → Outcome (OpCircuit R)
  | 0, c => .ok c
  | n+1, c => do
    let d ← CliffordMerge.optimize atol (← optimizeStrings false atol (← prepare c))
    if d.size == c.size then .ok d else rounds prepare atol n d

def optimizeOps (atol : R) (ops : Ops R) : Outcome (Ops R) := do
  .ok (← rounds .ok atol 10 (← Circuit.ofOps ops)).operations

def mergeAndOptimize (atol : R) (c : OpCircuit R) : Outcome (OpCircuit R) :=
  settled (Replacer.run (fun c i op => do
    match ← MergeInteractions.pass false (RealScalar.ratio 1 100000000) c i op with
    | none => .ok none
    | some r => .ok (some { r with ops := ← optimizeOps atol r.ops })) c)

def optimize (mergeInteractions : Bool) (atol : R) (count : Nat) (c : OpCircuit R) : Outcome (OpCircuit R) :=
  rounds (if mergeInteractions then mergeAndOptimize atol else .ok) atol count c
end PauliPhase
end QuantumCircuits
