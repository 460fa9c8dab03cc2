import QuantumCircuits.Device

/-! # Acquaintance strategies

Circuits of opportunities, at which groups of qubits meet, and of permutations that bring them there. -/
namespace QuantumCircuits
variable [RealScalar R]
namespace Operation
variable (op : Operation R)
def isOpportunity : Bool := match op.gate? with
  | some (.opportunity _) => true
  | _ => false

def permuter? : Option Permuter := match op.gate? with
  | some (.permutation p _) => some p
  | _ => none

def acquaintedSize : Nat :=
  if op.isOpportunity then op.qubits.length else (op.permuter?.map Permuter.acquaintedSize).getD 0
variable [OperationText R]
def acquaint (qs : Qubits) : Outcome (Operation R) := (Gate.opportunity qs.length).on qs
end Operation
namespace Acquaintance
variable [OperationText R]
/-- The sizes of the groups that operations form in an order of the qubits, qubits without operation standing alone. The
groups must be contiguous. -/
def partLengths (order : Qubits) (ops : Ops R) : Outcome (List Nat) := do
  let place (q : Qubit) : Nat := order.idxOf q
  let groups := ops.map (·.qubits)
  if !groups.all (·.all order.contains) then fails .value
  let groups := groups.map fun g => g.mergeSort fun a b => place a ≤ place b
  let alone := ((Qubit.distinct order).filter fun q => !groups.any (·.contains q)).map fun q => [q]
  let first (g : Qubits) : Nat := (g.map place).foldl min order.length
  let parts := (alone ++ groups).mergeSort fun a b => first a ≤ first b
  if parts.flatten != order then .error (.value "sum(parts, ()) != tuple(qubit_order)")
  .ok (parts.map List.length)

def networkOf (order : Qubits) (size : Option Nat) (ops : Ops R) : Outcome (Operation R) := do
  let parts ← partLengths order ops
  if parts.length < 2 then .error (.value "len(part_lens) < 2.")
  (Gate.permutation (.swapNetwork parts size) Gate.SWAP).on order

def exposing : Replacer (Operation R) := Conversion.expandAll fun op => op.acquaintedSize == 0 || op.isOpportunity

def expandingPermutations : Replacer (Operation R) := fun c i op =>
  match op with
  | .gate .. | .parallel .. | .acquainted .. =>
    Conversion.expandAll (fun op => match op.permuter? with
      | none | some .swap => true
      | some _ => false) c i op
  | _ => fails .attribute

/-- The moments with opportunities apart from permutations. The flag says which of the two comes first; each moment that
is split turns it into the kind that came last. -/
def rectifyMoments (acquaintFirst : Bool) : List (OpMoment R) → List (OpMoment R)
  | [] => []
  | m :: ms =>
    let meets := m.ops.filter (·.isOpportunity)
    let moves := m.ops.filter (!·.isOpportunity)
    if m.ops.isEmpty then rectifyMoments acquaintFirst ms
    else if meets.isEmpty || moves.isEmpty then m :: rectifyMoments acquaintFirst ms
    else if acquaintFirst then ⟨meets⟩ :: ⟨moves⟩ :: rectifyMoments false ms
    else ⟨moves⟩ :: ⟨meets⟩ :: rectifyMoments true ms

def reflectMoment (order : Qubits) (m : OpMoment R) : Outcome (OpMoment R) := do
  let images := (order.zip order.reverse).reverse
  let ops ← m.ops.mapM fun op => do
    let qs ← op.qubits.mapM fun q => orFail .key (images.lookup q)
    op.withQubits qs
  .ok ⟨ops⟩

/-- Replaces moments of opportunities by swap networks. A network leaves the qubits in reverse order, so that what follows
is reflected until the next network. Also tells whether the order is reversed at the end. -/
def replaceMoments (order : Qubits) (size : Option Nat) (reflected : Bool) (done : List (OpMoment R)) :
    List (OpMoment R) → Circuit.Edit (Operation R) Bool
  | [] => (⟨done⟩,.ok reflected)
  | m :: ms =>
    let next : Outcome (OpMoment R × Bool) := do
      let n ← if reflected then reflectMoment order m else .ok m
      if n.ops.all (·.isOpportunity) then .ok (⟨[← networkOf order size n.ops]⟩,!reflected) else .ok (n,reflected)
    match next with
    | .error f => (⟨done ++ m :: ms⟩,.error f)
    | .ok (n,reflected) => replaceMoments order size reflected (done ++ [n]) ms
end Acquaintance
namespace BoundCircuit
variable [OperationText R] (b : BoundCircuit R)
def isStrategy : Bool := match b.device with
  | .acquaintance => true
  | _ => false

def checkStrategy (name : String) (b : BoundCircuit R) : Check :=
  if b.isStrategy then .ok () else .error (.type ("not is_acquaintance_strategy(" ++ name ++ ")"))

def edit {β : Type} (b : BoundCircuit R) (f : OpCircuit R → Circuit.Edit (Operation R) β) : BoundCircuit R × Outcome β :=
  let (c,r) := f b.circuit
  ({ b with circuit := c },r)

def acquaintedSize : Outcome Nat := do
  b.checkStrategy "circuit"
  .ok ((b.circuit.operations.map Operation.acquaintedSize).foldl max 0)

def expose : BoundCircuit R × Check := b.edit Acquaintance.exposing.run
def expandPermutations : BoundCircuit R × Check :=
  b.edit Acquaintance.expandingPermutations.run

def rectify (acquaintFirst : Bool) (b : BoundCircuit R) : BoundCircuit R × Check :=
  match b.checkStrategy "circuit" with
  | .error f => (b,.error f)
  | .ok () => ({ b with circuit := ⟨Acquaintance.rectifyMoments acquaintFirst b.circuit.moments⟩ },.ok ())

def replaceByNetworks (order : Qubits) (size : Option Nat) (b : BoundCircuit R) : BoundCircuit R × Outcome Bool :=
  match b.rectify true with
  | (b,.error f) => (b,.error f)
  | (b,.ok ()) => b.edit fun c => Acquaintance.replaceMoments order size false [] c.moments
end BoundCircuit

/-! ## Execution of strategies

What the qubits carry at first are their logical indices. -/
variable [OperationText R]
namespace Acquaintance
abbrev Execution (σ R : Type) := σ → List Int → List Qubit → Outcome (Ops R × σ)

def carriedAfter (ops : Ops R) (carried : Carrying Qubit Int) : Outcome (Carrying Qubit Int) :=
  ops.foldlM (fun m op => match op.permuter? with
    | some p => orFail .key (p.update? op.qubits m)
    | none => .ok m) carried

def executing {σ : Type} (e : Execution σ R) : StatefulReplacer (Carrying Qubit Int × σ) (Operation R) :=
  fun (carried,s) _ _ op =>
    if op.isOpportunity then do
      let indices ← op.qubits.mapM fun q => orFail .key (carried.get? q)
      let (ops,s) ← e s indices op.qubits
      .ok (some ⟨1,op.qubits,ops⟩,(carried,s))
    else match op.permuter? with
      | some p => do .ok (none,(← orFail .key (p.update? op.qubits carried),s))
      | none => .error (.type ("Can only execute a strategy consisting of gates that are instances of "
          ++ "AcquaintanceOpportunityGate or PermutationGate."))

abbrev LogicalGates (R : Type) := List (List Int × Gate R)
namespace LogicalGates
def ofList (gates : List (List Int × Gate R)) : LogicalGates R :=
  gates.foldl (fun (known : LogicalGates R) (indices,g) =>
    if known.any (·.1 == indices) then known.map fun e => if e.1 == indices then (indices,g) else e
    else known ++ [(indices,g)]) []

def check (gates : LogicalGates R) : Check :=
  if 1 < (gates.map fun g => g.1.length).eraseDups.length then
    .error ⟨.unimplemented,some "Can only implement greedy strategy if all gates are of the same arity."⟩
  else .ok ()
end LogicalGates
def sameIndices (a b : List Int) : Bool := a.all b.contains && b.all a.contains

/-- Each gate is put at the first opportunity for its indices, gates on the same indices in order of their lists. -/
def greedily : Execution (LogicalGates R) R := fun gates indices qs => do
  let (due,later) := gates.partition fun g => sameIndices g.1 indices
  let carriers := (indices.zip qs).reverse
  let ops ← (due.mergeSort fun a b => !decide (b.1 < a.1)).mapM fun (js,g) => g.on (js.filterMap (carriers.lookup ·))
  .ok (ops,later)

def labelled (qs : Qubits) (indices : List Int) : Outcome (Operation R) :=
  if indices.length ≠ qs.length then .error (.value "len(logical_indices) != len(qubits)")
  else .ok (.acquainted qs indices)

def annotating : Execution Unit R := fun _ indices qs => do .ok ([← labelled qs indices],())
def inOrder (qs : Qubits) : Carrying Qubit Int := qs.zipIdx.map fun (q,i) => (q,(i : Int))

def labels (c : OpCircuit R) : List (List Int) :=
  c.operations.filterMap fun
    | .acquainted _ indices => some ((indices.mergeSort (· ≤ ·)).eraseDups)
    | _ => none

/-- Drops all but the first opportunity for each set of indices, given those already met, and takes off the labels. Also
counts what was dropped. -/
def dedupeOps : List (List Int) → Ops R → Outcome (Ops R × List (List Int) × Nat)
  | met, [] => .ok ([],met,0)
  | met, .acquainted qs indices :: ops =>
    if met.any (sameIndices indices) then do
      let (kept,met,n) ← dedupeOps met ops
      .ok (kept,met,n+1)
    else do
      let op ← Operation.acquaint qs
      let (kept,met,n) ← dedupeOps (met ++ [indices]) ops
      .ok (op :: kept,met,n)
  | met, op :: ops => do
    let (kept,met,n) ← dedupeOps met ops
    .ok (op :: kept,met,n)

def dedupeMoments : List (List Int) → List (OpMoment R) → Outcome (List (OpMoment R) × Nat)
  | _, [] => .ok ([],0)
  | met, m :: ms => do
    let (ops,met,n) ← dedupeOps met m.ops
    let (rest,k) ← dedupeMoments met ms
    .ok (⟨ops⟩ :: rest,n+k)
end Acquaintance
namespace BoundCircuit
open Acquaintance
/-- Executes a strategy, which then is an ordinary circuit; the result is what the qubits carry at the end. -/
def execute {σ : Type} (e : Execution σ R) (carried : Carrying Qubit Int) (s : σ) (b : BoundCircuit R) :
    BoundCircuit R × Outcome (Carrying Qubit Int) :=
  match b.checkStrategy "strategy" with
  | .error f => (b,.error f)
  | .ok () => match b.expose with
    | (b,.error f) => (b,.error f)
    | (b,.ok ()) =>
      let (b,r) := BoundCircuit.edit { b with device := .unconstrained } ((executing e).run (carried,s))
      (b,r.map (·.1))

def annotated (carried : Carrying Qubit Int) (b : BoundCircuit R) : Outcome (BoundCircuit R) := do
  let (b,r) := b.execute annotating carried ()
  let _ ← r
  .ok b

def opportunities (carried : Carrying Qubit Int) (b : BoundCircuit R) : Outcome (List (List Int)) := do
  let (b,r) := b.expose
  let _ ← r
  .ok ((labels (← b.annotated carried).circuit).eraseDups.mergeSort fun a b => !decide (b < a))

def dedupe (b : BoundCircuit R) : BoundCircuit R × Outcome Nat :=
  match b.checkStrategy "circuit" with
  | .error f => (b,.error f)
  | .ok () =>
    let carried := inOrder b.circuit.sortedQubits
    match b.expose with
    | (b,.error f) => (b,.error f)
    | (b,.ok ()) => match b.annotated carried >>= fun a => dedupeMoments [] a.circuit.moments with
      | .error f => (b,.error f)
      | .ok (ms,n) => ({ b with circuit := ⟨ms⟩ },.ok n)
end BoundCircuit

/-! ## Complete strategies

All groups of a size meet: of any size by swap networks over swap networks, of three by reordering for every
separation, of two pairs by a swap network on interleaved pairs. -/
namespace Acquaintance
def strategyOf (ops : Ops R) : Outcome (BoundCircuit R) := do
  let device : Device R := .acquaintance
  .ok ⟨← Circuit.ofTree device.rules (.node (ops.map .leaf)) .earliest,device⟩

def complete (order : Qubits) (size : Int) : Outcome (BoundCircuit R) := do
  if size < 0 then .error (.value "acquaintance_size must be non-negative.")
  if size = 0 ∨ size > order.length then strategyOf []
  else if size = order.length then strategyOf [← Operation.acquaint order]
  else
    let singles ← strategyOf (← order.mapM fun q => Operation.acquaint [q])
    ((List.range (size.toNat+1)).drop 2).foldlM (fun (b : BoundCircuit R) k => do
      let (b,exposed) := b.expose
      let _ ← exposed
      let (b,replaced) := b.replaceByNetworks order (some k)
      let _ ← replaced
      .ok b) singles

def skipAndWrap {α : Type} (items : List α) : List α :=
  let n := items.length
  let places := (Network.everySecond 0 n) ++ (Network.everySecond 1 n).reverse
  (List.range n).filterMap fun i => items[places.idxOf i]?

def byResidue (n step : Nat) : List Nat :=
  (List.range step).flatMap fun r => (List.range n).filter fun i => i % step = r

def windows (size step start : Nat) (qs : Qubits) : List Qubits :=
  ((List.range (qs.length+1-size)).filter fun j => start ≤ j ∧ (j-start) % step = 0).map fun j =>
    (qs.drop j).take size

def opportunitiesAt (groups : List Qubits) : Outcome (OpMoment R) := do
  .ok ⟨← groups.mapM Operation.acquaint⟩
def exchange : Gate R := .permutation .swap Gate.SWAP

/-- Reverses the order of the qubits by layers of swaps; all three neighbours meet before each layer and at the end. -/
def tripleSweep (qs : Qubits) : Outcome (List (OpMoment R)) := do
  let n := qs.length
  let layers ← (List.range (n+1)).mapM fun i => do
    let meets ← (List.range 3).mapM fun offset => opportunitiesAt (windows 3 3 offset qs)
    let moves ← (windows 2 2 (i % 2) qs).mapM (exchange : Gate R).on
    .ok (meets ++ if i < n then [⟨moves⟩] else [])
  .ok layers.flatten

def tripleMoments (qs : Qubits) : List Nat → List Nat → Outcome (List (OpMoment R))
  | [], _ => .ok []
  | separation :: more, order => do
    let n := qs.length
    let next := skipAndWrap (byResidue n separation)
    let images := order.zipIdx.map fun (j,i) => (i,next.idxOf j)
    let move ← (Gate.permutation (.linear n images) exchange).on qs
    let sweep ← tripleSweep qs
    .ok (⟨[move]⟩ :: sweep ++ (← tripleMoments qs more next.reverse))

def cubic (qs : Qubits) : Outcome (BoundCircuit R) := do
  let n := qs.length
  let separations := (List.range (max ((n-1)/2+1) 2)).drop 1
  BoundCircuit.bind ⟨← tripleMoments qs separations (List.range n)⟩ .acquaintance

def interleave {α : Type} : List (α × α) → List α
  | (a,b) :: (c,d) :: rest => a :: c :: b :: d :: interleave rest
  | [(a,b)] => [a,b]
  | [] => []

/-- The order of the qubits of pairs in which two pairs after the other are interleaved. -/
def pairOrder {α : Type} (pairs : List (List α)) : Outcome (List α) := do
  let wrong : Fault := .value "set(len(qubit_pair) for qubit_pair in qubit_pairs) != set((2,))"
  if pairs.isEmpty then .error wrong
  let ps ← pairs.mapM fun
    | [a,b] => .ok (a,b)
    | _ => .error wrong
  .ok (interleave ps)

def quartic (pairs : List Qubits) : Outcome (BoundCircuit R) := do
  let qs ← pairOrder pairs
  let n := qs.length
  let (b,exposed) := (← strategyOf [← (Gate.permutation (.swapNetwork (List.replicate n 1) (some 2)) Gate.SWAP).on qs]).expose
  let _ ← exposed
  (Network.everySecond 0 n).reverse.foldlM (fun (b : BoundCircuit R) i => do
    let m ← opportunitiesAt (windows 4 4 (i % 4) qs)
    let (c,inserted) := b.circuit.insert b.device.rules (2*i : Nat) (.moment m) .earliest
    let _ ← inserted
    .ok { b with circuit := c }) b
end Acquaintance
end QuantumCircuits
