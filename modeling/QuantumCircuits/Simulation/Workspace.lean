import QuantumCircuits.Simulation.Simulator
import QuantumCircuits.Circuit.Insert

/-! # Tables of slots

The search for a free slot goes round from where the last one was found, so that a number is taken again as late as
possible; a full table doubles. -/
namespace QuantumCircuits
structure SlotTable (α : Type) where
  slots : List (Option α)
  current : Nat := 0
  count : Nat := 0
namespace SlotTable
variable (t : SlotTable α)
def empty (size : Nat) : SlotTable α := { slots := List.replicate size none }
def searchOrder : List Nat := (List.range t.slots.length).map fun k => (t.current+k) % t.slots.length
def doubled : SlotTable α := { t with slots := t.slots ++ List.replicate t.slots.length none }
def withRoom : SlotTable α := if t.slots.length ≤ t.count then t.doubled else t

def insert (x : α) (t : SlotTable α) : Outcome (Nat × SlotTable α) :=
  let t := t.withRoom
  if t.slots.isEmpty then fails .index
  else match t.searchOrder.find? fun i => (t.slots.getD i none).isNone with
    | none => .error ⟨.runtime,some "Cannot find free space to allocate new array."⟩
    | some i => .ok (i,{ slots := t.slots.set i (some x), current := i, count := t.count+1 })

def slot (h : Int) (t : SlotTable α) : Outcome Nat :=
  let i := if h < 0 then h+t.slots.length else h
  if 0 ≤ i ∧ i < t.slots.length then .ok i.toNat else fails .index

def get (h : Int) (t : SlotTable α) : Outcome α := do
  match t.slots.getD (← t.slot h) none with
  | some x => .ok x
  | none => fails .assertion

def free (h : Int) (t : SlotTable α) : Outcome (SlotTable α) := do
  let i ← t.slot h
  match t.slots.getD i none with
  | some _ => .ok { t with slots := t.slots.set i none, count := t.count-1 }
  | none => .ok t
end SlotTable

/-! ## States in a lent array

A simulation works in the array that it starts from and in a spare one. Some operations write their result over the
state, others into the spare array, after which the two change places. A sweep lends the same array to each of its points
in turn, so a point starts from what the points before it have left there. -/
variable [RealScalar R]
/-- Takes the entries of `s` at the indices that have the given values on some axes, and those of `t` elsewhere. -/
def Tensor.patch (fixed : List (Nat × Nat)) (s t : Tensor R) : Tensor R :=
  .ofFn t.shape fun i => if fixed.all fun (a,v) => i.getD a 0 == v then s.get i else t.get i
namespace Gate
def isWhole : Param R → Bool
  | .num e => e == RealScalar.ofInt 1
  | _ => false

def writesBeside : Gate R → Bool
  | power .z .. | power .cz .. | power .zz .. | power .ccz .. | power .ccx .. => false
  | power .h e .. | power .cnot e .. | power .swap e .. | power .iswap e .. => !isWhole e
  | identity _ | cswap | controlled .. => false
  | _ => true

/-- The spare array after a gate acts where some axes have fixed values: exchanges keep one of their halves in it, and
a part that is computed beside the state is copied from it. -/
def spareAfter (before after spare : Tensor R) : Gate R → List (Nat × Nat) → List Nat → Tensor R
  | controlled cs sub, fixed, axes =>
    spareAfter before after spare sub (fixed ++ (axes.take cs.length).map fun a => (a,1)) (axes.drop cs.length)
  | cswap, fixed, c :: a :: b :: _ => .patch (fixed ++ [(c,1),(a,1),(b,0)]) before spare
  | power .ccx .., fixed, c :: d :: _ => .patch (fixed ++ [(c,1),(d,1)]) after spare
  | power .cnot e s x, fixed, axes => exchanged (power .cnot e s x) e fixed (axes.zip [1,1])
  | power .swap e s x, fixed, axes => exchanged (power .swap e s x) e fixed (axes.zip [1,0])
  | power .iswap e s x, fixed, axes => exchanged (power .iswap e s x) e fixed (axes.zip [1,0])
  | g, fixed, _ => computed g fixed
where
  computed (g : Gate R) (fixed : List (Nat × Nat)) : Tensor R :=
    if g.writesBeside then .patch fixed after spare else spare
  exchanged (g : Gate R) (e : Param R) (fixed half : List (Nat × Nat)) : Tensor R :=
    if isWhole e then .patch (fixed ++ half) before spare else computed g fixed
end Gate
def Operation.withoutLast : Operation R → Operation R
  | .controlled cs sub => .controlled cs sub.withoutLast
  | .parallel g qs => .parallel g qs.dropLast
  | op => op

def Operation.core : Operation R → Nat × Operation R
  | .controlled cs sub => (cs.length+sub.core.1,sub.core.2)
  | op => (0,op)

/-- A state and a spare array; `isLent` says that the state stands in the array of the caller. -/
structure Workspace (R : Type) where
  state : Tensor R
  spare : Tensor R
  isLent : Bool
namespace Workspace
variable (w : Workspace R) (op : Operation R) (axes : List Nat) (t : Tensor R)
def onTop (t spare : Tensor R) : Workspace R := ⟨t,spare,w.isLent⟩
def beside : Workspace R := ⟨t,w.state,!w.isLent⟩
def lent : Tensor R := if w.isLent then w.state else w.spare
def beforeLast : Tensor R :=
  ((op.withoutLast.act? t axes.dropLast).toOption.bind id).getD t

def spareAfter : Tensor R :=
  let fixed := (axes.take op.core.1).map fun a => (a,1)
  let rest := axes.drop op.core.1
  match op.core.2 with
  | .gate g _ => g.spareAfter w.state t w.spare fixed rest
  | .parallel g _ =>
    if !g.writesBeside || rest.isEmpty then w.spare
    else .patch fixed (if rest.length % 2 = 1 then t else beforeLast op axes w.state) w.spare
  | _ => .patch fixed t w.spare

def place : Workspace R :=
  match op with
  | .gate (.measurement ..) _ => w.onTop t w.spare
  | .gate g _ => if g.writesBeside then w.beside t else w.onTop t (w.spareAfter op axes t)
  | .controlled .. => w.onTop t (w.spareAfter op axes t)
  | .parallel g _ =>
    if !g.writesBeside || axes.isEmpty then w.onTop t w.spare
    else ⟨t,beforeLast op axes w.state,w.isLent != (axes.length % 2 == 1)⟩
  | _ => w.beside t
variable [OperationText R] [NumberText R] {M : Type → Type} [Monad M] [Chance R M]
def advanceOp (qs : Qubits) (s : Workspace R × Report) (op : Operation R) : ExceptT Fault M (Workspace R × Report) := do
  let (t,report) ← WaveFunction.advanceOp qs true (s.1.state,s.2) op
  return (s.1.place op (op.qubits.map qs.idxOf) t,report)

def advance (qs : Qubits) (w : Workspace R) (m : OpMoment R) : ExceptT Fault M (Workspace R) := do
  let ops ← ExceptT.mk (pure (WaveFunction.expander.expand (m.ops.filter fun op => !WaveFunction.isDisplay op)))
  return (← ops.foldlM (advanceOp qs) (w,[])).1

def point (p : Precision) (c : OpCircuit R) (order : QubitOrder) (array : Tensor R) (r : Resolver R) :
    ExceptT Fault M (Workspace R) := do
  let c := Simulator.resolve r c
  let qs ← ExceptT.mk (pure (c.orderedQubits order []))
  let entries ← ExceptT.mk (pure ((InitialState.array array p).vector qs.length p))
  let start : Tensor R := ⟨Tensor.qubitShape qs.length,entries⟩
  c.moments.foldlM (advance qs) ⟨start,start,true⟩

def points (p : Precision) (c : OpCircuit R) (order : QubitOrder) : Tensor R → List (Resolver R) →
    ExceptT Fault M (List (Option (Tensor R)) × Tensor R)
  | array, [] => pure ([],array)
  | array, r :: rs => do
    let w ← point p c order array r
    let (results,last) ← points p c order (w.lent.reshape array.shape) rs
    return ((if w.isLent then none else some w.state) :: results,last)

def sweep (p : Precision) (c : OpCircuit R) (order : QubitOrder) (array : Tensor R) (rs : List (Resolver R)) :
    ExceptT Fault M (List (Tensor R) × Tensor R) := do
  let (results,last) ← points p c order array rs
  return (results.map fun t => t.getD last,last)
end Workspace
namespace MixedState
variable [OperationText R] [NumberText R] {M : Type → Type} [Monad M] [Chance R M]
/-- The states that a sweep from an array shows, and what it leaves in the array. Every operation writes over a density
matrix, so all points show the last state; of a state vector each point makes a density matrix of its own. -/
def sweepArray (p : Precision) (c : OpCircuit R) (order : QubitOrder) (array : Tensor R) (rs : List (Resolver R)) :
    ExceptT Fault M (List (Tensor R) × Tensor R) :=
  let final (a : Tensor R) (r : Resolver R) : ExceptT Fault M (Tensor R) := do
    return (← (MixedState.simulator p).simulate c r order (.array a p)).1
  if array.shape.length = 2 then do
    let last ← rs.foldlM (fun a r => do return (← final a r).reshape array.shape) array
    return (rs.map fun _ => last,last)
  else do return (← rs.mapM (final array),array)
end MixedState

/-! ## Displays

A display reports the expectation of a Pauli string at the beginning of its moment: exactly, or as the mean of samples
taken after a change of basis. -/
namespace Display
open RealScalar StateVector Tensor PlainPow
variable [OperationText R] [NumberText R] {M : Type → Type} [Monad M] [Chance R M] (qs : Qubits) (p : PauliString R)
def applyTerms (t : Tensor R) : Outcome (Tensor R) :=
  p.terms.foldlM (fun t (q,axis) => do
    if !qs.contains q then fails .key
    match ← (Gate.ofAxis axis).act? t [qs.idxOf q] with
    | some t => .ok t
    | none => fails .type) t

def ofVector (s : Array (Cpx R)) : Outcome (Cpx R) := do
  let n ← numQubits s.size
  let t ← applyTerms qs p ⟨qubitShape n,s⟩
  .ok (Cpx.sum ((List.range s.size).map fun i => (s.getD i 0).conj * t.entries.getD i 0))

def ofDensity (m : Mat R) : Outcome (Cpx R) := do
  let n ← numQubits m.rows
  let t ← applyTerms qs p (.ofMat (qubitShape (2*n)) m)
  .ok (t.toMat m.rows m.cols).trace

def meanParity (rows : List (List Bool)) : R :=
  let sign (r : List Bool) : R := if (r.filter id).length % 2 = 0 then ratio 1 1 else ratio (-1) 1
  sum (rows.map sign) / ofInt rows.length

def basisChange : Ops R := p.toZBasis.map fun (c,q) => .gate (.clifford c) [q]
def places : List Int := p.qubits.map fun q => (qs.idxOf q : Int)

structure Reader (R S : Type) (M : Type → Type) where
  start : Nat → InitialState R → Outcome S
  exact : Qubits → PauliString R → S → Outcome (Cpx R)
  sampled : Qubits → PauliString R → Nat → S → ExceptT Fault M R

def vectorReader : Reader R (Tensor R) M where
  start n initial := do .ok ⟨qubitShape n,← initial.vector n .single⟩
  exact qs p t := ofVector qs p t.entries
  sampled qs p n t := do
    let t ← ExceptT.mk (pure (Operation.applyAll qs (basisChange p) t))
    return meanParity (← sample (places qs p) n t.entries)

def densityReader (precision : Precision) : Reader R (Tensor R) M where
  start n initial := do .ok (.ofMat (qubitShape (2*n)) (← initial.density n precision))
  exact qs p t := ofDensity qs p (t.toMat (2^qs.length) (2^qs.length))
  sampled qs p n t := do
    let t ← ExceptT.mk (pure ((basisChange p).foldlM (fun t op =>
      MixedState.applyChannel qs.length (op.qubits.map qs.idxOf) op t) t))
    return meanParity (← DensityMatrix.sample (places qs p) n t)

abbrev Values (R : Type) := List (String × Cpx R)
def Values.put (vs : Values R) (key : String) (v : Cpx R) : Values R :=
  if vs.any (·.1 == key) then vs.map fun (k,w) => if k == key then (k,v) else (k,w) else vs ++ [(key,v)]

def readMoment {S : Type} (rd : Reader R S M) (qs : Qubits) (vs : Values R) (s : S) (m : OpMoment R) :
    ExceptT Fault M (Values R) :=
  m.ops.foldlM (fun vs op => do
    match op with
    | .expectation p none key => return vs.put key (← ExceptT.mk (pure (rd.exact qs p s)))
    | .expectation p (some n) key => return vs.put key (Cpx.ofReal (← rd.sampled qs p n s))
    | _ => return vs) vs

def compute {S : Type} (sim : Simulator R S M) (rd : Reader R S M) (c : OpCircuit R) (r : Resolver R)
    (order : QubitOrder) (initial : InitialState R) : ExceptT Fault M (Values R) := do
  let qs ← ExceptT.mk (pure (c.orderedQubits order []))
  match c.moments with
  | [] => throw (.bare .index)
  | m :: ms => do
    let s ← ExceptT.mk (pure (rd.start qs.length initial))
    let vs ← readMoment rd qs [] s m
    let all ← sim.steps c r order initial true
    (ms.zip all).foldlM (fun vs (m,s,_) => readMoment rd qs vs s m) vs

def computeSampled {S : Type} (sim : Simulator R S M) (c : OpCircuit R) (r : Resolver R) : ExceptT Fault M (Values R) :=
  c.moments.zipIdx.foldlM (fun vs (m,i) => m.ops.foldlM (fun vs op => do
    match op with
    | .expectation p (some n) key =>
      let measure : Operation R := .gate (.measurement p.qubits.length key []) p.qubits
      let ending ← ExceptT.mk (pure (Circuit.ofOps (basisChange p ++ [measure])))
      let rows ← sim.runOnce ⟨c.moments.take i ++ ending.moments⟩ r n
      return vs.put key (Cpx.ofReal (meanParity (← ExceptT.mk (pure (Measurements.rows rows key)))))
    | _ => return vs) vs) []
end Display
end QuantumCircuits
