import QuantumCircuits.Device
import QuantumCircuits.Simulation.Simulator

/-! # A state vector in shards

The high bits of the number of a basis state choose the shard, the low bits the place in it. Qubit `k` is bit `k` of
that number. -/
namespace QuantumCircuits
section
open RealScalar PlainPow
structure Stepper (R : Type) where
  shardQubits : Nat
  topQubits : Nat
  shards : Array (Array (Cpx R))
namespace Stepper
variable [RealScalar R] (s : Stepper R)
def numQubits : Nat := s.topQubits+s.shardQubits
def flatten : Array (Cpx R) := s.shards.flatten
def cut (top shard : Nat) (xs : Array (Cpx R)) : Array (Array (Cpx R)) :=
  Array.ofFn fun i : Fin (2^top) => xs.extract (i.val*2^shard) ((i.val+1)*2^shard)
def splitOf (n wanted least : Nat) : Nat := if n < least then 0 else min wanted n
def ofVector (n top : Nat) (xs : Array (Cpx R)) : Stepper R := ⟨n-top,top,cut top (n-top) xs⟩
def mapAmplitudes (f : Nat → Nat → Cpx R → Cpx R) (s : Stepper R) : Stepper R :=
  { s with shards := s.shards.mapIdx fun i shard => shard.mapIdx fun j a => f i j a }
def bit (k shard place : Nat) : Nat :=
  if s.shardQubits ≤ k then shard/2^(k-s.shardQubits) % 2 else place/2^k % 2
def sign (b : Nat) : R := if b = 1 then ofInt (-1) else ofInt 1

/-- The angle that phases of single qubits and of pairs add up to at a place, in quarter turns. -/
def angleAt (phases : List (List Nat × R)) (shard place : Nat) : R :=
  phases.foldl (fun acc (ks,t) => match ks with
    | [k] => acc - t * sign (s.bit k shard place)
    | [k,l] => acc + two*t * ofInt (s.bit k shard place * s.bit l shard place)
    | _ => acc) 0

def applyPhases (phases : List (List Nat × R)) (s : Stepper R) : Stepper R :=
  s.mapAmplitudes fun i j a => a * Cpx.cis (half*pi * s.angleAt phases i j)

def partner (k shard place : Nat) : Cpx R :=
  if s.shardQubits ≤ k then (s.shards.getD (shard ^^^ 2^(k-s.shardQubits)) #[]).getD place 0
  else (s.shards.getD shard #[]).getD (place ^^^ 2^k) 0

def normSq : R := sum ((s.shards.map fun x => sum (x.map Cpx.normSq).toList).toList)

def renormalize : Stepper R :=
  let root := sqrt s.normSq
  s.mapAmplitudes fun _ _ a => ⟨a.re/root,a.im/root⟩

def rotate (k : Nat) (halfTurns axis : R) (s : Stepper R) : Outcome (Stepper R) :=
  if s.numQubits ≤ k then fails .index
  else
    let half := ratio (-1) 2 * pi*halfTurns
    let c := cos half
    let d := sin half
    let x := cos (pi*axis)
    let y := sin (pi*axis)
    .ok (s.mapAmplitudes fun i j a =>
      Cpx.scale c a + Cpx.scale d (Cpx.I * s.partner k i j) * ⟨x,-(y * sign (s.bit k i j))⟩).renormalize

def probOne (k : Nat) (s : Stepper R) : R :=
  sum ((s.shards.mapIdx fun i x =>
    sum (x.mapIdx fun j a => if s.bit k i j = 1 then a.normSq else 0).toList).toList)

def collapse (k : Nat) (result : Bool) (s : Stepper R) : Stepper R :=
  let p := s.probOne k
  let root := sqrt (if result then p else ofInt 1 - p)
  s.mapAmplitudes fun i j a => if s.bit k i j = result.toNat then ⟨a.re/root,a.im/root⟩ else 0

/-- Measures a qubit with a number drawn between zero and one: it shows one when the number is at most the
probability. -/
def measureWith (u : R) (k : Nat) (s : Stepper R) : Bool × Stepper R :=
  let result := decide (u ≤ s.probOne k)
  (result,s.collapse k result)

def resetBasis (x : Int) (s : Stepper R) : Stepper R :=
  s.mapAmplitudes fun i j _ => if ((i*2^s.shardQubits+j : Nat) : Int) = x then 1 else 0
section
variable [NumberText R]
def start (n top : Nat) (initial : InitialState R) : Outcome (Stepper R) := do
  .ok (ofVector n top (← initial.vector n .single))

def reset (initial : InitialState R) (s : Stepper R) : Outcome (Stepper R) := match initial with
  | .basis x => .ok (s.resetBasis x)
  | .array t p => do
    InitialState.checkNormalized s.numQubits .single t p
    .ok { s with shards := cut s.topQubits s.shardQubits t.entries }
  | .other => .ok s
end
variable {M : Type → Type} [Monad M] [Chance R M]
def sample (indices : List Int) (reps : Int) (s : Stepper R) : ExceptT Fault M (List (List Bool)) :=
  StateVector.sample (indices.map fun k => (s.numQubits : Int)-1-k) reps s.flatten
end Stepper
end

/-! ## Simulation of superconducting devices -/
namespace Sharded
variable [RealScalar R] [OperationText R] [NumberText R] {M : Type → Type} [Monad M] [Chance R M]
def check (d : Device R) (c : OpCircuit R) : Check := match d with
  | .xmon d => d.checkCircuit c
  | _ => .error (.value ("XmonSimulator only accepts circuits using an XmonDevice. Maybe you forgot to pass a `device=` "
      ++ "parameter into `cirq.Circuit`, or intended to set `new_device=` in your call to `cirq.google.optimized_for_xmon`? "
      ++ "Alternatively, maybe you intended to use `cirq.Simulator()` instead?"))

def measure (k : Nat) (s : Stepper R) : ExceptT Fault M (Bool × Stepper R) := do
  let p := s.probOne k
  let shows := (← ExceptT.lift (Chance.pick [RealScalar.ofInt 1 - p,p])) == 1
  return (shows,s.collapse k shows)

structure Progress (R : Type) where
  state : Stepper R
  phases : List (List Nat × R)
  report : Report

def known (p : Param R) : Outcome R := orFail .type p.value?
def rotate (k : Nat) (t axis : Param R) (s : Progress R) : Outcome (Progress R) := do
  .ok { s with state := ← s.state.rotate k (← known t) (← known axis) }
def addPhase (ks : List Nat) (t : Param R) (s : Progress R) : Outcome (Progress R) := do
  .ok { s with phases := s.phases ++ [(ks,← known t)] }

def measureAll (key : String) (s : Progress R) : List (Nat × Bool) → ExceptT Fault M (Progress R)
  | [] => pure s
  | (k,invert) :: ks => do
    let (shows,state) ← measure k s.state
    measureAll key { s with state := state, report := s.report.extend key [shows != invert] } ks

def advanceOp (qs : Qubits) (perform : Bool) (s : Progress R) (op : Operation R) : ExceptT Fault M (Progress R) :=
  let ks := op.qubits.map fun q => qs.length-1 - qs.idxOf q
  let k := ks.headD 0
  let settled (r : Outcome (Progress R)) : ExceptT Fault M (Progress R) := ExceptT.mk (pure r)
  match op.gate? with
  | some (.power .z t _ _) => settled (addPhase [k] t s)
  | some (.power .cz t _ _) => settled (addPhase ks t s)
  | some (.power .x t _ _) => settled (rotate k t (.num 0) s)
  | some (.power .y t _ _) => settled (rotate k t (.num RealScalar.half) s)
  | some (.phasedX p t _) => settled (rotate k t p s)
  | some (.measurement _ key invert) =>
    if perform then measureAll key s (ks.zip (if invert.isEmpty then ks.map fun _ => false else invert)) else pure s
  | some g => throw (.type (OperationText.gate g ++ " is not supported by the xmon simulator."))
  | none => throw (.bare .attribute)

def advance (qs : Qubits) (perform : Bool) (s : Stepper R) (m : OpMoment R) :
    ExceptT Fault M (Stepper R × Report) := do
  let p ← m.ops.foldlM (advanceOp qs perform) ⟨s,[],[]⟩
  return (p.state.applyPhases p.phases,p.report)

def simulator (d : Device R) (wanted least : Nat) : Simulator R (Stepper R) M where
  check := check d
  start n initial := Stepper.start n (Stepper.splitOf n wanted least) initial
  advance := advance
  sample indices reps s := s.sample (indices.map fun i => (s.numQubits : Int)-1-i) reps
  samplesAtEnd c := c.allTerminal Operation.isMeasurement
  repeatsKeys := false
end Sharded
end QuantumCircuits
