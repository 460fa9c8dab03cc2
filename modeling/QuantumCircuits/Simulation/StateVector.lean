import QuantumCircuits.Linear

/-! # Chance

An outcome is picked among some with given probabilities: the likeliest where only one is possible, a distribution
where a law is stated. -/
namespace QuantumCircuits
variable [RealScalar R]
section
class Chance (R : Type) (M : Type → Type) where
  pick : List R → M Nat
namespace Chance
variable {M : Type → Type} [Monad M] [Chance R M]
def slack : R := RealScalar.ratio 15 1000000000
def draw (ps : List R) : ExceptT Fault M Nat :=
  if RealScalar.near slack (RealScalar.sum ps) 1 then ExceptT.lift (pick ps) else throw (.bare .value)
def likeliest (ps : List R) : Nat :=
  (ps.zipIdx.foldl (fun (best : R × Nat) (p,i) => if best.1 < p then (p,i) else best) (ps.headD 0,0)).2

/-- The likeliest outcome, which is the only one where the outcome is certain. -/
instance certain : Chance R Id := ⟨likeliest⟩
end Chance

/-! ## State vectors

A state of `n` qubits is a list of `2^n` amplitudes; the first qubit counts most in the number of a basis state. -/
open RealScalar PlainPow
def bitOf (n i q : Nat) : Nat := i/2^(n-1-q) % 2

/-- The outcome that a basis state has at some qubits, the first of which counts least. -/
def outcomeOf (n : Nat) : List Nat → Nat → Nat
  | [], _ => 0
  | q :: qs, i => bitOf n i q + 2 * outcomeOf n qs i

def outcomeBits : Nat → Nat → List Bool
  | 0, _ => []
  | k+1, r => (r % 2 == 1) :: outcomeBits k (r/2)

def intsText (xs : List Int) : String := Text.bracketed (xs.map toString)

def checkIndices (n : Nat) (indices : List Int) : Outcome (List Nat) :=
  if indices.any (· < 0) then
    .error ⟨.index,some ("Negative index in indices: " ++ intsText indices)⟩
  else if indices.any fun (i : Int) => (n : Int) ≤ i then
    .error ⟨.index,some ("Out of range indices, must be less than number of qubits but was " ++ intsText indices)⟩
  else .ok (indices.map Int.toNat)

def checkRepetitions (reps : Int) : Check :=
  if reps < 0 then .error (.value ("Number of repetitions cannot be negative. Was " ++ toString reps)) else .ok ()
variable {M : Type → Type} [Monad M] [Chance R M]
def outcomeWeights (size k : Nat) (outcome : Nat → Nat) (weight : Nat → R) : List R :=
  ((List.range size).foldl (fun (acc : Array R) i => acc.modify (outcome i) (· + weight i)) (Array.replicate (2^k) 0)).toList

def normalizeWeights (ws : List R) : List R :=
  let total := sum ws
  ws.map fun w => w/total

def sampleOutcomes (k : Nat) (probabilities : List R) (reps : Int) : ExceptT Fault M (List (List Bool)) :=
  if k = 0 then pure (List.replicate reps.toNat [])
  else (List.replicate reps.toNat ()).mapM fun _ => do return outcomeBits k (← Chance.draw probabilities)
namespace StateVector
def numQubits (size : Nat) : Outcome Nat :=
  if 2 ^ Nat.log2 size = size then .ok (Nat.log2 size)
  else .error (.value ("state.size (" ++ toString size ++ ") is not a power of two."))

def probabilities (n : Nat) (indices : List Nat) (s : Array (Cpx R)) : List R :=
  normalizeWeights (outcomeWeights s.size indices.length (outcomeOf n indices) fun i => (s.getD i 0).normSq)

def collapse (n : Nat) (indices : List Nat) (r : Nat) (p : R) (s : Array (Cpx R)) : Array (Cpx R) :=
  let root := sqrt p
  Array.ofFn fun i : Fin s.size =>
    if outcomeOf n indices i.val = r then
      let a := s.getD i.val 0
      ⟨a.re/root,a.im/root⟩
    else 0

def measure (indices : List Int) (s : Array (Cpx R)) : ExceptT Fault M (List Bool × Array (Cpx R)) := do
  let n ← ExceptT.mk (pure (numQubits s.size))
  let at' ← ExceptT.mk (pure (checkIndices n indices))
  if at'.isEmpty then return ([],s)
  let ps := probabilities n at' s
  let r ← Chance.draw ps
  return (outcomeBits at'.length r,collapse n at' r (ps.getD r 0) s)

def measureShaped (indices : List Int) (t : Tensor R) : ExceptT Fault M (List Bool × Tensor R) := do
  let (bits,entries) ← measure indices t.entries
  return (bits,{ t with entries })

def sample (indices : List Int) (reps : Int) (s : Array (Cpx R)) : ExceptT Fault M (List (List Bool)) := do
  ExceptT.mk (pure (checkRepetitions reps))
  let n ← ExceptT.mk (pure (numQubits s.size))
  let at' ← ExceptT.mk (pure (checkIndices n indices))
  sampleOutcomes at'.length (probabilities n at' s) reps

def outer (s : Array (Cpx R)) : Mat R :=
  Mat.ofFn s.size s.size fun i j => s.getD i 0 * (s.getD j 0).conj

/-- The matrix of a state on some qubits, in the order of the list; the others are summed over. -/
def reduced (n : Nat) (kept : List Nat) (s : Array (Cpx R)) : Mat R :=
  let t : Tensor R := ⟨Tensor.qubitShape n,s⟩
  let right := (List.range n).map fun q => if kept.contains q then q+n else q
  (Tensor.contract (Tensor.qubitShape (2*n)) (fun i => t.get (i.take n) * t.conj.get (i.drop n)) (List.range n ++ right)
    (kept ++ kept.map fun q => right.getD q 0)).toMat (2^kept.length) (2^kept.length)

def densityMatrix (indices : Option (List Int)) (s : Array (Cpx R)) : Outcome (Mat R) := do
  let n ← numQubits s.size
  match indices with
  | none => .ok (outer s)
  | some qs => do
    let kept ← checkIndices n qs
    if kept.Nodup then .ok (reduced n kept s) else fails .value

def bloch (index : Int) (s : Array (Cpx R)) : Outcome (List R) := do
  let rho ← densityMatrix (some [index]) s
  .ok [two*(rho.get 0 1).re,two*(rho.get 1 0).im,(rho.get 0 0 - rho.get 1 1).re]

def basis (n k : Nat) : Array (Cpx R) := Array.ofFn fun i : Fin (2^n) => if i.val = k then 1 else 0
end StateVector
end

/-! ## States written as sums of basis states

Amplitudes are rounded, and those that vanish are left out. -/
namespace Dirac
open PlainPow
variable [NumberText R]
def round (decimals : Nat) (x : R) : R := RealScalar.roundTo decimals x
def ket (k i : Nat) : String :=
  "|" ++ String.ofList ((List.range k).map fun q => if i/2^(k-1-q) % 2 = 1 then '1' else '0') ++ "⟩"

def factor? (decimals : Nat) (a : Cpx R) : Option String :=
  let re := round decimals a.re
  let im := round decimals a.im
  let digits (x : R) : String := NumberText.significant decimals x
  if re == 0 && im == 0 then none
  else if re == RealScalar.ofInt 1 && im == 0 then some ""
  else if re == 0 then some (digits im ++ "j")
  else if im == 0 then some (digits re)
  else some ("(" ++ digits re ++ (if im < 0 then "" else "+") ++ digits im ++ "j)")

def text (decimals : Nat) (s : Array (Cpx R)) : String :=
  let k := Nat.log2 s.size
  let terms := (List.range (2^k)).filterMap fun i => (factor? decimals (s.getD i 0)).map fun f => f ++ ket k i
  if terms.isEmpty then "0" else Text.replace " + -" " - " (Text.join " + " terms)
end Dirac

/-! ## Density matrices

A mixed state of `n` qubits is a matrix with `2^n` rows; the weight of a basis state is its entry on the diagonal. -/
namespace DensityMatrix
open PlainPow
variable {M : Type → Type} [Monad M] [Chance R M]
def shapeText (shape : List Nat) : String := Text.parenthesized (shape.map fun (d : Nat) => toString d)

def numQubits (shape : List Nat) : Outcome Nat :=
  let half := shape.length/2
  let rows := if shape.isEmpty then 0 else Tensor.sizeOf (shape.take half)
  let cols := if shape.isEmpty then 0 else Tensor.sizeOf (shape.drop half)
  let shown := " Shape was " ++ shapeText shape
  if rows ≠ cols then .error (.value ("Matrix was not square." ++ shown))
  else if 2 ^ Nat.log2 rows ≠ rows && rows ≠ 0 then
    .error (.value ("Matrix could not be shaped into a square matrix with dimensions not a power of two." ++ shown))
  else if 2 < shape.length && !(shape.all (· == 2)) then
    .error (.value ("Matrix is a tensor of rank greater than 2, but had dimensions that are not powers of two." ++ shown))
  else .ok (Nat.log2 rows)

def probabilities (n : Nat) (indices : List Nat) (entries : Array (Cpx R)) : List R :=
  let size := 2^n
  normalizeWeights (outcomeWeights size indices.length (outcomeOf n indices) fun i =>
    (entries.getD (i*size+i) 0).norm)

def collapse (n : Nat) (indices : List Nat) (r : Nat) (p : R) (entries : Array (Cpx R)) : Array (Cpx R) :=
  let size := 2^n
  Array.ofFn fun k : Fin entries.size =>
    if outcomeOf n indices (k.val/size) = r ∧ outcomeOf n indices (k.val % size) = r then
      let a := entries.getD k.val 0
      ⟨a.re/p,a.im/p⟩
    else 0

def measure (indices : List Int) (t : Tensor R) : ExceptT Fault M (List Bool × Tensor R) := do
  let n ← ExceptT.mk (pure (numQubits t.shape))
  let at' ← ExceptT.mk (pure (checkIndices n indices))
  if at'.isEmpty then return ([],t)
  let ps := probabilities n at' t.entries
  let r ← Chance.draw ps
  return (outcomeBits at'.length r,⟨t.shape,collapse n at' r (ps.getD r 0) t.entries⟩)

def sample (indices : List Int) (reps : Int) (t : Tensor R) : ExceptT Fault M (List (List Bool)) := do
  ExceptT.mk (pure (checkRepetitions reps))
  let n ← ExceptT.mk (pure (numQubits t.shape))
  let at' ← ExceptT.mk (pure (checkIndices n indices))
  sampleOutcomes at'.length (probabilities n at' t.entries) reps
end DensityMatrix

/-! ## Initial states

The number of a basis state, a vector of amplitudes or a density matrix, checked for size, precision and norm. -/
open PlainPow
def Precision.name : Precision → String
  | .single => "complex64"
  | .double => "complex128"

def Precision.className (p : Precision) : String := s!"<class 'numpy.{p.name}'>"

inductive InitialState (R : Type) where
  | basis (k : Int)
  | array (t : Tensor R) (precision : Precision)
  | other
namespace InitialState
variable [NumberText R]
/-- Eight sums of every eighth term, added in pairs, then the terms left over; fewer than eight terms in order. -/
def lanesSum (xs : List R) : R :=
  if xs.length < 8 then RealScalar.sum xs
  else
    let whole := xs.length/8*8
    let lane (k : Nat) : R := RealScalar.sum ((List.range (whole/8)).map fun j => xs.getD (8*j+k) 0)
    let pair (k : Nat) : R := lane k + lane (k+1)
    (xs.drop whole).foldl (· + ·) ((pair 0 + pair 2)+(pair 4 + pair 6))

def checkNormalized (n : Nat) (wanted : Precision) (t : Tensor R) (precision : Precision) : Check := do
  if t.entries.size ≠ 2^n then
    .error (.value s!"State has incorrect size. Expected {2 ^ n} but was {t.entries.size}.")
  if precision ≠ wanted then
    .error (.value s!"State has invalid dtype. Expected {wanted.className} but was {precision.name}")
  let norm := lanesSum (t.entries.toList.map Cpx.normSq)
  if !(Cpx.ofReal norm).close .usual 1 then
    .error (.value ("State is not normalized instead had norm " ++ NumberText.inPrecision precision norm))
  else .ok ()

def vector (n : Nat) (wanted : Precision) : InitialState R → Outcome (Array (Cpx R))
  | array t precision => do
    let length := t.shape.headD 0
    if length ≠ 2^n then
      .error (.value s!"initial state was of size {length} but expected state for {n} qubits")
    checkNormalized n wanted t precision
    .ok t.entries
  | basis k =>
    if k < 0 then .error (.value "initial_state must be positive")
    else if (2^n : Nat) ≤ k then
      .error (.value s!"initial state was {k} but expected state for {n} qubits")
    else .ok (StateVector.basis n k.toNat)
  | other => .error (.type "initial_state was not of type int or ndarray")

def isPositive (m : Mat R) : Bool := (Spectral.hermitian m).1.all fun x => decide (RealScalar.ratio (-1) 100000000 < x)

def density (n : Nat) (wanted : Precision) (s : InitialState R) : Outcome (Mat R) :=
  let fromVector : Outcome (Mat R) := do .ok (StateVector.outer (← s.vector n wanted))
  match s with
  | array t precision =>
    match t.shape with
    | [rows,cols] => do
      let m : Mat R := ⟨rows,cols,t.entries⟩
      if rows ≠ 2^n || cols ≠ 2^n then
        .error (.value s!"Density matrix was not square and of size 2 ** num_qubit, instead was {DensityMatrix.shapeText t.shape}")
      if !m.isHermitian .usual then .error (.value "The density matrix is not hermitian.")
      if !m.trace.close .usual 1 then
        .error (.value s!"Density matrix did not have trace 1 but instead {NumberText.complexIn precision m.trace.re m.trace.im}")
      if precision ≠ wanted then
        .error (.value s!"Density matrix had dtype {precision.name} but expected {wanted.className}")
      if !isPositive m then .error (.value "The density matrix is not positive semidefinite.")
      .ok m
    | _ => fromVector
  | _ => fromVector
end InitialState
end QuantumCircuits
