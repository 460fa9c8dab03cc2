import QuantumCircuits.Proofs.SampledRuns

/-! # Probabilities of results

Bits are read off a state vector or a density matrix with the probability that the amplitudes give them, and leave the
part of the state that agrees with them.
-/
namespace QuantumCircuits.BornRule
noncomputable section
open WireOperators Registers Measuring SampledRuns Complex
variable (ψ : PureState n) (ws : List (Fin n)) (b : List Bool) (shape : List ℕ)
abbrev measured (t : Tensor ℝ) : ExceptT Fault PMF (List Bool × Tensor ℝ) := StateVector.measureShaped (indices ws) t

/-- The probability of the bits at the given qubits: the squared amplitudes of the basis states that agree with them. -/
def weight : ℝ := ∑ x, if readout ws x = b then normSq (ψ.amplitude x) else 0

def results : PMF (List Bool) := ψ.law.map (readout ws)
def vector (φ : Wave n) : Tensor ℝ := ⟨shape,(register φ).entries⟩
def matrix (φ : Wave n) : Tensor ℝ := ⟨shape,(StateVector.outer (register φ).entries).entries⟩
/-- The shape of a density matrix: a matrix, or a tensor with an axis for each bit. -/
def shapeOf (n : ℕ) (axes : Bool) : List ℕ := if axes then List.replicate (2*n) 2 else [2^n,2^n]
lemma numQubits_shapeOf (n axes) : DensityMatrix.numQubits (shapeOf n axes) = .ok n := by
  cases axes with
  | true => exact numQubits_density n
  | false =>
    have hs : Tensor.sizeOf [2^n] = 2^n := by simp [Tensor.sizeOf]
    simp [shapeOf,DensityMatrix.numQubits,hs]

end
end QuantumCircuits.BornRule
