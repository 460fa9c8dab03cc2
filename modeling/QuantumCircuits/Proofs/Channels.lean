import QuantumCircuits.Proofs.BornRule
import QuantumCircuits.Proofs.GateActions

/-! # Channels and their Kraus matrices

A channel adds up what its Kraus matrices make of a density matrix from both sides, in arrays whose contents do not matter. The two
matrices that a measurement states keep the first and the last outcome, and are all that it does for one qubit only. -/
namespace QuantumCircuits.Channels
noncomputable section
open Exact WireOperators Registers Measuring SampledRuns GateActions BornRule List Complex Function Matrix
open scoped ComplexOrder
variable {n k : ℕ}
def entriesOf (m : Mat ℝ) : BitMatrix k := (toMatrix (2^k) m).submatrix (place k) (place k)

/-! ## Channels on some axes of a tensor -/
section
def axes (wires : Fin k → Fin n) : List ℕ := (ofFn wires).map Fin.val
variable (left right : Fin k → Fin n) (Φ Ω : Wave n)
/-- The matrix that a tensor holds on some axes for rows and as many for columns, with the other axes fixed. -/
def form (x : Fin n → Fin 2) : BitMatrix k := Matrix.of fun r c => Φ (extend left r (extend right c x))

/-- The tensor whose matrix on the axes is the sum of `K ρ K†` over the Kraus matrices. -/
def imageOf (ks : List (Mat ℝ)) : Wave n :=
  (ks.map fun m x => (entriesOf m * form left right Φ x * (entriesOf m).conjTranspose : Matrix _ _ ℂ) (x ∘ left) (x ∘ right)).sum
variable {left right} (hlr : ∀ i j, left i ≠ right j)
include hlr
omit hlr
end

/-! ## The channel of a measurement -/
section
variable {ws : List (Fin n)} {ρ : BitMatrix n}
/-- A matrix with rows and columns for the basis states, as a tensor. -/
def stored (axes : Bool) (ρ : BitMatrix n) : Tensor ℝ :=
  ⟨shapeOf n axes,(register fun z => ρ (first z) (second z)).entries⟩
lemma entriesOf_corner (x : Fin n → Fin 2) : entriesOf (Mat.corner (2^n) (number x)) = single x x 1 := by
  ext r c
  have hget : (Mat.corner (2^n) (number x) : Mat ℝ).get (number r) (number c) =
      if number r = number x ∧ number c = number x then 1 else 0 := get_ofFn _ (number_lt r) (number_lt c)
  have he : entriesOf (Mat.corner (2^n) (number x)) r c = val ((Mat.corner (2^n) (number x)).get (number r) (number c)) := rfl
  rw [he,hget,single_apply]
  simp only [number_injective.eq_iff,eq_comm (a := x)]
  split <;> simp
lemma number_one (n) : number (1 : Fin n → Fin 2) = 2^n-1 := by
  simp [number_eq,Nat.geomSum_eq,Fin.sum_univ_eq_sum_range]

/-- The two matrices keep the first and the last entry of the diagonal. -/
lemma kraus_measurement (n key invert) : ∃ k k', (Gate.measurement n key invert).kraus? = .ok (some [k,k']) ∧
    entriesOf k = single (0 : Fin n → Fin 2) 0 1 ∧ entriesOf k' = single (1 : Fin n → Fin 2) 1 1 := by
  refine ⟨_,_,rfl,?_,?_⟩
  · rw [← entriesOf_corner,number_zero]
  · rw [← entriesOf_corner,number_one]
lemma corners_eq_diagonal (hne : (0 : Fin n → Fin 2) ≠ 1) (d : (Fin n → Fin 2) → ℂ) :
    single 0 0 (d 0) + single 1 1 (d 1) = diagonal d ↔ ∀ x, x ≠ 0 → x ≠ 1 → d x = 0 := by
  rw [← diagonal_single,← diagonal_single,diagonal_add,diagonal_injective.eq_iff,funext_iff]
  refine forall_congr' fun x => ?_
  by_cases h0 : x = 0
  · simp [h0,hne]
  · by_cases h1 : x = 1
    · simp [h1,hne.symm]
    · simp [h0,h1,eq_comm]
lemma forall_eq_iff (hn : 0 < n) : (∀ x : Fin n → Fin 2, x ≠ 0 → x ≠ 1 → (1 : ℂ) = 0) ↔ n = 1 := by
  constructor
  · intro h
    by_contra hne
    refine one_ne_zero (h (Pi.single ⟨0,hn⟩ 1) (fun he => ?_) fun he => ?_)
    · simpa using congrFun he ⟨0,hn⟩
    · simpa [Fin.ext_iff] using congrFun he ⟨1,by omega⟩
  · rintro rfl
    have hall : ∀ x : Fin 1 → Fin 2, x = 0 ∨ x = 1 := by decide
    exact fun x h0 h1 => ((hall x).elim h0 h1).elim

/-- A state whose amplitudes have the diagonal of a density matrix for their squares. -/
lemma exists_state (hρ : ρ.PosSemidef) (htr : ρ.trace = 1) : ∃ ψ : PureState n, ∀ x, ρ x x = normSq (ψ.amplitude x) := by
  have hsq : ∀ x, normSq (√(ρ x x).re) = ρ x x := fun x => by
    obtain ⟨hre,him⟩ := nonneg_iff.mp (hρ.diag_nonneg (i := x))
    rw [normSq_ofReal,Real.mul_self_sqrt hre]
    exact ext rfl him
  refine ⟨⟨fun x => √(ρ x x).re,ofReal_injective ?_⟩,fun x => (hsq x).symm⟩
  push_cast
  simp only [hsq]
  exact htr
lemma readout_inj (hws : ∀ w, w ∈ ws) {y} : readout ws x = readout ws y ↔ x = y := by
  refine ⟨fun h => funext fun w => ?_,congrArg _⟩
  have hb : ∀ a b : Fin 2, (a == 1) = (b == 1) → a = b := by decide
  exact hb _ _ (map_inj_left.mp h w (hws w))

/-- Measuring all qubits leaves one basis state. -/
lemma remainder_all (hws : ∀ w, w ∈ ws) {ψ : PureState n} (hψ : ∀ x, ρ x x = normSq (ψ.amplitude x)) (hx : x ∈ ψ.law.support) :
    remainder ψ ws (fun z => ρ (first z) (second z)) x = fun z => single x x 1 (first z) (second z) := by
  have hs : ψ.share ws x = ρ x x := by simp [PureState.share,readout_inj hws,hψ]
  have hne : ρ x x ≠ 0 := hs ▸ ofReal_ne_zero.mpr (ψ.share_pos ws x hx).ne'
  funext z
  rw [remainder,single_apply,hs]
  simp only [readout_inj hws,eq_comm (a := x)]
  split
  case isTrue h => rw [h.1,h.2,div_self hne]
  case isFalse => rfl

/-- The Kraus matrices of a measurement average what measuring all qubits leaves just if nothing but the first and the last outcome
can be shown, and they are complete for one qubit only. -/
theorem measurement_averages_iff (hn : 0 < n) (hws : ∀ w, w ∈ ws) (hρ : ρ.PosSemidef) (htr : ρ.trace = 1) (axes : Bool) (key : String)
    (invert : List Bool) : ∃ (ks : List (Mat ℝ)) (law : PMF (Fin n → Fin 2)),
      (Gate.measurement n key invert).kraus? = .ok (some ks) ∧ (∀ x, law x = ENNReal.ofReal (ρ x x).re) ∧
      DensityMatrix.measure (indices ws) (stored axes ρ) =
        ExceptT.lift (law.map fun x => (readout ws x,stored axes (Matrix.single x x 1))) ∧
      ((ks.map fun k => entriesOf k * ρ * (entriesOf k).conjTranspose).sum =
        ∑ x, (law x).toReal • Matrix.single x x (1 : ℂ) ↔ ∀ x, x ≠ 0 → x ≠ 1 → ρ x x = 0) ∧
      ((ks.map fun k => (entriesOf k).conjTranspose * entriesOf k).sum = (1 : Matrix (Fin n → Fin 2) (Fin n → Fin 2) ℂ) ↔ n = 1) := by
  obtain ⟨k,k',hk,h0,h1⟩ := kraus_measurement n key invert
  obtain ⟨ψ,hψ⟩ := exists_state hρ htr
  have hne : (0 : Fin n → Fin 2) ≠ 1 := fun h => by simpa using congrFun h ⟨0,hn⟩
  refine ⟨[k,k'],ψ.law,hk,fun x => by rw [PureState.law_apply,hψ,ofReal_re],?_,?_,?_⟩
  · refine (measure_matrix ψ ws (numQubits_shapeOf n axes) fun x => ?_).trans (congrArg _ (map_congr_support fun x hx => ?_))
    · rw [first_pair,second_pair,hψ]
    · rw [remainder_all hws hψ hx]
      rfl
  · have hlaw : ∀ x, (ψ.law x).toReal • Matrix.single x x (1 : ℂ) = Matrix.single x x (ρ.diag x) := fun x => by
      rw [PureState.law_apply,ENNReal.toReal_ofReal (normSq_nonneg _),Matrix.smul_single,real_smul,mul_one,← hψ]
      rfl
    simp only [hlaw,map_cons,map_nil,sum_cons,sum_nil,h0,h1,add_zero,Matrix.sum_single_eq_diagonal]
    simpa using corners_eq_diagonal hne ρ.diag
  · have hone := corners_eq_diagonal hne fun _ => 1
    rw [Matrix.diagonal_one,forall_eq_iff hn] at hone
    simpa [h0,h1] using hone

/-- Of two qubits, of which the second one is on, the Kraus matrices leave nothing. -/
theorem mixed_outcome_lost : ∃ (ks : List (Mat ℝ)) (law : PMF (Fin 2 → Fin 2)), (Gate.measurement 2 "m" []).kraus? = .ok (some ks) ∧
    law ![0,1] = 1 ∧ (ks.map fun k => entriesOf k * Matrix.single ![0,1] ![0,1] 1 * (entriesOf k).conjTranspose).sum ≠
      ∑ x, (law x).toReal • Matrix.single x x (1 : ℂ) := by
  have hρ : (Matrix.single ![0,1] ![0,1] 1 : Matrix (Fin 2 → Fin 2) (Fin 2 → Fin 2) ℂ).PosSemidef := by
    rw [← Matrix.diagonal_single]
    exact Matrix.posSemidef_diagonal_iff.mpr (Pi.single_nonneg.mpr zero_le_one)
  obtain ⟨ks,law,hk,hlaw,-,hiff,-⟩ := measurement_averages_iff (by decide) (show ∀ w : Fin 2, w ∈ [0,1] by decide) hρ (by simp) true "m" []
  exact ⟨ks,law,hk,by simp [hlaw],fun h => one_ne_zero ((Matrix.single_apply_same _ _ _).symm.trans (hiff.mp h ![0,1] (by decide) (by decide)))⟩
end
end
end QuantumCircuits.Channels
