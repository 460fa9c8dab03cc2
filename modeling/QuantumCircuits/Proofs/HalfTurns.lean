import QuantumCircuits.Proofs.GateActions
import QuantumCircuits.Proofs.PauliPassing
import QuantumCircuits.Optimizer

/-! # Half turns about axes in the equator

A half turn about an axis in the equator flips a bit, with phases. It passes whatever is diagonal by flipping the bit
there, a power of another half turn by reflecting its axis, and two of them make a phase. -/
namespace QuantumCircuits.HalfTurns
open Exact WireOperators PauliOperators GateActions List Gate Complex RealScalar SingleQubit Function
open PauliPassing (operator operator_gate)
variable {op : Operation ℝ} {q : Qubit} (p e s : ℝ)
section
variable {A : Type} [Ring A] [Algebra ℂ A] {a b c d : A}
def UpToPhase (a b : A) : Prop := ∃ z : ℂ, ‖z‖ = 1 ∧ a = z • b
namespace UpToPhase
@[refl] lemma refl (a : A) : UpToPhase a a := ⟨1,norm_one,(one_smul ℂ a).symm⟩
lemma of_eq (h : a = b) : UpToPhase a b := h ▸ refl a
lemma smul (a : A) {z : ℂ} (hz : ‖z‖ = 1) : UpToPhase (z • a) a := ⟨z,hz,rfl⟩
section
variable (h : UpToPhase a b)
include h
@[symm] lemma symm : UpToPhase b a := by
  obtain ⟨z,hz,rfl⟩ := h
  have hne : z ≠ 0 := by
    rintro rfl
    simp at hz
  exact ⟨z⁻¹,by rw [norm_inv,hz,inv_one],by rw [smul_smul,inv_mul_cancel₀ hne,one_smul]⟩
@[trans] lemma trans (h' : UpToPhase b c) : UpToPhase a c := by
  obtain ⟨z,hz,rfl⟩ := h
  obtain ⟨w,hw,rfl⟩ := h'
  exact ⟨z*w,by rw [norm_mul,hz,hw,mul_one],smul_smul z w c⟩
instance : Trans (UpToPhase (A := A)) UpToPhase UpToPhase := ⟨trans⟩
lemma mul (h' : UpToPhase c d) : UpToPhase (a*c) (b*d) := by
  obtain ⟨z,hz,rfl⟩ := h
  obtain ⟨w,hw,rfl⟩ := h'
  exact ⟨z*w,by rw [norm_mul,hz,hw,mul_one],by rw [smul_mul_smul_comm]⟩
lemma mul_left (c) : UpToPhase (c*a) (c*b) := (refl c).mul h
lemma mul_right (c) : UpToPhase (a*c) (b*c) := h.mul (refl c)
lemma isUnit (hb : IsUnit b) : IsUnit a := by
  obtain ⟨z,hz,rfl⟩ := h
  have hne : z ≠ 0 := by
    rintro rfl
    simp at hz
  rw [Algebra.smul_def]
  exact ((IsUnit.mk0 z hne).map (algebraMap ℂ A)).mul hb
end
lemma mul_iff (hc : IsUnit c) (hd : IsUnit d) : UpToPhase (c*a*d) (c*b*d) ↔ UpToPhase a b := by
  constructor
  · rintro ⟨z,hz,h⟩
    refine ⟨z,hz,?_⟩
    rw [← smul_mul_assoc,← mul_smul_comm] at h
    exact hc.mul_left_cancel (hd.mul_right_cancel h)
  · exact fun h => (h.mul_left c).mul_right d
end UpToPhase
variable (t : ℝ)
lemma turned_eq_exp : turned t = exp (Real.pi*t*I) := by
  rw [turned,val_iPow]
  push_cast
  ring_nf
lemma turned_add : turned (s+t) = turned s * turned t := by
  rw [turned_eq_exp,turned_eq_exp,turned_eq_exp,← exp_add]
  push_cast
  ring_nf
@[simp] lemma turned_zero : turned 0 = 1 := by simp [turned_eq_exp]
lemma turned_mul_neg : turned t * turned (-t) = 1 := by rw [← turned_add,add_neg_cancel,turned_zero]
@[simp] lemma norm_turned : ‖turned t‖ = 1 := by
  have hr : Real.pi*t*I = (Real.pi*t : ℝ)*I := by push_cast; ring
  rw [turned_eq_exp,hr,norm_exp_ofReal_mul_I]
@[simp] lemma turned_two_mul_int (n : ℤ) : turned (2*n) = 1 := by
  rw [turned_eq_exp,exp_eq_one_iff]
  exact ⟨n,by push_cast; ring⟩
lemma norm_shiftPhase : ‖val (shiftPhase e s)‖ = 1 := by
  have hr : Real.pi/2*(2*e*s)*I = (Real.pi/2*(2*e*s) : ℝ)*I := by
    push_cast
    ring
  rw [val_shiftPhase,hr,norm_exp_ofReal_mul_I]
end

/-! ## Half turns as matrices -/
section
variable (a : ℝ)
noncomputable def equator (a : ℝ) : OneBitMatrix := !![0,turned (-a); turned a,0]
lemma equator_zero : equator 0 = sigma .x := by simp [equator,sigma]
lemma equator_half : equator (1/2) = sigma .y := by
  have hh : turned (1/2) = I := by
    rw [turned_eq_exp]
    refine Eq.trans (congrArg exp ?_) exp_pi_div_two_mul_I
    push_cast
    ring
  have hneg : turned (-(1/2)) = -I := by
    have hinv := turned_mul_neg (1/2)
    rw [hh] at hinv
    linear_combination (-I) * hinv + turned (-(1/2)) * I_mul_I
  rw [equator,hh,hneg]
  rfl
lemma equator_add_two_mul (n : ℤ) : equator (a+2*n) = equator a := by
  have hneg : -(a+2*n) = -a+2*(-n : ℤ) := by push_cast; ring
  simp only [equator,turned_add,turned_two_mul_int,mul_one,hneg]
lemma equator_add_one : equator (a+1) = -equator a := by
  have hneg : -(a+1) = -a+1+2*(-1 : ℤ) := by push_cast; ring
  simp only [equator,turned_add,turned_one,turned_two_mul_int,hneg]
  ext i j
  fin_cases i <;> fin_cases j <;> simp
lemma equator_mul_self : equator a * equator a = 1 := by
  have h := turned_mul_neg a
  have h' : turned (-a) * turned a = 1 := by rw [mul_comm,h]
  ext i j
  fin_cases i <;> fin_cases j <;> simp [equator,h,h']
lemma phased_z (w) : phased (sigma .z) w = !![1,0; 0,w] := by
  ext i j
  fin_cases i <;> fin_cases j <;> simp [phased,sigma] <;> ring
lemma turned_mul_congr {a b c d : ℝ} (h : a+b = c+d) : turned a * turned b = turned c * turned d := by
  rw [← turned_add,← turned_add,h]
variable (b : ℝ)
lemma equator_mul_equator : equator b * equator a = turned (a-b) • phased (sigma .z) (turned (2*(b-a))) := by
  have hf : turned (-b) * turned a = turned (a-b) := by rw [← turned_add]; congr 1; ring
  have hs : turned b * turned (-a) = turned (a-b) * turned (2*(b-a)) := turned_mul_congr (by ring)
  rw [phased_z]
  ext i j
  fin_cases i <;> fin_cases j <;> simp [equator,hf,hs]
lemma phased_z_mul_equator (t) : phased (sigma .z) (turned t) * equator a = turned (t/2) • equator (a+t/2) := by
  have hf : turned (t/2) * turned (-(t/2) + -a) = turned (-a) := by rw [← turned_add]; congr 1; ring
  have hs : turned (t/2) * turned (a+t/2) = turned t * turned a := turned_mul_congr (by ring)
  rw [phased_z]
  ext i j
  fin_cases i <;> fin_cases j <;> simp [equator,hf,hs]
lemma equator_mul_equator_reflected : equator b * equator a = equator a * equator (2*a-b) := by
  have hf : turned (-b) * turned a = turned (-a) * turned (2*a-b) := turned_mul_congr (by ring)
  have hs : turned b * turned (-a) = turned a * turned (-(2*a-b)) := turned_mul_congr (by ring)
  ext i j
  fin_cases i <;> fin_cases j <;> simp [equator,hf,hs]
lemma phased_equator_mul_equator (w) : phased (equator b) w * equator a = equator a * phased (equator (2*a-b)) w :=
  (semiconj_phased (equator_mul_equator_reflected a b).symm w).symm
lemma phased_neg {A : Type} [Ring A] [Algebra ℂ A] (a : A) {w z} (hwz : w*z = 1) : phased (-a) w = w • phased a z := by
  simp only [phased,smul_add,smul_smul,smul_neg]
  have hp : w*((1+z)/2) = (1+w)/2 := by linear_combination (1/2) * hwz
  have hm : w*((1-z)/2) = -((1-w)/2) := by linear_combination (-1/2) * hwz
  rw [hp,hm,neg_smul]
end

/-! ## What half turns pass -/
section
variable {ι : Type}
def diagonal (f : (ι → Fin 2) → ℂ) : Operator ι :=
  { toFun := fun φ x => f x * φ x
    map_add' := fun φ ψ => funext fun x => mul_add (f x) (φ x) (ψ x)
    map_smul' := fun c φ => funext fun x => mul_left_comm (f x) c (φ x) : Module.End ℂ (Amplitudes ι) }
variable (f : (ι → Fin 2) → ℂ)
lemma diagonal_apply (φ x) : diagonal f φ x = f x * φ x := rfl
lemma diagonal_mul (f g : (ι → Fin 2) → ℂ) : diagonal f * diagonal g = diagonal fun x => f x * g x := by
  ext φ x
  rw [Operator.mul_apply,diagonal_apply,diagonal_apply,diagonal_apply,mul_assoc]
lemma smul_diagonal (z) (f : (ι → Fin 2) → ℂ) : z • diagonal f = diagonal fun x => z * f x := by
  ext φ x
  rw [Operator.smul_apply,Pi.smul_apply,smul_eq_mul,diagonal_apply,diagonal_apply,mul_assoc]
lemma diagonal_commute (f g : (ι → Fin 2) → ℂ) : Commute (diagonal f) (diagonal g) := by
  rw [Commute,SemiconjBy,diagonal_mul,diagonal_mul]
  simp only [mul_comm]

/-- What is said about the bits at some wires is said by a matrix on these wires. -/
lemma exists_act_diagonal {qs : List ι} {g : (ι → Fin 2) → ℂ} (h : ∀ x y, (∀ q ∈ qs, x q = y q) → g x = g y) :
    ∃ m, diagonal g = act qs.get m := by
  refine ⟨Matrix.diagonal fun c => g (extend qs.get c 0),?_⟩
  ext φ x
  have hb : ∀ y, ∀ q ∈ qs, extend qs.get (x ∘ qs.get) y q = x q := by
    intro y q hq
    obtain ⟨j,rfl⟩ := mem_iff_get.mp hq
    exact FactorsThrough.extend_apply (fun _ _ h => congrArg x h) y j
  have hs : extend qs.get (x ∘ qs.get) x = x := by
    funext q
    by_cases hq : q ∈ qs
    · exact hb x q hq
    · exact extend_apply' _ _ _ fun ⟨j,hj⟩ => hq (hj ▸ qs.get_mem j)
  rw [diagonal_apply,act_apply,Finset.sum_eq_single (x ∘ qs.get)]
  · rw [Matrix.diagonal_apply_eq,hs,h _ x (hb 0)]
  · intro c _ hc
    rw [Matrix.diagonal_apply_ne _ hc.symm,zero_mul]
  · exact fun hno => absurd (Finset.mem_univ _) hno
variable [DecidableEq ι] (q : ι) (x : ι → Fin 2)
def flipped (q : ι) (x : ι → Fin 2) : ι → Fin 2 := Function.update x q (1 - x q)
@[simp] lemma flipped_self : flipped q x q = 1 - x q := update_self ..
@[simp] lemma flipped_of_ne {q r : ι} (h : r ≠ q) (x) : flipped q x r = x r := update_of_ne h ..
@[simp] lemma flipped_flipped : flipped q (flipped q x) = x := by
  funext r
  by_cases h : r = q
  · subst h
    simp
  · simp [h]
lemma wire_equator_apply (a φ x) :
    wire q (equator a) φ x = (if x q = 1 then turned a else turned (-a)) * φ (flipped q x) := by
  rw [wire_apply,flipped]
  generalize x q = b
  fin_cases b <;> simp [equator]

/-- A half turn passes a diagonal operator, which then sees the flipped bit. -/
lemma diagonal_mul_equator (a) : diagonal f * wire q (equator a) = wire q (equator a) * diagonal fun x => f (flipped q x) := by
  ext φ x
  rw [Operator.mul_apply,Operator.mul_apply,diagonal_apply,wire_equator_apply,wire_equator_apply,diagonal_apply,flipped_flipped]
  ring
lemma wire_phased_z (w) : wire q (phased (sigma .z) w) = diagonal fun x => if x q = 1 then w else 1 := by
  ext φ x
  rw [wire_apply,diagonal_apply,phased_z]
  have hs : φ (update x q (x q)) = φ x := by rw [update_eq_self]
  generalize x q = b at hs ⊢
  fin_cases b
  · simpa using hs
  · simpa using .inl hs
def coupled (q r : ι) (w : ℂ) : Operator ι := diagonal fun x => if x q = 1 ∧ x r = 1 then w else 1
omit [DecidableEq ι] in
lemma coupled_swap (r w) : coupled q r w = coupled r q w := by simp only [coupled,and_comm]
lemma coupled_mul_equator {q r : ι} (hqr : q ≠ r) (a t) : coupled q r (turned t) * wire q (equator a) =
    wire q (equator a) * (coupled q r (turned (-t)) * wire r (phased (sigma .z) (turned t))) := by
  rw [coupled,coupled,diagonal_mul_equator,wire_phased_z,diagonal_mul]
  congr 2
  funext x
  have hf : 1 - x q = 1 ↔ ¬ x q = 1 := by
    generalize x q = b
    revert b
    decide
  simp only [flipped_self,flipped_of_ne hqr.symm,hf]
  have hinv : turned (-t) * turned t = 1 := by rw [mul_comm,turned_mul_neg]
  by_cases hq : x q = 1 <;> by_cases hr : x r = 1 <;> simp [hr,hinv]
lemma coupled_mul_equators {q r : ι} (hqr : q ≠ r) (a b t) :
    coupled q r (turned t) * (wire q (equator a) * wire r (equator b)) =
      wire q (equator (a+t/2)) * wire r (equator (b+t/2)) * coupled q r (turned t) := by
  have hf : ∀ b : Fin 2, 1-b = 1 ↔ ¬ b = 1 := by decide
  ext φ x
  simp only [Operator.mul_apply,coupled,diagonal_apply,wire_equator_apply,flipped_self,flipped_of_ne hqr,flipped_of_ne hqr.symm,hf]
  by_cases hq : x q = 1 <;> by_cases hr : x r = 1 <;>
    simp only [hq,hr,and_true,and_false,if_true,if_false,not_true,not_false_eq_true,one_mul,← mul_assoc,← turned_add] <;>
    congr 2 <;> ring
end

/-! ## The operations that half turns meet -/
section
/-- Exponent and phase of a power of a half turn about an axis in the equator, with its qubit. -/
noncomputable def turnOf? : Operation ℝ → Option (ℝ × ℝ × Qubit)
  | .gate (.power .x (.num e) _ _) [q] => some (e,0,q)
  | .gate (.power .y (.num e) _ _) [q] => some (e,1/2,q)
  | .gate (.phasedX (.num p) (.num e) _) [q] => some (e,p,q)
  | _ => none

/-- Turns about axes in the equator, phases, and phases of two qubits, at exponents that are numbers. -/
inductive Turning : Operation ℝ → Prop
  | equator {op : Operation ℝ} {e p : ℝ} {q : Qubit} (h : turnOf? op = some (e,p,q)) : Turning op
  | phase (e s : ℝ) (axis : Bool) (q : Qubit) : Turning (.gate (.power .z (.num e) s axis) [q])
  | coupling (e s : ℝ) (axis : Bool) {q r : Qubit} (hqr : q ≠ r) : Turning (.gate (.power .cz (.num e) s axis) [q,r])
lemma turnOf?_cases {e p} (h : turnOf? op = some (e,p,q)) : (∃ s axis, op = .gate (.power .x (.num e) s axis) [q] ∧ p = 0) ∨
      (∃ s axis, op = .gate (.power .y (.num e) s axis) [q] ∧ p = 1/2) ∨
      ∃ s, op = .gate (.phasedX (.num p) (.num e) s) [q] := by
  unfold turnOf? at h
  split at h
  · obtain ⟨rfl,rfl,rfl⟩ : _ ∧ _ ∧ _ := by simpa using h
    exact .inl ⟨_,_,rfl,rfl⟩
  · obtain ⟨rfl,rfl,rfl⟩ : _ ∧ _ ∧ _ := by simpa using h
    exact .inr (.inl ⟨_,_,rfl,by norm_num⟩)
  · obtain ⟨rfl,rfl,rfl⟩ : _ ∧ _ ∧ _ := by simpa using h
    exact .inr (.inr ⟨_,rfl⟩)
  · cases h
lemma operator_power (k e s axis) {qs} (hqs : qs.length = k.numQubits) :
    UpToPhase (operator (.gate (.power k (.num e) s axis) qs)) (onWires (powerMatrix k e 0) qs) := by
  rw [operator_gate (m := powerMatrix k e s) rfl,onWires_shift hqs]
  exact UpToPhase.smul _ (norm_shiftPhase e s)
lemma operator_axisPower (p e s axis q) :
    UpToPhase (operator (.gate (.power (axisKind p) (.num e) s axis) [q])) (wire q (phased (sigma p) (turned e))) := by
  have hw : [q].length = (axisKind p).numQubits := by cases p <;> rfl
  have h := operator_power (axisKind p) e s axis hw
  rwa [onWires_single,toMatrix_axis] at h
lemma star_turned (t) : star (turned t) = turned (-t) := by
  rw [turned_eq_exp,turned_eq_exp,star_def,← exp_conj]
  simp
lemma phased_z_star : (phased (sigma .z) (turned p)).map star = phased (sigma .z) (turned (-p)) := by
  rw [phased_z,phased_z,← star_turned]
  ext i j
  fin_cases i <;> fin_cases j <;> simp
lemma conj_phased_x (w) : phased (sigma .z) (turned p) * phased (sigma .x) w * phased (sigma .z) (turned (-p)) = phased (equator p) w := by
  have hone : phased (sigma .z) (turned p) * phased (sigma .z) (turned (-p)) = 1 := by
    rw [phased_mul_phased (sigma_mul_self .z),turned_mul_neg,phased_one]
  have hf : phased (sigma .z) (turned p) * sigma .x * phased (sigma .z) (turned (-p)) = equator p := by
    rw [phased_z,phased_z]
    ext i j
    fin_cases i <;> fin_cases j <;> simp [sigma,equator]
  rw [phased.eq_def (sigma .x),phased.eq_def (equator p),mul_add,add_mul,mul_smul_comm,mul_smul_comm,smul_mul_assoc,
    smul_mul_assoc,mul_one,hone,hf]
lemma toMatrix_phasedX : toMatrix 2 (phasedXMatrix p e s) = exp ((Real.pi*s*e : ℝ)*I) • phased (equator p) (turned e) := by
  have hz : Square 2 (powerMatrix .z p 0) := square_power .z p 0
  have hx : Square 2 (powerMatrix .x e 0) := square_power .x e 0
  have hc : Square 2 (powerMatrix .z p 0).conj := ⟨hz.rows_eq,hz.cols_eq⟩
  have hp : toMatrix 2 (powerMatrix .z p 0) = phased (sigma .z) (turned p) := toMatrix_axis .z p
  have hf : toMatrix 2 (powerMatrix .x e 0) = phased (sigma .x) (turned e) := toMatrix_axis .x e
  rw [phasedXMatrix,one_eq,nought_eq,one_mul,one_mul,toMatrix_scale,toMatrix_mul (hz.mul hx) hc,toMatrix_mul hz hx,
    toMatrix_conj,hp,hf,phased_z_star,conj_phased_x,val_cis]
  rfl
lemma operator_phasedX (q) :
    UpToPhase (operator (.gate (.phasedX (.num p) (.num e) s) [q])) (wire q (phased (equator p) (turned e))) := by
  rw [operator_gate (m := phasedXMatrix p e s) rfl,onWires_single,toMatrix_phasedX,map_smul]
  exact UpToPhase.smul _ (norm_exp_ofReal_mul_I _)
lemma operator_equator {e p} (h : turnOf? op = some (e,p,q)) :
    UpToPhase (operator op) (wire q (phased (equator p) (turned e))) := by
  rcases turnOf?_cases h with ⟨s,axis,rfl,rfl⟩ | ⟨s,axis,rfl,rfl⟩ | ⟨s,rfl⟩
  · rw [equator_zero]
    exact operator_axisPower .x e s axis q
  · rw [equator_half]
    exact operator_axisPower .y e s axis q
  · exact operator_phasedX p e s q
lemma operator_phase (axis q) :
    UpToPhase (operator (.gate (.power .z (.num e) s axis) [q])) (wire q (phased (sigma .z) (turned e))) :=
  operator_axisPower .z e s axis q
lemma val_get_coupling (b c : Fin 2 → Fin 2) : val ((powerMatrix .cz e 0).get (number b) (number c)) =
    if c = b then (if b 0 = 1 ∧ b 1 = 1 then turned e else 1) else 0 := by
  have hb : ∀ b : Fin 2 → Fin 2, number b ∈ [3] ↔ b 0 = 1 ∧ b 1 = 1 := by decide
  have hget : val ((powerMatrix .cz e 0).get (number b) (number c)) =
      if c = b then (if number b ∈ [3] then turned e else 1) else 0 := val_get_phases (k := .cz) rfl (by decide) e b c
  simpa only [hb] using hget
lemma operator_coupling (axis) {r} (hqr : q ≠ r) :
    UpToPhase (operator (.gate (.power .cz (.num e) s axis) [q,r])) (coupled q r (turned e)) := by
  have hc : onWires (powerMatrix .cz e 0) [q,r] = coupled q r (turned e) := by
    have hn : [q,r].Nodup := by simpa using hqr
    ext φ x
    exact onWires_diagonal hn (val_get_coupling e) φ x
  have hw : [q,r].length = PowerKind.cz.numQubits := rfl
  have h := operator_power .cz e s axis hw
  rwa [hc] at h
lemma canonicalHalfTurns_num (x : ℝ) : ∃ n : ℤ, (Param.num x).canonicalHalfTurns = .num (x+2*n) ∧ -1 < x+2*n ∧ x+2*n ≤ 1 := by
  have hmod : mod x (ofInt 2) = x-2*⌊x/2⌋ := by simp [mod]
  have hlow := Int.floor_le (x/2)
  have hh := Int.lt_floor_add_one (x/2)
  simp only [Param.canonicalHalfTurns,hmod]
  split
  case isTrue h =>
    have h' : 1 < x-2*⌊x/2⌋ := by simpa using h
    refine ⟨-⌊x/2⌋ - 1,?_,?_,?_⟩
    · push_cast [ofInt_eq]
      ring_nf
    · push_cast
      linarith
    · push_cast
      linarith
  case isFalse h =>
    have h' : x-2*⌊x/2⌋ ≤ 1 := by simpa using h
    refine ⟨-⌊x/2⌋,?_,?_,?_⟩
    · push_cast
      ring_nf
    · push_cast
      linarith
    · push_cast
      linarith
lemma canonicalHalfTurns_fixed {x : ℝ} (hlow : -1 < x) (hh : x ≤ 1) : (Param.num x).canonicalHalfTurns = .num x := by
  obtain ⟨n,hn,hlow',hh'⟩ := canonicalHalfTurns_num x
  have hz : n = 0 := by
    have hlt : (n : ℝ) < 1 := by linarith
    have hgt : (-1 : ℝ) < n := by linarith
    have hlt' : n < 1 := by exact_mod_cast hlt
    have hgt' : -1 < n := by exact_mod_cast hgt
    omega
  rw [hn,hz,Int.cast_zero,mul_zero,add_zero]
lemma equatorTurns?_eq {e p} (h : turnOf? op = some (e,p,q)) : ∃ m n : ℤ, op.equatorTurns? = some (.num (e+2*m),.num (p+2*n)) := by
  obtain ⟨m,hm,-⟩ := canonicalHalfTurns_num e
  obtain ⟨n,hn,-⟩ := canonicalHalfTurns_num p
  rcases turnOf?_cases h with ⟨s,axis,rfl,rfl⟩ | ⟨s,axis,rfl,rfl⟩ | ⟨s,rfl⟩ <;>
    simp [Operation.equatorTurns?,Operation.isParameterized,isParameterized,Param.isParameterized,Param.isSymbol,hm,hn]
lemma qubits_of_turnOf? {e p} (h : turnOf? op = some (e,p,q)) : op.qubits = [q] := by
  rcases turnOf?_cases h with ⟨s,axis,rfl,-⟩ | ⟨s,axis,rfl,-⟩ | ⟨s,rfl⟩ <;> rfl
lemma Turning.isMeasurement (h : Turning op) : op.isMeasurement = false := by
  cases h with
  | equator h => rcases turnOf?_cases h with ⟨s,axis,rfl,-⟩ | ⟨s,axis,rfl,-⟩ | ⟨s,rfl⟩ <;> rfl
  | phase | coupling => rfl
lemma Turning.measurementKey? (h : Turning op) : op.measurementKey? = none := by
  simpa [Operation.isMeasurement] using h.isMeasurement
lemma Turning.nodup (h : Turning op) : op.qubits.Nodup := by
  cases h with
  | equator h =>
    rw [qubits_of_turnOf? h]
    exact nodup_singleton _
  | phase e s axis q => exact nodup_singleton q
  | coupling e s axis hqr =>
    have hp : ∀ q r : Qubit, q ≠ r → [q,r].Nodup := fun q r h => by simpa using h
    exact hp _ _ hqr

/-- The phases at which a power is taken about the opposite axis, backwards. -/
def Opposed (p : ℝ) : Prop := (Param.num p).canonicalHalfTurns = .num 1 ∨ (Param.num p).canonicalHalfTurns = .num (-1/2)
lemma toMatrix_axis_shift (k) : toMatrix 2 (powerMatrix (axisKind k) e s) = turned (s*e) • phased (sigma k) (turned e) := by
  have hs : val (shiftPhase e s) = turned (s*e) := by
    rw [val_shiftPhase,turned_eq_exp]
    push_cast
    ring_nf
  rw [← toMatrix_axis,← hs]
  have ht := toMatrix_shift (axisKind k) e s
  cases k <;> exact ht
lemma phasedXOf_spec (q) : ∃ e' p' m, turnOf? (.gate (.phasedXOf (.num p) (.num e) s) [q]) = some (e',p',q) ∧
    (¬Opposed p ∧ e' = e ∧ equator p' = equator p ∨ Opposed p ∧ e' = -e ∧ equator p' = -equator p) ∧
    (phasedXOf (.num p) (.num e) s).matrix? = .ok (some m) ∧ toMatrix 2 m = turned (s*e') • phased (equator p') (turned e') := by
  obtain ⟨n,hn,-⟩ := canonicalHalfTurns_num p
  have ht : ∀ {a : ℝ}, p+2*n = a → equator a = equator p := by
    rintro a rfl
    exact equator_add_two_mul p n
  have ho : Opposed p ↔ p+2*n = 1 ∨ p+2*n = -1/2 := by rw [Opposed,hn,Param.num.injEq,Param.num.injEq]
  rw [ho]
  unfold phasedXOf
  simp only [hn,Param.isInt,Param.isNum,Param.isSymbol]
  split
  case isTrue h =>
    have h : p+2*n = 0 := by simpa using h
    exact ⟨e,0,_,rfl,.inl ⟨by norm_num [h],rfl,ht h⟩,rfl,by rw [equator_zero]; exact toMatrix_axis_shift e s .x⟩
  case isFalse =>
    split
    case isTrue h =>
      have h : p+2*n = 1/2 := by simpa using h
      exact ⟨e,1/2,_,rfl,.inl ⟨by norm_num [h],rfl,ht h⟩,rfl,by rw [equator_half]; exact toMatrix_axis_shift e s .y⟩
    case isFalse =>
      split
      case isTrue h =>
        have h : p+2*n = 1 := by simpa using h
        refine ⟨-e,0,_,rfl,.inr ⟨.inl h,rfl,?_⟩,rfl,by rw [equator_zero]; exact toMatrix_axis_shift (-e) s .x⟩
        rw [← ht h,← zero_add 1,equator_add_one,neg_neg]
      case isFalse h₁ =>
        split
        case isTrue h =>
          have h : p+2*n = -1/2 := by simpa using h
          refine ⟨-e,1/2,_,rfl,.inr ⟨.inr h,rfl,?_⟩,rfl,by rw [equator_half]; exact toMatrix_axis_shift (-e) s .y⟩
          rw [← ht h,← equator_add_one]
          norm_num
        case isFalse h₂ =>
          refine ⟨e,p+2*n,_,rfl,.inl ⟨?_,rfl,equator_add_two_mul p n⟩,rfl,?_⟩
          · rintro (h | h) <;> simp [h] at h₁ h₂
          · rw [toMatrix_phasedX,turned_eq_exp (s*e)]
            push_cast
            ring_nf

/-- A phased turn has the matrix of a turn between two phases, but for two phases it is replaced by a power of another
gate, which is off by a factor. -/
theorem phasedXOf_matrix : ∃ m, (phasedXOf (.num p) (.num e) s : Gate ℝ).matrix? = .ok (some m) ∧
    let c := turned (s*e) • (toMatrix 2 (powerMatrix .z p 0) * toMatrix 2 (powerMatrix .x e 0) * toMatrix 2 (powerMatrix .z (-p) 0))
    (¬Opposed p → toMatrix 2 m = c) ∧ (Opposed p → toMatrix 2 m = turned (-(2*s+1)*e) • c) := by
  obtain ⟨e',p',m,-,h,hm,hmat⟩ := phasedXOf_spec p e s (.line 0)
  have hz : ∀ a, toMatrix 2 (powerMatrix .z a 0) = phased (sigma .z) (turned a) := toMatrix_axis .z
  have hx : toMatrix 2 (powerMatrix .x e 0) = phased (sigma .x) (turned e) := toMatrix_axis .x e
  rw [hz,hz,hx,conj_phased_x]
  refine ⟨m,hm,?_⟩
  rcases h with ⟨hp,rfl,ha⟩ | ⟨hp,rfl,ha⟩
  · exact ⟨fun _ => by rw [hmat,ha],fun h => absurd h hp⟩
  · refine ⟨fun h => absurd hp h,fun _ => ?_⟩
    rw [hmat,ha,phased_neg _ (by rw [mul_comm,turned_mul_neg]),smul_smul,smul_smul,← turned_add,← turned_add]
    ring_nf
lemma turnOf?_phasedXOf (q) : ∃ e' p', turnOf? (.gate (.phasedXOf (.num p) (.num e) s) [q]) = some (e',p',q) ∧
      UpToPhase (phased (equator p') (turned e')) (phased (equator p) (turned e)) := by
  obtain ⟨e',p',-,ht,h,-⟩ := phasedXOf_spec p e s q
  refine ⟨e',p',ht,?_⟩
  rcases h with ⟨-,rfl,h⟩ | ⟨-,rfl,h⟩
  · rw [h]
  · rw [h,phased_neg _ (by rw [mul_comm,turned_mul_neg])]
    exact UpToPhase.smul _ (norm_turned _)
lemma operator_phasedXOf (q) :
    UpToPhase (operator (.gate (.phasedXOf (.num p) (.num e) s) [q])) (wire q (phased (equator p) (turned e))) := by
  obtain ⟨e',p',ht,z,hz,heq⟩ := turnOf?_phasedXOf p e s q
  refine (operator_equator ht).trans ?_
  rw [heq,map_smul]
  exact UpToPhase.smul _ hz
lemma resolve_power (env k e s axis) :
    (power k (.num e) s axis : Gate ℝ).resolve env = .power k (.num e) s axis := by
  have hr : (power k (.num e) s axis).resolve env =
    if s == 0 then .power k (.num e) nought axis else .power k (.num e) s axis := rfl
  rw [hr]
  split
  case isTrue hs => rw [eq_of_beq hs,nought_eq]
  case isFalse => rfl
lemma phasedXOf_fixed {p e s p' e' s' : ℝ} (h : phasedXOf (.num p) (.num e) s = .phasedX (.num p') (.num e') s') :
    (phasedXOf (.num p') (.num e') s') = .phasedX (.num p') (.num e') s' := by
  obtain ⟨n,hn,hlow,hh⟩ := canonicalHalfTurns_num p
  have hpa : p' = p+2*n ∧ e' = e ∧ s' = s := by
    unfold phasedXOf at h
    simp only [hn] at h
    split_ifs at h
    cases h
    exact ⟨rfl,rfl,rfl⟩
  obtain ⟨rfl,rfl,rfl⟩ := hpa
  rw [← h]
  unfold phasedXOf
  rw [hn,canonicalHalfTurns_fixed hlow hh]
lemma Turning.resolve (h : Turning op) (env) :
    Turning (op.resolve env) ∧ (op.resolve env).qubits = op.qubits ∧ UpToPhase (operator (op.resolve env)) (operator op) ∧
      (op.resolve env).resolve env = op.resolve env := by
  by_cases heq : op.resolve env = op
  · rw [heq]
    exact ⟨h,rfl,UpToPhase.refl _,heq⟩
  have hp : ∀ k e s axis qs,
      (Operation.gate (.power k (.num e) s axis) qs).resolve env = .gate (.power k (.num e) s axis) qs := by
    intro k e s axis qs
    rw [Operation.resolve,resolve_power]
  cases h with
  | equator ht =>
    rcases turnOf?_cases ht with ⟨s,axis,rfl,-⟩ | ⟨s,axis,rfl,-⟩ | ⟨s,rfl⟩
    · exact absurd (hp ..) heq
    · exact absurd (hp ..) heq
    · rename_i e p q
      have hr : (Operation.gate (.phasedX (.num p) (.num e) s) [q]).resolve env =
        .gate (.phasedXOf (.num p) (.num e) s) [q] := rfl
      obtain ⟨e',p',ht',-⟩ := turnOf?_phasedXOf p e s q
      rw [hr]
      refine ⟨.equator ht',rfl,?_,?_⟩
      · exact (operator_phasedXOf p e s q).trans (operator_equator ht).symm
      · rcases turnOf?_cases ht' with ⟨s',axis,hop,-⟩ | ⟨s',axis,hop,-⟩ | ⟨s',hop⟩
        · rw [hop,hp]
        · rw [hop,hp]
        · have hg := (Operation.gate.inj hop).1
          rw [hop]
          exact congrArg (Operation.gate · [q]) (phasedXOf_fixed hg)
  | phase | coupling => exact absurd (hp ..) heq
lemma isNegligibleTurn_num (x : ℝ) : ∃ b, (Param.num x).isNegligibleTurn 0 = .ok b ∧ (b ↔ ∃ n : ℤ, x = n) := by
  refine ⟨_,rfl,?_⟩
  have hs : signedTurn x = x-⌊x+1/2⌋ := by
    simp only [signedTurn,mod,half_eq,ofInt_eq]
    ring_nf
  have habs : ∀ y : ℝ, RealScalar.abs y = |y| := by
    intro y
    unfold RealScalar.abs
    split
    case isTrue h => exact (abs_of_neg h).symm
    case isFalse h => exact (abs_of_nonneg (not_lt.mp h)).symm
  simp only [isNegligible,decide_eq_true_eq,habs,abs_nonpos_iff,hs]
  constructor
  · intro h
    exact ⟨⌊x+1/2⌋,by linarith⟩
  · rintro ⟨n,rfl⟩
    have hf : ⌊(n : ℝ)+1/2⌋ = n := by norm_num
    rw [hf,sub_self]
end

/-! ## Telling operations apart -/
section
variable {g : Gate ℝ}
lemma mem_of_sameGroups {qs rs : Qubits} (h : Operation.sameGroups g g' (q :: qs) rs) : q ∈ rs := by
  unfold Operation.sameGroups at h
  split at h
  case h_1 k l _ _ =>
    simp only [Bool.and_eq_true,all_eq_true] at h
    have hkey : k 0 ∈ ((range (q :: qs).length).map k).eraseDups := by
      rw [mem_eraseDups]
      exact mem_map_of_mem (by simp)
    have hg := h.2 (k 0) hkey
    simp only [Operation.sameQubits,Bool.and_eq_true,all_eq_true,contains_iff_mem] at hg
    have hf : q ∈ ((range (q :: qs).length).filter fun i => k i == k 0).map fun i => (q :: qs).getD i default :=
      mem_map.mpr ⟨0,by simp,rfl⟩
    obtain ⟨i,hi,rfl⟩ := mem_map.mp (hg.1 q hf)
    have hlt : i < rs.length := mem_range.mp (mem_filter.mp hi).1
    simp [hlt]
  case h_2 =>
    have heq : q :: qs = rs := by simpa using h
    rw [← heq]
    exact mem_cons_self
  case h_3 => cases h
lemma not_disjoint_of_beq {qs} (h : Operation.gate g (q :: qs) == op) :
    ¬ (q :: qs).Disjoint op.qubits := by
  suffices hmem : q ∈ op.qubits from fun hd => hd mem_cons_self hmem
  cases op with
  | gate g' rs =>
    have hbeq : (Operation.gate g (q :: qs) == .gate g' rs) =
      ((g == g') && Operation.sameGroups g g' (q :: qs) rs) := rfl
    rw [hbeq,Bool.and_eq_true] at h
    exact mem_of_sameGroups h.2
  | _ => cases h
lemma phasedX_beq_self : phasedX (.num p) (.num e) s == .phasedX (.num p) (.num e) s := by
  change (Param.num p == .num p && _ == _ && s == s)
  simp
def Told (op : Operation ℝ) : Prop := (op == op) = true ∧ ∀ o : Operation ℝ, (op == o) = true → ¬ op.qubits.Disjoint o.qubits
lemma told_gate (h : (g == g)) (q) (qs : Qubits) : Told (.gate g (q :: qs)) :=
  ⟨gate_beq_self h (q :: qs),fun _ => not_disjoint_of_beq⟩
lemma Turning.told (h : Turning op) : Told op := by
  cases h with
  | equator h =>
    rcases turnOf?_cases h with ⟨s,axis,rfl,-⟩ | ⟨s,axis,rfl,-⟩ | ⟨s,rfl⟩
    · exact told_gate (power_beq_self _ _ _ _) _ _
    · exact told_gate (power_beq_self _ _ _ _) _ _
    · exact told_gate (phasedX_beq_self _ _ _) _ _
  | phase | coupling => exact told_gate (power_beq_self _ _ _ _) _ _
lemma told_measurement (n key invert q) (qs : Qubits) :
    Told (.gate (.measurement n key invert) (q :: qs)) := by
  refine told_gate ?_ q qs
  have hbeq : ((measurement n key invert : Gate ℝ) == .measurement n key invert) =
    (n == n && key == key && invert == invert) := rfl
  rw [hbeq]
  simp
end
end QuantumCircuits.HalfTurns
