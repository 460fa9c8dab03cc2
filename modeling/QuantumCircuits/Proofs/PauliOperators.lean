import QuantumCircuits.Proofs.WireOperators
import QuantumCircuits.Operation.Unitary

/-! # Axes, turns and interactions as operators

The gates of the three axes multiply like the Pauli matrices. A Clifford rotation takes each axis to the axis and the
sign that it states, and an interaction multiplies what anticommutes with the one axis by the other axis.
-/
namespace QuantumCircuits.PauliOperators
noncomputable section
open Exact WireOperators List Gate Complex PowerKind Clifford RealScalar Cpx
instance : Fintype Pauli := ⟨{.x, .y, .z},fun p => by cases p <;> decide⟩
deriving instance Fintype for SignedPauli
deriving instance Fintype for Clifford
lemma toMatrix_eigen {n components} (hne : components ≠ []) (hsq : ∀ c ∈ components, Square n c.2) (e s) :
    toMatrix n (Eigen.matrix components e s) =
      (components.map fun c => val (iPow (2*e*(c.1+s))) • toMatrix n c.2).sum := by
  obtain ⟨c,cs,rfl⟩ := exists_cons_of_ne_nil hne
  have hf : ∀ (ms : List (Mat ℝ)) m, Square n m →
      toMatrix n (ms.foldl Mat.add m) = toMatrix n m + (ms.map (toMatrix n)).sum := by
    intro ms
    induction ms with
    | nil => simp
    | cons a ms ih =>
      intro m hm
      have hadd : m.add a = m+a := rfl
      rw [foldl_cons,hadd,ih _ (hm.add a),toMatrix_add hm]
      simp [add_assoc]
  have hc : Square n c.2 := hsq c mem_cons_self
  have hmat : Eigen.matrix (c :: cs) e s =
      (cs.map fun c => c.2.scale (iPow (two*e*(c.1+s)))).foldl Mat.add
        (c.2.scale (iPow (two*e*(c.1+s)))) := rfl
  rw [hmat,hf _ _ (hc.scale _)]
  simp [Function.comp_def]
def sign (flip : Bool) : ℂ := if flip then -1 else 1
@[simp] lemma sign_false : sign false = 1 := rfl
@[simp] lemma sign_true : sign true = -1 := rfl
lemma sign_xor (a b) : sign (a ^^ b) = sign a * sign b := by
  cases a <;> cases b <;> simp
@[simp] lemma sign_mul_self (a) : sign a * sign a = 1 := by
  cases a <;> simp
section
def sigma : Pauli → OneBitMatrix
  | .x => !![0,1; 1,0]
  | .y => !![0,-I; I,0]
  | .z => !![1,0; 0,-1]
variable (p : Pauli)
@[simp] lemma sigma_mul_self : sigma p * sigma p = 1 := by
  cases p <;> ext i j <;> fin_cases i <;> fin_cases j <;> simp [sigma]
def quarter (p r : Pauli) : ℂ := if p.precedes r then I else -I
lemma sigma_mul {p r} (h : p ≠ r) : sigma p * sigma r = quarter p r • sigma (p.third r) := by
  cases p <;> cases r <;> try exact absurd rfl h
  all_goals
    ext i j
    fin_cases i <;> fin_cases j <;>
      simp [sigma,quarter,Pauli.precedes,Pauli.third,Pauli.ofIndex,Pauli.index]
lemma quarter_swap {p r} (h : p ≠ r) : quarter r p = -quarter p r := by
  cases p <;> cases r <;> try exact absurd rfl h
  all_goals simp [quarter,Pauli.precedes,Pauli.index]
lemma third_swap (p r : Pauli) : r.third p = p.third r := by
  cases p <;> cases r <;> rfl
lemma sigma_anticommute {p r} (h : p ≠ r) : sigma p * sigma r = -(sigma r * sigma p) := by
  rw [sigma_mul h,sigma_mul h.symm,quarter_swap h,third_swap,neg_smul,neg_neg]
variable (negated : Bool)
lemma square_projector : Square 2 (p.projector negated) := by
  cases p <;> cases negated <;> exact ⟨rfl,rfl⟩
lemma toMatrix_projector : toMatrix 2 (p.projector negated) = (1/2 : ℂ) • (1 + sign negated • sigma p) := by
  cases p <;> cases negated <;> ext i j <;> fin_cases i <;> fin_cases j <;> apply ext <;>
    norm_num [sigma,Pauli.projector,components,mat,Mat.ofRealRows,Mat.ofRows,Mat.get,h',projector,Mat.diagonal,Mat.ofFn]
def axisKind : Pauli → PowerKind
  | .x => .x
  | .y => .y
  | .z => .z
lemma components_axisKind : ((axisKind p).components : List (ℝ × Mat ℝ)) = [(0,p.projector false),(1,p.projector true)] := by
  cases p <;> rfl
end
section
variable {A : Type} [Ring A] [Algebra ℂ A] {a : A}
/-- The phase `w` on what `a` negates. -/
def phased (a : A) (w : ℂ) : A := ((1+w)/2) • (1 : A) + ((1-w)/2) • a
lemma phased_mul_phased (ha : a*a = 1) (w z) : phased a w * phased a z = phased a (w*z) := by
  simp only [phased,add_mul,mul_add,smul_mul_assoc,mul_smul_comm,one_mul,mul_one,ha]
  module
@[simp] lemma phased_one (a : A) : phased a 1 = 1 := by simp [phased]
@[simp] lemma phased_neg_one (a : A) : phased a (-1) = a := by simp [phased]
lemma semiconj_phased {u b} (h : SemiconjBy u a b) (w) : SemiconjBy u (phased a w) (phased b w) :=
  ((SemiconjBy.one_right u).smul_right _).add_right (h.smul_right _)
lemma quarter_mul (ha : a*a = 1) (hat : a*t = -(t*a)) {w} (hw : w*w = -1) : phased a w * t = (-w) • (a*t) * phased a w := by
  have hata : a*t*a = -t := by rw [hat,neg_mul,mul_assoc,ha,mul_one]
  simp only [phased,add_mul,mul_add,smul_mul_assoc,mul_smul_comm,one_mul,mul_one,hata]
  match_scalars
  · linear_combination (1/2) * hw
  · linear_combination (1/2) * hw
end
section
variable (p : Pauli)
def turn (n : ℤ) : OneBitMatrix := phased (sigma p) (I^(n % 4).toNat)
lemma square_axisPower (e s) : Square 2 (powerMatrix (axisKind p) e s) := by
  cases p <;> exact ⟨rfl,rfl⟩
lemma toMatrix_pair {d} {a b : Mat ℝ} (ha : Square d a) (hb : Square d b) (e) :
    toMatrix d (Eigen.matrix [(0,a),(1,b)] e 0) = toMatrix d a + val (iPow (2*e)) • toMatrix d b := by
  rw [toMatrix_eigen (by simp) (by simp [ha,hb])]
  simp [val_iPow]
lemma toMatrix_phased (e) : toMatrix 2 (powerMatrix (axisKind p) e 0) = phased (sigma p) (val (iPow (2*e))) := by
  rw [powerMatrix,components_axisKind,toMatrix_pair (square_projector p false) (square_projector p true),toMatrix_projector,
    toMatrix_projector,phased,sign_false,sign_true]
  module
lemma toMatrix_axisPower (e : ℝ) {n : ℤ} (he : 2*e = n) : toMatrix 2 (powerMatrix (axisKind p) e nought) = turn p n := by
  rw [nought_eq,toMatrix_phased,he,val_iPow_int]
  rfl
abbrev IsTurn (n : ℤ) : Prop := n = 1 ∨ n = -1 ∨ n = 2
def signed (s : SignedPauli) : OneBitMatrix := sign s.flip • sigma s.axis
structure Turns (u : OneBitMatrix) (image : Pauli → SignedPauli) : Prop where
  isUnit : IsUnit u
  mul_sigma : ∀ r, u * sigma r = signed (image r) * u
def imageOf (image : Pauli → SignedPauli) (s : SignedPauli) : SignedPauli :=
  ⟨(image s.axis).axis,s.flip ^^ (image s.axis).flip⟩
lemma Turns.mul_signed {u image} (h : Turns u image) (s) : u * signed s = signed (imageOf image s) * u := by
  have hs : signed (imageOf image s) = sign s.flip • signed (image s.axis) := by
    rw [signed,signed,imageOf,sign_xor,smul_smul]
  rw [hs,signed,mul_smul_comm,h.mul_sigma,smul_mul_assoc]
lemma Turns.mul {u v} {f g} (hv : Turns v g) (hu : Turns u f) : Turns (v*u) fun r => imageOf g (f r) where
  isUnit := hv.isUnit.mul hu.isUnit
  mul_sigma r := by rw [mul_assoc,hu.mul_sigma,← mul_assoc,hv.mul_signed,mul_assoc]
lemma turns_one : Turns 1 fun r => ⟨r,false⟩ where
  isUnit := isUnit_one
  mul_sigma r := by simp [signed]
lemma isUnit_phased {A : Type} [Ring A] [Algebra ℂ A] {a : A} (ha : a*a = 1) {w} (hw : w ≠ 0) : IsUnit (phased a w) :=
  ⟨⟨phased a w,phased a w⁻¹,by rw [phased_mul_phased ha,mul_inv_cancel₀ hw,phased_one],
    by rw [phased_mul_phased ha,inv_mul_cancel₀ hw,phased_one]⟩,rfl⟩
lemma turns_turn {n} (hn : IsTurn n) : Turns (turn p n) (quarterTurns p n).transform where
  isUnit := isUnit_phased (sigma_mul_self p) (pow_ne_zero _ I_ne_zero)
  mul_sigma r := by
    by_cases hpr : p = r
    · subst hpr
      have hc : turn p n * sigma p = sigma p * turn p n := (semiconj_phased (Commute.refl _) _).symm
      have hk : (quarterTurns p n).transform p = ⟨p,false⟩ := by
        clear hc
        rcases hn with rfl | rfl | rfl <;> revert p <;> decide
      rw [hk,hc]
      simp [signed]
    · have hq : ∀ w, w*w = -1 → phased (sigma p) w * sigma r =
          (-w * quarter p r) • sigma (p.third r) * phased (sigma p) w := by
        intro w hw
        rw [quarter_mul (sigma_mul_self p) (sigma_anticommute hpr) hw,sigma_mul hpr,smul_smul]
      rcases hn with rfl | rfl | rfl
      · have him : (quarterTurns p 1).transform r = ⟨p.third r,!p.precedes r⟩ := by
          clear hq
          revert p r
          decide
        have hs : -I * quarter p r = sign (!p.precedes r) := by
          unfold quarter
          cases p.precedes r <;> simp
        have ht : turn p 1 = phased (sigma p) I := by simp [turn]
        rw [him,ht,hq _ I_mul_I,hs,signed]
      · have him : (quarterTurns p (-1)).transform r = ⟨p.third r,p.precedes r⟩ := by
          clear hq
          revert p r
          decide
        have hs : -(-I) * quarter p r = sign (p.precedes r) := by
          unfold quarter
          cases p.precedes r <;> simp
        have ht : turn p (-1) = phased (sigma p) (-I) := by simp [turn]
        rw [him,ht,hq _ (by simp),hs,signed]
      · have him : (quarterTurns p 2).transform r = ⟨r,true⟩ := by
          clear hq
          revert p r
          decide
        have ht : turn p 2 = sigma p := by simp [turn]
        rw [him,ht,sigma_anticommute hpr]
        simp [signed]

/-- A rotation proper: the images of two axes differ and fix that of the third. -/
def IsRotation (c : Clifford) : Prop := c.x.axis ≠ c.z.axis ∧ c = Clifford.ofXZ c.x c.z
instance : DecidablePred IsRotation := fun _ => inferInstanceAs (Decidable (_ ∧ _))
lemma rotations_image : ∀ x z, x.axis ≠ z.axis → (∀ t ∈ (ofXZ x z).rotations, IsTurn t.2) ∧ ∀ r,
      (ofXZ x z).rotations.foldl (fun s t => imageOf (quarterTurns t.1 t.2).transform s) ⟨r,false⟩ =
        (ofXZ x z).transform r := by
  decide
lemma turns_foldl (ts : List (Pauli × ℤ)) (hts : ∀ t ∈ ts, IsTurn t.2) {m f} (hm : Square 2 m) (h : Turns (toMatrix 2 m) f) :
    Turns (toMatrix 2 (ts.foldl (fun m t => powerMatrix (axisKind t.1) (one * ratio t.2 2) nought * m) m))
      fun r => ts.foldl (fun s t => imageOf (quarterTurns t.1 t.2).transform s) (f r) := by
  induction ts generalizing m f with
  | nil => exact h
  | cons t ts ih =>
    have ha : 2*(one * ratio t.2 2 : ℝ) = t.2 := by
      simp [one]
      ring
    have hp := square_axisPower t.1 (one * ratio t.2 2) nought
    refine ih (forall_mem_cons.mp hts).2 (hp.mul hm) ?_
    rw [toMatrix_mul hp hm,toMatrix_axisPower t.1 _ ha]
    exact (turns_turn t.1 (hts t mem_cons_self)).mul h
lemma toMatrix_mat (a b c d) : toMatrix 2 (mat [[a,b],[c,d]]) = !![(a : ℂ),b; c,d] := by
  ext i j
  fin_cases i <;> fin_cases j <;> rfl
def hadamard : OneBitMatrix := ((√2 : ℝ) : ℂ)⁻¹ • (sigma .x + sigma .z)
lemma toMatrix_hadamards (e) : toMatrix 2 (powerMatrix .h e 0) = phased hadamard (val (iPow (2*e))) := by
  have hro : √2*√2 = 2 := Real.mul_self_sqrt (by norm_num)
  have hpos : 0 < √2 := Real.sqrt_pos.mpr (by norm_num)
  have hp : (4+2*√2) ≠ 0 := by positivity
  have hm : (4-2*√2) ≠ 0 := by
    have hl : √2 < 2 := by nlinarith
    linarith
  have hr : ∀ {x d : ℝ} y, d ≠ 0 → x = d*y → x/d = y := fun y hd hx => by
    rw [hx,mul_div_cancel_left₀ y hd]
  have hinv : (√2)⁻¹ = √2/2 := by
    rw [inv_eq_one_div]
    exact hr _ hpos.ne' (by linarith)
  rw [powerMatrix,components,toMatrix_pair (d := 2) ⟨rfl,rfl⟩ ⟨rfl,rfl⟩,phased,hadamard,← ofReal_inv,hinv]
  simp only [toMatrix_mat,ofInt_eq,two_eq,sqrt_eq,Int.cast_ofNat]
  rw [hr (1/2+√2/4) hp (by linarith),hr (√2/4) hp (by linarith),hr (1/2-√2/4) hp (by linarith),hr (1/2-√2/4) hm (by linarith),
    hr (-√2/4) hm (by linarith),hr (1/2+√2/4) hm (by linarith)]
  ext i j
  fin_cases i <;> fin_cases j <;> simp [sigma] <;> ring
lemma toMatrix_hadamard : toMatrix 2 (powerMatrix .h one nought) = hadamard := by
  have h := toMatrix_hadamards 1
  simpa [one,nought,val_iPow] using h
lemma hadamard_mul_self : hadamard*hadamard = 1 := by
  have hr : (√2 : ℂ)⁻¹*(√2 : ℂ)⁻¹*2 = 1 := by
    rw [← mul_inv,← ofReal_mul]
    norm_num
  have hc : sigma .z * sigma .x = -(sigma .x * sigma .z) := sigma_anticommute (by decide)
  calc hadamard*hadamard
      = ((√2 : ℂ)⁻¹*(√2 : ℂ)⁻¹) • ((sigma .x + sigma .z)*(sigma .x + sigma .z)) := by
        rw [hadamard,smul_mul_assoc,mul_smul_comm,smul_smul]
    _ = ((√2 : ℂ)⁻¹*(√2 : ℂ)⁻¹*2) • 1 := by
        rw [add_mul,mul_add,mul_add,sigma_mul_self,sigma_mul_self,hc]
        module
    _ = 1 := by rw [hr,one_smul]
lemma turns_hadamard : Turns hadamard Clifford.hadamard.transform where
  isUnit := ⟨⟨hadamard,hadamard,hadamard_mul_self,hadamard_mul_self⟩,rfl⟩
  mul_sigma r := by
    have hxy : sigma .x * sigma .y = -(sigma .y * sigma .x) := sigma_anticommute (by decide)
    have hzy : sigma .z * sigma .y = -(sigma .y * sigma .z) := sigma_anticommute (by decide)
    have him : Clifford.hadamard.transform .x = ⟨.z,false⟩ ∧ Clifford.hadamard.transform .y = ⟨.y,true⟩ ∧
        Clifford.hadamard.transform .z = ⟨.x,false⟩ := by decide
    cases r with
    | x =>
      rw [him.1,hadamard,signed]
      simp only [sign_false,one_smul,smul_mul_assoc,mul_smul_comm,add_mul,mul_add,sigma_mul_self]
      rw [add_comm]
    | y =>
      rw [him.2.1,hadamard,signed]
      simp [add_mul,mul_add,hxy,hzy]
    | z =>
      rw [him.2.2,hadamard,signed]
      simp only [sign_false,one_smul,smul_mul_assoc,mul_smul_comm,add_mul,mul_add,sigma_mul_self]
      rw [add_comm]
lemma turns_cliffordMatrix {c} (hc : IsRotation c) : Turns (toMatrix 2 (cliffordMatrix c)) c.transform := by
  unfold cliffordMatrix
  split
  case isTrue hh => rw [hh,toMatrix_hadamard]; exact turns_hadamard
  case isFalse =>
    obtain ⟨ha,hxz⟩ := hc
    obtain ⟨hts,him⟩ := rotations_image c.x c.z ha
    rw [← hxz] at hts him
    have hone : Turns (toMatrix 2 (Mat.identity 2)) fun r => ⟨r,false⟩ := by
      rw [toMatrix_identity]
      exact turns_one
    have h := turns_foldl c.rotations hts (square_identity 2) hone
    simp only [him] at h
    convert h using 6 with m t
    obtain ⟨p,n⟩ := t
    cases p <;> rfl
end
section
variable {A : Type} [Ring A] [Algebra ℂ A] {a b x : A}
/-- A half turn of phase on what both `a` and `b` keep. -/
def crossing (a b : A) : A := 1 - (1/2 : ℂ) • ((1+a)*(1+b))
lemma crossing_eq (a b : A) : crossing a b = (1/2 : ℂ) • (1-a-b-a*b) := by
  rw [crossing,add_mul,mul_add,mul_add,one_mul,mul_one,one_mul]
  module
lemma crossing_mul_self (hab : Commute a b) (ha : a*a = 1) (hb : b*b = 1) : crossing a b * crossing a b = 1 := by
  have haab : a*(a*b) = b := by rw [← mul_assoc,ha,one_mul]
  have hbab : b*(a*b) = a := by rw [hab.eq,← mul_assoc,hb,one_mul]
  have haba : a*b*a = b := by rw [hab.eq,mul_assoc,ha,mul_one]
  have habb : a*b*b = a := by rw [mul_assoc,hb,mul_one]
  have haa : a*b*(a*b) = 1 := by rw [← mul_assoc,haba,hb]
  rw [crossing_eq,smul_mul_assoc,mul_smul_comm]
  simp only [sub_mul,mul_sub,one_mul,mul_one,ha,hb,haab,hbab,haba,habb,haa,← hab.eq]
  module
lemma crossing_mul_of_commute (hax : Commute a x) (hbx : Commute b x) : crossing a b * x = x * crossing a b := by
  have habx : a*b*x = x*(a*b) := (hax.mul_left hbx).eq
  rw [crossing_eq]
  simp [sub_mul,mul_sub,hax.eq,hbx.eq,habx]
variable (hab : Commute a b)
include hab
lemma crossing_mul_of_anticommute_left (hb : b*b = 1) (hax : a*x = -(x*a)) (hbx : Commute b x) :
    crossing a b * x = -(b*x) * crossing a b := by
  have habx : a*b*x = -(x*(a*b)) := by rw [mul_assoc,hbx.eq,← mul_assoc,hax,neg_mul,mul_assoc]
  have hbb : x*b*b = x := by rw [mul_assoc,hb,mul_one]
  have hbab : x*b*(a*b) = x*a := by rw [hab.eq,mul_assoc,← mul_assoc b b,hb,one_mul]
  have hba : x*b*a = x*(a*b) := by rw [hab.eq,mul_assoc]
  rw [crossing_eq,smul_mul_assoc,mul_smul_comm]
  simp only [sub_mul,mul_sub,one_mul,mul_one,neg_mul,hax,hbx.eq,habx,hbb,hbab,hba]
  module
lemma crossing_swap : crossing a b = crossing b a := by
  rw [crossing_eq,crossing_eq,hab.eq]
  module
lemma crossing_mul_of_anticommute_right (ha : a*a = 1) (hax : Commute a x) (hbx : b*x = -(x*b)) :
    crossing a b * x = -(a*x) * crossing a b := by
  rw [crossing_swap hab,crossing_mul_of_anticommute_left hab.symm ha hbx hax]
lemma crossing_mul_of_anticommute (ha : a*a = 1) (hb : b*b = 1) (hax : a*x = -(x*a))
    (hbx : b*x = -(x*b)) : crossing a b * x = -(a*(b*x)) * crossing a b := by
  have habx : a*b*x = x*(a*b) := by rw [mul_assoc,hbx,mul_neg,← mul_assoc,hax,neg_mul,neg_neg,mul_assoc]
  have haba : x*(a*b)*a = x*b := by rw [hab.eq,mul_assoc,mul_assoc,ha,mul_one]
  have habb : x*(a*b)*b = x*a := by rw [mul_assoc,mul_assoc,hb,mul_one]
  have haa : x*(a*b)*(a*b) = x := by rw [← mul_assoc,haba,mul_assoc,hb,mul_one]
  rw [← mul_assoc,crossing_eq,smul_mul_assoc,mul_smul_comm]
  simp only [sub_mul,mul_sub,one_mul,mul_one,neg_mul,hax,hbx,habx,haba,habb,haa]
  module
end
section
variable {q0 q1 : ι}
def side (q : ι) (p : Pauli) (inverted : Bool) : Operator ι := sign (!inverted) • wire q (sigma p)
lemma side_mul_self (q : ι) (p inverted) : side q p inverted * side q p inverted = 1 := by
  rw [side,smul_mul_assoc,mul_smul_comm,smul_smul,sign_mul_self,one_smul,← map_mul,sigma_mul_self,map_one]
lemma side_commute {q r : ι} (hqr : q ≠ r) (p p' i i') : Commute (side q p i) (side r p' i') :=
  ((wire_commute hqr _ _).smul_left _).smul_right _
section
variable (hq : q0 ≠ q1) (p0 p1 : Pauli) (i0 i1 : Bool)
include hq
lemma onWires_projectors : onWires ((p0.projector (!i0)).kron (p1.projector (!i1))) [q0,q1] =
      (1/4 : ℂ) • ((1 + side q0 p0 i0)*(1 + side q1 p1 i1)) := by
  rw [onWires_kron (square_projector _ _) (square_projector _ _) hq,toMatrix_projector,toMatrix_projector]
  simp only [map_smul,side,smul_mul_assoc,mul_smul_comm,smul_smul]
  norm_num
lemma crossing_side : 1 - (2 : ℂ) • onWires ((p0.projector (!i0)).kron (p1.projector (!i1))) [q0,q1] =
      crossing (side q0 p0 i0) (side q1 p1 i1) := by
  rw [onWires_projectors hq,crossing,smul_smul]
  norm_num
lemma onWires_halfTurn {m n} (hm : Square 4 m) (hn : toMatrix 4 n = toMatrix 4 ((p0.projector (!i0)).kron (p1.projector (!i1))))
    (hmn : toMatrix 4 m = toMatrix 4 (Mat.identity 4 - n)) {e} (he : val (iPow (2*e)) = -1) (s) :
    onWires (Eigen.matrix [(0,m),(1,n)] e s) [q0,q1] =
      val (iPow (2*e*s)) • crossing (side q0 p0 i0) (side q1 p1 i1) := by
  have hmat : Eigen.matrix [(0,m),(1,n)] e s =
      m.scale (iPow (two*e*(0+s))) + n.scale (iPow (two*e*(1+s))) := rfl
  have hp : val (iPow (two*e*(1+s))) = -val (iPow (2*e*s)) := by
    have hs : Real.pi/2*(2*e*(1+s) : ℝ)*I =
        Real.pi/2*(2*e : ℝ)*I+Real.pi/2*(2*e*s : ℝ)*I := by
      push_cast
      ring
    rw [val_iPow,two_eq,hs,exp_add,← val_iPow,← val_iPow,he,neg_one_mul]
  have hone : onWires (Mat.identity 4) [q0,q1] = 1 := onWires_identity [q0,q1] (by simpa using hq)
  rw [hmat,onWires_add [q0,q1] (hm.scale _),onWires_scale,onWires_scale,hp,two_eq,zero_add,
    onWires_congr [q0,q1] hmn,onWires_sub [q0,q1] (square_identity 4),hone,onWires_congr [q0,q1] hn,← crossing_side hq]
  module
lemma onWires_interaction (s) : onWires (Eigen.matrix [(0,Mat.identity 4 - (p0.projector (!i0)).kron (p1.projector (!i1))),
      (1,(p0.projector (!i0)).kron (p1.projector (!i1)))] 1 s) [q0,q1] =
      val (iPow (2*1*s)) • crossing (side q0 p0 i0) (side q1 p1 i1) :=
  onWires_halfTurn hq p0 p1 i0 i1 ((square_identity 4).sub _) rfl rfl (by simp [val_iPow]) s
end
lemma toMatrix_diagonal (n ones) : toMatrix n (projector n ones) =
    Matrix.diagonal fun i : Fin n => if i.val ∈ ones then 1 else 0 := by
  ext i j
  simp only [projector,Mat.diagonal,length_map,length_range,toMatrix_ofFn,Fin.val_inj]
  by_cases hij : i = j
  · simp [hij,apply_ite val]
  · simp [hij]
lemma onWires_cz (hq : q0 ≠ q1) (s) :
    onWires (powerMatrix .cz 1 s) [q0,q1] = val (iPow (2*1*s)) • crossing (side q0 .z false) (side q1 .z false) := by
  refine onWires_halfTurn hq .z .z false false ⟨rfl,rfl⟩ ?_ ?_ (by simp [val_iPow]) s
  · rw [toMatrix_diagonal]
    ext i j
    fin_cases i <;> fin_cases j <;>
      simp [Pauli.projector,components,projector,Mat.diagonal,Mat.get,Mat.ofFn,Mat.kron]
  · rw [toMatrix_sub (square_identity 4),toMatrix_identity,toMatrix_diagonal,toMatrix_diagonal]
    ext i j
    fin_cases i <;> fin_cases j <;> simp
lemma onWires_cnot (hq : q0 ≠ q1) {e} (he : val (iPow (2*e)) = -1) :
    onWires (powerMatrix .cnot e nought) [q0,q1] = crossing (side q0 .z false) (side q1 .x false) := by
  have hp : val (iPow (2*e*nought)) = 1 := by simp [nought,val_iPow]
  have hr : ∀ x, (⟨x,0⟩ : ℂ) = x := fun _ => rfl
  rw [← one_smul ℂ (crossing _ _),← hp]
  refine onWires_halfTurn hq .z .x false false ⟨rfl,rfl⟩ ?_ ?_ he _
  · rw [exchangePart,toMatrix_ofFn]
    ext i j
    fin_cases i <;> fin_cases j <;>
      simp [Pauli.projector,components,mat,Mat.ofRealRows,Mat.ofRows,Mat.get,h',projector,Mat.diagonal,Mat.ofFn,Mat.kron,hr]
  · rw [toMatrix_sub (square_identity 4),toMatrix_identity,exchangePart,exchangePart,toMatrix_ofFn,toMatrix_ofFn]
    ext i j
    fin_cases i <;> fin_cases j <;> simp [h',hr] <;> norm_num
end
end
end QuantumCircuits.PauliOperators
