import Mathlib
import QuantumCircuits.Operation.Placing

/-! # Exact numbers

Laws about amplitudes are stated over the real numbers, where every operation is exact. Complex scalars over them are
the complex numbers.
-/
namespace QuantumCircuits.Exact
abbrev silentText : OperationText ℝ := ⟨fun _ => "",fun _ => "",fun _ => ""⟩
abbrev silentNumber : NumberText ℝ :=
  ⟨fun _ => "",fun _ _ => "",fun _ _ => "",fun _ _ => "",fun _ => "",fun _ _ => "",fun _ _ _ => ""⟩
open List Complex RealScalar Mat Operation
variable (x : ℝ) (f : ℕ → ℕ → Cpx ℝ)
-- Named, so that numerals are the same terms in all modules.
instance atLeastTwo_two : Nat.AtLeastTwo 2 := ⟨le_rfl⟩
instance neZero_two : NeZero 2 := ⟨two_ne_zero⟩

/-- The integer nearest to a real number, halves going to the even neighbour. -/
noncomputable def nearest (x : ℝ) : Int :=
  if Int.fract x < 1/2 then ⌊x⌋
  else if 1/2 < Int.fract x then ⌊x⌋ + 1
  else if Even ⌊x⌋ then ⌊x⌋ else ⌊x⌋ + 1
noncomputable instance : RealScalar ℝ where
  decLt := Real.decidableLT
  decLe := Real.decidableLE
  ofInt n := n
  ratio n d := n/d
  floor x := ⌊x⌋
  round := nearest
  roundTo k x := nearest (x*10^k) / 10^k
  mod x y := x-y*⌊x/y⌋
  pi := Real.pi
  sqrt := Real.sqrt
  sin := Real.sin
  cos := Real.cos
  atan2 y x := arg ⟨x,y⟩
  pow x y := x^y
  exp := Real.exp
  exactInt? _ := none
  inexact x := x
variable (n : ℤ)
@[simp] lemma ofInt_eq : (ofInt n : ℝ) = n := rfl
@[simp] lemma ratio_eq (d) : (ratio n d : ℝ) = n/d := rfl
lemma one_eq : (Gate.one : ℝ) = 1 := by simp [Gate.one]
lemma nought_eq : (Gate.nought : ℝ) = 0 := by simp [Gate.nought]
@[simp] lemma half_eq : (half : ℝ) = 1/2 := by simp [half]
@[simp] lemma two_eq : (two : ℝ) = 2 := by simp [two]
@[simp] lemma sqrt_eq : RealScalar.sqrt x = √x := rfl
@[simp] lemma pi_eq : (pi : ℝ) = Real.pi := rfl
lemma isWhole_iff {x} : isWhole x ↔ x = (⌊x⌋ : ℝ) := by simp [isWhole,floor]
lemma sum_eq (xs : List ℝ) : RealScalar.sum xs = xs.sum := sum_eq_foldl.symm
instance : LawfulBEq (Cpx ℝ) where
  rfl {z} := by
    have hz : (z == z) = (z.re == z.re && z.im == z.im) := rfl
    simp [hz]
  eq_of_beq {z w} h := by
    have hp : (z.re == w.re && z.im == w.im) = true := h
    rw [Bool.and_eq_true,beq_iff_eq,beq_iff_eq] at hp
    obtain ⟨a,b⟩ := z
    exact congrArg₂ Cpx.mk hp.1 hp.2
instance : LawfulBEq (Param ℝ) := by
  have hc : ∀ {c c' : Coefficient ℝ}, (c == c') = true ↔ c = c' := by
    intro c c'
    change c.beq c' = true ↔ _
    cases c <;> cases c' <;> simp [Coefficient.beq]
  have ht : ∀ {ts us : List (Term ℝ)}, Expression.termsEqual ts us = true ↔ ts = us := by
    intro ts us
    induction ts generalizing us with
    | nil => cases us <;> simp [Expression.termsEqual]
    | cons t ts ih =>
      cases us with
      | nil => simp [Expression.termsEqual]
      | cons u us =>
        cases t
        cases u
        simp [Expression.termsEqual,ih,hc]
  have he : ∀ {e f : Expression ℝ}, (e == f) = true ↔ e = f := by
    intro e f
    obtain ⟨c,ps,ts⟩ := e
    obtain ⟨c',ps',us⟩ := f
    change (c == c' && ps == ps' && Expression.termsEqual ts us) = true ↔ _
    simp [ht,hc,and_assoc]
  have hp : ∀ {p p' : Param ℝ}, (p == p') = true ↔ p = p' := by
    intro p p'
    change p.beq p' = true ↔ _
    cases p <;> cases p' <;> simp [Param.beq,he]
  exact { eq_of_beq := hp.mp, rfl := hp.mpr rfl }
def val (z : Cpx ℝ) : ℂ := ⟨z.re,z.im⟩
@[simp] lemma val_mk (y) : val ⟨x,y⟩ = ⟨x,y⟩ := rfl
@[simp] lemma val_zero : val 0 = 0 := rfl
@[simp] lemma val_one : val 1 = 1 := rfl
@[simp] lemma val_I : val Cpx.I = I := rfl
variable (a b : Cpx ℝ)
@[simp] lemma val_add : val (a+b) = val a + val b := rfl
@[simp] lemma val_sub : val (a-b) = val a - val b := rfl
@[simp] lemma val_neg : val (-a) = -val a := rfl
@[simp] lemma val_mul : val (a*b) = val a * val b := by
  apply ext
  · rfl
  · rfl
@[simp] lemma val_conj : val a.conj = star (val a) := rfl
@[simp] lemma val_ofReal : val (Cpx.ofReal x) = x := rfl
@[simp] lemma val_scale : val (a.scale x) = x * val a := by apply ext <;> simp [val,Cpx.scale]
lemma val_injective : Function.Injective val := by
  intro a b h
  cases a
  cases b
  simpa using h
@[simp] lemma val_sum (zs) : val (Cpx.sum zs) = (zs.map val).sum := by
  rw [Cpx.sum,sum_eq_foldl,foldl_map,← val_zero]
  exact (foldl_hom val fun _ _ => (val_add ..).symm).symm
@[simp] lemma val_cis (t) : val (Cpx.cis t) = exp (t*I) := by
  apply ext <;>
    simp [Cpx.cis,RealScalar.cos,RealScalar.sin]
lemma exp_quarters : exp (Real.pi/2*n*I) = I^(n % 4).toNat := by
  have hn : n = (n % 4).toNat+4*((n/4 : ℤ) : ℂ) := by
    have hnat : n = (n % 4).toNat+4*(n/4) := by omega
    exact_mod_cast hnat
  have hs : Real.pi/2*n*I =
      (n % 4).toNat*(Real.pi/2*I)+(n/4 : ℤ)*(2*Real.pi*I) := by
    rw [hn]
    ring
  rw [hs,exp_add,exp_int_mul_two_pi_mul_I,mul_one,exp_nat_mul,exp_pi_div_two_mul_I]
lemma val_iPow : val (Cpx.iPow x) = exp (Real.pi/2*x*I) := by
  unfold Cpx.iPow
  split
  case isTrue hw =>
    have hx := isWhole_iff.mp hw
    generalize hn : ⌊x⌋ = n at hx
    have hf : floor x = n := hn
    rw [hf,hx,ofReal_intCast,exp_quarters]
    have hlt := Int.emod_lt_of_pos n (show 0 < 4 by decide)
    have hno := Int.emod_nonneg n (show 4 ≠ 0 by decide)
    generalize n % 4 = m at hlt hno
    interval_cases m <;> simp
  case isFalse =>
    simp [mul_comm,div_eq_mul_inv]
@[simp] lemma val_iPow_int : val (Cpx.iPow n) = I^(n % 4).toNat := by rw [val_iPow,ofReal_intCast,exp_quarters]
lemma sum_range_eq {M : Type} [AddCommMonoid M] (f : ℕ → M) (n) : ((range n).map f).sum = ∑ k : Fin n, f k := by
  rw [← Finset.sum_range]
  rfl
section
variable {m n : ℕ}
lemma place_lt {i j} (hi : i < m) (hj : j < n) : i*n+j < m*n := by
  calc i*n+j < i*n+n := by omega
    _ = (i+1)*n := by ring
    _ ≤ m*n := Nat.mul_le_mul_right n hi
lemma get_ofFn {R : Type} [RealScalar R] (f : ℕ → ℕ → Cpx R) {i j} (hi : i < m) (hj : j < n) : (ofFn m n f).get i j = f i j := by
  have hpos : 0 < n := by omega
  have hlt : i*n+j < m*n := place_lt hi hj
  have hdiv : (i*n+j)/n = i := by rw [Nat.mul_comm,Nat.mul_add_div hpos,Nat.div_eq_of_lt hj,Nat.add_zero]
  have hmod : (i*n+j) % n = j := by rw [Nat.mul_comm,Nat.mul_add_mod,Nat.mod_eq_of_lt hj]
  simp [Mat.get,Mat.ofFn,hlt,hdiv,hmod]
noncomputable def toMatrix (n : ℕ) (a : Mat ℝ) : Matrix (Fin n) (Fin n) ℂ := Matrix.of fun i j => val (a.get i j)
variable (a : Mat ℝ)
@[simp] lemma toMatrix_apply (i j) : toMatrix n a i j = val (a.get i j) := rfl
structure Square (n : ℕ) (a : Mat ℝ) : Prop where
  rows_eq : a.rows = n
  cols_eq : a.cols = n
lemma square_ofFn : Square n (ofFn n n f) := ⟨rfl,rfl⟩
@[simp] lemma toMatrix_ofFn : toMatrix n (ofFn n n f) = Matrix.of fun (i j : Fin n) => val (f i j) := by
  ext i j
  simp [get_ofFn f i.isLt j.isLt]
lemma square_identity (n) : Square n (identity n) := square_ofFn _
@[simp] lemma toMatrix_identity (n) : toMatrix n (identity n) = 1 := by
  ext i j
  rw [identity,toMatrix_ofFn,Matrix.of_apply,Matrix.one_apply]
  simp only [Fin.ext_iff]
  split <;> rfl
variable {a} {b : Mat ℝ}
lemma get_map {f} (hf : f 0 = 0) (a : Mat ℝ) (i j) : (a.map f).get i j = f (a.get i j) := by
  simp only [Mat.map,Mat.get,Array.getD_eq_getD_getElem?,Array.getElem?_map]
  cases a.entries[i*a.cols+j]? <;> simp [hf]
@[simp] lemma toMatrix_scale (c a) : toMatrix n (a.scale c) = val c • toMatrix n a := by
  ext i j
  have hz : c*0 = 0 := val_injective (by simp)
  simp [scale,get_map hz]
@[simp] lemma toMatrix_conj : toMatrix n a.conj = (toMatrix n a).map star := by
  ext i j
  have hz : Cpx.conj 0 = 0 := val_injective (by simp)
  simp [conj,get_map hz]
lemma Square.scale (h : Square n a) (c) : Square n (a.scale c) := ⟨h.rows_eq,h.cols_eq⟩
lemma Square.add (h : Square n a) (b) : Square n (a+b) := ⟨h.rows_eq,h.cols_eq⟩
lemma Square.sub (h : Square n a) (b) : Square n (a-b) := ⟨h.rows_eq,h.cols_eq⟩
lemma Square.mul (ha : Square n a) (hb : Square n b) : Square n (a*b) := ⟨ha.rows_eq,hb.cols_eq⟩
lemma toMatrix_add (ha : Square n a) (b) : toMatrix n (a+b) = toMatrix n a + toMatrix n b := by
  ext i j
  have hget : (a+b).get i j = a.get i j + b.get i j := get_ofFn _ (ha.rows_eq.symm ▸ i.isLt) (ha.cols_eq.symm ▸ j.isLt)
  simp [hget]
lemma toMatrix_sub (ha : Square n a) (b) : toMatrix n (a-b) = toMatrix n a - toMatrix n b := by
  ext i j
  have hget : (a-b).get i j = a.get i j - b.get i j := get_ofFn _ (ha.rows_eq.symm ▸ i.isLt) (ha.cols_eq.symm ▸ j.isLt)
  simp [hget]
lemma toMatrix_mul (ha : Square n a) (hb : Square n b) : toMatrix n (a*b) = toMatrix n a * toMatrix n b := by
  ext i j
  have hget : (a*b).get i j = Cpx.sum ((range a.cols).map fun k => a.get i k * b.get k j) :=
    get_ofFn _ (ha.rows_eq.symm ▸ i.isLt) (hb.cols_eq.symm ▸ j.isLt)
  rw [Matrix.mul_apply,toMatrix_apply,hget,val_sum,ha.cols_eq,map_map,sum_range_eq]
  simp
lemma Square.adjoint (h : Square n a) : Square n a.adjoint := ⟨h.cols_eq,h.rows_eq⟩
lemma toMatrix_adjoint (ha : Square n a) : toMatrix n a.adjoint = (toMatrix n a).conjTranspose := by
  ext i j
  have hget : a.adjoint.get i j = (a.get j i).conj := get_ofFn _ (ha.cols_eq.symm ▸ i.isLt) (ha.rows_eq.symm ▸ j.isLt)
  rw [Matrix.conjTranspose_apply,toMatrix_apply,hget,val_conj,toMatrix_apply]
lemma Square.kron {k l} (ha : Square k a) (hb : Square l b) : Square (k*l) (a.kron b) := by
  constructor
  · change a.rows * b.rows = k*l
    rw [ha.rows_eq,hb.rows_eq]
  · change a.cols * b.cols = k*l
    rw [ha.cols_eq,hb.cols_eq]
end

/-! ## Closeness -/
section
variable {n : ℕ} {a : Mat ℝ}
lemma norm_eq (z) : z.norm = ‖val z‖ := by rfl
lemma close_ofFn (t f g) : (ofFn n n f).close t (ofFn n n g) ↔
    ∀ i j : Fin n, ‖val (f i j) - val (g i j)‖ ≤ t.atol + t.rtol * ‖val (g i j)‖ := by
  have hc : ∀ x y, x.close t y ↔ ‖val x - val y‖ ≤ t.atol + t.rtol * ‖val y‖ := by
    intro x y
    rw [Cpx.close,decide_eq_true_eq,norm_eq,norm_eq,val_sub]
  have hs : ∀ f : ℕ → ℕ → Cpx ℝ, (Mat.ofFn n n f).entries.size = n*n := fun f => by simp [Mat.ofFn]
  simp only [close,hs,max_self,all_eq_true,mem_range]
  constructor
  · intro h i j
    have he : ∀ f : ℕ → ℕ → Cpx ℝ, (ofFn n n f).entries.getD (i*n+j) 0 = f i j := fun f => get_ofFn f i.isLt j.isLt
    have hij := h (i*n+j) (place_lt i.isLt j.isLt)
    rwa [he,he,hc] at hij
  · intro h k hk
    have he : ∀ f : ℕ → ℕ → Cpx ℝ, (Mat.ofFn n n f).entries.getD k 0 = f (k/n) (k % n) := fun f => by
      simp [Mat.ofFn,hk]
    have hpos : 0 < n := Nat.pos_of_ne_zero fun h0 => by simp [h0] at hk
    rw [he,he,hc]
    exact h ⟨k/n,Nat.div_lt_of_lt_mul hk⟩ ⟨k % n,Nat.mod_lt k hpos⟩
lemma isUnitary_iff (ha : Square n a) (t) : a.isUnitary t ↔ ∀ i j,
    ‖(toMatrix n a * (toMatrix n a).conjTranspose - 1) i j‖ ≤ t.atol + t.rtol * ‖(1 : Matrix (Fin n) (Fin n) ℂ) i j‖ := by
  have hsq : a.isSquare := by simp [Mat.isSquare,ha.rows_eq,ha.cols_eq]
  have hp : a*a.adjoint = ofFn n n fun i j => Cpx.sum ((range a.cols).map fun k => a.get i k * a.adjoint.get k j) := by
    have hmul : a*a.adjoint = ofFn a.rows a.adjoint.cols fun i j =>
      Cpx.sum ((range a.cols).map fun k => a.get i k * a.adjoint.get k j) := rfl
    rw [hmul,ha.rows_eq,ha.adjoint.cols_eq]
  rw [isUnitary,hsq,Bool.true_and,ha.rows_eq,← toMatrix_adjoint ha,← toMatrix_mul ha ha.adjoint,← toMatrix_identity,
    hp,identity,close_ofFn,toMatrix_ofFn,toMatrix_ofFn]
  rfl
end

/-! ## Gates that equal themselves -/
lemma power_beq_self (k e) (s : ℝ) (axis) : (Gate.power k e s axis == .power k e s axis) := by
  change (k == k && _ == _ && s == s)
  simp
lemma gate_beq_self (h : (g == g)) (qs) :
    ((gate g qs : Operation ℝ) == .gate g qs) := by
  have hs : ∀ rs, sameQubits rs rs := fun rs => by simp [sameQubits]
  change (g == g && sameGroups g g qs qs)
  rw [h,sameGroups]
  cases g.exchangeKey? with
  | none => simp
  | some k => simp [hs]
end QuantumCircuits.Exact
