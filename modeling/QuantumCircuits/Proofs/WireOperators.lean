import QuantumCircuits.Proofs.ExactNumbers

/-! # Operators on some of many wires

A state gives an amplitude to every assignment of bits to wires. A matrix on some wires acts on it by changing the bits
of these wires only, and matrices on different wires commute.
-/
namespace QuantumCircuits.WireOperators
noncomputable section
open Exact List Function
abbrev Amplitudes (ι : Type) := (ι → Fin 2) → ℂ
abbrev Wave (n : ℕ) := Amplitudes (Fin n)
abbrev BitMatrix (k : ℕ) := Matrix (Fin k → Fin 2) (Fin k → Fin 2) ℂ
abbrev OneBitMatrix := Matrix (Fin 2) (Fin 2) ℂ
def Operator (ι : Type) : Type := Module.End ℂ (Amplitudes ι)
variable {ι : Type} {k l : ℕ} (wires : Fin k → ι) (qs : List ι)
namespace Operator
instance : Ring (Operator ι) := inferInstanceAs (Ring (Module.End ℂ (Amplitudes ι)))
instance : Algebra ℂ (Operator ι) := inferInstanceAs (Algebra ℂ (Module.End ℂ (Amplitudes ι)))
instance : Nontrivial (Operator ι) := inferInstanceAs (Nontrivial (Module.End ℂ (Amplitudes ι)))
instance : FunLike (Operator ι) (Amplitudes ι) (Amplitudes ι) :=
  inferInstanceAs (FunLike (Module.End ℂ (Amplitudes ι)) (Amplitudes ι) (Amplitudes ι))
@[ext] lemma ext {a b : Operator ι} (h : ∀ f x, a f x = b f x) : a = b := DFunLike.ext _ _ fun f => funext (h f)
variable (a : Operator ι) (b : Operator ι) (f : Amplitudes ι)
@[simp] lemma add_apply : (a+b) f = a f + b f := rfl
@[simp] lemma smul_apply (c : ℂ) (a : Operator ι) (f) : (c • a) f = c • a f := rfl
@[simp] lemma mul_apply : (a*b) f = a (b f) := rfl
@[simp] lemma one_apply : (1 : Operator ι) f = f := rfl
lemma map_smul (c : ℂ) (f) : a (c • f) = c • a f := LinearMap.map_smul a c f
lemma map_zero : a 0 = 0 := LinearMap.map_zero a
end Operator
/-- A matrix on the bits at some wires, acting on all states. -/
def act (u : BitMatrix k) : Operator ι :=
  { toFun := fun f x => ∑ c, u (x ∘ wires) c * f (extend wires c x)
    map_add' := fun f g => by
      funext x
      simp [mul_add,Finset.sum_add_distrib]
    map_smul' := fun a f => by
      funext x
      simp [Finset.mul_sum,mul_left_comm] : Module.End ℂ (Amplitudes ι) }
lemma act_apply (u f x) :
    act wires u f x = ∑ c, u (x ∘ wires) c * f (extend wires c x) := rfl
section
variable {wires} {c d : Fin k → Fin 2} {x : ι → Fin 2}
lemma extend_extend (c d) (x : ι → Fin 2) : extend wires d (extend wires c x) = extend wires d x := by
  funext w
  by_cases hw : ∃ j, wires j = w <;> simp [extend,hw]
lemma extend_self (hinj : Injective wires) (x : ι → Fin 2) : extend wires (x ∘ wires) x = x := by
  funext w
  by_cases hw : ∃ j, wires j = w
  · obtain ⟨j,rfl⟩ := hw
    simp [hinj.extend_apply]
  · simp [extend_apply' _ _ _ hw]
lemma extend_succ [DecidableEq ι] {wires : Fin (k+1) → ι} (hinj : Injective wires) (c : Fin (k+1) → Fin 2) (x) :
    extend wires c x = extend (wires ∘ Fin.succ) (c ∘ Fin.succ) (update x (wires 0) (c 0)) := by
  funext v
  by_cases hv : ∃ j, (wires ∘ Fin.succ) j = v
  · obtain ⟨j,rfl⟩ := hv
    rw [(hinj.comp (Fin.succ_injective k)).extend_apply]
    exact hinj.extend_apply c x j.succ
  · rw [extend_apply' _ _ _ hv]
    by_cases hw : v = wires 0
    · rw [hw,hinj.extend_apply,update_self]
    · rw [update_of_ne hw,extend_apply']
      rintro ⟨j,rfl⟩
      exact Fin.cases (fun h _ => h rfl) (fun j _ h => h ⟨j,rfl⟩) j hw hv
variable {wires' : Fin l → ι}
lemma extend_comp_of_disjoint (hd : ∀ j j', wires j ≠ wires' j') (c) (x : ι → Fin 2) : extend wires c x ∘ wires' = x ∘ wires' := by
  funext j'
  exact extend_apply' _ _ _ fun ⟨j,hj⟩ => hd j j' hj
lemma extend_comm (hd : ∀ j j', wires j ≠ wires' j') (c) (d : Fin l → Fin 2) (x) :
    extend wires c (extend wires' d x) = extend wires' d (extend wires c x) := by
  funext w
  by_cases hw : ∃ j, wires j = w
  · have hw' : ¬ ∃ j', wires' j' = w := by
      rintro ⟨j',rfl⟩
      obtain ⟨j,hj⟩ := hw
      exact hd j j' hj
    simp [extend,hw,hw']
  · simp [extend,hw]
end
section
variable {wires} {wires' : Fin l → ι}
lemma act_add (wires : Fin k → ι) (u v) : act wires (u+v) = act wires u + act wires v := by
  ext f x
  simp [act_apply,add_mul,Finset.sum_add_distrib]
lemma act_smul (wires : Fin k → ι) (a : ℂ) (u) : act wires (a • u) = a • act wires u := by
  ext f x
  simp [act_apply,Finset.mul_sum,mul_assoc]
lemma act_one (hinj : Injective wires) : act wires 1 = 1 := by
  ext f x
  rw [act_apply,Finset.sum_eq_single (x ∘ wires)]
  · simp [extend_self hinj]
  · intro c _ hc
    simp [Matrix.one_apply_ne hc.symm]
  · simp
lemma act_mul (hinj : Injective wires) (u v) : act wires (u*v) = act wires u * act wires v := by
  ext f x
  have hin : ∀ c, act wires v f (extend wires c x) = ∑ d, v c d * f (extend wires d x) := by
    intro c
    rw [act_apply,extend_comp hinj]
    simp only [extend_extend]
  simp only [Operator.mul_apply,act_apply wires u,hin,act_apply wires (u*v),Matrix.mul_apply,Finset.sum_mul,Finset.mul_sum]
  rw [Finset.sum_comm]
  simp only [mul_assoc]
lemma act_commute (hd : ∀ j j', wires j ≠ wires' j') (u v) :
    Commute (act wires u) (act wires' v) := by
  ext f x
  have hd' : ∀ j' j, wires' j' ≠ wires j := fun j' j h => hd j j' h.symm
  simp only [Operator.mul_apply,act_apply,Finset.mul_sum,extend_comp_of_disjoint hd,extend_comp_of_disjoint hd']
  rw [Finset.sum_comm]
  refine Finset.sum_congr rfl fun d _ => Finset.sum_congr rfl fun c _ => ?_
  rw [extend_comm hd' d c x]
  ring
end
def wire (q : ι) : OneBitMatrix →ₐ[ℂ] Operator ι :=
  AlgHom.ofLinearMap
    { toFun := fun u => act (fun _ : Fin 1 => q) (u.submatrix (fun c : Fin 1 → Fin 2 => c 0) fun c => c 0)
      map_add' := fun u v => by rw [← act_add]; rfl
      map_smul' := fun a u => by rw [RingHom.id_apply,← act_smul]; rfl }
    (by
      have hone : (1 : OneBitMatrix).submatrix (fun c : Fin 1 → Fin 2 => c 0)
          (fun c : Fin 1 → Fin 2 => c 0) = 1 :=
        Matrix.submatrix_one_equiv (Equiv.funUnique (Fin 1) (Fin 2))
      simp only [LinearMap.coe_mk,AddHom.coe_mk]
      rw [hone,act_one (injective_of_subsingleton _)])
    (fun u v => by
      have hmul := Matrix.submatrix_mul_equiv u v (fun c : Fin 1 → Fin 2 => c 0) (Equiv.funUnique (Fin 1) (Fin 2))
        (fun c : Fin 1 → Fin 2 => c 0)
      simp only [LinearMap.coe_mk,AddHom.coe_mk]
      rw [← act_mul (injective_of_subsingleton _)]
      exact congrArg _ hmul.symm)
lemma wire_commute {q r : ι} (hqr : q ≠ r) (u v) : Commute (wire q u) (wire r v) :=
  act_commute (fun _ _ => hqr) _ _
lemma act_commute_act {qs rs : List ι} (h : qs.Disjoint rs) (u)
    (v) : Commute (act qs.get u) (act rs.get v) := by
  refine act_commute (fun j j' hj => h (qs.get_mem j) ?_) u v
  exact hj ▸ rs.get_mem j'
lemma act_commute_wire {qs : List ι} {q} (hq : q ∉ qs) (u)
    (m) : Commute (act qs.get u) (wire q m) := by
  refine act_commute (fun j _ hj => hq ?_) _ _
  exact hj ▸ qs.get_mem j
lemma wire_apply [DecidableEq ι] (q u f) (x : ι → Fin 2) :
    wire q u f x = ∑ b, u (x q) b * f (update x q b) := by
  have hu : ∀ c, extend (fun _ : Fin 1 => q) c x = update x q (c 0) := by
    intro c
    funext w
    by_cases hw : w = q
    · subst hw
      rw [update_self,(injective_of_subsingleton fun _ : Fin 1 => w).extend_apply c x 0]
    · rw [update_of_ne hw,extend_apply' _ _ _ fun ⟨_,h⟩ => hw h.symm]
  have hact : wire q u f x = ∑ c : Fin 1 → Fin 2, u (x q) (c 0) * f (extend (fun _ : Fin 1 => q) c x) := rfl
  rw [hact]
  simp only [hu]
  exact Fintype.sum_equiv (Equiv.funUnique (Fin 1) (Fin 2)) _ _ fun _ => rfl
section
variable (f : Fin k → OneBitMatrix)
def tensor : BitMatrix k := Matrix.of fun r c => ∏ j, f j (r j) (c j)

/-- One matrix for each wire: all at once, or one after the other. -/
lemma act_tensor {wires : Fin k → ι} (hinj : Injective wires) (f) : act wires (tensor f) = (ofFn fun j => wire (wires j) (f j)).prod := by
  classical
  induction k with
  | zero =>
    have hone : tensor f = 1 := by
      ext r c
      rw [Subsingleton.elim r c]
      simp [tensor]
    rw [hone,act_one hinj,ofFn_zero,prod_nil]
  | succ k ih =>
    have hx : ∀ (x : ι → Fin 2) b, update x (wires 0) b ∘ wires ∘ Fin.succ = x ∘ wires ∘ Fin.succ := fun x b =>
      update_comp_eq_of_forall_ne x b fun j => hinj.ne (Fin.succ_ne_zero j)
    have hs := ih (hinj.comp (Fin.succ_injective k)) (f ∘ Fin.succ)
    ext φ x
    rw [ofFn_succ,prod_cons,Operator.mul_apply,wire_apply,act_apply]
    change _ = ∑ a, f 0 _ a * (ofFn fun j => wire ((wires ∘ Fin.succ) j) ((f ∘ Fin.succ) j)).prod φ _
    simp only [← hs,act_apply,Finset.mul_sum,hx]
    rw [← Fintype.sum_prod_type']
    refine Fintype.sum_equiv (Fin.consEquiv fun _ => Fin 2).symm _ _ fun c => ?_
    rw [extend_succ hinj,tensor,Matrix.of_apply,Fin.prod_univ_succ,mul_assoc]
    rfl
variable {α : Type} {ts : List α} {w : α → ι}
lemma injective_get_map (h : (ts.map w).Nodup) : Injective fun j => w (ts.get j) := fun _ _ hij =>
  nodup_iff_injective_get.mp (h.of_map w) (inj_on_of_nodup_map h (get_mem _ _) (get_mem _ _) hij)
lemma act_tensor_map (h : (ts.map w).Nodup) (f : α → OneBitMatrix) :
    act (fun j => w (ts.get j)) (tensor fun j => f (ts.get j)) = (ts.reverse.map fun t => wire (w t) (f t)).prod := by
  have hl : (ofFn fun j => wire (w (ts.get j)) (f (ts.get j))) = ts.map fun t => wire (w t) (f t) := by
    rw [← comp_def (fun t => wire (w t) (f t)) ts.get,← map_ofFn,ofFn_get]
  rw [act_tensor (injective_get_map h),hl]
  exact ((reverse_perm ts).symm.map _).prod_eq' (pairwise_map.mpr ((pairwise_map.mp h).imp fun h => wire_commute h _ _))
end
/-- The number with the given bits, the first of which counts most. -/
def number : {k : ℕ} → (Fin k → Fin 2) → ℕ
  | 0, _ => 0
  | k+1, c => c 0 * 2^k + number fun j : Fin k => c j.succ
variable (c : Fin k → Fin 2)
lemma number_eq : number c = finFunctionFinEquiv (c ∘ Fin.rev) := by
  induction k with
  | zero => rfl
  | succ k ih =>
    rw [finFunctionFinEquiv_apply,Fin.sum_univ_castSucc]
    simp [number,ih,Fin.rev_castSucc,add_comm]
lemma number_zero (k) : number (0 : Fin k → Fin 2) = 0 := by simp [number_eq]
lemma number_lt : number c < 2^k := number_eq c ▸ Fin.is_lt _
lemma digit_number (w : Fin k) : number c / 2^(k-1-w) % 2 = c w := by
  have h := congrArg Fin.val (congrFun (finFunctionFinEquiv.symm_apply_apply (c ∘ Fin.rev)) w.rev)
  rw [finFunctionFinEquiv_symm_apply_val,← number_eq] at h
  simpa [Fin.val_rev,Nat.sub_sub,Nat.add_comm] using h
lemma number_injective : Injective (number : (Fin k → Fin 2) → ℕ) := by
  intro c d h
  rw [number_eq,number_eq,Fin.val_inj,finFunctionFinEquiv.apply_eq_iff_eq] at h
  exact Fin.rev_surjective.injective_comp_right h
def place (k : ℕ) : (Fin k → Fin 2) ≃ Fin (2^k) :=
  Equiv.ofBijective (fun c => ⟨number c,number_lt c⟩) (by
    rw [Fintype.bijective_iff_injective_and_card]
    exact ⟨fun c d h => number_injective (Fin.val_eq_of_eq h),by simp⟩)
lemma place_val : (place k c).val = number c := rfl
def onWires (m : Mat ℝ) (qs : List ι) : Operator ι :=
  act qs.get ((toMatrix (2^qs.length) m).submatrix (place _) (place _))
lemma onWires_congr (h : toMatrix (2^qs.length) a = toMatrix (2^qs.length) b) : onWires a qs = onWires b qs := by
  rw [onWires,onWires,h]
lemma onWires_add (ha : Square (2^qs.length) a) (b) : onWires (a+b) qs = onWires a qs + onWires b qs := by
  rw [onWires,toMatrix_add ha,onWires,onWires,← act_add]
  rfl
lemma onWires_sub (ha : Square (2^qs.length) a) (b) : onWires (a-b) qs = onWires a qs - onWires b qs := by
  rw [onWires,toMatrix_sub ha,sub_eq_add_neg,← neg_one_smul ℂ (toMatrix _ b),sub_eq_add_neg,← neg_one_smul ℂ (onWires b qs),
    onWires,onWires,← act_smul,← act_add]
  rfl
lemma onWires_scale (z a) (qs : List ι) : onWires (a.scale z) qs = val z • onWires a qs := by
  rw [onWires,toMatrix_scale,onWires,← act_smul]
  rfl
lemma onWires_identity (hqs : qs.Nodup) : onWires (Mat.identity (2^qs.length)) qs = 1 := by
  rw [onWires,toMatrix_identity,Matrix.submatrix_one_equiv,act_one (nodup_iff_injective_get.mp hqs)]
lemma onWires_mul {qs : List ι} (hqs : qs.Nodup) (ha : Square (2^qs.length) a) (hb : Square (2^qs.length) b) :
    onWires (a*b) qs = onWires a qs * onWires b qs := by
  rw [onWires,toMatrix_mul ha hb,← Matrix.submatrix_mul_equiv _ _ _ (place qs.length) _,act_mul (nodup_iff_injective_get.mp hqs)]
  rfl
lemma onWires_single (m) (q : ι) : onWires m [q] = wire q (toMatrix 2 m) := by
  have hget : [q].get = fun _ : Fin 1 => q := by
    funext j
    simp
  have hb : (toMatrix (2^1) m).submatrix (place 1) (place 1) =
      (toMatrix 2 m).submatrix (fun c : Fin 1 → Fin 2 => c 0) fun c => c 0 := by
    have hn : ∀ c, (place 1 c).val = c 0 := fun c => by rw [place_val]; simp [number]
    ext r c
    simp [hn]
  calc onWires m [q] = act (fun _ : Fin 1 => q) ((toMatrix (2^1) m).submatrix (place 1) (place 1)) :=
        congrArg (fun w => act w ((toMatrix (2^1) m).submatrix (place 1) (place 1))) hget
    _ = wire q (toMatrix 2 m) := by rw [hb]; rfl
lemma onWires_kron (ha : Square 2 a) (hb : Square 2 b) {q r : ι} (hqr : q ≠ r) :
    onWires (a.kron b) [q,r] = wire q (toMatrix 2 a) * wire r (toMatrix 2 b) := by
  have hen : (toMatrix (2^2) (a.kron b)).submatrix (place 2) (place 2) = tensor ![toMatrix 2 a,toMatrix 2 b] := by
    ext c d
    have hget : (a.kron b).get (place 2 c) (place 2 d) =
        a.get ((place 2 c).val/b.rows) ((place 2 d).val/b.cols) * b.get ((place 2 c).val % b.rows) ((place 2 d).val % b.cols) := by
      refine get_ofFn _ ?_ ?_
      · rw [ha.rows_eq,hb.rows_eq]; exact (place 2 c).isLt
      · rw [ha.cols_eq,hb.cols_eq]; exact (place 2 d).isLt
    have hdiv : ∀ c : Fin 2 → Fin 2, number c / 2 = c 0 ∧ number c % 2 = c 1 := by decide
    rw [Matrix.submatrix_apply,toMatrix_apply,hget,hb.rows_eq,hb.cols_eq,place_val,place_val,(hdiv c).1,(hdiv c).2,(hdiv d).1,(hdiv d).2]
    simp [tensor]
  have hinj : Injective [q,r].get := nodup_iff_injective_get.mp (by simpa using hqr)
  refine (congrArg (act [q,r].get) hen).trans ((act_tensor hinj _).trans ?_)
  simp
end
end QuantumCircuits.WireOperators
