import QuantumCircuits.Proofs.WireOperators

/-! # Registers of qubits

The amplitudes of the assignments of bits to `n` wires are kept in a tensor with `n` axes of size two. A matrix applied
to some axes acts on the wires of the same number.
-/
namespace QuantumCircuits.Registers
open Exact WireOperators List Function
variable {k : ℕ} {ws : List (Fin n)}
def cpx (z : ℂ) : Cpx ℝ := ⟨z.re,z.im⟩
@[simp] lemma val_cpx (z) : val (cpx z) = z := rfl
@[simp] lemma cpx_val (z) : cpx (val z) = z := rfl
section
variable (x : Fin n → Fin 2)
def index : Index := ofFn fun j => (x j).val
lemma foldr_replicate (n) : (replicate n 2).foldr (· * ·) 1 = 2^n := prod_replicate n 2
lemma flatten_index : Index.flatten (replicate n 2) (index x) = number x := by
  induction n with
  | zero => rfl
  | succ n ih =>
    rw [index,ofFn_succ,replicate_succ,Index.flatten,foldr_replicate]
    exact congrArg _ (ih fun j => x j.succ)
lemma unflatten_number : Index.unflatten (replicate n 2) (number x) = index x := by
  have hs : ∀ n r, Index.unflatten (replicate n 2) r = ofFn fun w : Fin n => r / 2^(n-1-w) % 2 := by
    intro n r
    induction n with
    | zero => rfl
    | succ n ih =>
      rw [ofFn_succ,replicate_succ,Index.unflatten,foldr_replicate,ih]
      simp [Nat.sub_sub,Nat.add_comm]
  rw [hs]
  exact congrArg ofFn (funext (digit_number x))
lemma pick_index (ws : List (Fin n)) : Index.pick (index x) (ws.map Fin.val) = ws.map fun j => (x j).val := by
  simp [Index.pick,index]
lemma pick_index_get (ws : List (Fin n)) : Index.pick (index x) (ws.map Fin.val) = index (x ∘ ws.get) := by
  rw [pick_index,index]
  exact ext_getElem (by simp) (by simp)
lemma set_index (w : Fin n) (b : Fin 2) : (index x).set w b = index (update x w b) := by
  apply ext_getElem
  · simp [index,Index.set]
  · intro i hi hi'
    have hin : i < n := by simpa [index] using hi'
    by_cases hw : w.val = i
    · subst hw
      simp [index,Index.set]
    · have hne : ⟨i,hin⟩ ≠ w := fun h => hw (congrArg Fin.val h).symm
      simp [index,Index.set,hw,update_of_ne hne]
lemma extend_cons {w} (hws : (w :: ws).Nodup) (c : Fin (ws.length+1) → Fin 2) (x) :
    extend (w :: ws).get c x = extend ws.get (fun j => c j.succ) (update x w (c 0)) :=
  extend_succ (nodup_iff_injective_get.mp hws) c x
lemma put_index (hws : ws.Nodup) (c) :
    Index.put (index x) (ws.map Fin.val) (index c) = index (extend ws.get c x) := by
  induction ws generalizing x with
  | nil =>
    have he : extend ([]).get c x = x := by
      funext v
      exact extend_apply' _ _ _ fun ⟨j,_⟩ => j.elim0
    rw [he]
    rfl
  | cons w ws ih =>
    have hc : index c = (c 0).val :: index fun j => c j.succ := ofFn_succ
    rw [extend_cons hws,← ih (update x w (c 0)) hws.of_cons fun j => c j.succ,← set_index,hc]
    rfl
lemma sum_all {M : Type} [AddCommMonoid M] (f : Index → M) (k) :
    ((Index.all (replicate k 2)).map f).sum = ∑ c : Fin k → Fin 2, f (index c) := by
  induction k generalizing f with
  | zero => simp [Index.all,index]
  | succ k ih =>
    have hs : ∑ c : Fin (k+1) → Fin 2, f (index c) = ∑ b : Fin 2, ∑ c : Fin k → Fin 2, f (b.val :: index c) := by
      rw [← Fintype.sum_prod_type',← Equiv.sum_comp (Fin.consEquiv fun _ => Fin 2)]
      simp [index]
    rw [hs]
    have hr : range 2 = [0,1] := rfl
    simp [Index.all,replicate_succ,hr,ih]
end
section
variable (ψ : Wave n)
noncomputable def register : Tensor ℝ := ⟨Tensor.qubitShape n,Array.ofFn fun i : Fin (2^n) => cpx (ψ ((place n).symm i))⟩
@[simp] lemma shape_register : (register ψ).shape = replicate n 2 := rfl
@[simp] lemma size_register : (register ψ).entries.size = 2^n := Array.size_ofFn
variable (x : Fin n → Fin 2)
lemma getD_register : (register ψ).entries.getD (number x) 0 = cpx (ψ x) := by
  have hlt : number x < 2^n := number_lt x
  have hp : ⟨number x,hlt⟩ = place n x := rfl
  simp [register,hlt,hp]
lemma get_register : (register ψ).get (index x) = cpx (ψ x) := by rw [Tensor.get,shape_register,flatten_index,getD_register]
lemma get_set_register (w : Fin n) : (index x).getD w 0 = x w ∧
    (register ψ).get (Index.set (index x) w 0) = cpx (ψ (update x w 0)) ∧
    (register ψ).get (Index.set (index x) w 1) = cpx (ψ (update x w 1)) := by
  rw [← get_register,← get_register,← set_index,← set_index]
  exact ⟨by simp [index],rfl,rfl⟩
lemma ofFn_eq_register (f) :
    Tensor.ofFn (replicate n 2) f = register fun x : Fin n → Fin 2 => val (f (index x)) := by
  have hs : Tensor.sizeOf (replicate n 2) = 2^n := foldr_replicate n
  have he : (Array.ofFn fun k : Fin (Tensor.sizeOf (replicate n 2)) => f (Index.unflatten (replicate n 2) k.val)) =
      Array.ofFn fun i : Fin (2^n) => cpx (val (f (index ((place n).symm i)))) := by
    apply Array.ext
    · simp [hs]
    · intro i hi hi'
      have hin : i < 2^n := by simpa using hi'
      have hn : number ((place n).symm ⟨i,hin⟩) = i := by rw [← place_val,Equiv.apply_symm_apply]
      have hidx : Index.unflatten (replicate n 2) i = index ((place n).symm ⟨i,hin⟩) := by
        rw [← unflatten_number,hn]
      simp [hidx]
  rw [Tensor.ofFn,he]
  rfl
lemma add_register (φ ψ : Wave n) : (register φ).add (register ψ) = register (φ+ψ) := by
  rw [Tensor.add,shape_register,ofFn_eq_register]
  congr 1
  funext x
  rw [get_register,get_register]
  rfl
lemma flatten_append (r : Fin k → Fin 2) (l is) :
    Index.flatten (replicate (k+l) 2) (index r ++ is) = number r * 2^l + Index.flatten (replicate l 2) is := by
  induction k with
  | zero =>
    simp [index,number]
  | succ k ih =>
    have hc : index r = (r 0).val :: index fun j => r j.succ := ofFn_succ
    have hn : number r = r 0 * 2^k + number fun j : Fin k => r j.succ := rfl
    rw [hc,cons_append,Nat.add_right_comm,replicate_succ,Index.flatten,foldr_replicate,ih,hn]
    ring
lemma get_ofMat (hm : Square (2^k) m) (r c : Fin k → Fin 2) :
    (Tensor.ofMat (replicate (2*k) 2) m).get (index r ++ index c) = m.get (number r) (number c) := by
  have hf : Index.flatten (replicate (2*k) 2) (index r ++ index c) = number r * 2^k + number c := by
    rw [two_mul,flatten_append,flatten_index]
  rw [Mat.get,hm.cols_eq,← hf]
  rfl
lemma leftMultiply_register (hws : ws.Nodup) (hm : Square (2^ws.length) m) (ψ) :
    (Tensor.ofMat (replicate (2*ws.length) 2) m).leftMultiply (register ψ) (ws.map Fin.val) =
      register (onWires m ws ψ) := by
  have hd : (replicate (2*ws.length) 2).drop (ws.map Fin.val).length = replicate ws.length 2 := by
    simp [two_mul]
  rw [Tensor.leftMultiply,shape_register,ofFn_eq_register]
  congr 1
  funext x
  simp only [Tensor.ofMat,hd,pick_index_get,val_sum,map_map]
  rw [sum_all]
  refine Fintype.sum_congr _ _ fun c => ?_
  have he := get_ofMat hm (x ∘ ws.get) c
  rw [Tensor.ofMat] at he
  rw [comp_apply,he,put_index x hws,get_register]
  rfl
lemma mixAxis_register (w : Fin n) (ψ) : (register ψ).mixAxis m w = register (onWires m [w] ψ) := by
  rw [Tensor.mixAxis,shape_register,ofFn_eq_register]
  congr 1
  funext x
  obtain ⟨hbit,hz,hone⟩ := get_set_register ψ x w
  rw [onWires_single,wire_apply,Fin.sum_univ_two]
  simp only [hbit,hz,hone,val_add,val_mul,val_cpx,toMatrix_apply,Fin.val_zero,Fin.val_one]

/-- A matrix on some axes acts on the wires of the same numbers. -/
lemma applyMatrix_register (hws : ws.Nodup) (hm : Square (2^ws.length) m) (ψ) :
    (register ψ).applyMatrix m (ws.map Fin.val) = register (onWires m ws ψ) := by
  match ws with
  | [w] => exact mixAxis_register w ψ
  | [] => exact leftMultiply_register hws hm ψ
  | _ :: _ :: _ => simpa [Tensor.applyMatrix] using leftMultiply_register hws hm ψ

/-- Steps that each act on one wire act together by a Kronecker product. -/
lemma foldlM_wires {ε α σ : Type} {step : σ → α → Except ε σ} {e : Wave n → σ} {ts : List α} {w : α → Fin n}
    {f : α → OneBitMatrix} (h : ∀ t ∈ ts, ∀ φ, step (e φ) t = .ok (e (wire (w t) (f t) φ)))
    (hts : (ts.map w).Nodup) (φ) :
    ts.foldlM step (e φ) = .ok (e (act (fun j => w (ts.get j)) (tensor fun j => f (ts.get j)) φ)) := by
  rw [act_tensor_map hts]
  clear hts
  induction ts generalizing φ with
  | nil => rfl
  | cons t ts ih =>
    rw [foldlM_cons,h t mem_cons_self]
    refine (ih (forall_mem_cons.mp h).2 _).trans ?_
    simp
end
section
variable {ι : Type} {wires : Fin k → ι} (hinj : Injective wires)
include hinj
lemma involutive_exchange : Involutive fun p : (ι → Fin 2) × (Fin k → Fin 2) => (extend wires p.2 p.1,p.1 ∘ wires) := by
  rintro ⟨x,c⟩
  simp only [Prod.mk.injEq]
  exact ⟨by rw [extend_extend,extend_self hinj],extend_comp hinj c x⟩
variable [Fintype ι] [DecidableEq ι]
lemma sum_star_mul_act (u φ ψ) :
    ∑ x, star (φ x) * act wires u ψ x = ∑ x, star (act wires u.conjTranspose φ x) * ψ x := by
  simp only [act_apply,star_sum,Finset.mul_sum,Finset.sum_mul]
  rw [← Fintype.sum_prod_type',← Fintype.sum_prod_type']
  refine Fintype.sum_equiv (involutive_exchange hinj).toPerm _ _ ?_
  rintro ⟨x,c⟩
  have hc : extend wires c x ∘ wires = c := extend_comp hinj c x
  have hb : extend wires (x ∘ wires) (extend wires c x) = x := by rw [extend_extend,extend_self hinj]
  simp only [Involutive.coe_toPerm,hc,hb,Matrix.conjTranspose_apply,star_mul,star_star]
  ring
lemma sum_normSq_act {u} (hu : u.conjTranspose*u = 1) (ψ) :
    ∑ x, Complex.normSq (act wires u ψ x) = ∑ x, Complex.normSq (ψ x) := by
  have hc : ∀ φ : Amplitudes ι, (∑ x, Complex.normSq (φ x) : ℝ) = ∑ x, star (φ x) * φ x := by
    intro φ
    rw [Complex.ofReal_sum]
    exact Fintype.sum_congr _ _ fun x => Complex.normSq_eq_conj_mul_self
  apply Complex.ofReal_injective
  have hs : act wires u.conjTranspose (act wires u ψ) = ψ := by
    rw [← Operator.mul_apply,← act_mul hinj,hu,act_one hinj,Operator.one_apply]
  rw [hc,hc,sum_star_mul_act hinj,hs]
end
end QuantumCircuits.Registers
