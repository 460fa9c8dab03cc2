import QuantumCircuits.Proofs.PauliOperators
import QuantumCircuits.Proofs.SampledRuns

/-! # What gates do to registers

A gate acts on a register by its matrix, whether it says directly what it does to the amplitudes or goes through the
matrix. Under controls it acts on the slice where these are set.
-/
namespace QuantumCircuits.GateActions
open Exact WireOperators Registers PauliOperators SampledRuns List Gate Function Complex PowerKind Tensor Cpx Operator Equiv RealScalar
variable {m : Mat ℝ}
section
variable {ι : Type} {ws : List ι} {factor : (Fin ws.length → Fin 2) → ℂ}
lemma onWires_apply (m ws φ) (x : ι → Fin 2) :
    onWires m ws φ x = ∑ c, val (m.get (number (x ∘ ws.get)) (number c)) * φ (extend ws.get c x) := rfl
lemma onWires_monomial {σ : (Fin ws.length → Fin 2) → Fin ws.length → Fin 2}
    (hm : ∀ r c, val (m.get (number r) (number c)) = if c = σ r then factor r else 0) (φ x) :
    onWires m ws φ x = factor (x ∘ ws.get) * φ (extend ws.get (σ (x ∘ ws.get)) x) := by
  rw [onWires_apply,Finset.sum_eq_single (σ (x ∘ ws.get))]
  · rw [hm,if_pos rfl]
  · intro c _ hc
    rw [hm,if_neg hc,zero_mul]
  · simp
lemma onWires_diagonal (hws : ws.Nodup) (hm : ∀ r c, val (m.get (number r) (number c)) = if c = r then factor r else 0)
    (φ x) : onWires m ws φ x = factor (x ∘ ws.get) * φ x := by
  rw [onWires_monomial (σ := id) hm,id,extend_self (nodup_iff_injective_get.mp hws)]
end
section
lemma map_register (f) (φ : Wave n) : (register φ).map f = register fun x => val (f (cpx (φ x))) := by
  unfold Tensor.map register
  congr 1
  apply Array.ext
  · simp
  · simp
lemma phase_register (c) (φ : Wave n) : (register φ).phase c = register (val c • φ) := by
  unfold phase
  split
  · rename_i h
    rw [eq_of_beq h,val_one,one_smul]
  · rw [map_register]
    congr 1
    funext x
    simp [mul_comm]
variable (ws : List (Fin n))
lemma index_injective : Injective (index (n := n)) := by
  intro x y h
  funext j
  exact Fin.ext (congrFun (ofFn_injective h) j)
lemma phaseWhere_register (b c φ) :
    (register φ).phaseWhere (ws.map Fin.val) (index b) c = register fun x => (if x ∘ ws.get = b then val c else 1) * φ x := by
  rw [phaseWhere,shape_register,ofFn_eq_register]
  congr 1
  funext x
  rw [pick_index_get,get_register]
  by_cases h : x ∘ ws.get = b
  · simp [h,mul_comm]
  · simp [h,index_injective.ne h]
lemma phaseWhere_both {b b'} (hne : b ≠ b') (c φ) :
    ((register φ).phaseWhere (ws.map Fin.val) (index b) c).phaseWhere (ws.map Fin.val) (index b') c =
      register fun x => (if x ∘ ws.get = b ∨ x ∘ ws.get = b' then val c else 1) * φ x := by
  rw [phaseWhere_register,phaseWhere_register]
  congr 1
  funext x
  by_cases h : x ∘ ws.get = b <;> simp [h,hne]
lemma exchange_register {ws : List (Fin n)} (hws : ws.Nodup) (b b' φ) :
    (register φ).exchange (ws.map Fin.val) (index b) (index b') =
      register fun x => φ (extend ws.get (swap b b' (x ∘ ws.get)) x) := by
  rw [exchange,shape_register,ofFn_eq_register]
  congr 1
  funext x
  rw [pick_index_get,put_index x hws,put_index x hws,get_register,get_register,get_register]
  by_cases h : x ∘ ws.get = b
  · simp [h]
  · rw [if_neg (index_injective.ne h)]
    by_cases h' : x ∘ ws.get = b'
    · rw [h',if_pos rfl,swap_apply_right,val_cpx]
    · rw [if_neg (index_injective.ne h'),swap_apply_of_ne_of_ne h h',extend_self (nodup_iff_injective_get.mp hws),val_cpx]
lemma halves_register (w : Fin n) (φ) :
    (register φ).halves w = register fun x => (φ (update x w 0) + (if x w = 1 then -1 else 1) * φ (update x w 1))/2 := by
  rw [halves,shape_register,ofFn_eq_register]
  congr 1
  funext x
  obtain ⟨hbit,hz,hone⟩ := get_set_register φ x w
  simp only [hbit,hz,hone]
  by_cases h : x w = 1
  · simp [h]
    ring
  · have hval : (x w).val ≠ 1 := fun hval => h (Fin.ext hval)
    simp [h,hval]
    ring
end
section
variable (k : PowerKind)
lemma square_components : ∀ c ∈ k.components, Square (2^k.numQubits) c.2 := by
  intro c hc
  cases k <;> simp only [components,mem_cons,not_mem_nil,or_false] at hc <;>
    rcases hc with rfl | rfl | rfl <;> exact ⟨rfl,rfl⟩
variable (e s : ℝ)
lemma square_eigen {d components} (hne : components ≠ []) (hsq : ∀ c ∈ components, Square d c.2) (e s) :
    Square d (Eigen.matrix components e s) := by
  obtain ⟨c,cs,rfl⟩ := exists_cons_of_ne_nil hne
  exact foldlRecOn _ Mat.add ((hsq c mem_cons_self).scale _) fun m hm a _ => hm.add a
lemma components_ne_nil : (k.components : List (ℝ × Mat ℝ)) ≠ [] := by
  cases k <;> simp [components]
lemma square_power : Square (2^k.numQubits) (powerMatrix k e s) :=
  square_eigen (components_ne_nil k) (square_components k) e s
lemma val_shiftPhase : val (shiftPhase e s) = exp (Real.pi/2*(2*e*s)*I) := by
  rw [shiftPhase,val_iPow]
  push_cast
  rfl
lemma toMatrix_shift : toMatrix (2^k.numQubits) (powerMatrix k e s) =
      val (shiftPhase e s) • toMatrix (2^k.numQubits) (powerMatrix k e 0) := by
  have hp f : val (iPow (2*e*(f+s))) = val (shiftPhase e s) * val (iPow (2*e*(f+0))) := by
    rw [val_shiftPhase,val_iPow,val_iPow,← exp_add]
    push_cast
    ring_nf
  rw [powerMatrix,powerMatrix,toMatrix_eigen (components_ne_nil k) (square_components k),
    toMatrix_eigen (components_ne_nil k) (square_components k),smul_sum,map_map]
  congr 1
  apply map_congr_left
  intro c _
  rw [hp,comp_apply,mul_smul]
variable {k}
lemma onWires_shift {ws : List ι} (hws : ws.length = k.numQubits) (e s) :
    onWires (powerMatrix k e s) ws = val (shiftPhase e s) • onWires (powerMatrix k e 0) ws := by
  have hmat : toMatrix (2^ws.length) (powerMatrix k e s) =
      toMatrix (2^ws.length) ((powerMatrix k e 0).scale (shiftPhase e s)) := by
    rw [toMatrix_scale,hws,toMatrix_shift]
  rw [onWires_congr ws hmat,onWires_scale]
noncomputable def turned (e : ℝ) : ℂ := val (iPow (2*e))
lemma turned_one : turned 1 = -1 := by
  have h := val_iPow_int 2
  simpa [turned] using h
lemma toMatrix_axis (p e) : toMatrix 2 (powerMatrix (axisKind p) e 0) = phased (sigma p) (turned e) := toMatrix_phased p e
lemma val_get_phases {kept changed}
    (hk : (k.components : List (ℝ × Mat ℝ)) = [(0,projector (2^k.numQubits) kept), (1,projector (2^k.numQubits) changed)])
    (hs : ∀ i : Fin (2^k.numQubits), i.val ∈ kept ↔ i.val ∉ changed) (e) (r c : Fin k.numQubits → Fin 2) :
    val ((powerMatrix k e 0).get (number r) (number c)) = if c = r then (if number r ∈ changed then turned e else 1) else 0 := by
  have hsq := square_components k
  rw [hk] at hsq
  have ha := congrFun (congrFun (toMatrix_eigen (by simp) hsq e 0) ⟨number r,number_lt r⟩) ⟨number c,number_lt c⟩
  rw [powerMatrix,hk,← toMatrix_apply (n := 2^k.numQubits) _ ⟨number r,number_lt r⟩ ⟨number c,number_lt c⟩,ha]
  simp only [map_cons,sum_cons,toMatrix_diagonal,Matrix.add_apply,Matrix.smul_apply,Matrix.diagonal_apply,Fin.mk.injEq,number_injective.eq_iff,hs,turned]
  by_cases hcr : c = r
  · by_cases hmem : number r ∈ changed <;> simp [hcr,hmem,val_iPow]
  · simp [hcr,Ne.symm hcr]
variable {others : List ℕ}
lemma val_get_exchangePart {d a b} (plus) {i j} (hi : i < d) (hj : j < d) :
    val ((exchangePart d a b plus others).get i j) = if (i = a ∧ j = a) ∨ (i = b ∧ j = b) then 1/2
      else if (i = a ∧ j = b) ∨ (i = b ∧ j = a) then (if plus then 1/2 else -1/2)
      else if i = j ∧ i ∈ others then 1 else 0 := by
  have hh : (⟨h',0⟩ : Cpx ℝ) = Cpx.ofReal (1/2) := by simp [h',Cpx.ofReal]
  have hm : (⟨-h',0⟩ : Cpx ℝ) = Cpx.ofReal (-1/2) := by simp [h',Cpx.ofReal]; ring
  rw [exchangePart,get_ofFn _ hi hj]
  cases plus <;> simp only [hh,hm,Bool.false_eq_true,if_false,if_true,contains_iff_mem] <;> split_ifs <;> simp
lemma val_get_exchange {d a b i j : ℕ} (hi : i < d) (hj : j < d) (t) :
    val ((exchangePart d a b true others).get i j) + t * val ((exchangePart d a b false []).get i j) =
      if i = j then (if i = a ∨ i = b then (1+t)/2 else if i ∈ others then 1 else 0)
      else if (i = a ∧ j = b) ∨ (i = b ∧ j = a) then (1-t)/2 else 0 := by
  rw [val_get_exchangePart true hi hj,val_get_exchangePart false hi hj]
  by_cases hij : i = j
  · subst hij
    by_cases hi : i = a ∨ i = b
    · simp [hi]
      ring
    · have hout : ¬ (i = a ∧ i = b) ∧ ¬ (i = b ∧ i = a) := by omega
      simp [hi,hout]
  · have hs : ¬ ((i = a ∧ j = a) ∨ (i = b ∧ j = b)) := by omega
    by_cases hi : (i = a ∧ j = b) ∨ (i = b ∧ j = a)
    · simp [hij,hs,hi]
      ring
    · simp [hij,hs,hi]
variable {a b i j : ℕ}
variable (hk : (k.components : List (ℝ × Mat ℝ)) = [(0,exchangePart (2^k.numQubits) a b true others), (1,exchangePart (2^k.numQubits) a b false [])]) (ho : ∀ i < 2^k.numQubits, i = a ∨ i = b ∨ i ∈ others)
include hk ho
lemma val_get_exchanging (e) (hi : i < 2^k.numQubits) (hj : j < 2^k.numQubits) :
    val ((powerMatrix k e 0).get i j) = if i = j then (if i = a ∨ i = b then (1 + turned e)/2 else 1)
      else if (i = a ∧ j = b) ∨ (i = b ∧ j = a) then (1 - turned e)/2 else 0 := by
  have hsq := square_components k
  rw [hk] at hsq
  have ha := congrFun (congrFun (toMatrix_eigen (by simp) hsq e 0) ⟨i,hi⟩) ⟨j,hj⟩
  have he := @val_get_exchange others _ a b _ _ hi hj (turned e)
  have hke : ¬ (i = a ∨ i = b) → i ∈ others := fun h => by simpa [not_or.mp h] using ho i hi
  rw [powerMatrix,hk]
  refine Eq.trans (by simpa [turned,val_iPow] using ha) (he.trans ?_)
  split_ifs <;> tauto
lemma val_get_exchanging_one (hab : a ≠ b) (hi : i < 2^k.numQubits) (hj : j < 2^k.numQubits) :
    val ((powerMatrix k 1 0).get i j) = if j = swap b a i then 1 else 0 := by
  rw [val_get_exchanging hk ho 1 hi hj,turned_one,swap_apply_def]
  split_ifs <;> first | omega | norm_num
end
section
variable {k : PowerKind} {ws : List (Fin n)}
lemma phaseWhere_power (hws : ws.Nodup) (hlen : ws.length = k.numQubits) (e s) (b : Fin ws.length → Fin 2) {c}
    (hc : val c = turned e)
    (hm : ∀ r d, val ((powerMatrix k e 0).get (number r) (number d)) = if d = r then (if r = b then turned e else 1) else 0)
    (φ) :
    ((register φ).phaseWhere (ws.map Fin.val) (index b) c).phase (shiftPhase e s) =
      register (onWires (powerMatrix k e s) ws φ) := by
  rw [phaseWhere_register,phase_register,onWires_shift hlen,hc]
  congr 1
  funext x
  simp [onWires_diagonal hws hm]
lemma exchange_power (hws : ws.Nodup) (hlen : ws.length = k.numQubits) (s) (u v : Fin ws.length → Fin 2)
    (hm : ∀ i j, i < 2^ws.length → j < 2^ws.length →
      val ((powerMatrix k 1 0).get i j) = if j = swap (number u) (number v) i then 1 else 0) (φ) :
    ((register φ).exchange (ws.map Fin.val) (index u) (index v)).phase (shiftPhase 1 s) =
      register (onWires (powerMatrix k 1 s) ws φ) := by
  have hm r d :
      val ((powerMatrix k 1 0).get (number r) (number d)) = if d = swap u v r then 1 else 0 := by
    rw [hm _ _ (number_lt r) (number_lt d),number_injective.swap_apply]
    simp only [number_injective.eq_iff]
  rw [exchange_register hws,phase_register,onWires_shift hlen]
  congr 1
  funext x
  simp [onWires_monomial hm]
lemma val_get_xPower (e) (hi : i < 2) (hj : j < 2) :
    val ((powerMatrix .x e 0).get i j) = if i = j then (1 + turned e)/2 else (1 - turned e)/2 := by
  have ha := congrFun (congrFun (toMatrix_axis .x e) ⟨i,hi⟩) ⟨j,hj⟩
  refine ha.trans ?_
  interval_cases i <;> interval_cases j <;> simp [phased,sigma]
lemma val_get_iswap (hi : i < 4) (hj : j < 4) :
    val ((powerMatrix .iswap 1 0).get i j) = if j = swap 2 1 i then (if i = 2 ∨ i = 1 then I else 1) else 0 := by
  have hm : val (iPow (2*1*(ratio (-1) 2 + 0))) = -I := by
    have ht : ((-1) % 4).toNat = 3 := rfl
    have h := val_iPow_int (-1)
    rw [ht] at h
    norm_num at h ⊢
    exact h
  have he : val ((powerMatrix .iswap 1 0).get i j) = val ((projector 4 [0,3]).get i j) +
      I*(val ((exchangePart 4 1 2 true []).get i j) + -1 * val ((exchangePart 4 1 2 false []).get i j)) := by
    have ha := congrFun (congrFun (toMatrix_eigen (components_ne_nil .iswap) (square_components .iswap) 1 0) ⟨i,hi⟩) ⟨j,hj⟩
    simp only [components,map_cons,hm] at ha
    refine Eq.trans (by simpa [val_iPow,powerMatrix,components] using ha) ?_
    ring
  have hd : val ((projector 4 [0,3]).get i j) = if i = j then (if i ∈ [0,3] then 1 else 0) else 0 := by
    have ha := congrFun (congrFun (toMatrix_diagonal 4 [0,3]) ⟨i,hi⟩) ⟨j,hj⟩
    simpa [Matrix.diagonal_apply] using ha
  rw [he,hd,val_get_exchange hi hj,swap_apply_def]
  interval_cases i <;> interval_cases j <;> norm_num
lemma halves_power (w : Fin n) (s φ) :
    ((register φ).halves w).map (fun x => x * scale (sqrt two) (shiftPhase 1 s)) =
      register (onWires (powerMatrix .h 1 s) [w] φ) := by
  have hh : toMatrix 2 (powerMatrix .h 1 0) = hadamard := by simpa [one,nought] using toMatrix_hadamard
  rw [halves_register,map_register,onWires_shift (k := .h) rfl,onWires_single,hh]
  congr 1
  funext x
  simp only [smul_apply,Pi.smul_apply,wire_apply]
  have hr : (√2 : ℂ)⁻¹ = √2/2 := by
    have hsq : (√2 : ℂ)*√2 = 2 := by
      rw [← ofReal_mul]
      norm_num
    rw [inv_eq_iff_eq_inv,inv_div,eq_div_iff (fun h => by simp [h] at hsq),hsq]
  generalize x w = b
  fin_cases b <;> simp [hadamard,sigma,hr] <;> ring
lemma phases_zz (hws : [v,w].Nodup) (e s) (φ : Wave n) :
    (((register φ).phase (shiftPhase e s)).phaseWhere [v.val,w.val] [0,1] (iPow (two*e))).phaseWhere
        [v.val,w.val] [1,0] (iPow (two*e)) = register (onWires (powerMatrix .zz e s) [v,w] φ) := by
  have hne : (![0,1] : Fin 2 → Fin 2) ≠ ![1,0] := by decide
  have hbo := phaseWhere_both [v,w] hne (iPow (two*e)) (val (shiftPhase e s) • φ)
  have hb : ∀ r, number r ∈ [1,2] ↔ r = ![0,1] ∨ r = ![1,0] := by decide
  rw [phase_register]
  refine hbo.trans ?_
  rw [onWires_shift (k := .zz) rfl]
  congr 1
  funext x
  have hm : ∀ r d, val ((powerMatrix .zz e 0).get (number r) (number d)) =
      if d = r then (if r = ![0,1] ∨ r = ![1,0] then turned e else 1) else 0 := by
    intro r d
    rw [← if_congr (hb r) rfl rfl]
    exact val_get_phases (k := .zz) rfl (by decide) e r d
  have hd := onWires_diagonal hws hm φ x
  rw [smul_apply,Pi.smul_apply,Pi.smul_apply,hd]
  exact mul_left_comm _ _ _
lemma exchange_iswap (hws : [v,w].Nodup) (s) (φ : Wave n) :
    ((((register φ).exchange [v.val,w.val] [1,0] [0,1]).phaseWhere [v.val,w.val] [1,0] I).phaseWhere
        [v.val,w.val] [0,1] I).phase (shiftPhase 1 s) = register (onWires (powerMatrix .iswap 1 s) [v,w] φ) := by
  have hec := exchange_register hws ![1,0] ![0,1] φ
  have hne : (![1,0] : Fin 2 → Fin 2) ≠ ![0,1] := by decide
  have hb := phaseWhere_both [v,w] hne I
    fun x => φ (extend [v,w].get (swap ![1,0] ![0,1] (x ∘ [v,w].get)) x)
  have hm r c : val ((powerMatrix .iswap 1 0).get (number r) (number c)) =
      if c = swap ![1,0] ![0,1] r then (if r = ![1,0] ∨ r = ![0,1] then I else 1) else 0 := by
    have he := val_get_iswap (number_lt r) (number_lt c)
    have hs := number_injective.swap_apply ![1,0] ![0,1] r
    have hone : ∀ r, number r = 1 ↔ r = ![0,1] := by decide
    have htwo : ∀ r, number r = 2 ↔ r = ![1,0] := by decide
    simpa only [hone,htwo,show swap 2 1 (number r) = _ from hs,number_injective.eq_iff] using he
  refine (congrArg (fun t => phase _ (phaseWhere _ _ _ (phaseWhere _ _ _ t))) hec).trans
    ((congrArg (phase _) hb).trans ?_)
  rw [phase_register,onWires_shift (k := .iswap) rfl]
  congr 1
  funext x
  have hmo := @onWires_monomial _ _ [v,w] _ _ hm φ x
  simp [hmo]
lemma powerUpdate_register (hws : ws.Nodup) (hlen : ws.length = k.numQubits) {e s : ℝ} {φ : Wave n} {t : Tensor ℝ}
    (h : powerUpdate k e s (ws.map Fin.val) (register φ) = some t) : t = register (onWires (powerMatrix k e s) ws φ) := by
  have hone : ∀ {t' : Tensor ℝ}, (if e == ofInt 1 then some t' else none) = some t → e = 1 ∧ t' = t := by
    intro t' h'
    split at h'
    · rename_i he
      exact ⟨by simpa using he,Option.some.inj h'⟩
    · cases h'
  have hp {kept changed : List ℕ} {b : Fin k.numQubits → Fin 2}
      (hk : (k.components : List (ℝ × Mat ℝ)) = [(0,projector (2^k.numQubits) kept),(1,projector (2^k.numQubits) changed)])
      (hsp : ∀ i : Fin (2^k.numQubits), i.val ∈ kept ↔ i.val ∉ changed)
      (hb : ∀ r, number r ∈ changed ↔ r = b) r d :
      val ((powerMatrix k e 0).get (number r) (number d)) = if d = r then (if r = b then turned e else 1) else 0 := by
    rw [val_get_phases hk hsp,if_congr (hb r) rfl rfl]
  cases k with
  | z =>
    obtain ⟨w,rfl⟩ := length_eq_one_iff.mp hlen
    have hbi : ∀ r, number r ∈ [1] ↔ r = ![1] := by decide
    rw [← Option.some.inj h]
    exact phaseWhere_power hws hlen e s _ (by simp [turned]) (hp rfl (by decide) hbi) φ
  | cz =>
    obtain ⟨v,w,rfl⟩ := length_eq_two.mp hlen
    have hbi : ∀ r, number r ∈ [3] ↔ r = ![1,1] := by decide
    rw [← Option.some.inj h]
    exact phaseWhere_power hws hlen e s _ (by simp [turned]) (hp rfl (by decide) hbi) φ
  | ccz =>
    obtain ⟨u,v,w,rfl⟩ := length_eq_three.mp hlen
    have hbi : ∀ r, number r ∈ [7] ↔ r = ![1,1,1] := by decide
    have ht : val (cis (e*RealScalar.pi)) = turned e := by
      rw [turned,val_cis,val_iPow,pi_eq]
      push_cast
      ring_nf
    rw [← Option.some.inj h]
    exact phaseWhere_power hws hlen e s _ ht (hp rfl (by decide) hbi) φ
  | zz =>
    obtain ⟨v,w,rfl⟩ := length_eq_two.mp hlen
    rw [← Option.some.inj h]
    exact phases_zz hws e s φ
  | x =>
    obtain ⟨w,rfl⟩ := length_eq_one_iff.mp hlen
    obtain ⟨rfl,rfl⟩ := hone h
    refine exchange_power hws hlen s ![0] ![1] (fun i j hi hj => ?_) φ
    have hi : i < 2 := hi
    have hj : j < 2 := hj
    have hbi : number ![0] = 0 ∧ number ![1] = 1 := by decide
    rw [val_get_xPower 1 hi hj,turned_one,hbi.1,hbi.2]
    interval_cases i <;> interval_cases j <;> norm_num
  | h =>
    obtain ⟨w,rfl⟩ := length_eq_one_iff.mp hlen
    obtain ⟨rfl,rfl⟩ := hone h
    exact halves_power w s φ
  | cnot =>
    obtain ⟨v,w,rfl⟩ := length_eq_two.mp hlen
    obtain ⟨rfl,rfl⟩ := hone h
    exact exchange_power hws hlen s ![1,1] ![1,0] (fun _ _ => val_get_exchanging_one (k := .cnot) (a := 2) (b := 3) rfl (by decide) (by decide)) φ
  | swap =>
    obtain ⟨v,w,rfl⟩ := length_eq_two.mp hlen
    obtain ⟨rfl,rfl⟩ := hone h
    exact exchange_power hws hlen s ![1,0] ![0,1] (fun _ _ => val_get_exchanging_one (k := .swap) (a := 1) (b := 2) rfl (by decide) (by decide)) φ
  | iswap =>
    obtain ⟨v,w,rfl⟩ := length_eq_two.mp hlen
    obtain ⟨rfl,rfl⟩ := hone h
    exact exchange_iswap hws s φ
  | _ => cases h
end
section
variable {n : ℕ}
def others (cs : List (Fin n)) : List (Fin n) := (finRange n).filter fun w => !cs.contains w
variable {cs : List (Fin n)} (φ : Wave n)
lemma mem_others {w} : w ∈ others cs ↔ w ∉ cs := by simp [others]
section
variable (cs)
lemma nodup_others : (others cs).Nodup := (nodup_finRange n).filter _
lemma get_others_injective : Injective (others cs).get := nodup_iff_injective_get.mp (nodup_others cs)
lemma contains_map_val (w) : (cs.map Fin.val).contains w.val = cs.contains w := by
  rw [Bool.eq_iff_iff,contains_iff_mem,contains_iff_mem,mem_map_of_injective Fin.val_injective]
lemma others_val : (others cs).map Fin.val = (range n).filter fun a => !(cs.map Fin.val).contains a := by
  rw [← map_coe_finRange_eq_range,filter_map]
  congr 1
  apply filter_congr
  intro w _
  rw [comp_apply,contains_map_val]
lemma remaining_register : (register φ).remaining (cs.map Fin.val) = (others cs).map Fin.val := by
  have hr : (register φ).rank = n := by simp [rank]
  rw [remaining,hr,others_val]
end
lemma idxOf_others (i) : ((others cs).map Fin.val).idxOf ((others cs).get i).val = i := by
  have hn : ((others cs).map Fin.val).Nodup := (nodup_others cs).map Fin.val_injective
  have hget : ((others cs).get i).val = ((others cs).map Fin.val).get (i.cast (by simp)) := by simp
  rw [hget]
  exact hn.idxOf_getElem i (by simp)
noncomputable def underSet (cs : List (Fin n)) (y : Fin (others cs).length → Fin 2) : Fin n → Fin 2 :=
  extend (others cs).get y fun _ => 1
lemma slice_register (cs) : (register φ).slice (cs.map Fin.val) = register fun y => φ (underSet cs y) := by
  have hr : (register φ).rank = n := by simp [rank]
  have hs : ((others cs).map Fin.val).map (fun a => (replicate n 2).getD a 0) = replicate (others cs).length 2 := by
    rw [eq_replicate_iff]
    simp
  simp only [slice,remaining_register,hr,shape_register,hs,ofFn_eq_register]
  congr 1
  funext y
  have hidx : (range n).map (fun a => if (cs.map Fin.val).contains a then 1
      else (index y).getD (((others cs).map Fin.val).idxOf a) 0) = index (underSet cs y) := by
    have hb : index (underSet cs y) = (finRange n).map fun w => (underSet cs y w).val := ofFn_eq_map
    rw [← map_coe_finRange_eq_range,map_map,hb]
    apply map_congr_left
    intro w _
    rw [comp_apply,contains_map_val]
    by_cases hw : w ∈ cs
    · have hout : ¬ ∃ i, (others cs).get i = w := fun ⟨i,hi⟩ => mem_others.mp (hi ▸ get_mem _ i) hw
      simp [hw,underSet,extend_apply' _ _ _ hout]
    · obtain ⟨i,rfl⟩ := mem_iff_get.mp (mem_others.mpr hw)
      rw [if_neg (by simpa using hw),idxOf_others,underSet,(get_others_injective cs).extend_apply]
      simp [index]
  rw [hidx,get_register,val_cpx]
lemma setSlice_register (cs) (ψ : Amplitudes (Fin (others cs).length)) : (register φ).setSlice (cs.map Fin.val) (register ψ) =
      register fun x => if ∀ c ∈ cs, x c = 1 then ψ (x ∘ (others cs).get) else φ x := by
  simp only [setSlice,remaining_register,shape_register,ofFn_eq_register]
  congr 1
  funext x
  have hset : ((cs.map Fin.val).all fun a => decide ((index x).getD a 0 = 1)) ↔ ∀ c ∈ cs, x c = 1 := by
    simp [index,Fin.ext_iff]
  rw [pick_index_get,get_register,get_register,if_congr hset rfl rfl]
  split <;> simp
lemma idxOf_filter_range {p a} (ha : a < n) (hp : p a) : ((range n).filter p).idxOf a = ((range a).filter p).length := by
  have hs : range n = range a ++ a :: range' (a+1) (n-a-1) := by
    have hlen : n = a+(n-a-1+1) := by omega
    rw [range_eq_range',range_eq_range',← range'_succ]
    conv_lhs => rw [hlen]
    rw [← range'_append_1,Nat.zero_add]
  have hout : a ∉ (range a).filter p := fun h => by simp at h
  rw [hs,filter_append,filter_cons_of_pos hp,idxOf_append_of_notMem hout,idxOf_cons_self,Nat.add_zero]
lemma placeWithout_others (hcs : cs.Nodup) (i) :
    placeWithout (cs.map Fin.val) ((others cs).get i).val = i := by
  have hmem : (others cs).get i ∉ cs := mem_others.mp (get_mem _ i)
  have hp := idxOf_others i
  generalize (others cs).get i = w at hmem hp ⊢
  have hk : (!(cs.map Fin.val).contains w.val) := by
    rw [contains_map_val]
    simpa using hmem
  rw [others_val,idxOf_filter_range w.isLt hk] at hp
  -- the controls below the wire are the numbers below it that are not kept
  have hr : ((cs.map Fin.val).filter (· < w.val)).length = ((range w).filter (cs.map Fin.val).contains).length := by
    refine Perm.length_eq ((perm_ext_iff_of_nodup ?_ ?_).mpr fun a => ?_)
    · exact (hcs.map Fin.val_injective).filter _
    · exact nodup_range.filter _
    · simp [and_comm]
  have hc := length_eq_countP_add_countP (fun a => !(cs.map Fin.val).contains a) (l := range w)
  rw [length_range,countP_eq_length_filter,countP_eq_length_filter] at hc
  rw [placeWithout]
  have hnot : ((range w).filter fun a => decide (¬ (!(cs.map Fin.val).contains a))) =
      (range w).filter (cs.map Fin.val).contains := by
    apply filter_congr
    intro a _
    cases (cs.map Fin.val).contains a <;> rfl
  rw [hnot] at hc
  omega
def guarded {ι : Type} (cs : List ι) (a : Operator ι) (φ : Amplitudes ι) : Amplitudes ι :=
  fun x => open Classical in if ∀ c ∈ cs, x c = 1 then a φ x else φ x
lemma guarded_smul (cs a) (z : ℂ) (φ : Amplitudes ι) :
    guarded cs a (z • φ) = z • guarded cs a φ := by
  funext x
  unfold guarded
  rw [map_smul,Pi.smul_apply,Pi.smul_apply,Pi.smul_apply]
  split <;> rfl
lemma exists_placed (hws : (cs ++ ws).Nodup) : ∃ vs : List (Fin (others cs).length), vs.map (others cs).get = ws ∧
    vs.map Fin.val = (ws.map Fin.val).map (placeWithout (cs.map Fin.val)) := by
  obtain ⟨hcs,-,hd⟩ := nodup_append.mp hws
  have hmem : ∀ w ∈ ws, ∃ i, (others cs).get i = w := fun w hw =>
    mem_iff_get.mp (mem_others.mpr fun hc => hd w hc w hw rfl)
  clear hws hd
  induction ws with
  | nil => exact ⟨[],rfl,rfl⟩
  | cons w ws ih =>
    obtain ⟨i,rfl⟩ := hmem w mem_cons_self
    obtain ⟨vs,hget,hval⟩ := ih (forall_mem_cons.mp hmem).2
    refine ⟨i :: vs,by rw [map_cons,hget],?_⟩
    rw [map_cons,map_cons,map_cons,hval,placeWithout_others hcs]
lemma onWires_slice {vs} (hvs : vs.Nodup) (φ) {x} (hx : ∀ c ∈ cs, x c = 1) :
    onWires m vs (fun y => φ (underSet cs y)) (x ∘ (others cs).get) = onWires m (vs.map (others cs).get) φ x := by
  have hinj := get_others_injective cs
  have hset : ∀ y, underSet cs y = extend (others cs).get y x := by
    intro y
    funext w
    by_cases hw : w ∈ cs
    · have hout : ¬ ∃ i, (others cs).get i = w := fun ⟨i,hi⟩ => mem_others.mp (hi ▸ get_mem _ i) hw
      rw [underSet,extend_apply' _ _ _ hout,extend_apply' _ _ _ hout,hx w hw]
    · obtain ⟨i,rfl⟩ := mem_iff_get.mp (mem_others.mpr hw)
      rw [underSet,hinj.extend_apply,hinj.extend_apply]
  have he : ∀ c, underSet cs (extend vs.get c (x ∘ (others cs).get)) =
      extend ((others cs).get ∘ vs.get) c x := by
    intro c
    rw [hset]
    funext w
    by_cases hw : ∃ i, (others cs).get i = w
    · obtain ⟨i,rfl⟩ := hw
      rw [hinj.extend_apply]
      exact (congrFun (extend_comp_wire hinj (nodup_iff_injective_get.mp hvs) c x) i).symm
    · rw [extend_apply' _ _ _ hw,extend_apply']
      rintro ⟨j,hj⟩
      exact hw ⟨_,hj⟩
  rw [onWires_map,onWires_apply]
  refine Fintype.sum_congr _ _ fun c => ?_
  rw [he]
  rfl
def ActsBy (action : Tensor ℝ → List ℕ → Outcome (Option (Tensor ℝ))) (k : ℕ) (m : Mat ℝ) : Prop :=
  ∀ ⦃n : ℕ⦄ (φ : Wave n) (ws : List (Fin n)) ⦃t : Tensor ℝ⦄, ws.Nodup → ws.length = k →
    action (register φ) (ws.map Fin.val) = .ok (some t) → t = register (onWires m ws φ)
lemma underControls_some {f : Tensor ℝ → List ℕ → Outcome (Option (Tensor ℝ))} {controls axes : List ℕ} {t t' : Tensor ℝ}
    (h : t.underControls controls axes f = .ok (some t')) :
    ∃ part, f (t.slice controls) (axes.map (placeWithout controls)) = .ok (some part) ∧ t.setSlice controls part = t' := by
  obtain ⟨part,hp,h⟩ := of_bind_eq_ok h
  obtain ⟨part,rfl,ht⟩ := Option.map_eq_some_iff.mp (Except.ok.inj h)
  exact ⟨part,hp,ht⟩
lemma underControls_register (hws : (cs ++ ws).Nodup) {action} (ha : ActsBy action ws.length m) {φ t}
    (h : underControls (cs.map Fin.val) (ws.map Fin.val) (register φ) action = .ok (some t)) :
    t = register (guarded cs (onWires m ws) φ) := by
  obtain ⟨vs,hget,hval⟩ := exists_placed hws
  have hvs : vs.Nodup := (hget ▸ (nodup_append.mp hws).2.1).of_map _
  have hlen : vs.length = ws.length := by rw [← hget,length_map]
  obtain ⟨part,hp,ht⟩ := underControls_some h
  rw [slice_register,← hval] at hp
  rw [← ht,ha _ vs hvs hlen hp,setSlice_register]
  congr 1
  funext x
  unfold guarded
  split
  · rename_i hx
    rw [onWires_slice hvs φ hx,hget]
  · rfl
end
section
variable {n d size : ℕ}
lemma square_underIdentity (hm : Square d m) (hd : d ≤ size) : Square size (m.underIdentity size) := by
  constructor
  · change size - m.rows+m.rows = size
    rw [hm.rows_eq,Nat.sub_add_cancel hd]
  · change size - m.rows+m.cols = size
    rw [hm.rows_eq,hm.cols_eq,Nat.sub_add_cancel hd]
lemma val_get_underIdentity (hm : Square d m) (hd : d ≤ size) (hi : i < size) (hj : j < size) :
    val ((m.underIdentity size).get i j) = if i < size-d ∧ j < size-d then (if i = j then 1 else 0)
      else if size-d ≤ i ∧ size-d ≤ j then val (m.get (i-(size-d)) (j-(size-d))) else 0 := by
  have hid := square_identity (size-m.rows)
  unfold Mat.underIdentity Mat.directSum
  rw [Exact.get_ofFn,hid.rows_eq,hid.cols_eq,hm.rows_eq]
  rotate_left
  · exact hi.trans_eq (square_underIdentity hm hd).rows_eq.symm
  · exact hj.trans_eq (square_underIdentity hm hd).cols_eq.symm
  split
  · rename_i hlt
    rw [Mat.identity,get_ofFn _ hlt.1 hlt.2]
    split <;> rfl
  · split <;> rfl
variable {vs : List (Fin n)}
lemma onWires_block {m'} (hvs : (c :: vs).Nodup) (he : ∀ (b b' : Fin 2) (r r' : Fin vs.length → Fin 2),
      val (m'.get (b*2^vs.length + number r) (b'*2^vs.length + number r')) =
        if b' = b then (if b = 1 then val (m.get (number r) (number r')) else if r' = r then 1 else 0) else 0)
    (φ : Wave n) (x) : onWires m' (c :: vs) φ x = if x c = 1 then onWires m vs φ x else φ x := by
  have hsum : onWires m' (c :: vs) φ x = ∑ b', ∑ r', val (m'.get ((x c).val*2^vs.length + number (x ∘ vs.get))
      (b'.val*2^vs.length + number r')) * φ (extend vs.get r' (update x c b')) := by
    rw [← Fintype.sum_prod_type']
    refine Fintype.sum_equiv (Fin.consEquiv fun _ => Fin 2).symm _ _ fun c' => ?_
    rw [extend_cons hvs]
    rfl
  rw [hsum,Finset.sum_eq_single (x c)]
  · simp only [he,if_true,update_eq_self]
    split
    · rfl
    · rw [Finset.sum_eq_single (x ∘ vs.get)]
      · rw [if_pos rfl,one_mul,extend_self (nodup_iff_injective_get.mp hvs.of_cons)]
      · intro r' _ hr'
        rw [if_neg hr',zero_mul]
      · simp
  · intro b' _ hb'
    simp [he,hb']
  · simp
lemma onWires_underIdentity_cons (hvs : (c :: vs).Nodup) (hm : Square d m) (hd : d ≤ 2^vs.length) (φ : Wave n)
    (x) :
    onWires (m.underIdentity (2^(vs.length+1))) (c :: vs) φ x =
      if x c = 1 then onWires (m.underIdentity (2^vs.length)) vs φ x else φ x := by
  refine onWires_block hvs (fun b b' r r' => ?_) φ x
  have hr := number_lt r
  have hr' := number_lt r'
  have hinj : number r = number r' ↔ r' = r := by rw [number_injective.eq_iff,eq_comm]
  have hs : 2^(vs.length+1)-d = 2^vs.length+(2^vs.length-d) := by omega
  have hbit : ∀ (b : Fin 2) {i : ℕ}, i < 2^vs.length → b*2^vs.length+i < 2^(vs.length+1) := by
    intro b i hi
    fin_cases b <;> simp <;> omega
  rw [val_get_underIdentity hm (by rw [pow_succ]; omega) (hbit b hr) (hbit b' hr'),val_get_underIdentity hm hd hr hr',hs]
  generalize 2 ^ vs.length = K at hr hr' hd
  fin_cases b <;> fin_cases b'
  · have hlt : number r < K+(K-d) := by omega
    have hlt' : number r' < K+(K-d) := by omega
    simp [hlt,hlt',hinj]
  · have hne : number r ≠ K + number r' := by omega
    have hout : ¬ K+(K-d) ≤ number r := by omega
    simp [hne,hout]
  · have hne : K + number r ≠ number r' := by omega
    have hout : ¬ K+(K-d) ≤ number r' := by omega
    simp [hne,hout]
  · simp [Nat.add_sub_add_left]
lemma onWires_underIdentity {cs ws} (hws : (cs ++ ws).Nodup) (hm : Square (2^ws.length) m) (φ : Wave n) :
    onWires (m.underIdentity (2^(cs ++ ws).length)) (cs ++ ws) φ = guarded cs (onWires m ws) φ := by
  induction cs with
  | nil =>
    have hs : toMatrix (2^ws.length) (m.underIdentity (2^ws.length)) = toMatrix (2^ws.length) m := by
      ext i j
      rw [toMatrix_apply,val_get_underIdentity hm le_rfl i.isLt j.isLt]
      simp
    funext x
    rw [nil_append,onWires_congr ws hs]
    simp [guarded]
  | cons c cs ih =>
    have hd : 2^ws.length ≤ 2^(cs ++ ws).length := Nat.pow_le_pow_right (by norm_num) (by simp)
    rw [cons_append] at hws ⊢
    funext x
    rw [length_cons,onWires_underIdentity_cons hws hm hd,ih hws.of_cons]
    by_cases hc : x c = 1 <;> simp [guarded,hc]
lemma toMatrix_ccx (e) : toMatrix 8 (powerMatrix .ccx e 0) = toMatrix 8 ((powerMatrix .x e 0).underIdentity 8) := by
  ext i j
  obtain ⟨i,hi⟩ := i
  obtain ⟨j,hj⟩ := j
  have he := val_get_exchanging (k := .ccx) rfl (by decide) e hi hj
  rw [toMatrix_apply,toMatrix_apply,he,val_get_underIdentity (square_power .x e 0) (by decide) hi hj]
  change _ = if i < 6 ∧ j < 6 then _ else if 6 ≤ i ∧ 6 ≤ j then val ((powerMatrix .x e 0).get (i-6) (j-6)) else 0
  by_cases hh : 6 ≤ i ∧ 6 ≤ j
  · rw [val_get_xPower e (by omega) (by omega)]
    split_ifs <;> first | omega | rfl
  · split_ifs <;> first | omega | rfl
lemma toMatrix_cswap {sub} (hm : ownMatrix sub .cswap = .ok (some m)) :
    toMatrix 8 m = toMatrix 8 ((powerMatrix .swap 1 0).underIdentity 8) := by
  ext i j
  obtain ⟨i,hi⟩ := i
  obtain ⟨j,hj⟩ := j
  rw [toMatrix_apply,toMatrix_apply,← Option.some.inj (Except.ok.inj hm),get_ofFn _ hi hj,
    val_get_underIdentity (square_power .swap 1 0) (by decide) hi hj]
  change _ = if i < 4 ∧ j < 4 then _ else if 4 ≤ i ∧ 4 ≤ j then val ((powerMatrix .swap 1 0).get (i-4) (j-4)) else 0
  by_cases hh : 4 ≤ i ∧ 4 ≤ j
  · have hlt : i-4 < 4 ∧ j-4 < 4 := by omega
    have hs := val_get_exchanging_one (k := .swap) rfl (by decide) (by decide) hlt.1 hlt.2
    rw [hs,swap_apply_def]
    split_ifs <;> first | omega | simp
  · split_ifs <;> first | omega | simp
end
end QuantumCircuits.GateActions
