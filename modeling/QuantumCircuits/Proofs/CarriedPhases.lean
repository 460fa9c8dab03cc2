import QuantumCircuits.Proofs.MeasuredBranches

/-! # Phases on their way to the end

The pass that moves phases to the end holds a number of turns for each qubit. Rotations and matrices are changed when
phases cross them, measurements make them disappear, and before anything else they are put back. -/
namespace QuantumCircuits.CarriedPhases
noncomputable section
open Exact WireOperators PauliOperators GateActions WireOrder CircuitEdits HalfTurns CarriedTurns MeasuredBranches List Gate Function Commute Complex
open Param RealScalar
open PauliPassing (operator operator_gate)
variable {qs : Qubits} (p : ℝ)

/-! ## Phases as operators -/
section
def zTurn : OneBitMatrix := phased (sigma .z) (turned (2*p))
variable {p}
lemma zTurn_add (a b) : zTurn (a+b) = zTurn a * zTurn b := by
  rw [zTurn,zTurn,zTurn,phased_mul_phased (sigma_mul_self .z),← turned_add,mul_add]
lemma zTurn_int (n : ℤ) : zTurn n = 1 := by rw [zTurn,turned_two_mul_int,phased_one]
@[simp] lemma zTurn_zero : zTurn 0 = 1 := by simpa using zTurn_int 0
lemma zTurn_mul_neg : zTurn p * zTurn (-p) = 1 := by rw [← zTurn_add,add_neg_cancel,zTurn_zero]
lemma wire_zTurn (q : Qubit) (p) : wire q (zTurn p) = diagonal fun x => if x q = 1 then turned (2*p) else 1 :=
  wire_phased_z q _
lemma phased_equator_mul_zTurn (a p w) : phased (equator a) w * zTurn p = zTurn p * phased (equator (a-2*p)) w := by
  have hf : turned (-(a-2*p)) = turned (-a) * turned (2*p) := by rw [← turned_add]; congr 1; ring
  have hs : turned a = turned (2*p) * turned (a-2*p) := by rw [← turned_add]; congr 1; ring
  have he : equator a * zTurn p = zTurn p * equator (a-2*p) := by
    rw [zTurn,phased_z,equator,equator,hf,hs]
    ext i j
    fin_cases i <;> fin_cases j <;> simp
  simp [phased,add_mul,mul_add,he]
lemma toMatrix_phaseMatrix : toMatrix 2 (phaseMatrix p) = zTurn p := by
  have ht : turned (2*p) = exp (2*Real.pi*p*I) := by
    rw [turned_eq_exp]
    push_cast
    ring_nf
  have he : toMatrix 2 (phaseMatrix p) = toMatrix 2 (.ofFn 2 2 fun i j =>
      if i = j then [1,Cpx.cis (two*RealScalar.pi*p)].getD i 0 else 0) := rfl
  rw [he,toMatrix_ofFn,zTurn,phased_z,ht]
  ext i j
  fin_cases i <;> fin_cases j <;> simp
def zTurns (p : Qubit → ℝ) (qs : Qubits) : Operator Qubit := (qs.map fun q => wire q (zTurn (p q))).prod
lemma zTurns_cons (p q qs) : zTurns p (q :: qs) = wire q (zTurn (p q)) * zTurns p qs := by simp [zTurns]
lemma diagonal_commute_zTurns (f p qs) : Commute (diagonal f) (zTurns p qs) := by
  refine list_prod_right _ _ fun x hx => ?_
  obtain ⟨q,-,rfl⟩ := mem_map.mp hx
  rw [wire_zTurn]
  exact diagonal_commute _ _

/-- The bits that a measurement shows say what the phases at its qubits are. -/
lemma part_mul_zTurns {rs} (hsub : rs ⊆ qs) (v p) :
    UpToPhase (part qs v * zTurns p rs) (part qs v) := by
  induction rs with
  | nil => exact .of_eq (mul_one _)
  | cons r rs ih =>
    obtain ⟨hr,hrs⟩ := cons_subset.mp hsub
    have hp : part qs v * wire r (zTurn (p r)) = (if v r = 1 then turned (2 * p r) else 1) • part qs v := by
      rw [wire_zTurn,part,diagonal_mul,smul_diagonal]
      congr 1
      funext x
      split
      case isTrue hx => rw [hx r hr,one_mul,mul_one]
      case isFalse => rw [zero_mul,mul_zero]
    have hn : ‖(if v r = 1 then turned (2 * p r) else 1)‖ = 1 := by split <;> simp
    rw [zTurns_cons,← mul_assoc,hp]
    exact ((UpToPhase.smul _ hn).mul_right _).trans (ih hrs)
end

/-! ## Matrices between phases -/
section
structure Acceptable (n : ℕ) (m : Mat ℝ) : Prop extends Square n m where
  unitary : m.isUnitary .usual = true
variable {n : ℕ} {m z : Mat ℝ}
lemma Acceptable.matrixOf (h : Acceptable n m) (b) : Gate.matrixOf n m b = .ok (.matrix m b) := by
  simp [Gate.matrixOf,h.rows_eq,h.cols_eq,h.unitary]
structure Dephasing (n : ℕ) (z : Mat ℝ) (d : Fin n → ℂ) : Prop extends Square n z where
  diagonal : toMatrix n z = Matrix.diagonal d
  norm : ∀ i, ‖d i‖ = 1
namespace Dephasing
variable {d : Fin n → ℂ} {p} (h : Dephasing n z d)
include h in
lemma mul_adjoint : toMatrix n z * (toMatrix n z).conjTranspose = 1 := by
  have hone : ∀ i, d i * star d i = 1 := fun i => by
    rw [Pi.star_apply,star_def,mul_conj,normSq_eq_norm_sq,h.norm i]
    norm_num
  rw [h.diagonal,Matrix.diagonal_conjTranspose,Matrix.diagonal_mul_diagonal]
  exact congrArg Matrix.diagonal (funext hone)
include h in
lemma acceptable (hm : Acceptable n m) : Acceptable n (z*m*z.adjoint) where
  toSquare := (h.toSquare.mul hm.toSquare).mul h.adjoint
  unitary := by
    have hc : toMatrix n (z*m*z.adjoint) * (toMatrix n (z*m*z.adjoint)).conjTranspose - 1 =
        toMatrix n z * (toMatrix n m * (toMatrix n m).conjTranspose - 1)*(toMatrix n z).conjTranspose := by
      rw [toMatrix_mul (h.toSquare.mul hm.toSquare) h.adjoint,toMatrix_mul h.toSquare hm.toSquare,toMatrix_adjoint h.toSquare,
        Matrix.conjTranspose_mul,Matrix.conjTranspose_conjTranspose,Matrix.conjTranspose_mul,mul_sub,sub_mul,mul_one,h.mul_adjoint,
        mul_assoc,← mul_assoc (toMatrix n z).conjTranspose,mul_eq_one_comm.mp h.mul_adjoint,one_mul]
      simp only [mul_assoc]
    rw [isUnitary_iff ((h.toSquare.mul hm.toSquare).mul h.adjoint),hc,h.diagonal,Matrix.diagonal_conjTranspose]
    intro i j
    rw [Matrix.mul_diagonal,Matrix.diagonal_mul,norm_mul,norm_mul,h.norm,one_mul,Pi.star_apply,norm_star,h.norm,mul_one]
    exact (isUnitary_iff hm.toSquare _).mp hm.unitary i j
lemma onWires_conj {d} (h : Dephasing (2^qs.length) z d) (hqs : qs.Nodup) (hm : Square (2^qs.length) m)
    (hz : onWires z qs = wire r (zTurn (-p))) :
    onWires m qs * wire r (zTurn p) = wire r (zTurn p) * onWires (z*m*z.adjoint) qs := by
  have hc : wire r (zTurn p) * onWires z qs = 1 := by rw [hz,← map_mul,zTurn_mul_neg,map_one]
  have hin : onWires z qs * onWires z.adjoint qs = 1 := by
    rw [← onWires_mul hqs h.toSquare h.adjoint,← onWires_identity qs hqs]
    refine onWires_congr qs ?_
    rw [toMatrix_mul h.toSquare h.adjoint,toMatrix_adjoint h.toSquare,h.mul_adjoint,toMatrix_identity]
  have ha : onWires z.adjoint qs = wire r (zTurn p) := by
    rw [← one_mul (onWires z.adjoint qs),← hc,mul_assoc,hin,mul_one]
  rw [onWires_mul hqs (h.toSquare.mul hm) h.adjoint,onWires_mul hqs h.toSquare hm,ha,← mul_assoc,← mul_assoc,hc,one_mul]
end Dephasing
lemma dephasing_phaseMatrix : Dephasing 2 (phaseMatrix p) ![1,turned (2*p)] where
  toSquare := ⟨rfl,rfl⟩
  diagonal := by
    rw [toMatrix_phaseMatrix,zTurn,phased_z]
    ext i j
    fin_cases i <;> fin_cases j <;> simp
  norm i := by fin_cases i <;> simp
lemma dephasing_identity : Dephasing 2 (.identity 2) 1 where
  toSquare := square_identity 2
  diagonal := by rw [toMatrix_identity]; rfl
  norm i := by simp
lemma Dephasing.kron {a b : Mat ℝ} {f g : Fin 2 → ℂ} (ha : Dephasing 2 a f) (hb : Dephasing 2 b g) :
    Dephasing 4 (a.kron b) fun i => f ⟨i/2,by omega⟩ * g ⟨i % 2,by omega⟩ where
  toSquare := ha.toSquare.kron hb.toSquare
  diagonal := by
    ext i j
    have hget : (a.kron b).get i j = a.get (i/b.rows) (j/b.cols) * b.get (i % b.rows) (j % b.cols) := by
      refine get_ofFn _ ?_ ?_
      · rw [ha.rows_eq,hb.rows_eq]; exact i.isLt
      · rw [ha.cols_eq,hb.cols_eq]; exact j.isLt
    have he : ∀ {c : Mat ℝ} {d : Fin 2 → ℂ}, Dephasing 2 c d → ∀ k l : Fin 2, val (c.get k l) = if k = l then d k else 0 := by
      intro c d hc k l
      rw [← toMatrix_apply,hc.diagonal,Matrix.diagonal_apply]
    have hf := he ha ⟨i/2,by omega⟩ ⟨j/2,by omega⟩
    have hs := he hb ⟨i % 2,by omega⟩ ⟨j % 2,by omega⟩
    rw [toMatrix_apply,hget,hb.rows_eq,hb.cols_eq,val_mul,hf,hs]
    by_cases hij : i = j
    · simp [hij]
    · have hp : (i : ℕ)/2 = j/2 → ¬ (i : ℕ) % 2 = j % 2 := by omega
      by_cases hdiv : (i : ℕ)/2 = j/2
      · simp [hij,hp hdiv]
      · simp [hij,hdiv]
  norm i := by rw [norm_mul,ha.norm,hb.norm,one_mul]
end

/-! ## Operations between phases -/
section
inductive Dense : Operation ℝ → Prop
  | single {m : Mat ℝ} (hm : Acceptable 2 m) (b : Bool) (q : Qubit) : Dense (.gate (.matrix m b) [q])
  | double {m : Mat ℝ} (hm : Acceptable 4 m) (b : Bool) {q r : Qubit} (hqr : q ≠ r) : Dense (.gate (.matrix m b) [q,r])
def Phasable (op : Operation ℝ) : Prop := Turning op ∨ Dense op
def Rephased (q : Qubit) (p : ℝ) (op new : Operation ℝ) : Prop :=
  Phasable new ∧ new.qubits = op.qubits ∧ UpToPhase (operator op * wire q (zTurn p)) (wire q (zTurn p) * operator new)
variable {op : Operation ℝ} {q : Qubit} {p}
lemma operator_matrix (m b qs) : operator (.gate (.matrix m b) qs) = onWires m qs := operator_gate rfl
lemma rephased_self (hop : Turning op) {f} (h : UpToPhase (operator op) (diagonal f)) (q p) : Rephased q p op op := by
  refine ⟨.inl hop,rfl,(h.mul_right _).trans ?_⟩
  rw [wire_zTurn,(diagonal_commute f _).eq]
  exact h.symm.mul_left _
lemma phaseBy_equator {e a} (h : turnOf? op = some (e,a,q)) (p) :
    ∃ s, op.phaseBy? (-p) 0 = .ok (some (.gate (.phasedXOf (.num (a-2*p)) (.num e) s) [q])) := by
  have ht : -p*two = -(2*p) := by rw [two_eq]; ring
  rcases turnOf?_cases h with ⟨s,axis,rfl,rfl⟩ | ⟨s,axis,rfl,rfl⟩ | ⟨s,rfl⟩
  · refine ⟨nought,?_⟩
    rw [zero_sub,← ht]
    rfl
  · refine ⟨nought,?_⟩
    have hh : (ratio 1 2 : ℝ) = 1/2 := by simp
    rw [sub_eq_add_neg,← ht,← hh]
    rfl
  · refine ⟨s,?_⟩
    rw [sub_eq_add_neg,← ht]
    rfl
lemma rephased_equator {e a} (h : turnOf? op = some (e,a,q)) (p s) :
    Rephased q p op (.gate (.phasedXOf (.num (a-2*p)) (.num e) s) [q]) := by
  refine ⟨.inl (turning_phasedXOf _ _ _ q),(qubits_of_turnOf? h).symm,((operator_equator h).mul_right _).trans ?_⟩
  rw [← map_mul,phased_equator_mul_zTurn,map_mul]
  exact (operator_phasedXOf _ _ _ q).symm.mul_left _
lemma phaseBy_matrix {n : ℕ} {m z : Mat ℝ} {d : Fin n → ℂ} (hm : Acceptable n m) (hz : Dephasing n z d) {t}
    (ht : (if n = 2 then phaseMatrix t else if i = 0 then (phaseMatrix t).kron (Mat.identity 2)
      else (Mat.identity 2).kron (phaseMatrix t)) = z) (b qs) :
    (Operation.gate (.matrix m b) qs).phaseBy? t i = .ok (some (.gate (.matrix (z*m*z.adjoint) true) qs)) := by
  simp only [Operation.phaseBy?,phaseBy?,hm.rows_eq,ht,(hz.acceptable hm).matrixOf]
  rfl
lemma rephased_matrix {m z} (qs) {d} (hz : Dephasing (2^qs.length) z d) (hqs : qs.Nodup) (hm : Acceptable (2^qs.length) m)
    (ht : onWires z qs = wire q (zTurn (-p))) (b)
    (hd : Acceptable (2^qs.length) (z*m*z.adjoint) → Dense (.gate (.matrix (z*m*z.adjoint) true) qs)) :
    Rephased q p (.gate (.matrix m b) qs) (.gate (.matrix (z*m*z.adjoint) true) qs) := by
  refine ⟨.inr (hd (hz.acceptable hm)),rfl,?_⟩
  rw [operator_matrix,operator_matrix,hz.onWires_conj hqs hm.toSquare ht]
lemma phaseBy_rephased (hop : Phasable op) (hq : op.qubits[i]? = some q) (p) :
    ∃ new, op.phaseBy? (-p) i = .ok (some new) ∧ Rephased q p op new := by
  have hz := dephasing_phaseMatrix (-p)
  have hsi : ∀ r, [r][i]? = some q → r = q ∧ i = 0 := by
    intro r hr
    rw [getElem?_singleton] at hr
    split at hr
    case isTrue hi => exact ⟨Option.some.inj hr,hi⟩
    case isFalse => cases hr
  rcases hop with (ht | ⟨e,s,axis,r⟩ | ⟨e,s,axis,hqr⟩) | ⟨hm,b,r⟩ | @⟨m,hm,b,r,r',hrr⟩
  · rw [qubits_of_turnOf? ht] at hq
    obtain ⟨rfl,rfl⟩ := hsi _ hq
    obtain ⟨s,hs⟩ := phaseBy_equator ht p
    exact ⟨_,hs,rephased_equator ht p s⟩
  · have hp := operator_phase e s axis r
    rw [wire_phased_z] at hp
    exact ⟨_,rfl,rephased_self (.phase e s axis r) hp q p⟩
  · exact ⟨_,rfl,rephased_self (.coupling e s axis hqr) (operator_coupling e s axis hqr) q p⟩
  · obtain ⟨rfl,rfl⟩ := hsi r hq
    refine ⟨_,phaseBy_matrix hm hz rfl b [r],rephased_matrix [r] hz (nodup_singleton r) hm ?_ b (.single · _ r)⟩
    rw [onWires_single,toMatrix_phaseMatrix]
  · have hn : [r,r'].Nodup := by simpa using hrr
    have hpa : [r,r'][i]? = some q → r = q ∧ i = 0 ∨ r' = q ∧ i = 1 := by
      rcases i with _ | _ | i <;> simp
    rcases hpa hq with ⟨rfl,rfl⟩ | ⟨rfl,rfl⟩
    · refine ⟨_,phaseBy_matrix hm (hz.kron dephasing_identity) rfl b _,
        rephased_matrix [r,r'] (hz.kron dephasing_identity) hn hm ?_ b (.double · _ hrr)⟩
      rw [onWires_kron hz.toSquare (square_identity 2) hrr,toMatrix_phaseMatrix,toMatrix_identity,map_one,mul_one]
    · refine ⟨_,phaseBy_matrix hm (dephasing_identity.kron hz) rfl b _,
        rephased_matrix [r,r'] (dephasing_identity.kron hz) hn hm ?_ b (.double · _ hrr)⟩
      rw [onWires_kron (square_identity 2) hz.toSquare hrr,toMatrix_phaseMatrix,toMatrix_identity,map_one,one_mul]
end

/-! ## What is held -/
section
open EjectZ
def keys (s : State ℝ) : Qubits := s.phases.map Prod.fst
def turns (s : State ℝ) (q : Qubit) : ℝ := (s.phase q).value
structure Held (s : State ℝ) : Prop where
  nodup : (keys s).Nodup
  number : ∀ q, s.phase q = .num (turns s q)
def carried (s : State ℝ) : Operator Qubit := zTurns (turns s) (keys s)
lemma phase_of_notMem (h : q ∉ keys s) : s.phase q = .num 0 := by
  have hf : (s.phases.find? fun e => e.1 = q) = none :=
    find?_eq_none.mpr fun e he heq => h (mem_map.mpr ⟨e,he,by simpa using heq⟩)
  rw [State.phase,hf]
  rfl
lemma phases_setPhase (s : State ℝ) (q p) : (s.setPhase q p).phases = Carrying.put s.phases q p :=
  (Assignments.put_eq s.phases q p).symm
lemma phase_setPhase (s : State ℝ) (q r p) : (s.setPhase q p).phase r = if r = q then p else s.phase r := by
  have hget := Assignments.get?_put s.phases q r p
  rw [← phases_setPhase] at hget
  exact (congrArg (·.getD (.num 0)) hget).trans (apply_ite (Option.getD · _) _ _ _)
lemma keys_setPhase (s q p) : keys (s.setPhase q p) = if q ∈ keys s then keys s else keys s ++ [q] := by
  rw [keys,phases_setPhase]
  exact Assignments.keys_put s.phases q p
lemma turns_setPhase (s q b) : turns (s.setPhase q (.num b)) = update (turns s) q b := by
  funext r
  rw [turns,phase_setPhase,update_apply,apply_ite value]
  rfl
lemma Held.setPhase (h : Held s) (q b) : Held (s.setPhase q (.num b)) where
  nodup := by
    rw [keys_setPhase]
    split
    case isTrue => exact h.nodup
    case isFalse hq =>
      refine nodup_append.mpr ⟨h.nodup,nodup_singleton q,fun r hr r' hr' hrr => hq ?_⟩
      rw [← mem_singleton.mp hr',← hrr]
      exact hr
  number r := by rw [turns_setPhase,phase_setPhase,update_apply,apply_ite num,← h.number r]
lemma zTurns_update (hqs : qs.Nodup) (p : Qubit → ℝ) (q b) :
    zTurns (update p q b) qs = if q ∈ qs then wire q (zTurn (b - p q)) * zTurns p qs else zTurns p qs := by
  induction qs with
  | nil => simp [zTurns]
  | cons r qs ih =>
    obtain ⟨hr,hqs⟩ := nodup_cons.mp hqs
    rw [zTurns_cons,zTurns_cons,ih hqs]
    by_cases hq : q = r
    · subst hq
      have hsum : b = b - p q + p q := by ring
      rw [update_self,if_neg hr,if_pos mem_cons_self,← mul_assoc,← map_mul,← zTurn_add,← hsum]
    · rw [update_of_ne (.symm hq)]
      by_cases hmem : q ∈ qs
      · rw [if_pos hmem,if_pos (mem_cons_of_mem _ hmem),← mul_assoc,← mul_assoc,(wire_commute hq _ _).eq]
      · rw [if_neg hmem,if_neg (by simpa [hq] using hmem)]
lemma carried_setPhase (h : Held s) (q b) : carried (s.setPhase q (.num b)) = wire q (zTurn (b - turns s q)) * carried s := by
  rw [carried,carried,turns_setPhase,keys_setPhase]
  by_cases hq : q ∈ keys s
  · rw [if_pos hq,zTurns_update h.nodup,if_pos hq]
  · have hz : turns s q = 0 := by rw [turns,phase_of_notMem hq]; rfl
    have hs : ∀ p, zTurns p (keys s ++ [q]) = zTurns p (keys s) * wire q (zTurn (p q)) := fun p => by simp [zTurns]
    rw [if_neg hq,hs,zTurns_update h.nodup,if_neg hq,update_self,hz,sub_zero,wire_zTurn,(diagonal_commute_zTurns _ _ _).eq]
lemma carried_commute (s f) : Commute (diagonal f) (carried s) := diagonal_commute_zTurns _ _ _

/-- Only the phases that are no whole turns are seen. -/
lemma commute_zTurns {a p} (h : ∀ q, zTurn (p q) ≠ 1 → ∀ m, Commute a (wire q m)) (qs) : Commute a (zTurns p qs) := by
  refine list_prod_right _ _ fun x hx => ?_
  obtain ⟨q,-,rfl⟩ := mem_map.mp hx
  by_cases hq : zTurn (p q) = 1
  · rw [hq,map_one]
    exact one_right a
  · exact h q hq _
def dropped (qs : Qubits) (s : State ℝ) : State ℝ := qs.foldl (fun s q => s.setPhase q (.num 0)) s
lemma Held.dropped (h : Held s) (qs) : Held (dropped qs s) := foldlRecOn qs _ h fun _ h q _ => h.setPhase q 0
lemma turns_dropped (qs s r) : turns (dropped qs s) r = if r ∈ qs then 0 else turns s r := by
  induction qs generalizing s with
  | nil => rfl
  | cons q qs ih =>
    have hc : dropped (q :: qs) s = dropped qs (s.setPhase q (.num 0)) := rfl
    rw [hc,ih,turns_setPhase]
    by_cases hr : r = q <;> simp [hr]
lemma edits_dropped (qs s) : (dropped qs s).edits = s.edits :=
  foldlRecOn (motive := fun t : State ℝ => t.edits = s.edits) qs _ rfl fun _ h _ _ => h
lemma carried_dropped (h : Held s) (hqs : qs.Nodup) : carried s = zTurns (turns s) qs * carried (dropped qs s) := by
  induction qs generalizing s with
  | nil => rw [zTurns]; rfl
  | cons q qs ih =>
    obtain ⟨hq,hqs⟩ := nodup_cons.mp hqs
    have hc : dropped (q :: qs) s = dropped qs (s.setPhase q (.num 0)) := rfl
    have hr := ih (h.setPhase q 0) hqs
    rw [carried_setPhase h,zero_sub,turns_setPhase,zTurns_update hqs,if_neg hq] at hr
    rw [zTurns_cons,hc,mul_assoc,← hr,← mul_assoc,← map_mul,zTurn_mul_neg,map_one,one_mul]
end

/-! ## Putting phases back -/
section
open EjectZ
variable {effect : Reading} {s : State ℝ}
structure Renders (effect : Reading) : Prop extends OnQubits effect where
  phasable : ∀ {op}, Phasable op → effect op = operator op
lemma Renders.reads (h : Renders effect) : Reads effect := ⟨h.toOnQubits,fun hop => h.phasable (.inl hop)⟩
def inserting (s : State ℝ) (i : ℕ) (ws : Ops ℝ) : State ℝ :=
  { s with edits := { s.edits with inserted := s.edits.inserted ++ ws.map fun w => ((i : Int),w) } }
lemma dump_cons (h : Held s) (q qs) : ∃ ws, s.dump 0 i (q :: qs) = ((inserting s i ws).setPhase q (.num 0)).dump 0 i qs ∧
      (ws = [] ∧ zTurn (turns s q) = 1 ∨ ws = [.zPower (.num (2 * turns s q)) q]) := by
  obtain ⟨b,hb,hw⟩ := isNegligibleTurn_num (turns s q)
  have hdo : (num (turns s q)).mul (.num (ofInt 2)) = .num (2 * turns s q) := by simp [mul,mul_comm]
  have hd : s.dump 0 i (q :: qs) = State.dump 0 i qs ((if b then s
      else { s with edits := s.edits.insert i (.zPower (.num (2 * turns s q)) q) }).setPhase q (.num 0)) := by
    simp only [State.dump,foldlM_cons,h.number q,hb,hdo]
    rfl
  by_cases hyes : b
  · obtain ⟨n,hn⟩ := hw.mp hyes
    refine ⟨[],?_,.inl ⟨rfl,by rw [hn,zTurn_int]⟩⟩
    rw [hd,if_pos hyes]
    simp [inserting]
  · refine ⟨_,?_,.inr rfl⟩
    rw [hd,if_neg hyes]
    rfl
variable [OperationText ℝ]
structure PutBack (effect : Reading) (i : ℕ) (qs : Qubits) (s s' : State ℝ) (ws : Ops ℝ) :
    Prop where
  edits : s'.edits = (inserting s i ws).edits
  held : Held s'
  turns : ∀ r, turns s' r = if r ∈ qs then 0 else turns s r
  carried : UpToPhase (carried s) (carried s' * evolution effect ws)
  turning : ∀ w ∈ ws, Turning w ∧ ∃ q ∈ qs, w.qubits = [q]
  free : OverlapFree ⟨ws⟩
lemma dump_putBack (hre : Renders effect) (i) (hqs : qs.Nodup) (h : Held s) :
    ∃ s' ws, s.dump 0 i qs = .ok s' ∧ PutBack effect i qs s s' ws := by
  induction qs generalizing s with
  | nil =>
    refine ⟨s,[],rfl,by simp [inserting],h,fun r => by simp,?_,by simp,overlapFree_empty⟩
    rw [evolution_nil,mul_one]
  | cons q qs ih =>
    obtain ⟨hq,hqs⟩ := nodup_cons.mp hqs
    obtain ⟨ws,hd,hws⟩ := dump_cons (i := i) h q qs
    have hh : Held (inserting s i ws) := ⟨h.nodup,h.number⟩
    obtain ⟨s',vs,hrun,hvs⟩ := ih hqs (hh.setPhase q 0)
    have hon : ∀ w ∈ ws, Turning w ∧ w.qubits = [q] := by
      intro w hw
      rcases hws with ⟨rfl,-⟩ | rfl
      · cases hw
      · rw [mem_singleton.mp hw]
        exact ⟨.phase _ _ _ q,rfl⟩
    have hp : UpToPhase (wire q (zTurn (turns s q))) (evolution effect ws) := by
      rcases hws with ⟨rfl,hone⟩ | rfl
      · rw [hone,map_one,evolution_nil]
      · exact (hre.reads.zPower _ q).symm
    refine ⟨s',ws ++ vs,hd.trans hrun,?_,hvs.held,fun r => ?_,?_,fun w hw => ?_,overlapFree_append ?_ hvs.free ?_⟩
    · rw [hvs.edits]
      simp [inserting,State.setPhase]
    · rw [hvs.turns,turns_setPhase,update_apply]
      by_cases hr : r = q
      · simp [hr]
      · simp only [mem_cons,hr,false_or]
        rfl
    · have hc : carried ((inserting s i ws).setPhase q (.num 0)) =
          wire q (zTurn (0 - turns s q)) * carried s := carried_setPhase hh q 0
      have hb : carried s =
          carried ((inserting s i ws).setPhase q (.num 0)) * wire q (zTurn (turns s q)) := by
        rw [wire_zTurn,← (carried_commute _ _).eq,← wire_zTurn,hc,← mul_assoc,← map_mul,← zTurn_add,add_sub_cancel,
          zTurn_zero,map_one,one_mul]
      rw [evolution_append,hb]
      exact hvs.carried.mul hp
    · rcases mem_append.mp hw with hw | hw
      · exact ⟨(hon w hw).1,q,mem_cons_self,(hon w hw).2⟩
      · obtain ⟨ht,r,hr,hwr⟩ := hvs.turning w hw
        exact ⟨ht,r,mem_cons_of_mem _ hr,hwr⟩
    · rcases hws with ⟨rfl,-⟩ | rfl
      · exact overlapFree_empty
      · exact overlapFree_singleton.mpr (nodup_singleton q)
    · intro x hx y hy r hrx hry
      obtain ⟨-,r',hr',hqu⟩ := hvs.turning y hy
      have hrq : r ∈ x.qubits := hrx
      have hrr : r ∈ y.qubits := hry
      rw [(hon x hx).2,mem_singleton] at hrq
      rw [hqu,mem_singleton] at hrr
      exact hq (hrq ▸ hrr ▸ hr')
end

/-! ## One operation -/
section
open EjectZ
variable {effect : Reading} {op : Operation ℝ} {s : State ℝ} {i : ℕ}
def cross (acc : Option (Operation ℝ)) (e : Param ℝ × ℕ) : Outcome (Option (Operation ℝ)) := do
  if ← e.1.isNegligibleTurn 0 then .ok acc
  else match acc with
    | none => .ok none
    | some op => op.phaseBy? (-e.1.value) e.2
lemma passed_eq (ps op) : passed 0 ps op = ps.zipIdx.foldlM cross (some op) := by
  refine congrArg (fun f => foldlM f (some op) ps.zipIdx) (funext fun acc => funext fun e => ?_)
  cases acc <;> rfl
lemma cross_whole {p : ℝ} (h : ∃ n : ℤ, p = n) (acc k) : cross acc (.num p,k) = .ok acc := by
  obtain ⟨b,hb,hw⟩ := isNegligibleTurn_num p
  simp only [cross,hb,hw.mpr h]
  rfl
lemma cross_some {p : ℝ} (h : ¬ ∃ n : ℤ, p = n) (op k) : cross (some op) (.num p,k) = op.phaseBy? (-p) k := by
  obtain ⟨b,hb,hw⟩ := isNegligibleTurn_num p
  have hno : b = false := by simpa using mt hw.mp h
  simp only [cross,hb,hno]
  rfl
lemma cross_none (k) : cross none (.num p,k) = .ok none := by
  obtain ⟨b,hb,-⟩ := isNegligibleTurn_num p
  simp only [cross,hb]
  cases b <;> rfl
lemma foldlM_cross_phasable (p pre) (hop : Phasable op) (hqs : op.qubits = pre ++ qs) :
    ∃ new, ((qs.map fun q => num (p q)).zipIdx pre.length).foldlM cross (some op) = .ok (some new) ∧ Phasable new ∧
      new.qubits = op.qubits ∧ UpToPhase (operator op * zTurns p qs) (zTurns p qs * operator new) := by
  induction qs generalizing op pre with
  | nil =>
    refine ⟨op,rfl,hop,rfl,?_⟩
    rw [zTurns,map_nil,prod_nil,mul_one,one_mul]
  | cons q qs ih =>
    have hs : ∀ o : Operation ℝ, o.qubits = op.qubits → o.qubits = (pre ++ [q]) ++ qs := fun o ho => by rw [ho,hqs]; simp
    have hlen : pre.length+1 = (pre ++ [q]).length := by simp
    rw [map_cons,zipIdx_cons,foldlM_cons,hlen,zTurns_cons]
    by_cases hw : ∃ n : ℤ, p q = n
    · obtain ⟨new,hrun,hnew⟩ := ih (pre ++ [q]) hop (hs op rfl)
      obtain ⟨n,hn⟩ := id hw
      rw [cross_whole hw,hn,zTurn_int,map_one]
      exact ⟨new,hrun,hnew⟩
    · have hq : op.qubits[pre.length]? = some q := by rw [hqs]; simp
      obtain ⟨mid,hp,hmid,hqu,hc⟩ := phaseBy_rephased hop hq (p q)
      obtain ⟨new,hrun,hnew,hqu',hc'⟩ := ih (pre ++ [q]) hmid (hs mid hqu)
      rw [cross_some hw,hp]
      refine ⟨new,hrun,hnew,hqu'.trans hqu,?_⟩
      refine (hc.mul_right _).trans ?_
      rw [mul_assoc]
      exact hc'.mul_left _
lemma Dense.told (h : Dense op) : Told op := by
  have hs : ∀ m b, ((matrix m b : Gate ℝ) == .matrix m b) := by
    intro m b
    have hbeq : (matrix m b == .matrix m b) = (m.sameShape m && (range m.entries.size).all fun k =>
      m.entries.getD k 0 == m.entries.getD k 0) := rfl
    rw [hbeq]
    simp [Mat.sameShape]
  cases h with
  | single | double => exact told_gate (hs _ _) _ _
lemma foldlM_cross_none (ps : List ℝ) (k) : ((ps.map num).zipIdx k).foldlM cross none = .ok none := by
  induction ps generalizing k with
  | nil => rfl
  | cons p ps ih =>
    rw [map_cons,zipIdx_cons,foldlM_cons,cross_none]
    exact ih (k+1)
def Unphased : Operation ℝ → Prop
  | .gate g _ => g.isMeasurement = false ∧ ∀ t i, g.phaseBy? t i = .ok none
  | _ => False
lemma foldlM_cross_unphased (hop : Unphased op) {ps : List ℝ} (hps : ∃ p ∈ ps, ¬ ∃ n : ℤ, p = n) (k) :
    ((ps.map num).zipIdx k).foldlM cross (some op) = .ok none := by
  have hph : ∀ t k, op.phaseBy? t k = .ok none := by
    cases op with
    | gate g qs =>
      intro t k
      rw [Operation.phaseBy?,hop.2]
      rfl
    | _ => exact hop.elim
  induction ps generalizing k with
  | nil => simp at hps
  | cons p ps ih =>
    rw [map_cons,zipIdx_cons,foldlM_cons]
    by_cases hw : ∃ n : ℤ, p = n
    · rw [cross_whole hw]
      refine ih ?_ (k+1)
      obtain ⟨p',hp',hnot⟩ := hps
      rcases mem_cons.mp hp' with rfl | hp'
      · exact absurd hw hnot
      · exact ⟨p',hp',hnot⟩
    · rw [cross_some hw,hph]
      exact foldlM_cross_none ps (k+1)
lemma allM_negligible (p : Qubit → ℝ) (qs : Qubits) : ∃ b, (qs.map fun q => num (p q)).allM (·.isNegligibleTurn 0) = .ok b ∧
    (b ↔ ∀ q ∈ qs, ∃ n : ℤ, p q = n) := by
  induction qs with
  | nil => exact ⟨true,rfl,by simp⟩
  | cons q qs ih =>
    obtain ⟨b,hb,hw⟩ := isNegligibleTurn_num (p q)
    obtain ⟨b',hb',hall⟩ := ih
    cases b with
    | true =>
      refine ⟨b',?_,by rw [hall,forall_mem_cons,← hw]; simp⟩
      rw [map_cons,allM,hb]
      exact hb'
    | false =>
      refine ⟨false,?_,by rw [forall_mem_cons,← hw]; simp⟩
      rw [map_cons,allM,hb]
      rfl
lemma held_note (h : Held s) (qs : Qubits) : Held (qs.foldl State.note s) ∧ (qs.foldl State.note s).edits = s.edits ∧
    turns (qs.foldl State.note s) = turns s ∧ carried (qs.foldl State.note s) = carried s := by
  induction qs generalizing s with
  | nil => exact ⟨h,rfl,rfl,rfl⟩
  | cons q qs ih =>
    have hn : s.note q = s.setPhase q (.num (turns s q)) := by rw [State.note,h.number q]
    obtain ⟨hh,he,ht,hc⟩ := ih (h.setPhase q (turns s q))
    rw [foldl_cons,hn]
    refine ⟨hh,he,ht.trans ?_,hc.trans ?_⟩
    · rw [turns_setPhase,update_eq_self]
    · rw [carried_setPhase h,sub_self,zTurn_zero,map_one,one_mul]
def readied (op : Operation ℝ) (s : State ℝ) : State ℝ :=
  if op.isMeasurement then dropped op.qubits s else op.qubits.foldl State.note s
lemma step_whole (hop : op.knownExponent? .z = none)
    (hall : (op.qubits.map (readied op s).phase).allM (·.isNegligibleTurn 0) = .ok true) (i) :
    step 0 s (i,op) = .ok (readied op s) := by
  simp only [readied,dropped] at hall
  simp only [step,hop,hall]
  rfl
section
variable (hop : op.knownExponent? .z = none) (hall : (op.qubits.map (readied op s).phase).allM (·.isNegligibleTurn 0) = .ok false)
include hop hall
lemma step_passed {new} (hp : passed 0 (op.qubits.map (readied op s).phase) op = .ok (some new)) (i) :
    step 0 s (i,op) = .ok { readied op s with edits := (readied op s).edits.replace i op new } := by
  simp only [readied,dropped] at hall hp
  simp only [step,hop,hall,hp]
  rfl
lemma step_dump (hp : passed 0 (op.qubits.map (readied op s).phase) op = .ok none) (i) :
    step 0 s (i,op) = (readied op s).dump 0 i op.qubits := by
  simp only [readied,dropped] at hall hp
  simp only [step,hop,hall,hp]
  rfl
end
variable [OperationText ℝ]
/-- A step in which the phases cross an operation: what becomes of it is noted, and measurements stay. -/
structure Moves (effect : Reading) (i : ℕ) (op : Operation ℝ) (s s' : State ℝ) (t : Change (Operation ℝ)) :
    Prop where
  index : t.index = i
  op_eq : t.op = op
  sound : t.Sound
  edits : s'.edits = followed s.edits [t]
  held : Held s'
  measured : (t.before ++ t.now).filter Operation.isMeasurement = [op].filter Operation.isMeasurement
  crosses : ∀ bits, UpToPhase (branch effect bits op * carried s) (carried s' * branches effect bits (t.before ++ t.now))
def Passes (effect : Reading) (op : Operation ℝ) : Prop :=
  ∀ (i : ℕ) (s : State ℝ), Held s → ∃ s' t, step 0 s (i,op) = .ok s' ∧ Moves effect i op s s' t
lemma moves_keep {s'} (ws) (hn : op.qubits.Nodup) (hh : Held s')
    (he : s'.edits = (inserting s i ws).edits) (hws : ∀ w ∈ ws, Turning w ∧ ∃ q ∈ op.qubits, w.qubits = [q])
    (hf : OverlapFree ⟨ws⟩)
    (hc : ∀ bits, UpToPhase (branch effect bits op * carried s) (carried s' * (branch effect bits op * evolution effect ws))) :
    Moves effect i op s s' ⟨i,op,ws,none⟩ := by
  have hm : ∀ w ∈ ws, w.isMeasurement = false := fun w hw => (hws w hw).1.isMeasurement
  have hnow : (⟨i,op,ws,none⟩ : Change (Operation ℝ)).now = [op] := by simp
  refine ⟨rfl,rfl,sound_keep i hn (fun w hw => (hws w hw).2) hf,he.trans (followed_keep ..).symm,hh,?_,fun bits => ?_⟩
  · have hno : ws.filter Operation.isMeasurement = [] := filter_eq_nil_iff.mpr fun w hw => by simp [hm w hw]
    rw [hnow,filter_append,hno,nil_append]
  · rw [branches_append,branches_eq_evolution hm,afterAll_of_not_isMeasurement hm]
    exact hc bits
lemma passes_phase (hr : Renders effect) (t shift axis q) :
    Passes effect (.gate (.power .z (.num t) shift axis) [q]) := by
  intro i s h
  set op : Operation ℝ := .gate (.power .z (.num t) shift axis) [q] with hop
  have ht : Turning op := .phase t shift axis q
  have hadd : (s.phase q).add (num t).halved = .num (turns s q + t/2) := by
    rw [h.number q]
    simp [halved,add,addReal,add_comm]
  have hs : step 0 s (i,op) = .ok { s.setPhase q (.num (turns s q + t/2)) with edits := s.edits.remove i op } := by
    rw [← hadd]
    rfl
  refine ⟨_,⟨i,op,[],some []⟩,hs,rfl,rfl,?_,?_,?_,rfl,fun bits => ?_⟩
  · exact sound_instead i ht.told (by simp) overlapFree_empty overlapFree_empty (by simp)
  · rw [followed_instead]
    simp [Edits.remove]
  · exact ⟨(h.setPhase q _).nodup,(h.setPhase q _).number⟩
  · have hc : carried { s.setPhase q (.num (turns s q + t/2)) with edits := s.edits.remove i op } =
        wire q (zTurn (t/2)) * carried s := by
      have hset := carried_setPhase h q (turns s q + t/2)
      rw [add_sub_cancel_left] at hset
      exact hset
    have hd : zTurn (t/2) = phased (sigma .z) (turned t) := by rw [zTurn,mul_div_cancel₀ t two_ne_zero]
    rw [hc,hd,branch_of_not_isMeasurement ht.isMeasurement,hr.phasable (.inl ht)]
    exact (operator_phase t shift axis q).mul_right _
lemma passes_measurement {n key invert} (hqs : qs.Nodup) : Passes effect (.gate (.measurement n key invert) qs) := by
  intro i s h
  set op : Operation ℝ := .gate (.measurement n key invert) qs with hop
  have hr : readied op s = dropped qs s := rfl
  have hall : (op.qubits.map (readied op s).phase).allM (·.isNegligibleTurn 0) = .ok true := by
    obtain ⟨b,hb,hw⟩ := allM_negligible (turns (dropped qs s)) qs
    have hyes : b := hw.mpr fun q hq => ⟨0,by rw [turns_dropped,if_pos hq,Int.cast_zero]⟩
    rw [hr,funext (h.dropped qs).number,← hyes]
    exact hb
  refine ⟨_,_,step_whole rfl hall i,moves_keep [] hqs (h.dropped qs) ?_ (by simp) overlapFree_empty fun bits => ?_⟩
  · rw [hr,edits_dropped]
    simp [inserting]
  · rw [carried_dropped h hqs,← mul_assoc]
    refine ((part_mul_zTurns (Subset.refl qs) _ _).mul_right _).trans ?_
    rw [part,(carried_commute _ _).eq]
    rfl

/-- An operation other than phases and measurements is crossed if it can be exchanged with the phases at its qubits, and otherwise
these are put back before it. -/
lemma passes_of_passed (hr : Renders effect) (hp : op.knownExponent? .z = none) (hm : op.isMeasurement = false)
    (hno : op.qubits.Nodup) (hps : ∀ p : Qubit → ℝ, (¬ ∀ q ∈ op.qubits, ∃ n : ℤ, p q = n) →
      passed 0 (op.qubits.map fun q => .num (p q)) op = .ok none ∨
        ∃ new, passed 0 (op.qubits.map fun q => .num (p q)) op = .ok (some new) ∧ Told op ∧ new.isMeasurement = false ∧
          new.qubits = op.qubits ∧ UpToPhase (effect op * zTurns p op.qubits) (zTurns p op.qubits * effect new)) :
    Passes effect op := by
  intro i s h
  have hre : readied op s = op.qubits.foldl State.note s := by rw [readied,hm]; rfl
  obtain ⟨hh,he,ht,hc⟩ := held_note h op.qubits
  rw [← hre] at hh he ht hc
  have hnu : (readied op s).phase = fun q => .num (turns s q) := by rw [funext hh.number,ht]
  obtain ⟨b,hall,hwh⟩ := allM_negligible (turns s) op.qubits
  have hb : ∀ bits, branch effect bits op = effect op := branch_of_not_isMeasurement hm
  have hco : ∀ s', (∀ q ∈ op.qubits, zTurn (turns s' q) = 1) → Commute (effect op) (carried s') :=
    fun s' hs' => commute_zTurns (fun q hq m => hr.commute op m fun hmem => hq (hs' q hmem)) _
  cases b with
  | true =>
    refine ⟨_,_,step_whole hp (hnu ▸ hall) i,moves_keep [] hno hh ?_ (by simp) overlapFree_empty fun bits => ?_⟩
    · simp [inserting,he]
    · have ho : ∀ q ∈ op.qubits, zTurn (turns s q) = 1 := fun q hq => by
        obtain ⟨n,hn⟩ := hwh.mp rfl q hq
        rw [hn,zTurn_int]
      rw [evolution_nil,mul_one,hc,hb,(hco s ho).eq]
  | false =>
    rcases hps (turns s) fun hw => by simpa using hwh.mpr hw with hnn | ⟨new,hnew,hto,hm',hqu,hcr⟩
    · obtain ⟨s',ws,hd,hws⟩ := dump_putBack hr i hno hh
      have hst := (step_dump hp (hnu ▸ hall) (hnu ▸ hnn) i).trans hd
      refine ⟨s',_,hst,moves_keep ws hno hws.held ?_ hws.turning hws.free fun bits => ?_⟩
      · rw [hws.edits,inserting,inserting,he]
      · have hpa : Commute (effect op) (carried s') := hco s' fun q hq => by rw [hws.turns,if_pos hq,zTurn_zero]
        rw [hb,← mul_assoc,← hpa.eq,← hc]
        exact hws.carried.mul_left _
    · refine ⟨_,⟨i,op,[],some [new]⟩,step_passed hp (hnu ▸ hall) (hnu ▸ hnew) i,rfl,rfl,?_,?_,⟨hh.nodup,hh.number⟩,
        ?_,fun bits => ?_⟩
      · refine sound_instead i hto (by simp [hqu]) overlapFree_empty (overlapFree_singleton.mpr ?_) (by simp)
        have hnew : new.qubits.Nodup := hqu ▸ hno
        exact hnew
      · rw [followed_instead,he]
        simp [Edits.replace,Edits.remove,Edits.add]
      · simp [hm,hm']
      · have hnow : branches effect bits (([]) ++ (⟨i,op,[],some [new]⟩ : Change (Operation ℝ)).now) = effect new := by
          rw [← (branch_of_not_isMeasurement hm' bits : branch effect bits new = _)]
          rfl
        have hnow' : carried { readied op s with edits := (readied op s).edits.replace i op new } = carried s := hc
        have hpa' : Commute (effect new) (carried (dropped op.qubits s)) :=
          commute_zTurns (fun q hq m => hr.commute new m fun hmem => hq (by
            rw [turns_dropped,if_pos (hqu ▸ hmem),zTurn_zero])) _
        rw [hnow,hnow',hb,carried_dropped h hno,mul_assoc,← hpa'.eq,← mul_assoc]
        exact hcr.mul_right _
omit [OperationText ℝ] in
lemma Phasable.spec (h : Phasable op) : Told op ∧ op.isMeasurement = false ∧ op.qubits.Nodup := by
  rcases h with h | h
  · exact ⟨h.told,h.isMeasurement,h.nodup⟩
  · refine ⟨h.told,?_⟩
    cases h with
    | single hm b q => exact ⟨rfl,nodup_singleton q⟩
    | double hm b hqr => exact ⟨rfl,nodup_cons.mpr ⟨by simpa using hqr,nodup_singleton _⟩⟩
lemma passes_phasable (hr : Renders effect) (hop : Phasable op) : Passes effect op := by
  have hc : op.knownExponent? .z = none → Passes effect op := by
    intro hp
    obtain ⟨ht,hm,hn⟩ := hop.spec
    refine passes_of_passed hr hp hm hn fun p _ => .inr ?_
    obtain ⟨new,hrun,hnew,hq,hc⟩ := foldlM_cross_phasable p [] hop rfl
    rw [← hr.phasable hop,← hr.phasable hnew] at hc
    exact ⟨new,(passed_eq _ op).trans hrun,ht,hnew.spec.2.1,hq,hc⟩
  rcases id hop with (htu | ⟨t,shift,axis,q⟩ | _) | h
  · refine hc ?_
    rcases turnOf?_cases htu with ⟨s,axis,rfl,-⟩ | ⟨s,axis,rfl,-⟩ | ⟨s,rfl⟩ <;> rfl
  · exact passes_phase hr t shift axis q
  · exact hc rfl
  · cases h with
    | single | double => exact hc rfl
lemma passes_unphased (hr : Renders effect) (hop : Unphased op) (hno : op.qubits.Nodup) : Passes effect op := by
  cases op with
  | gate g qs =>
    have hph : (.gate g qs : Operation ℝ).knownExponent? .z = none := by
      cases g with
      | power k e s axis =>
        have hz : k ≠ .z := by
          rintro rfl
          cases hop.2 0 0
        simp [Operation.knownExponent?,hz]
      | _ => rfl
    have hm : (.gate g qs : Operation ℝ).isMeasurement = false := by
      cases g with
      | measurement => cases hop.1
      | _ => rfl
    refine passes_of_passed hr hph hm hno fun p hp => .inl ?_
    have hps : ∃ x ∈ qs.map p, ¬ ∃ n : ℤ, x = n := by
      push Not at hp
      obtain ⟨q,hq,hnot⟩ := hp
      refine ⟨p q,mem_map_of_mem hq,?_⟩
      rintro ⟨n,hn⟩
      exact hnot n hn
    have hrun := foldlM_cross_unphased hop hps 0
    rw [map_map] at hrun
    exact (passed_eq _ _).trans hrun
  | _ => exact hop.elim
end

/-! ## The whole pass -/
section
open EjectZ
variable {effect : Reading} [OperationText ℝ]
def Crosses (effect : Reading) (ops : Ops ℝ) (s s' : State ℝ) (oss : List (Ops ℝ)) : Prop :=
  oss.flatten.filter Operation.isMeasurement = ops.filter Operation.isMeasurement ∧
    ∀ bits, UpToPhase (branches effect bits ops * carried s) (carried s' * branches effect bits oss.flatten)
lemma Moves.crosses_cons {op : Operation ℝ} {s s' s'' : State ℝ} {t ops oss} (h : Moves effect i op s s' t)
    (h' : Crosses effect ops s' s'' oss) : Crosses effect (op :: ops) s s'' ((t.before ++ t.now) :: oss) := by
  refine ⟨?_,fun bits => ?_⟩
  · rw [flatten_cons,filter_append,h.measured,h'.1,← filter_append]
    rfl
  · have ha : bits.afterAll (t.before ++ t.now) = bits.after op := by
      rw [← afterAll_filter,h.measured,afterAll_filter]
      rfl
    rw [branches_cons,mul_assoc,flatten_cons,branches_append,ha]
    exact ((h.crosses bits).mul_left _).trans ((h'.2 _).mul_right _)

/-- The pass succeeds, keeps the measurements, and leaves of every state what the circuit leaves of it. -/
lemma run_order (hr : Renders effect) {c} (hc : Legal c) (hp : ∀ op ∈ c.operations, Passes effect op) :
    ∃ d, run 0 .none c = (d,.ok ()) ∧ Legal d ∧
      SameOrder (d.operations.filter Operation.isMeasurement) (c.operations.filter Operation.isMeasurement) ∧
      ∀ bits, UpToPhase (branches effect bits d.operations) (branches effect bits c.operations) := by
  have hs : Held ({}) := ⟨nodup_nil,fun q => rfl⟩
  have hp' : ∀ e ∈ c.placed, ∀ s, Held s → ∃ s' t, step 0 s e = .ok s' ∧ Moves effect e.1 e.2 s s' t :=
    fun e he => hp e.2 (map_placed c ▸ mem_map_of_mem he) e.1
  obtain ⟨s,ts,hf,hheld,hcovers,hsound,hes,hmeasured,hcr⟩ := foldlM_noted (C := Crosses effect)
    (fun h => ⟨h.index,h.op_eq,h.sound,h.edits,h.held⟩)
    (fun s => ⟨rfl,fun bits => by rw [branches_nil,one_mul,flatten_nil,branches_nil,mul_one]⟩) Moves.crosses_cons hp' hs
  obtain ⟨s',ws,hd,hws⟩ := dump_putBack hr c.size hheld.nodup hheld
  have hm : ∀ w ∈ ws, w.isMeasurement = false := fun w hw => (hws.turning w hw).1.isMeasurement
  have hed : edits 0 c = .ok (editsOf ts c.size ws) := by
    have hl : s'.edits = editsOf ts c.size ws := by
      rw [hws.edits,inserting,hes]
      simp [followed,editsOf,insertions]
    have hd' : s.dump 0 c.size (s.phases.map (·.1)) = .ok s' := hd
    simp only [edits,hf,bind,Except.bind,hd',hl]
  obtain ⟨d,ha,hfr,hord⟩ := apply_order hc hcovers hsound hws.free
  rw [map_placed] at hmeasured hcr
  refine ⟨d,?_,hfr,?_,fun bits => ?_⟩
  · rw [run,hed]
    exact ha
  · have hk : (ts.flatMap (fun t => t.before ++ t.now) ++ ws).filter Operation.isMeasurement = c.operations.filter Operation.isMeasurement := by
      have hn : ws.filter Operation.isMeasurement = [] := filter_eq_nil_iff.mpr fun w hw => by simp [hm w hw]
      rw [filter_append,hn,append_nil]
      exact hmeasured
    rw [← hk]
    refine ⟨hord.perm.filter _,fun q => ?_⟩
    have hwi := congrArg (filter Operation.isMeasurement) (hord.wire q)
    simp only [onWire,filter_filter] at hwi ⊢
    simpa only [Bool.and_comm] using hwi
  · have hem : carried s' = 1 := by
      refine prod_eq_one fun x hx => ?_
      obtain ⟨q,-,rfl⟩ := mem_map.mp hx
      have hz : turns s' q = 0 := by
        rw [hws.turns]
        split
        case isTrue => rfl
        case isFalse hq => rw [turns,phase_of_notMem hq]; rfl
      rw [hz,zTurn_zero,map_one]
    rw [branches_sameOrder hr.toOnQubits hord,branches_append,branches_eq_evolution hm]
    refine .symm ((hcr bits).trans (.mul_right ?_ _))
    simpa only [hem,one_mul] using hws.carried
variable (u : (op : Operation ℝ) → Matrix.unitaryGroup (Fin op.qubits.length → Fin 2) ℂ)
open Classical in
def rendering (op : Operation ℝ) : Operator Qubit := if Phasable op then operator op else act op.qubits.get (u op)
omit [OperationText ℝ] in
lemma renders_rendering : Renders (rendering u) where
  exists_act op := by
    unfold rendering
    split
    · exact exists_act_operator op
    · exact ⟨_,rfl⟩
  phasable h := if_pos h

/-- The pass keeps the measurements of a circuit of phases, turns, matrices and any other unitary gates. Whatever bits they
show, it leaves of every state what the circuit leaves of it, up to a global phase; so without measurements it is the same
operator. -/
theorem run_keeps_branches {c : Circuit (Operation ℝ)} (hc : ∀ m ∈ c.moments, OverlapFree m)
    (hops : ∀ op ∈ c.operations, Phasable op ∨ op.isMeasurement = true ∨ Unphased op) :
    ∃ d, run 0 .none c = (d, .ok ()) ∧ (∀ m ∈ d.moments, OverlapFree m) ∧
      SameOrder (d.operations.filter Operation.isMeasurement) (c.operations.filter Operation.isMeasurement) ∧
      (∀ bits, UpToPhase (branches (rendering u) bits d.operations) (branches (rendering u) bits c.operations)) ∧
      ((∀ op ∈ c.operations, op.isMeasurement = false) →
        UpToPhase (evolution (rendering u) d.operations) (evolution (rendering u) c.operations)) := by
  have hrenders := renders_rendering u
  have hpasses : ∀ op ∈ c.operations, Passes (rendering u) op := by
    intro op hop
    obtain ⟨m, hm, hop'⟩ := List.mem_flatMap.mp hop
    have hnodup : op.qubits.Nodup := (overlapFree_iff.mp (hc m hm)).1 op hop'
    rcases hops op hop with hphasable | hmeasurement | hunphased
    · exact passes_phasable hrenders hphasable
    · unfold Operation.isMeasurement Operation.measurementKey? at hmeasurement
      split at hmeasurement
      · exact passes_measurement hnodup
      · cases hmeasurement
    · exact passes_unphased hrenders hunphased hnodup
  obtain ⟨d, hrun, hfree, hmeasured, hbranches⟩ := run_order hrenders hc hpasses
  refine ⟨d, hrun, hfree, hmeasured, hbranches, fun hnone => ?_⟩
  have hnone' : ∀ op ∈ d.operations, op.isMeasurement = false := by
    intro op hop
    by_contra h
    have hmem := hmeasured.perm.mem_iff.mp (List.mem_filter.mpr ⟨hop, by simpa using h⟩)
    obtain ⟨hop', hyes⟩ := List.mem_filter.mp hmem
    rw [hnone op hop'] at hyes
    cases hyes
  have hbits := hbranches fun _ _ => 0
  rwa [branches_eq_evolution hnone, branches_eq_evolution hnone'] at hbits
def phaseFirst : OpCircuit ℝ where
  moments := [⟨[.gate (.power .z (.num (ratio 1 4)) 0 true) [.line 0],.gate (.power .z (.num (ratio 1 3)) 0 true) [.line 1]]⟩,
    ⟨[.gate (.power .cz (.num (ratio 1 2)) 0 true) [.line 0,.line 1]]⟩,
    ⟨[.gate (.measurement 1 "a" []) [.line 0],.gate (.power .x (.num (ratio 1 5)) 0 true) [.line 1]]⟩,
    ⟨[.gate .H [.line 1]]⟩]
omit [OperationText ℝ] in
theorem phaseFirst_keeps_branches :
    letI : OperationText ℝ := ⟨fun _ => "", fun _ => "", fun _ => ""⟩
    (∀ m ∈ phaseFirst.moments, OverlapFree m) ∧
      (∀ op ∈ phaseFirst.operations, Phasable op ∨ op.isMeasurement = true ∨ Unphased op) ∧
      ∃ d, run 0 .none phaseFirst = (d, .ok ()) ∧ ∀ bits,
        UpToPhase (branches (rendering fun _ => 1) bits d.operations) (branches (rendering fun _ => 1) bits phaseFirst.operations) := by
  let _ := silentText
  have hne : (Qubit.line 0) ≠ .line 1 := by decide
  have hc : ∀ m ∈ phaseFirst.moments, OverlapFree m := by
    simp only [phaseFirst, List.forall_mem_cons, overlapFree_iff]
    simp [qubits, Operation.qubits]
  have hops : ∀ op ∈ phaseFirst.operations, Phasable op ∨ op.isMeasurement = true ∨ Unphased op := by
    simp only [phaseFirst, Circuit.operations, List.flatMap_cons, List.flatMap_nil, List.append_nil, List.cons_append, List.nil_append,
      List.forall_mem_cons]
    refine ⟨Or.inl (Or.inl (.phase _ _ _ _)), Or.inl (Or.inl (.phase _ _ _ _)), Or.inl (Or.inl (.coupling _ _ _ hne)), Or.inr (Or.inl rfl),
      Or.inl (Or.inl (.equator rfl)), Or.inr (Or.inr ⟨rfl, fun _ _ => rfl⟩), by simp⟩
  obtain ⟨d, hrun, -, -, hbranches, -⟩ := run_keeps_branches (fun _ => 1) hc hops
  exact ⟨hc, hops, d, hrun, hbranches⟩
end
end
end QuantumCircuits.CarriedPhases
