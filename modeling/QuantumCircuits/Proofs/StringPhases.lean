import QuantumCircuits.Proofs.MeasuredBranches
import QuantumCircuits.PauliPhase

/-! # Phases along Pauli strings

A phase along a Pauli string is carried out by turns of all its axes, flips that gather the parity on one qubit, a
phase of that qubit, and all of it back. Rotations and controlled phases turn it into the phase along the string on
their other side. -/
namespace QuantumCircuits.StringPhases
open List hiding drop product
open Exact WireOperators PauliOperators GateActions HalfTurns CarriedTurns Gate Decomposition Clifford PauliPassing
open PauliString (find? drop)
open PauliPassing (operator operator_gate operator_rotation stringOperator stringOperator_eq product commute_product product_eq
  find?_eq_none axisAt_mul_wire opposes IsClifford stepped)
variable {a : Operator Qubit} {w : ℂ} {s : PauliString ℝ}

/-! ## What carries a phase out -/
section
variable {mid : Ops ℝ}
lemma between {o o' b} (hf : SemiconjBy (operator o) a b) (hb : operator o' * operator o = 1)
    (hmid : UpToPhase (evolution operator mid) (phased b w)) :
    UpToPhase (evolution operator (o :: (mid ++ [o']))) (phased a w) := by
  have h := (hmid.mul_left (operator o')).mul_right (operator o)
  rw [mul_assoc _ (phased b w),← (semiconj_phased hf w).eq,← mul_assoc,hb] at h
  rwa [evolution_cons,evolution_append,evolution_singleton]
lemma operator_cnot {r q} (h : r ≠ q) {e} (he : val (Cpx.iPow (2*e)) = -1) (axis) :
    operator (.gate (.power .cnot (.num e) nought axis) [r,q]) = crossing (side r .z false) (side q .x false) := by
  rw [operator_gate (m := powerMatrix .cnot e nought) rfl,onWires_cnot h he]
lemma toMatrix_quarter {c p n} (hc : c ≠ Clifford.hadamard) (h : c.rotations = [(p,n)]) :
    toMatrix 2 (cliffordMatrix c) = turn p n := by
  have ha : 2*(one * RealScalar.ratio n 2 : ℝ) = n := by
    simp [one]
    ring
  have hp := square_axisPower p (one * RealScalar.ratio n 2) nought
  have hmat : (cliffordMatrix c : Mat ℝ) =
      powerMatrix (axisKind p) (one * RealScalar.ratio n 2) nought * Mat.identity 2 := by
    rw [cliffordMatrix,if_neg hc,h]
    cases p <;> rfl
  rw [hmat,toMatrix_mul hp (square_identity 2),toMatrix_identity,mul_one,toMatrix_axisPower p _ ha]
variable (p : Pauli)
lemma turn_mul_turn_neg : turn p 1 * turn p (-1) = 1 := by
  have hp : Complex.I^((1 : ℤ) % 4).toNat*Complex.I^((-1) % 4).toNat = 1 := by simp
  rw [turn,turn,phased_mul_phased (sigma_mul_self p),hp,phased_one]
lemma turn_and_back (q) : operator (.gate (.clifford (ofOne p ⟨.z,false⟩).inverse) [q]) *
      operator (.gate (.clifford (ofOne p ⟨.z,false⟩)) [q]) = 1 := by
  rw [operator_rotation,operator_rotation,← map_mul]
  cases p with
  | x =>
    rw [toMatrix_quarter (p := .y) (n := 1) (by decide) (by decide),
      toMatrix_quarter (p := .y) (n := -1) (by decide) (by decide),turn_mul_turn_neg,map_one]
  | y =>
    rw [toMatrix_quarter (p := .x) (n := -1) (by decide) (by decide),
      toMatrix_quarter (p := .x) (n := 1) (by decide) (by decide),mul_eq_one_comm.mp (turn_mul_turn_neg .x),map_one]
  | z =>
    have hn : toMatrix 2 (cliffordMatrix Clifford.identity) = 1 := toMatrix_identity 2
    have hs : ofOne .z ⟨.z,false⟩ = Clifford.identity ∧ identity.inverse = Clifford.identity := by decide
    rw [hs.1,hs.2,hn,mul_one,map_one]
lemma rotation_mul_sigma : toMatrix 2 (cliffordMatrix (ofOne p ⟨.z,false⟩)) * sigma p =
    sigma .z * toMatrix 2 (cliffordMatrix (ofOne p ⟨.z,false⟩)) := by
  have ht : IsRotation (ofOne p ⟨.z,false⟩) ∧ (ofOne p ⟨.z,false⟩).transform p = ⟨.z,false⟩ := by
    revert p
    decide
  have h := (turns_cliffordMatrix ht.1).mul_sigma p
  rwa [ht.2,signed,sign_false,one_smul] at h
lemma turn_axis (q) : SemiconjBy (operator (.gate (.clifford (ofOne p ⟨.z,false⟩)) [q]))
    (wire q (sigma p)) (wire q (sigma .z)) := by
  rw [operator_rotation,SemiconjBy,← map_mul,rotation_mul_sigma,map_mul]
variable {x : Operator Qubit}
/-- A flip takes the axis of its first qubit out of a string that has the last axis at both. -/
lemma flip_axes {r q} (h : r ≠ q) (hr : ∀ m, Commute (wire r m) x) (hq : ∀ m, Commute (wire q m) x) :
    SemiconjBy (crossing (side r .z false) (side q .x false)) (wire q (sigma .z) * (wire r (sigma .z) * x)) (wire q (sigma .z) * x) := by
  have hz : wire r (sigma .z) * wire r (sigma .z) = 1 := by rw [← map_mul,sigma_mul_self,map_one]
  have hp := wire_commute h (sigma .z) (sigma .z)
  have hk : Commute (side r .z false) (wire q (sigma .z) * (wire r (sigma .z) * x)) :=
    (hp.mul_right ((Commute.refl _).mul_right (hr _))).smul_left _
  have ht : side q .x false * (wire q (sigma .z) * (wire r (sigma .z) * x)) =
      -(wire q (sigma .z) * (wire r (sigma .z) * x) * side q .x false) := by
    have hxz : sigma .x * sigma .z = -(sigma .z * sigma .x) := sigma_anticommute (by decide)
    have hre := (wire_commute h (sigma .z) (sigma .x)).symm.mul_right (hq (sigma .x))
    rw [side,smul_mul_assoc,mul_smul_comm,← smul_neg,← mul_assoc,← map_mul,hxz,map_neg,map_mul,neg_mul,mul_assoc,hre.eq,← mul_assoc]
  rw [SemiconjBy,crossing_mul_of_anticommute_right (side_commute h _ _ _ _) (side_mul_self _ _ _) hk ht,side,
    smul_mul_assoc,← mul_assoc,hp.eq,mul_assoc,← mul_assoc _ _ x,hz]
  simp

/-- The parity of some axes, gathered on one qubit. -/
lemma gathered {q rest} (hn : (q :: rest).Nodup) (hmid : UpToPhase (evolution operator mid) (phased (wire q (sigma .z)) w)) :
    UpToPhase (evolution operator ((rest.map fun r => cnot r q) ++ mid ++
      rest.reverse.map fun r => op .cnot (Param.mul (.num one) minusOne) [r,q]))
      (phased (wire q (sigma .z) * product (rest.map fun r => (r,.z))) w) := by
  induction rest with
  | nil => simpa [product] using hmid
  | cons r rest ih =>
    obtain ⟨hrq,hr,hq,hre⟩ : r ≠ q ∧ r ∉ rest ∧ q ∉ rest ∧ (q :: rest).Nodup := by grind
    have hfl : ∀ e, e = 1 ∨ e = -1 → operator (.gate (.power .cnot (.num e) nought false) [r,q]) =
        crossing (side r .z false) (side q .x false) := by
      rintro e (rfl | rfl) <;> exact operator_cnot hrq (by simp [val_iPow]) _
    have hf : operator (cnot r q) = _ := hfl one (by simp [one])
    have hb : operator (op .cnot (Param.mul (.num one) minusOne) [r,q]) = _ :=
      hfl (one * RealScalar.ofInt (-1)) (by simp [one])
    have ha : ∀ s ∉ rest, ∀ m, Commute (wire s m) (product (rest.map fun r => (r,.z))) := fun s hs m =>
      commute_product (find?_eq_none.mpr (by simpa using hs)) m
    have hax := flip_axes hrq (ha r hr) (ha q hq)
    rw [← hf] at hax
    have hse : operator (op .cnot (Param.mul (.num one) minusOne) [r,q]) *
        operator (cnot r q) = 1 := by
      rw [hf,hb,crossing_mul_self (side_commute hrq _ _ _ _) (side_mul_self _ _ _) (side_mul_self _ _ _)]
    simpa [product] using between hax hse (ih hre)

/-- All axes of a string turned to the last one, beside a string `x` on other qubits. -/
lemma turnedAxes {ts} (hn : (ts.map Prod.fst).Nodup) (hx : ∀ t ∈ ts, ∀ m, Commute (wire t.1 m) x)
    (hmid : UpToPhase (evolution operator mid) (phased (x * product (ts.map fun t => (t.1,.z))) w)) :
    UpToPhase (evolution operator ((ts.map fun t => .gate (.clifford (ofOne t.2 ⟨.z,false⟩)) [t.1]) ++ mid ++
      ts.reverse.map fun t => .gate (.clifford (ofOne t.2 ⟨.z,false⟩).inverse) [t.1])) (phased (x * product ts) w) := by
  induction ts generalizing x with
  | nil => simpa using hmid
  | cons t ts ih =>
    obtain ⟨hnew,hr⟩ := nodup_cons.mp hn
    have hx' : ∀ u ∈ ts, ∀ m, Commute (wire u.1 m) (x * wire t.1 (sigma .z)) := by
      intro u hu m
      refine (hx u (mem_cons_of_mem _ hu) m).mul_right (wire_commute ?_ _ _)
      rintro h
      exact hnew (h ▸ mem_map_of_mem hu)
    have ha : SemiconjBy (operator (.gate (.clifford (ofOne t.2 ⟨.z,false⟩)) [t.1])) (x * product (t :: ts))
        (x * wire t.1 (sigma .z) * product ts) := by
      have hout : ∀ m, Commute (wire t.1 m) (product ts) := commute_product (find?_eq_none.mpr hnew)
      have ht := turn_axis t.2 t.1
      rw [operator_rotation] at ht ⊢
      exact (SemiconjBy.mul_right (hx t mem_cons_self _) ht).mul_right (hout _)
    simpa using between ha (turn_and_back t.2 t.1) (ih hr hx' hmid)
variable {p : PauliString ℝ}
lemma phased_stringOperator (hc : p.coefficient = 1 ∨ p.coefficient = -1) (t) :
    UpToPhase (phased (product p.terms) (turned (t*p.coefficient.re))) (phased (stringOperator p) (turned t)) := by
  rw [stringOperator_eq]
  rcases hc with h | h
  · have hre : (1 : Cpx ℝ).re = 1 := rfl
    rw [h,hre,mul_one,val_one,one_smul]
  · have hre : (-1 : Cpx ℝ).re = -1 := rfl
    have hval : val (-1) = -1 := by simp
    rw [h,hre,mul_neg_one,hval,neg_one_smul,phased_neg _ (turned_mul_neg t)]
    exact (UpToPhase.smul _ (norm_turned t)).symm

/-- A phase along a string is what its decomposition carries out. -/
lemma phasor_decomposition (hp : p.support.Nodup) (hc : p.coefficient = 1 ∨ p.coefficient = -1) (t) :
    ∃ ops, phasor p (.num t) = .ok ops ∧
      UpToPhase (evolution operator ops) (phased (stringOperator p) (turned t)) := by
  have hph := phased_stringOperator hc t
  obtain ⟨ts,c⟩ := p
  cases ts with
  | nil =>
    refine ⟨[],rfl,UpToPhase.trans (UpToPhase.of_eq ?_) hph⟩
    rw [product,map_nil,prod_nil,phased,← add_smul,← add_div]
    norm_num
  | cons u ts =>
    have hw : ∀ w, wire u.1 (phased (sigma .z) w) = phased (wire u.1 (sigma .z)) w := fun w => by simp [phased]
    have hmid : UpToPhase (evolution operator [.gate (.axisPower .z (.num (one*(t*c.re)))) [u.1]]) _ :=
      operator_axisPower .z (one*(t*c.re)) nought true u.1
    rw [hw] at hmid
    have hco : (c == 1 || c == (-1)) := by simpa using hc
    have hpa := gathered hp hmid
    have ha : wire u.1 (sigma .z) * product ((ts.map (·.1)).map fun r => (r,.z)) =
        1 * product ((u :: ts).map fun t => (t.1,.z)) := by
      simp [product,Function.comp_def]
    simp only [ha] at hpa
    have hall := turnedAxes hp (fun _ _ _ => Commute.one_right _) hpa
    refine ⟨_,?_,hall.trans (by simpa [one] using hph)⟩
    simp [phasor,PauliString.support,PauliString.toZBasis,hco,Param.mul,Function.comp_def]
end

/-! ## Strings with a sign, and what they pass -/
section
structure Signed (s : PauliString ℝ) : Prop where
  nodup : s.support.Nodup
  coefficient : s.coefficient = 1 ∨ s.coefficient = -1

/-- The Clifford operations without inversions. -/
inductive Plain : Operation ℝ → Prop
  | rotation {c : Clifford} (hc : IsRotation c) (q : Qubit) : Plain (.gate (.clifford c) [q])
  | phase {q0 q1 : Qubit} (hq : q0 ≠ q1) (s : ℝ) (axis : Bool) : Plain (.gate (.power .cz (.num 1) s axis) [q0,q1])
variable {op : Operation ℝ}
lemma Plain.isClifford (h : Plain op) : IsClifford op := by
  cases h with
  | rotation hc q => exact .rotation hc q
  | phase hq s axis => exact .phase hq s axis
lemma Signed.stepped (h : Signed s) (hop : IsClifford op) (backward) : Signed (stepped backward s op) := by
  refine ⟨PauliPassing.nodup_stepped hop backward h.nodup,?_⟩
  obtain ⟨p,hp,-,-⟩ := hop.acts
  have hneg : (- -1 : Cpx ℝ) = 1 := val_injective (by simp)
  simp only [PauliPassing.stepped,hp,PauliPassing.passOver_single]
  split
  · rcases h.coefficient with hc | hc <;> simp [hc,hneg]
  · exact h.coefficient
variable {ops : Ops ℝ}
lemma Signed.foldl (h : Signed s) (hops : ∀ op ∈ ops, IsClifford op) (backward) :
    Signed (ops.foldl (PauliPassing.stepped backward) s) :=
  foldlRecOn ops _ h fun _ h op hop => h.stepped (hops op hop) backward
lemma overlookedCount_plain (backward s) (hops : ∀ op ∈ ops, Plain op) :
    overlookedCount backward s ops = 0 := by
  induction ops generalizing s with
  | nil => rfl
  | cons op ops ih =>
    have hr := ih (stepped backward s op) (forall_mem_cons.mp hops).2
    cases hops op mem_cons_self <;>
      simp [overlookedCount,hr,Operation.passing?,overlooking,overlooks]
abbrev Matrices := (op : Operation ℝ) → Matrix (Fin op.qubits.length → Fin 2) (Fin op.qubits.length → Fin 2) ℂ
variable (u : Matrices)
open Classical in
/-- Rotations and controlled phases do what their matrices do, and other operations what they are said to do. -/
noncomputable def given (op : Operation ℝ) : Operator Qubit := if Plain op then operator op else act op.qubits.get (u op)

/-- The effect of an operation; a phase along a string does what its decomposition does. -/
noncomputable def effect (op : Operation ℝ) : Operator Qubit :=
  match op with
  | .phasor p t => match Decomposition.phasor p t with
    | .ok ops => evolution operator ops
    | .error _ => 0
  | op => given u op
noncomputable def meant (op : Operation ℝ) : Operator Qubit :=
  match op with
  | .phasor p t => phased (stringOperator p) (turned t.value)
  | op => given u op
inductive Phasing : Operation ℝ → Prop
  | mk {s : PauliString ℝ} (hs : Signed s) (t : ℝ) : Phasing (.phasorOf s (.num t))
lemma phasorOf_num (s x) :
    ∃ t : ℝ, Operation.phasorOf s (.num x) = .phasor s (.num t) ∧ ∀ r, Operation.phasorOf r (.num t) = .phasor r (.num t) := by
  have hf : ∀ a : ℝ, ⌊(a-2*⌊a/2⌋)/2⌋ = 0 := by
    intro a
    have hs : (a-2*⌊a/2⌋)/2 = a/2-(⌊a/2⌋) := by ring
    rw [hs,Int.floor_sub_intCast,sub_self]
  exact ⟨_,rfl,fun r => by simp [Operation.phasorOf,RealScalar.mod,hf]⟩
structure Fit (p : Phasor ℝ) : Prop where
  signed : Signed p.string
  fixed : ∃ t, p.halfTurns = .num t ∧ ∀ r, Operation.phasorOf r (.num t) = .phasor r (.num t)
lemma Fit.phasorOf (h : Fit p) (s) : Operation.phasorOf s p.halfTurns = .phasor s p.halfTurns := by
  obtain ⟨t,ht,hf⟩ := h.fixed
  rw [ht,hf]
lemma Fit.of?_toOp (h : Fit p) : Phasor.of? p.toOp = some p := by
  rw [Phasor.toOp,h.phasorOf]
  rfl
lemma Fit.phasing (h : Fit p) : Phasing p.toOp := by
  obtain ⟨t,ht,-⟩ := h.fixed
  rw [Phasor.toOp,ht]
  exact .mk h.signed t
lemma Phasing.fit (h : Phasing op) : ∃ p, Fit p ∧ op = p.toOp := by
  obtain ⟨hs,x⟩ := h
  obtain ⟨t,ht,hf⟩ := phasorOf_num _ x
  have hfit : Fit ⟨_,.num t⟩ := ⟨hs,t,rfl,hf⟩
  exact ⟨_,hfit,ht.trans (hfit.phasorOf _).symm⟩
lemma Phasing.effect_upToPhase (h : Phasing op) : UpToPhase (effect u op) (meant u op) := by
  obtain ⟨hs,x⟩ := h
  obtain ⟨t,ht,-⟩ := phasorOf_num _ x
  obtain ⟨ops,hops,hp⟩ := phasor_decomposition hs.nodup hs.coefficient t
  rw [ht]
  simpa only [effect,hops,meant,Param.value,Param.value?,Option.getD_some] using hp
lemma effect_eq_meant (h : Phasor.of? op = none) : effect u op = meant u op := by
  cases op with
  | phasor p t => simp [Phasor.of?] at h
  | gate | controlled | parallel | pauli | expectation | acquainted => rfl
lemma Plain.meant_eq (h : Plain op) : meant u op = operator op := by
  have hg : given u op = operator op := if_pos h
  cases h <;> exact hg
lemma commute_stringOperator (h : ∀ q ∈ s.support, ∀ m, Commute a (wire q m)) : Commute a (stringOperator s) := by
  rw [stringOperator_eq]
  refine (Commute.list_prod_right _ _ fun x hx => ?_).smul_right _
  obtain ⟨t,ht,rfl⟩ := mem_map.mp hx
  exact h t.1 (mem_map_of_mem ht) _
lemma commute_meant (hw : ∀ q ∈ op.qubits, ∀ m, Commute a (wire q m)) (hact : ∀ m, Commute a (act op.qubits.get m)) :
    Commute a (meant u op) := by
  have hg : Commute a (given u op) := by
    obtain ⟨m,hm⟩ := exists_act_operator op
    unfold given
    split
    · exact hm ▸ hact m
    · exact hact _
  cases op with
  | phasor p t => exact semiconj_phased (commute_stringOperator hw) _
  | gate | controlled | parallel | pauli | expectation | acquainted => exact hg
lemma meant_apart (a b) (hab : a.qubits.Disjoint b.qubits) : Commute (meant u a) (meant u b) := by
  refine commute_meant u (fun q hq m => ?_) fun m => ?_
  · refine (commute_meant u (fun r hr m' => wire_commute ?_ m m') fun m' => (act_commute_wire (fun ha => hab ha hq) m' m).symm).symm
    rintro rfl
    exact hab hr hq
  · exact (commute_meant u (fun q hq m' => act_commute_wire (hab hq) m m') fun m' => act_commute_act hab.symm m m').symm
lemma wire_mul_product (q p) (hus : (us.map Prod.fst).Nodup) :
    wire q (sigma p) * product us = sign (opposes p (find? q us)) • (product us * wire q (sigma p)) := by
  have hr : Commute (wire q (sigma p)) (product (drop q us)) := commute_product (find?_eq_none.mpr (by simp [drop])) _
  have hat := axisAt_mul_wire q p (find? q us)
  rw [product_eq hus q,mul_assoc,← hr.eq,← mul_assoc,← mul_assoc,hat,smul_mul_assoc,smul_smul,sign_mul_self,one_smul]
lemma product_mul_product (ts) (hus : (us.map Prod.fst).Nodup) :
    product ts * product us = (-1 : ℂ) ^ ts.countP (fun v => opposes v.2 (find? v.1 us)) • (product us * product ts) := by
  induction ts with
  | nil => simp [product]
  | cons v ts ih =>
    have hc : product (v :: ts) = wire v.1 (sigma v.2) * product ts := by simp [product]
    have hs : ∀ b, sign b = (-1)^(if b then 1 else 0) := fun b => by cases b <;> simp
    rw [hc,mul_assoc,ih,mul_smul_comm,← mul_assoc,wire_mul_product v.1 v.2 hus,smul_mul_assoc,smul_smul,mul_assoc,
      countP_cons,pow_add,hs]
lemma commutesWith_eq (s t : PauliString ℝ) :
    s.commutesWith t = (s.terms.countP (fun v => opposes v.2 (find? v.1 t.terms)) % 2 == 0) := by
  rw [PauliString.commutesWith,PauliString.zip,← countP_eq_length_filter,countP_filterMap]
  congr 3
  funext v
  cases h : find? v.1 t.terms <;> simp [PauliString.get?,opposes,h,eq_comm]

/-- Strings that differ at an even number of qubits commute. -/
lemma commute_of_commutesWith {t} (ht : t.support.Nodup) (h : s.commutesWith t) :
    Commute (stringOperator s) (stringOperator t) := by
  rw [commutesWith_eq,beq_iff_eq,← Nat.even_iff] at h
  have hp := product_mul_product s.terms ht
  rw [h.neg_one_pow,one_smul] at hp
  rw [stringOperator_eq,stringOperator_eq]
  exact (Commute.smul_left hp _).smul_right _
end
end QuantumCircuits.StringPhases
