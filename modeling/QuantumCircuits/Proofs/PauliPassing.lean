import QuantumCircuits.Proofs.PauliOperators

/-! # Pauli strings past Clifford operations

Moving a Pauli string past a Clifford operation conjugates it, except that an inversion of an interaction is ignored
when only the axis of the other side anticommutes with the string. The two directions undo each other.
-/
namespace QuantumCircuits.PauliPassing
noncomputable section
open List hiding drop find?
open Exact WireOperators PauliOperators PauliString Gate
variable {ts : List (Qubit × Pauli)} {op : Operation ℝ} {p : Passing} {u : Operator Qubit} (backward : Bool)
variable (s : PauliString ℝ) (q : Qubit) (p0 : Pauli) (inv0 : Bool) (p1 : Pauli) (inv1 : Bool) {q0 q1 : Qubit}
section
variable {q} {p : Pauli}
lemma find?_eq_none : find? q ts = none ↔ q ∉ ts.map Prod.fst := by
  induction ts with
  | nil => simp [find?]
  | cons t ts ih =>
    obtain ⟨r,o⟩ := t
    by_cases h : r = q
    · simp [find?,h]
    · simp [find?,h,ih,Ne.symm h]
@[simp] lemma find?_put (q r p ts) : find? r (put q p ts) = if r = q then some p else find? r ts := by
  induction ts with
  | nil => simp [put,find?,eq_comm]
  | cons t ts ih =>
    simp only [put]
    split <;> grind [find?]
@[simp] lemma find?_drop (q r ts) : find? r (drop q ts) = if r = q then none else find? r ts := by
  induction ts with
  | nil => simp [drop,find?]
  | cons t ts ih =>
    simp only [drop] at ih ⊢
    split <;> grind [find?]
lemma keys_put (p ts) : (put q p ts).map Prod.fst = if q ∈ ts.map Prod.fst then ts.map Prod.fst else ts.map Prod.fst ++ [q] := by
  induction ts with
  | nil => simp [put]
  | cons t ts ih =>
    simp only [put]
    split <;> grind
lemma nodup_put (hts : (ts.map Prod.fst).Nodup) : ((put q p ts).map Prod.fst).Nodup := by
  rw [keys_put]
  split
  · exact hts
  · grind
lemma nodup_drop (hts : (ts.map Prod.fst).Nodup) : ((drop q ts).map Prod.fst).Nodup := hts.sublist (filter_sublist.map _)
@[simp] lemma drop_put (q p ts) : drop q (put q p ts) = drop q ts := by
  induction ts with
  | nil => simp [put,drop]
  | cons t ts ih =>
    simp only [drop] at ih
    simp only [put,drop]
    split <;> grind
lemma drop_comm (q r ts) : drop q (drop r ts) = drop r (drop q ts) := by simp [drop,Bool.and_comm]
@[simp] lemma drop_drop (q ts) : drop q (drop q ts) = drop q ts := by simp [drop]
end
section
def axisAt : Option Pauli → Operator Qubit
  | none => 1
  | some p => wire q (sigma p)
def product (ts : List (Qubit × Pauli)) : Operator Qubit := (ts.map fun t => wire t.1 (sigma t.2)).prod
lemma commute_product {q} (hq : find? q ts = none) (m) : Commute (wire q m) (product ts) := by
  refine Commute.list_prod_right _ _ fun x hx => ?_
  obtain ⟨t,ht,rfl⟩ := mem_map.mp hx
  refine wire_commute ?_ _ _
  rintro rfl
  exact find?_eq_none.mp hq (mem_map_of_mem ht)

/-- What stands on one wire comes first among operators on different wires. -/
lemma prod_wires {α : Type} (f : α → OneBitMatrix) {es : List (Qubit × α)} (h : (es.map Prod.fst).Nodup) (q) :
    (es.map fun e => wire e.1 (f e.2)).prod = ((es.find? fun e => e.1 = q).elim 1 fun e => wire q (f e.2)) *
      ((es.filter fun e => e.1 ≠ q).map fun e => wire e.1 (f e.2)).prod := by
  induction es with
  | nil => simp
  | cons e es ih =>
    obtain ⟨hnew,hes⟩ := nodup_cons.mp h
    by_cases he : e.1 = q
    · have ho : ∀ e' ∈ es, e'.1 ≠ q := fun e' he' hq => hnew (he ▸ hq ▸ mem_map_of_mem he')
      have hall : es.filter (fun e => e.1 ≠ q) = es := filter_eq_self.mpr fun e' he' => by simpa using ho e' he'
      rw [filter_cons_of_neg (by simp [he]),hall]
      simp [he]
    · have hc : Commute (wire e.1 (f e.2)) ((es.find? fun e => e.1 = q).elim 1 fun e => wire q (f e.2)) := by
        cases es.find? fun e => e.1 = q with
        | none => exact Commute.one_right _
        | some e' => exact wire_commute he _ _
      rw [filter_cons_of_pos (by simp [he]),find?_cons_of_neg (by simp [he]),map_cons,map_cons,prod_cons,prod_cons,ih hes,
        ← mul_assoc,hc.eq,mul_assoc]
lemma product_eq (hts : (ts.map Prod.fst).Nodup) (q) : product ts = axisAt q (find? q ts) * product (drop q ts) := by
  have hf : ∀ ts, axisAt q (find? q ts) = (ts.find? fun t => t.1 = q).elim 1 fun t => wire q (sigma t.2) := by
    intro ts
    induction ts with
    | nil => rfl
    | cons t ts ih =>
      by_cases h : t.1 = q
      · simp [find?,axisAt,h]
      · simpa [find?,h] using ih
  rw [hf]
  exact prod_wires sigma hts q
lemma product_congr {ts'} (hts : (ts.map Prod.fst).Nodup) (hts' : (ts'.map Prod.fst).Nodup) (h : ∀ q, find? q ts = find? q ts') :
    product ts = product ts' := by
  induction ts generalizing ts' with
  | nil =>
    have hnone : ts'.map Prod.fst = [] := eq_nil_iff_forall_not_mem.mpr fun q => find?_eq_none.mp (h q).symm
    rw [map_eq_nil_iff.mp hnone]
  | cons t ts ih =>
    obtain ⟨hnew,hts⟩ := nodup_cons.mp hts
    have hq : find? t.1 ts' = some t.2 := by simp [← h,find?]
    rw [product_eq hts' t.1,hq,← ih hts (nodup_drop hts') fun r => ?_]
    · rfl
    · rw [find?_drop,← h]
      split
      · next hr => rw [hr,find?_eq_none.mpr hnew]
      · next hr => simp [find?,Ne.symm hr]
end
section
variable (p : Pauli)
/-- Whether an axis is present and differs from `p`, so that the two anticommute. -/
def opposes (p : Pauli) : Option Pauli → Bool
  | some r => r ≠ p
  | none => false
def joined (p : Pauli) : Option Pauli → Option Pauli
  | some r => if r = p then none else some (p.third r)
  | none => some p
def leads (p : Pauli) : Option Pauli → Bool
  | some r => p.precedes r
  | none => false
variable (t : Option Pauli)
def phaseOf (p : Pauli) (t : Option Pauli) : ℂ := if opposes p t then (if leads p t then Complex.I else -Complex.I) else 1
lemma wire_mul_axisAt : wire q (sigma p) * axisAt q t = phaseOf p t • axisAt q (joined p t) := by
  cases t with
  | none => simp [axisAt,phaseOf,joined,opposes]
  | some r =>
    by_cases hr : r = p
    · subst hr
      simp [axisAt,phaseOf,joined,opposes,← map_mul]
    · have hmul : wire q (sigma p) * wire q (sigma r) = quarter p r • wire q (sigma (p.third r)) := by
        rw [← map_mul,sigma_mul (Ne.symm hr),map_smul]
      have hp : phaseOf p (some r) = quarter p r := by
        cases h : p.precedes r <;> simp [phaseOf,opposes,leads,hr,quarter,h]
      have hj : joined p (some r) = some (p.third r) := by simp [joined,hr]
      rw [hp,hj,axisAt,axisAt,hmul]
lemma axisAt_mul_wire : axisAt q t * wire q (sigma p) = sign (opposes p t) • (wire q (sigma p) * axisAt q t) := by
  cases t with
  | none => simp [axisAt,opposes]
  | some r =>
    by_cases hr : r = p
    · simp [axisAt,opposes,hr]
    · have ho : opposes p (some r) := by simp [opposes,hr]
      rw [ho,axisAt,← map_mul,sigma_anticommute hr,sign_true,neg_one_smul,map_neg,map_mul]
variable {p q t}
lemma wire_commute_axisAt {r} (hr : q ≠ r) : Commute (wire q (sigma p)) (axisAt r t) := by
  cases t with
  | none => exact Commute.one_right _
  | some o => exact wire_commute hr _ _
lemma wire_mul_beside : wire q (sigma p) * (axisAt q t * y) = phaseOf p t • (axisAt q (joined p t) * y) := by
  rw [← mul_assoc,wire_mul_axisAt,smul_mul_assoc]
lemma beside_mul_wire (hy : Commute (wire q (sigma p)) y) :
    axisAt q t * y * wire q (sigma p) = sign (opposes p t) • (wire q (sigma p) * (axisAt q t * y)) := by
  rw [mul_assoc,← hy.eq,← mul_assoc,axisAt_mul_wire,smul_mul_assoc,mul_assoc]
variable (p t) (t0 t1 : Option Pauli)
/-- The axes at the two wires of an interaction after it, and whether the sign changes. -/
def met : Option Pauli × Option Pauli × Bool :=
  (if opposes p1 t1 then joined p0 t0 else t0,if opposes p0 t0 then joined p1 t1 else t1,
    opposes p0 t0 && opposes p1 t1 && (inv0 ^^ inv1 ^^ leads p0 t0 ^^ leads p1 t1))

/-- Only the axis of one side anticommutes with the string, and the other side is inverted. -/
def overlooks : Bool := if opposes p0 t0 then !opposes p1 t1 && inv1 else opposes p1 t1 && inv0
lemma opposes_joined : opposes p (joined p t) = opposes p t := by
  revert p t
  decide
lemma joined_joined : joined p (joined p t) = t := by
  revert p t
  decide
lemma leads_joined : (opposes p t && leads p (joined p t)) = (opposes p t && !leads p t) := by
  revert p t
  decide
lemma met_met : met p0 inv0 p1 inv1 (met p0 inv0 p1 inv1 t0 t1).1 (met p0 inv0 p1 inv1 t0 t1).2.1 =
      (t0,t1,(met p0 inv0 p1 inv1 t0 t1).2.2) := by
  have h0 := leads_joined p0 t0
  have h1 := leads_joined p1 t1
  cases hα : opposes p0 t0 <;> cases hβ : opposes p1 t1 <;>
    simp_all [met,opposes_joined,joined_joined]

/-- The matrix of an interaction conjugates the axes at its two wires as they meet it, up to an overlooked inversion. -/
lemma crossing_mul_axes (hq : q0 ≠ q1) (p0 inv0 p1 inv1 t0 t1) {x} (h0 : Commute (wire q0 (sigma p0)) x)
    (h1 : Commute (wire q1 (sigma p1)) x) :
    crossing (side q0 p0 inv0) (side q1 p1 inv1) * (axisAt q0 t0 * (axisAt q1 t1 * x)) =
      sign ((met p0 inv0 p1 inv1 t0 t1).2.2 ^^ overlooks p0 inv0 p1 inv1 t0 t1) •
        (axisAt q0 (met p0 inv0 p1 inv1 t0 t1).1 * (axisAt q1 (met p0 inv0 p1 inv1 t0 t1).2.1 * x)) *
        crossing (side q0 p0 inv0) (side q1 p1 inv1) := by
  have hsw : ∀ t0 t1, axisAt q0 t0 * (axisAt q1 t1 * x) = axisAt q1 t1 * (axisAt q0 t0 * x) := by
    intro t0 t1
    cases t0 with
    | none => simp [axisAt]
    | some p => rw [axisAt,← mul_assoc,(wire_commute_axisAt hq).eq,mul_assoc]
  have hwire0 := beside_mul_wire (t := t0) ((wire_commute_axisAt (t := t1) hq).mul_right h0)
  have hwire1 := beside_mul_wire (t := t1) ((wire_commute_axisAt (t := t0) hq.symm).mul_right h1)
  rw [← hsw] at hwire1
  have hco := side_commute hq p0 p1 inv0 inv1
  have hself0 := side_mul_self q0 p0 inv0
  have hself1 := side_mul_self q1 p1 inv1
  have hs : ∀ i, -sign (!i) = sign i := fun i => by cases i <;> simp
  generalize hx : axisAt q0 t0 * (axisAt q1 t1 * x) = y at hwire0 hwire1 ⊢
  have hk : ∀ {q p i}, y * wire q (sigma p) = sign false • (wire q (sigma p) * y) → Commute (side q p i) y := by
    intro q p i h
    rw [Commute,SemiconjBy,side,mul_smul_comm,h,sign_false,one_smul,smul_mul_assoc]
  have ht : ∀ {q p i}, y * wire q (sigma p) = sign true • (wire q (sigma p) * y) → side q p i * y = -(y * side q p i) := by
    intro q p i h
    rw [side,mul_smul_comm,h,sign_true,neg_one_smul,smul_neg,neg_neg,smul_mul_assoc]
  cases hα : opposes p0 t0 <;> cases hβ : opposes p1 t1 <;> rw [hα] at hwire0 <;> rw [hβ] at hwire1
  · rw [crossing_mul_of_commute (hk hwire0) (hk hwire1)]
    simp [met,overlooks,hα,hβ,hx]
  · rw [crossing_mul_of_anticommute_right hco hself0 (hk hwire0) (ht hwire1),side,smul_mul_assoc,← hx,wire_mul_beside,← neg_smul,hs]
    simp [met,overlooks,hα,hβ,phaseOf]
  · rw [crossing_mul_of_anticommute_left hco hself1 (ht hwire0) (hk hwire1),side,smul_mul_assoc,← hx,hsw,
      wire_mul_beside,← hsw,← neg_smul,hs]
    simp [met,overlooks,hα,hβ,phaseOf]
  · rw [crossing_mul_of_anticommute hco hself0 hself1 (ht hwire0) (ht hwire1)]
    have hp : -(sign (!inv0) * sign (!inv1) * phaseOf p0 t0 * phaseOf p1 t1) =
        sign (inv0 ^^ inv1 ^^ leads p0 t0 ^^ leads p1 t1) := by
      simp only [phaseOf,hα,hβ]
      cases inv0 <;> cases inv1 <;> cases leads p0 t0 <;> cases leads p1 t1 <;> simp
    have hb : side q0 p0 inv0 * (side q1 p1 inv1 * y) = (sign (!inv0) * sign (!inv1) * phaseOf p0 t0 * phaseOf p1 t1) •
        (axisAt q0 (joined p0 t0) * (axisAt q1 (joined p1 t1) * x)) := by
      rw [side,side,smul_mul_assoc,smul_mul_assoc,← hx,hsw,wire_mul_beside,← hsw,mul_smul_comm,mul_smul_comm,wire_mul_beside]
      module
    rw [hb,← neg_smul,hp]
    simp [met,overlooks,hα,hβ]
end
section
def setTo (t : Option Pauli) (ts : List (Qubit × Pauli)) : List (Qubit × Pauli) :=
  match t with
  | some p => put q p ts
  | none => drop q ts
variable {q}
@[simp] lemma find?_setTo (q r t ts) : find? r (setTo q t ts) = if r = q then t else find? r ts := by
  cases t <;> simp [setTo]
lemma nodup_setTo (hts : (ts.map Prod.fst).Nodup) : ((setTo q t ts).map Prod.fst).Nodup := by
  cases t with
  | none => exact nodup_drop hts
  | some p => exact nodup_put hts
@[simp] lemma drop_setTo (q t ts) : drop q (setTo q t ts) = drop q ts := by
  cases t <;> simp [setTo]
@[simp] lemma setTo_find? (q ts) : setTo q (find? q ts) ts = ts := by
  induction ts with
  | nil => rfl
  | cons t ts ih =>
    obtain ⟨r,o⟩ := t
    by_cases hr : r = q
    · simp [find?,setTo,put,hr]
    · have hf : find? q ((r,o) :: ts) = find? q ts := by simp [find?,hr]
      rw [hf]
      generalize find? q ts = t at ih
      cases t with
      | none => simpa [setTo,drop,hr] using ih
      | some p => simpa [setTo,put,hr] using ih
lemma kickback_left (p t inv ts) : kickback backward q (some p) t inv ts = (setTo q (joined p t) ts,
      if opposes p t then (if inv then 2 else 0)+(if leads p t ^^ backward then 1 else -1) else 0) := by
  cases t with
  | none => rfl
  | some r =>
    by_cases hr : r = p
    · simp [kickback,joined,opposes,setTo,hr]
    · simp [kickback,joined,opposes,setTo,leads,hr,Ne.symm hr]
lemma kickback_right (p t inv ts) : kickback backward q t (some p) inv ts = (setTo q (joined p t) ts,
      if opposes p t then (if inv then 2 else 0)+(if !leads p t ^^ backward then 1 else -1) else 0) := by
  cases t with
  | none => rfl
  | some r =>
    by_cases hr : r = p
    · simp [kickback,joined,opposes,setTo,hr]
    · have hp : r.precedes p = !p.precedes r := by
        revert p r
        decide
      simp [kickback,joined,opposes,setTo,leads,hr,hp,third_swap]
lemma passOne_interaction (hq : q0 ≠ q1) (ts) :
    passOne backward ts (.interaction p0 inv0 p1 inv1 q0 q1) = (setTo q0 (met p0 inv0 p1 inv1 (find? q0 ts) (find? q1 ts)).1
        (setTo q1 (met p0 inv0 p1 inv1 (find? q0 ts) (find? q1 ts)).2.1 ts),
        (met p0 inv0 p1 inv1 (find? q0 ts) (find? q1 ts)).2.2) := by
  have hd : ∀ ts q p, differs ts q p = opposes p (find? q ts) := fun ts q p => rfl
  have hk : ∀ t, setTo q0 (find? q0 ts) (setTo q1 t ts) = setTo q1 t ts := by
    intro t
    have hf : find? q0 ts = find? q0 (setTo q1 t ts) := by simp [hq]
    rw [hf,setTo_find?]
  simp only [passOne,hd,kickback_left,kickback_right]
  cases hα : opposes p0 (find? q0 ts) <;> cases hβ : opposes p1 (find? q1 ts)
  · simp [hα,hβ,met]
  · simp [hα,hβ,met]
  · simp [hα,hβ,met,opposes_joined,hk]
  · simp only [hα,hβ,met,opposes_joined,hq,find?_setTo,if_true,if_false]
    cases backward <;> cases inv0 <;> cases inv1 <;> cases leads p0 (find? q0 ts) <;> cases leads p1 (find? q1 ts) <;> rfl
def image (c : Clifford) (p : Pauli) : SignedPauli := if backward then c.transform p else c.source p
lemma passOne_rotation (c q ts) : passOne backward ts (.rotation c q) =
    (setTo q ((find? q ts).map fun p => (image backward c p).axis) ts,(find? q ts).any fun p => (image backward c p).flip) := by
  have hs := setTo_find? q ts
  have hinv : ∀ p, c.inverse.transform p = c.source p := fun p => by cases p <;> rfl
  cases ht : find? q ts with
  | none => simpa [passOne,ht] using hs.symm
  | some p => cases backward <;> simp [passOne,ht,setTo,image,hinv]
end
section
/-- The operator of an operation, read from its matrix. -/
def operator (op : Operation ℝ) : Operator Qubit :=
  match op.matrix? with
  | .ok (some m) => onWires m op.qubits
  | _ => 0

/-- A Pauli string as an operator: the product of the operators of its axes, with its coefficient. -/
def stringOperator : Operator Qubit := val s.coefficient • (s.terms.map fun t => operator (.gate (.ofAxis t.2) [t.1])).prod

/-- The Clifford operations: proper rotations, and interactions of two qubits at exponent one. -/
inductive IsClifford : Operation ℝ → Prop
  | rotation {c : Clifford} (hc : IsRotation c) (q : Qubit) : IsClifford (.gate (.clifford c) [q])
  | phase {q0 q1 : Qubit} (hq : q0 ≠ q1) (s : ℝ) (axis : Bool) : IsClifford (.gate (.power .cz (.num 1) s axis) [q0,q1])
  | interaction {q0 q1 : Qubit} (hq : q0 ≠ q1) (p0 : Pauli) (inv0 : Bool) (p1 : Pauli) (inv1 : Bool) :
      IsClifford (.gate (.interaction p0 inv0 p1 inv1 (.num 1)) [q0,q1])
lemma operator_gate {g qs m} (h : ownMatrix (matrixAt 99) g = .ok (some m)) : operator (.gate g qs) = onWires m qs := by
  have hmat : g.matrix? = .ok (some m) := by
    have hn : g.matrix? = matrixAt (99+1) g := rfl
    rw [hn,matrixAt,h]
    rfl
  have hop : (Operation.gate g qs).matrix? = .ok (some m) := by
    simp only [Operation.matrix?,Operation.statedMatrix?,hmat]
    rfl
  simp only [operator,hop]
  rfl
lemma operator_axis (p q) : operator (.gate (.ofAxis p) [q]) = wire q (sigma p) := by
  have hown : ownMatrix (matrixAt 99) (ofAxis p : Gate ℝ) =
      .ok (some (powerMatrix (axisKind p) one nought)) := by
    cases p <;> rfl
  have ha : 2*(one : ℝ) = 2 := by simp [one]
  rw [operator_gate hown,onWires_single,toMatrix_axisPower p _ ha]
  simp [turn]
lemma stringOperator_eq : stringOperator s = val s.coefficient • product s.terms := by
  simp only [stringOperator,operator_axis,product]
lemma operator_rotation (c q) : operator (.gate (.clifford c) [q]) = wire q (toMatrix 2 (cliffordMatrix c)) := by
  rw [operator_gate (m := cliffordMatrix c) rfl,onWires_single]
lemma operator_cz (hq : q0 ≠ q1) (s axis) : operator (.gate (.power .cz (.num 1) s axis) [q0,q1]) =
      val (Cpx.iPow (2*s)) • crossing (side q0 .z false) (side q1 .z false) := by
  rw [operator_gate (m := powerMatrix .cz 1 s) rfl,onWires_cz hq,mul_one]
lemma operator_interaction (hq : q0 ≠ q1) (p0 inv0 p1 inv1) :
    operator (.gate (.interaction p0 inv0 p1 inv1 (.num 1)) [q0,q1]) = crossing (side q0 p0 inv0) (side q1 p1 inv1) := by
  have hp : val (Cpx.iPow (2 * RealScalar.ratio 0 1)) = 1 := by simp [val_iPow]
  refine (operator_gate rfl).trans ?_
  rw [onWires_interaction hq,mul_one,hp,one_smul]
end
section
inductive Acts : Operator Qubit → Passing → Prop
  | rotation {c : Clifford} (hc : IsRotation c) (q : Qubit) :
      Acts (wire q (toMatrix 2 (cliffordMatrix c))) (.rotation c q)
  | interaction {w : ℂ} (hw : w ≠ 0) {q0 q1 : Qubit} (hq : q0 ≠ q1) (p0 : Pauli) (inv0 : Bool) (p1 : Pauli) (inv1 : Bool) :
      Acts (w • crossing (side q0 p0 inv0) (side q1 p1 inv1)) (.interaction p0 inv0 p1 inv1 q0 q1)
lemma IsClifford.acts (h : IsClifford op) : ∃ p, op.passing? = some p ∧ op.qubits = p.qubits ∧ Acts (operator op) p := by
  have hp : ∀ x, val (Cpx.iPow x) ≠ 0 := fun x => by
    rw [val_iPow]
    exact Complex.exp_ne_zero _
  cases h with
  | rotation hc q => exact ⟨_,rfl,rfl,by rw [operator_rotation]; exact .rotation hc q⟩
  | phase hq s axis => exact ⟨_,rfl,rfl,by rw [operator_cz hq]; exact .interaction (hp _) hq _ _ _ _⟩
  | interaction hq p0 inv0 p1 inv1 =>
    refine ⟨_,rfl,rfl,?_⟩
    rw [operator_interaction hq,← one_smul ℂ (crossing _ _)]
    exact .interaction one_ne_zero hq _ _ _ _
def overlooking (ts : List (Qubit × Pauli)) : Passing → Bool
  | .rotation _ _ => false
  | .interaction p0 inv0 p1 inv1 q0 q1 => overlooks p0 inv0 p1 inv1 (find? q0 ts) (find? q1 ts)
lemma Acts.isUnit (h : Acts u p) : IsUnit u := by
  cases h with
  | rotation hc q => exact (turns_cliffordMatrix hc).isUnit.map (wire q)
  | @interaction w hw q0 q1 hq p0 inv0 p1 inv1 =>
    have hs := crossing_mul_self (side_commute hq p0 p1 inv0 inv1) (side_mul_self q0 p0 inv0) (side_mul_self q1 p1 inv1)
    have hinv : ∀ {a b : ℂ}, a*b = 1 → a • crossing (side q0 p0 inv0) (side q1 p1 inv1) *
        b • crossing (side q0 p0 inv0) (side q1 p1 inv1) = 1 := fun hab => by
      rw [smul_mul_assoc,mul_smul_comm,smul_smul,hab,hs,one_smul]
    exact ⟨⟨_,_,hinv (mul_inv_cancel₀ hw),hinv (inv_mul_cancel₀ hw)⟩,rfl⟩
lemma product_setTo (hts : (ts.map Prod.fst).Nodup) (q t) :
    product (setTo q t ts) = axisAt q t * product (drop q ts) := by
  rw [product_eq (nodup_setTo hts) q,drop_setTo,find?_setTo,if_pos rfl]
lemma product_setTo_setTo (hts : (ts.map Prod.fst).Nodup) (hq : q0 ≠ q1) (t0 t1) :
    product (setTo q0 t0 (setTo q1 t1 ts)) = axisAt q0 t0 * (axisAt q1 t1 * product (drop q0 (drop q1 ts))) := by
  rw [product_setTo (nodup_setTo hts),product_eq (nodup_drop (nodup_setTo hts)) q1,drop_comm,drop_setTo,find?_drop,
    if_neg hq.symm,find?_setTo,if_pos rfl]
lemma Acts.conjugates (h : Acts u p) (hts : (ts.map Prod.fst).Nodup) :
    u * product ts = sign ((passOne true ts p).2 ^^ overlooking ts p) • product (passOne true ts p).1 * u := by
  cases h with
  | @rotation c hc q =>
    have hr : Commute (wire q (toMatrix 2 (cliffordMatrix c))) (product (drop q ts)) := commute_product (by simp) _
    have ht : ∀ t, wire q (toMatrix 2 (cliffordMatrix c)) * axisAt q t = sign (t.any fun p => (image true c p).flip) •
        axisAt q (t.map fun p => (image true c p).axis) * wire q (toMatrix 2 (cliffordMatrix c)) := by
      intro t
      cases t with
      | none => simp [axisAt]
      | some p =>
        rw [axisAt,← map_mul,(turns_cliffordMatrix hc).mul_sigma,map_mul,signed,map_smul]
        rfl
    rw [passOne_rotation,product_setTo hts,product_eq hts q,← mul_assoc,ht,mul_assoc,hr.eq,smul_mul_assoc,smul_mul_assoc,mul_assoc]
    simp [overlooking]
  | @interaction w hw q0 q1 hq p0 inv0 p1 inv1 =>
    have hs := product_setTo_setTo hts hq (find? q0 ts) (find? q1 ts)
    have hse : setTo q0 (find? q0 ts) (setTo q1 (find? q1 ts) ts) = ts := by simp
    rw [hse] at hs
    rw [passOne_interaction true p0 inv0 p1 inv1 hq,product_setTo_setTo hts hq,hs,smul_mul_assoc,
      crossing_mul_axes hq p0 inv0 p1 inv1 _ _ (commute_product (by simp) _) (commute_product (by simp) _),mul_smul_comm]
    rfl
end
section
def axes (ts : List (Qubit × Pauli)) : Qubit → Option Pauli := fun q => find? q ts
def turned (f : Qubit → Option Pauli) : Passing → (Qubit → Option Pauli) × Bool
  | .rotation c q =>
    (Function.update f q ((f q).map fun p => (image backward c p).axis),(f q).any fun p => (image backward c p).flip)
  | .interaction p0 inv0 p1 inv1 q0 q1 =>
    let m := met p0 inv0 p1 inv1 (f q0) (f q1)
    (Function.update (Function.update f q1 m.2.1) q0 m.1,m.2.2)
lemma axes_setTo (t ts) : axes (setTo q t ts) = Function.update (axes ts) q t := by
  funext r
  simp [axes,Function.update_apply]
lemma Acts.axes_passOne (h : Acts u p) (backward ts) :
    (axes (passOne backward ts p).1,(passOne backward ts p).2) = turned backward (axes ts) p := by
  cases h with
  | @rotation c hc q =>
    rw [passOne_rotation,axes_setTo]
    rfl
  | @interaction w hw q0 q1 hq p0 inv0 p1 inv1 =>
    rw [passOne_interaction backward p0 inv0 p1 inv1 hq,axes_setTo,axes_setTo]
    rfl
lemma source_spec {c} (hc : IsRotation c) (p) :
    c.transform (c.source p).axis = ⟨p,(c.source p).flip⟩ ∧ c.source (c.transform p).axis = ⟨p,(c.transform p).flip⟩ := by
  have hall : ∀ x z, x.axis ≠ z.axis → ∀ p,
      (Clifford.ofXZ x z).transform ((Clifford.ofXZ x z).source p).axis = ⟨p,((Clifford.ofXZ x z).source p).flip⟩ ∧
      (Clifford.ofXZ x z).source ((Clifford.ofXZ x z).transform p).axis = ⟨p,((Clifford.ofXZ x z).transform p).flip⟩ := by
    decide
  rw [hc.2]
  exact hall c.x c.z hc.1 p
lemma Acts.turned_turned (h : Acts u p) (backward f) :
    turned (!backward) (turned backward f p).1 p = (f,(turned backward f p).2) := by
  cases h with
  | @rotation c hc q =>
    cases hf : f q with
    | none => simp [turned,hf]
    | some p =>
      obtain ⟨hs,ht⟩ := source_spec hc p
      cases backward <;> simp [turned,image,hf,hs,ht]
  | @interaction w hw q0 q1 hq p0 inv0 p1 inv1 =>
    have ha := met_met p0 inv0 p1 inv1 (f q0) (f q1)
    simp only [turned,Function.update_self,Function.update_of_ne hq.symm,ha,Prod.mk.injEq,and_true]
    funext r
    by_cases h0 : r = q0
    · simp [h0]
    · by_cases h1 : r = q1
      · subst h1
        simp [Function.update_of_ne h0]
      · simp [Function.update_of_ne h0,Function.update_of_ne h1]
end
section
def stepped (op : Operation ℝ) : PauliString ℝ :=
  match op.passing? with
  | some p => s.passOver backward [p]
  | none => s

/-- How often an inversion is overlooked on the way past some operations. -/
def overlookedCount (backward : Bool) (s : PauliString ℝ) : Ops ℝ → ℕ
  | [] => 0
  | op :: ops => (op.passing?.elim 0 fun p => (overlooking s.terms p).toNat) + overlookedCount backward (stepped backward s op) ops
lemma passOver_single (p) : s.passOver backward [p] = ⟨(passOne backward s.terms p).1,
      if (passOne backward s.terms p).2 then -s.coefficient else s.coefficient⟩ := by
  simp [passOver]
lemma stringOperator_passOver (p) : stringOperator (s.passOver backward [p]) =
      (sign (passOne backward s.terms p).2 * val s.coefficient) • product (passOne backward s.terms p).1 := by
  rw [stringOperator_eq,passOver_single]
  cases (passOne backward s.terms p).2 <;> simp
lemma Acts.nodup_passOne (h : Acts u p) (backward) (hts : (ts.map Prod.fst).Nodup) :
    ((passOne backward ts p).1.map Prod.fst).Nodup := by
  cases h with
  | @rotation c hc q =>
    rw [passOne_rotation]
    exact nodup_setTo hts
  | @interaction w hw q0 q1 hq p0 inv0 p1 inv1 =>
    rw [passOne_interaction backward p0 inv0 p1 inv1 hq]
    exact nodup_setTo (nodup_setTo hts)
lemma Acts.overlooking_passOne (h : Acts u p) (backward ts) : overlooking (passOne backward ts p).1 p = overlooking ts p := by
  cases h with
  | rotation hc q => rfl
  | interaction hw hq p0 inv0 p1 inv1 =>
    rw [passOne_interaction backward p0 inv0 p1 inv1 hq]
    simp only [overlooking,overlooks,met,find?_setTo,hq,hq.symm,if_true,if_false]
    split <;> split <;> simp_all [opposes_joined]
lemma passOne_of_untouched (h : ∀ q ∈ p.qubits, find? q ts = none) : passOne backward ts p = (ts,false) := by
  cases p with
  | rotation c q =>
    have hq := h q (by simp [Passing.qubits])
    simp [passOne,hq]
  | interaction p0 inv0 p1 inv1 q0 q1 =>
    have h0 := h q0 (by simp [Passing.qubits])
    have h1 := h q1 (by simp [Passing.qubits])
    simp [passOne,differs,h0,h1]
variable {ops : Ops ℝ} {s}
lemma passOperations_eq [OperationText ℝ] (s : PauliString ℝ) (hops : ∀ op ∈ ops, IsClifford op) :
    s.passOperations backward ops = .ok (ops.foldl (stepped backward) s) := by
  induction ops generalizing s with
  | nil => rfl
  | cons op ops ih =>
    obtain ⟨hop,hops⟩ := forall_mem_cons.mp hops
    obtain ⟨p,hp,hqu,-⟩ := hop.acts
    have hs : stepped backward s op = s.passOver backward [p] := by simp only [stepped,hp]
    rw [foldl_cons,← ih _ hops,hs]
    simp only [passOperations,foldlM_cons,hp]
    split
    case isTrue hf =>
      have hn : ∀ q ∈ p.qubits, find? q s.terms = none := by
        intro q hq
        have hq' := all_eq_true.mp hf q (hqu ▸ hq)
        exact find?_eq_none.mpr (by simpa [support] using hq')
      rw [passOver_single,passOne_of_untouched backward hn]
      rfl
    case isFalse => rfl
lemma pow_overlookedCount (hp : op.passing? = some p) (s) :
    (-1)^overlookedCount backward s [op] = sign (overlooking s.terms p) := by
  cases h : overlooking s.terms p <;> simp [overlookedCount,hp,h]
variable {t : PauliString ℝ}
section
variable (hop : IsClifford op)
include hop
lemma nodup_stepped (backward) (hs : s.support.Nodup) : (stepped backward s op).support.Nodup := by
  obtain ⟨p,hp,-,ha⟩ := hop.acts
  simp only [stepped,hp]
  exact ha.nodup_passOne backward hs
lemma operator_mul_step (hs : s.support.Nodup) :
    operator op * stringOperator s = (-1 : ℂ)^overlookedCount true s [op] • stringOperator (stepped true s op) * operator op := by
  obtain ⟨p,hp,-,ha⟩ := hop.acts
  rw [pow_overlookedCount true hp,stepped,hp]
  rw [stringOperator_passOver,stringOperator_eq,mul_smul_comm,ha.conjugates hs,sign_xor,smul_mul_assoc,smul_mul_assoc,
    smul_mul_assoc,smul_smul,smul_smul]
  ring_nf
def SameString (s t : PauliString ℝ) : Prop := s.coefficient = t.coefficient ∧ ∀ q, s.get? q = t.get? q
lemma stepped_undone (backward) (ht : SameString t (stepped backward s op)) :
    SameString (stepped (!backward) t op) s := by
  obtain ⟨p,hp,-,ha⟩ := hop.acts
  have hs : ∀ b r, stepped b r op = r.passOver b [p] := fun b r => by simp only [stepped,hp]
  obtain ⟨hc,hget⟩ := ht
  have hax : axes t.terms = (turned backward (axes s.terms) p).1 := by
    rw [← ha.axes_passOne]
    funext q
    rw [hs] at hget
    exact hget q
  have hfo := ha.axes_passOne backward s.terms
  have hb := ha.axes_passOne (!backward) t.terms
  rw [hax,ha.turned_turned] at hb
  obtain ⟨hte,hf⟩ := Prod.mk.inj hb
  rw [hs,passOver_single] at hc ⊢
  refine ⟨?_,fun q => congrFun hte q⟩
  have hneg : - -s.coefficient = s.coefficient := val_injective (by simp)
  rw [← congrArg Prod.snd hfo] at hf
  simp only [hf,hc]
  cases (passOne backward s.terms p).2 <;> simp [hneg]
lemma step_mul_operator (hs : s.support.Nodup) : stringOperator s * operator op =
      (-1 : ℂ) ^ overlookedCount false s [op] • (operator op * stringOperator (stepped false s op)) := by
  obtain ⟨p,hp,-,ha⟩ := hop.acts
  have hn := nodup_stepped hop false hs
  have hback : SameString (stepped true (stepped false s op) op) s := stepped_undone hop false ⟨rfl,fun _ => rfl⟩
  have hsame : stringOperator (stepped true (stepped false s op) op) = stringOperator s := by
    rw [stringOperator_eq,stringOperator_eq,hback.1,product_congr (nodup_stepped hop true hn) hs hback.2]
  have ho : overlooking (stepped false s op).terms p = overlooking s.terms p := by
    rw [stepped,hp]
    exact ha.overlooking_passOne false s.terms
  rw [operator_mul_step hop hn,pow_overlookedCount true hp,pow_overlookedCount false hp,ho,hsame,smul_mul_assoc,smul_smul,
    sign_mul_self,one_smul]
end
lemma overlookedCount_cons (s op ops) : overlookedCount backward s (op :: ops) =
      overlookedCount backward s [op] + overlookedCount backward (stepped backward s op) ops := by
  simp [overlookedCount]
section
variable (s) (hs : s.support.Nodup) (hops : ∀ op ∈ ops, IsClifford op)
include hs hops
lemma operator_mul_string : (ops.reverse.map operator).prod * stringOperator s = (-1 : ℂ)^overlookedCount true s ops •
      stringOperator (ops.foldl (stepped true) s) * (ops.reverse.map operator).prod := by
  induction ops generalizing s with
  | nil => simp [overlookedCount]
  | cons op ops ih =>
    have hop := hops op mem_cons_self
    have hr := ih (stepped true s op) (nodup_stepped hop true hs) (forall_mem_cons.mp hops).2
    have hp : ((op :: ops).reverse.map operator).prod = (ops.reverse.map operator).prod * operator op := by simp
    rw [hp,mul_assoc,operator_mul_step hop hs,smul_mul_assoc,mul_smul_comm,← mul_assoc,hr,
      overlookedCount_cons true s op ops,pow_add,foldl_cons,smul_mul_assoc,smul_mul_assoc,smul_mul_assoc,smul_smul,mul_assoc]
lemma string_mul_operator : stringOperator s * (ops.map operator).prod = (-1 : ℂ) ^ overlookedCount false s ops •
      ((ops.map operator).prod * stringOperator (ops.foldl (stepped false) s)) := by
  induction ops generalizing s with
  | nil => simp [overlookedCount]
  | cons op ops ih =>
    have hop := hops op mem_cons_self
    have hr := ih (stepped false s op) (nodup_stepped hop false hs) (forall_mem_cons.mp hops).2
    rw [map_cons,prod_cons,← mul_assoc,step_mul_operator hop hs,smul_mul_assoc,mul_assoc,hr,
      overlookedCount_cons false s op ops,pow_add,foldl_cons,mul_smul_comm,smul_smul,mul_assoc]
omit hs
lemma foldl_stepped_undone (ht : SameString t (ops.foldl (stepped backward) s)) :
    SameString (ops.reverse.foldl (stepped (!backward)) t) s := by
  induction ops generalizing s with
  | nil => exact ht
  | cons op ops ih =>
    have hr := ih (stepped backward s op) (forall_mem_cons.mp hops).2 ht
    rw [reverse_cons,foldl_append]
    exact stepped_undone (hops op mem_cons_self) backward hr
lemma isUnit_operators : IsUnit (ops.map operator).prod := by
  refine prod_isUnit (forall_mem_map.mpr fun op hop => ?_)
  obtain ⟨p,-,-,ha⟩ := (hops op hop).acts
  exact ha.isUnit
end
lemma stringOperator_ne_zero (hs : s.coefficient ≠ 0) : stringOperator s ≠ 0 := by
  have hu : IsUnit (product s.terms) := by
    refine prod_isUnit (forall_mem_map.mpr fun t _ => ?_)
    have ha : wire t.1 (sigma t.2) * wire t.1 (sigma t.2) = 1 := by rw [← map_mul,sigma_mul_self,map_one]
    exact ⟨⟨_,_,ha,ha⟩,rfl⟩
  rw [stringOperator_eq]
  refine smul_ne_zero (fun h => hs (val_injective ?_)) hu.ne_zero
  rw [h,val_zero]
lemma neg_one_pow_smul_eq_self_iff {x : Operator Qubit} (hx : x ≠ 0) (n) : (-1 : ℂ)^n • x = x ↔ Even n := by
  rcases n.even_or_odd with hn | hn
  · simp [hn]
  · have hne : -x ≠ x := by
      intro h
      have htwo := neg_add_cancel x
      rw [h,← two_smul ℂ] at htwo
      exact smul_ne_zero two_ne_zero hx htwo
    simp [hn.neg_one_pow,hne,Nat.not_even_iff_odd.mpr hn]

/-- Passing a string over Clifford operations conjugates it by their operators, up to the inversions that are overlooked on
the way; the result is exact just if their number is even. Passing it back restores the string. -/
theorem passOperations_conjugates [OperationText ℝ] (s : PauliString ℝ) (hs : s.support.Nodup) (hc : s.coefficient ≠ 0)
    (ops : List (Operation ℝ)) (hops : ∀ op ∈ ops, IsClifford op) :
    ∃ (u : (Operator Qubit)ˣ) (after before : PauliString ℝ), (u : Operator Qubit) = (ops.reverse.map operator).prod ∧
      s.passOperations true ops = .ok after ∧ s.passOperations false ops.reverse = .ok before ∧
      stringOperator after = (-1 : ℂ) ^ overlookedCount true s ops • (u * stringOperator s * ↑u⁻¹) ∧
      stringOperator before = (-1 : ℂ) ^ overlookedCount false s ops.reverse • (↑u⁻¹ * stringOperator s * u) ∧
      (stringOperator after = u * stringOperator s * ↑u⁻¹ ↔ Even (overlookedCount true s ops)) ∧
      (stringOperator before = ↑u⁻¹ * stringOperator s * u ↔ Even (overlookedCount false s ops.reverse)) ∧
      (∃ t, after.passOperations false ops.reverse = .ok t ∧ SameString t s) ∧
      ∃ t, before.passOperations true ops = .ok t ∧ SameString t s := by
  have hops' : ∀ op ∈ ops.reverse, IsClifford op := fun op hop => hops op (List.mem_reverse.mp hop)
  obtain ⟨u, hu⟩ := isUnit_operators hops'
  have hsquare : ∀ n, (-1 : ℂ) ^ n * (-1) ^ n = 1 := fun n => by rw [← mul_pow, neg_one_mul, neg_neg, one_pow]
  have hnonzero := stringOperator_ne_zero hc
  have hafter : stringOperator (ops.foldl (stepped true) s) =
      (-1 : ℂ) ^ overlookedCount true s ops • (u * stringOperator s * ↑u⁻¹) := by
    rw [hu, operator_mul_string s hs hops, ← hu, smul_mul_assoc, smul_mul_assoc, smul_smul, hsquare, one_smul,
      Units.mul_inv_cancel_right]
  have hbefore : stringOperator (ops.reverse.foldl (stepped false) s) =
      (-1 : ℂ) ^ overlookedCount false s ops.reverse • (↑u⁻¹ * stringOperator s * u) := by
    rw [mul_assoc, hu, string_mul_operator s hs hops', ← hu, mul_smul_comm, smul_smul, hsquare, one_smul,
      Units.inv_mul_cancel_left]
  refine ⟨u, _, _, hu, passOperations_eq true s hops, passOperations_eq false s hops', hafter, hbefore, ?_, ?_,
    ⟨_, passOperations_eq false _ hops', ?_⟩, ⟨_, passOperations_eq true _ hops, ?_⟩⟩
  · rw [hafter, neg_one_pow_smul_eq_self_iff]
    simpa using hnonzero
  · rw [hbefore, neg_one_pow_smul_eq_self_iff]
    simpa using hnonzero
  · exact foldl_stepped_undone true s hops ⟨rfl, fun _ => rfl⟩
  · have hundone := foldl_stepped_undone false s hops' ⟨rfl, fun _ => rfl⟩
    rwa [List.reverse_reverse] at hundone
def loneX : PauliString ℝ := ⟨[(.line 0,.x)],1⟩
def invertedSide : Operation ℝ := .gate (.interaction .z false .x true (.num 1)) [.line 0,.line 1]

/-- The inverted side is overlooked, and the string gets the wrong sign. -/
theorem inverted_side_changes_sign : ∃ (u : (Operator Qubit)ˣ) (after : PauliString ℝ), (u : Operator Qubit) = operator invertedSide ∧
    @passOperations ℝ _ ⟨fun _ => "", fun _ => "", fun _ => ""⟩ true loneX [invertedSide] = .ok after ∧
    stringOperator after = -(u * stringOperator loneX * ↑u⁻¹) ∧ stringOperator after ≠ u * stringOperator loneX * ↑u⁻¹ := by
  have hops : ∀ op ∈ [invertedSide], IsClifford op := by
    intro op hop
    rw [List.mem_singleton.mp hop]
    exact .interaction (by decide) .z false .x true
  have hcoefficient : loneX.coefficient ≠ 0 := fun h => one_ne_zero (congrArg val h)
  have hcount : overlookedCount true loneX [invertedSide] = 1 := by
    rw [overlookedCount, overlookedCount]
    decide
  let _ := silentText
  obtain ⟨u, after, -, hu, hafter, -, hoperator, -, hexact, -⟩ :=
    passOperations_conjugates loneX (by decide) hcoefficient [invertedSide] hops
  rw [hcount] at hoperator hexact
  refine ⟨u, after, ?_, hafter, ?_, ?_⟩
  · simpa using hu
  · simpa using hoperator
  · exact fun h => absurd (hexact.mp h) (by decide)
end
end
end QuantumCircuits.PauliPassing
