import QuantumCircuits.Proofs.CarriedTurns

/-! # What measurements leave of a state

A circuit with measurements is not one operator but one for each way in which they may turn out. The bits are given
qubit by qubit, so that they do not depend on the order in which measurements of different qubits are listed. -/
namespace QuantumCircuits.MeasuredBranches
open List hiding product
open WireOperators WireOrder HalfTurns CarriedTurns
/-- The bits that the measurements of each qubit show, one after the other. -/
abbrev Readings := Qubit → ℕ → Fin 2

/-- The bits that are shown after an operation: a measurement uses up the first one at each of its qubits. -/
def Readings.after (bits : Readings) (op : Operation ℝ) : Readings := fun q k =>
  if op.isMeasurement = true ∧ q ∈ op.qubits then bits q (k+1) else bits q k
def Readings.afterAll (bits : Readings) (ops : Ops ℝ) : Readings := ops.foldl Readings.after bits
def part (qs : Qubits) (v : Qubit → Fin 2) : Operator Qubit := diagonal fun x => if ∀ q ∈ qs, x q = v q then 1 else 0

/-- An operation, with the part that a measurement leaves when it shows the next bits. -/
noncomputable def branch (effect : Reading) (bits : Readings) (op : Operation ℝ) : Operator Qubit :=
  if op.isMeasurement = true then part op.qubits fun q => bits q 0 else effect op

/-- Operations one after the other, the last one on the left, with measurements that show certain bits. -/
noncomputable def branches (effect : Reading) : Readings → Ops ℝ → Operator Qubit
  | _, [] => 1
  | bits, op :: ops => branches effect (bits.after op) ops * branch effect bits op
section
lemma part_congr {w} (h : ∀ q ∈ qs, v q = w q) : part qs v = part qs w := by
  have hb : ∀ x : Qubit → Fin 2, (∀ q ∈ qs, x q = v q) ↔ ∀ q ∈ qs, x q = w q := by
    intro x
    constructor
    · exact fun hx q hq => (hx q hq).trans (h q hq)
    · exact fun hx q hq => (hx q hq).trans (h q hq).symm
  simp only [part,hb]
lemma exists_act_part (qs v) : ∃ m, part qs v = act qs.get m := by
  refine exists_act_diagonal fun x y hxy => ?_
  have hb : (∀ q ∈ qs, x q = v q) ↔ ∀ q ∈ qs, y q = v q := forall₂_congr fun q hq => by rw [hxy q hq]
  simp only [hb]
end
variable {effect : Reading}
lemma after_of_not_isMeasurement (h : op.isMeasurement = false) (bits : Readings) : bits.after op = bits := by
  funext q k
  simp [Readings.after,h]
lemma after_of_notMem {q} (h : q ∉ op.qubits) (bits : Readings) : bits.after op q = bits q := by
  funext k
  simp [Readings.after,h]
lemma branch_of_not_isMeasurement (h : op.isMeasurement = false) (bits) : branch effect bits op = effect op := by
  simp [branch,h]
lemma branch_of_isMeasurement (h : op.isMeasurement) (bits) : branch effect bits op = part op.qubits fun q => bits q 0 := by
  simp [branch,h]
@[simp] lemma branches_nil (bits) : branches effect bits [] = 1 := rfl
lemma branches_cons (bits op) (ops : Ops ℝ) :
    branches effect bits (op :: ops) = branches effect (bits.after op) ops * branch effect bits op := rfl
lemma branches_append (bits xs ys) :
    branches effect bits (xs ++ ys) = branches effect (bits.afterAll xs) ys * branches effect bits xs := by
  induction xs generalizing bits with
  | nil => rw [nil_append]; rfl
  | cons op xs ih =>
    rw [cons_append,branches_cons,ih]
    rfl
lemma afterAll_filter (bits : Readings) (ops) : bits.afterAll (ops.filter Operation.isMeasurement) = bits.afterAll ops := by
  refine foldl_filter.trans (congrArg (fun step => ops.foldl step bits) (funext₂ fun b op => ?_))
  cases hop : op.isMeasurement with
  | false => exact (after_of_not_isMeasurement hop b).symm
  | true => rfl
lemma afterAll_of_not_isMeasurement (h : ∀ op ∈ ops, op.isMeasurement = false) (bits : Readings) : bits.afterAll ops = bits := by
  rw [← afterAll_filter,filter_eq_nil_iff.mpr (by simpa using h)]
  rfl
lemma branches_eq_evolution (h : ∀ op ∈ ops, op.isMeasurement = false) (bits) :
    branches effect bits ops = evolution effect ops := by
  induction ops with
  | nil => rfl
  | cons op ops ih =>
    have hop := h op mem_cons_self
    rw [branches_cons,evolution_cons,after_of_not_isMeasurement hop,branch_of_not_isMeasurement hop,ih (forall_mem_cons.mp h).2]

/-! ## Lists with the same order on every qubit -/
lemma branch_congr {bits'} (h : ∀ q ∈ op.qubits, bits q = bits' q) : branch effect bits op = branch effect bits' op := by
  cases hop : op.isMeasurement with
  | false => rw [branch_of_not_isMeasurement hop,branch_of_not_isMeasurement hop]
  | true =>
    rw [branch_of_isMeasurement hop,branch_of_isMeasurement hop]
    exact part_congr fun q hq => congrFun (h q hq) 0
lemma onQubits_branch (h : OnQubits effect) (bits) : OnQubits (branch effect bits) where
  exists_act op := by
    unfold branch
    split
    · exact exists_act_part _ _
    · exact h.exists_act op
lemma after_comm {a b} (hab : a.qubits.Disjoint b.qubits) (bits : Readings) : (bits.after a).after b = (bits.after b).after a := by
  funext q k
  by_cases ha : q ∈ a.qubits
  · have hb : q ∉ b.qubits := fun hb => hab ha hb
    simp [Readings.after,hb]
  · simp [Readings.after,ha]
noncomputable def go (effect : Reading) (op : Operation ℝ) : Function.End (Operator Qubit × Readings) :=
  fun p => (branch effect p.2 op * p.1,p.2.after op)
lemma go_commute (h : OnQubits effect) {a b} (hab : a.qubits.Disjoint b.qubits) : Commute (go effect a) (go effect b) := by
  funext p
  have hl : (go effect a * go effect b) p = (branch effect (p.2.after b) a * (branch effect p.2 b * p.1),(p.2.after b).after a) := rfl
  have hr : (go effect b * go effect a) p = (branch effect (p.2.after a) b * (branch effect p.2 a * p.1),(p.2.after a).after b) := rfl
  have ha : branch effect (p.2.after b) a = branch effect p.2 a :=
    branch_congr fun q hq => after_of_notMem (fun hq' => hab hq hq') p.2
  have hb : branch effect (p.2.after a) b = branch effect p.2 b :=
    branch_congr fun q hq => after_of_notMem (fun hq' => hab hq' hq) p.2
  rw [hl,hr,ha,hb,← mul_assoc,← mul_assoc,((onQubits_branch h p.2).apart a b hab).eq,after_comm hab]
lemma product_go (ops a bits) :
    (product (fun op => MulOpposite.op (go effect op)) ops).unop (a,bits) = (branches effect bits ops * a,bits.afterAll ops) := by
  induction ops generalizing a bits with
  | nil =>
    rfl
  | cons op ops ih =>
    have hc : (product (fun op => MulOpposite.op (go effect op)) (op :: ops)).unop (a,bits) =
        (product (fun op => MulOpposite.op (go effect op)) ops).unop (branch effect bits op * a,bits.after op) := by
      rfl
    rw [hc,ih]
    rfl
lemma branches_sameOrder [OperationText ℝ] (h : OnQubits effect) {xs ys} (hxy : SameOrder xs ys) (bits) :
    branches effect bits xs = branches effect bits ys := by
  have hp : product (fun op => MulOpposite.op (go effect op)) xs = product (fun op => MulOpposite.op (go effect op)) ys :=
    hxy.product_eq fun a b hab => (go_commute h hab).op
  have hxs : _ = (branches effect bits xs * 1,_) := product_go xs 1 bits
  rw [hp,product_go,Prod.mk.injEq] at hxs
  exact hxs.1.symm
end QuantumCircuits.MeasuredBranches
