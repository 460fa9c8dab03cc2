import QuantumCircuits.Proofs.CarriedPhases
import QuantumCircuits.Proofs.WrappedActions

/-! # Copies of a gate side by side

Copies of a gate act by the Kronecker power of its matrix. The matrix that they state is made of outer products, which
list the entries in another order, and a phase that is asked for one of them is put on all. -/
namespace QuantumCircuits.ParallelCopies
open Exact WireOperators Registers PureEvolution WrappedActions PauliPassing CarriedTurns HalfTurns CarriedPhases List Gate
variable {g : Gate ℝ} {u : Mat ℝ} {n : ℕ} {qs : Qubits}
def Single : Gate ℝ → Prop
  | .matrix m _ => Square 2 m
  | .controlled cs g => cs = [] ∧ Single g
  | g => g.numQubits = 1
lemma Single.shaped (hg : Single g) : Shaped g ∧ g.numQubits = 1 := by
  induction g with
  | matrix m isComplex => exact ⟨.inl hg,by rw [numQubits,if_pos hg.rows_eq]⟩
  | controlled cs g ih =>
    obtain ⟨rfl,hg⟩ := hg
    exact ih hg
  | _ => exact ⟨trivial,hg⟩
lemma Single.ofGate (hg : Single g) (q) : Operation.ofGate g [q] = .gate g [q] := by
  cases g with
  | controlled cs g =>
    obtain ⟨rfl,-⟩ := hg
    rfl
  | _ => rfl

/-- The matrix is the Kronecker product of `n` copies of another. -/
def IsPower (n : ℕ) (u m : Mat ℝ) : Prop :=
  Square (2^n) m ∧ (toMatrix (2^n) m).submatrix (place n) (place n) = tensor fun _ => toMatrix 2 u
section
variable (hu : Square 2 u)
include hu
lemma get_outer (a b c d) : (u.outer u).get (number ![a,b]) (number ![c,d]) = u.get a b * u.get c d := by
  have hn : ∀ a b, number ![a,b] = a.val*2+b.val ∧ number ![a,b] < 2*2 := by decide
  rw [Mat.outer,hu.rows_eq,hu.cols_eq,get_ofFn _ (hn a b).2 (hn c d).2,(hn a b).1,(hn c d).1,Mat.get,Mat.get,hu.cols_eq]

/-- An outer product has `u a b * u c d` where the Kronecker product has `u a c * u b d`. -/
lemma det_eq_zero_of_outer (h : IsPower 2 u (u.outer u)) : (toMatrix 2 u).det = 0 := by
  have he : ∀ a b c d, toMatrix 2 u a b * toMatrix 2 u c d = toMatrix 2 u a c * toMatrix 2 u b d := by
    intro a b c d
    have hen : val ((u.outer u).get (number ![a,b]) (number ![c,d])) = _ := congrFun (congrFun h.2 ![a,b]) ![c,d]
    simpa [tensor,get_outer hu] using hen
  rw [Matrix.det_fin_two]
  grind
lemma isPower_outer_iff (hdet : (toMatrix 2 u).det ≠ 0) (k) :
    IsPower (k+1) u ((range k).foldl (fun acc _ => acc.outer u) u) ↔ k = 0 := by
  constructor
  · intro h
    match k with
    | 0 => rfl
    | 1 => exact absurd (det_eq_zero_of_outer hu h) hdet
    | k+2 =>
      -- the last outer product has as many columns as the matrix has entries
      have hc := h.1.cols_eq
      rw [range_succ,foldl_append] at hc
      have hc' : u.rows*u.cols = 2^(k+3) := hc
      rw [hu.rows_eq,hu.cols_eq,pow_add] at hc'
      omega
  · rintro rfl
    refine ⟨hu,?_⟩
    ext r c
    have hn : ∀ r, (place 1 r).val = r 0 := by decide
    simp [tensor,hn]
end
lemma applyAt_parallel (hg : Single g) (hu : matrixAt N g = .ok (some u)) (qs) {ws : List (Fin n)} (hws : ws.Nodup)
    (φ : Wave n) : Operation.applyAt (N+3) (.parallel g qs) (register φ) (ws.map Fin.val) =
      .ok (some (register (act ws.get (tensor fun _ => toMatrix 2 u) φ))) := by
  obtain ⟨hs,hone⟩ := hg.shaped
  rw [Operation.applyAt,foldlM_map]
  refine foldlM_wires (e := fun φ => some (register φ)) (w := id) (f := fun _ => toMatrix 2 u) ?_ (by rwa [map_id]) φ
  intro w _ φ
  rw [← onWires_single]
  exact applyAt_register hs hu (nodup_singleton w) hone.symm φ

/-- Copies of a gate, taken apart or applied, act by the Kronecker power of its matrix; the matrix that they state is this power
for one copy only. -/
theorem parallel_isPower_iff (hg : Single g) (hu : g.matrix? = .ok (some u)) (hunit : toMatrix 2 u ∈ Matrix.unitaryGroup (Fin 2) ℂ)
    (hqs : qs.Nodup) (hne : qs ≠ []) :
    (∃ m, (Operation.parallel g qs).matrix? = .ok (some m) ∧ (IsPower qs.length u m ↔ qs.length = 1)) ∧
      (∃ ops, (Operation.parallel g qs).decomposeOnce? = .ok (some ops) ∧
        evolution operator ops = act qs.get (tensor fun _ => toMatrix 2 u)) ∧
      ∀ {n : ℕ} (φ : Amplitudes (Fin n)) {ws : List (Fin n)}, ws.Nodup → ws.length = qs.length →
        (Operation.parallel g qs).act? (register φ) (ws.map Fin.val) =
          .ok (some (register (act ws.get (tensor fun _ => toMatrix 2 u) φ))) := by
  obtain ⟨hs,hone⟩ := hg.shaped
  have hsq : Square 2 u := by simpa [hone] using square_matrixAt hs hu
  have hdet : (toMatrix 2 u).det ≠ 0 := (Matrix.UnitaryGroup.det_isUnit ⟨_,hunit⟩).ne_zero
  refine ⟨?_,⟨_,rfl,?_⟩,fun φ ws hws _ => applyAt_parallel hg hu qs hws φ⟩
  · obtain ⟨q,qs,rfl⟩ := exists_cons_of_ne_nil hne
    have hst : (Operation.parallel g (q :: qs)).statedMatrix? =
        .ok (some ((range qs.length).foldl (fun acc _ => acc.outer u) u)) := by
      rw [Operation.statedMatrix?,hu]
      rfl
    refine ⟨_,matrix_of_stated hst,(isPower_outer_iff hsq hdet _).trans ?_⟩
    simp
  · have hop : ∀ q, operator (.gate g [q]) = wire q (toMatrix 2 u) := fun q => by
      have hmat : (Operation.gate g [q]).matrix? = .ok (some u) := matrix_of_stated (by rwa [Operation.statedMatrix?])
      rw [← onWires_single]
      simp only [operator,hmat]
      rfl
    refine Eq.trans ?_ (act_tensor_map (w := id) (by rwa [map_id]) fun _ => toMatrix 2 u).symm
    rw [evolution,← map_reverse,map_map]
    simp only [Function.comp_def,hg.ofGate,hop,id]

/-- Two copies of the identity do not state the identity. -/
theorem identity_copies_not_isPower : ∃ m, (Operation.parallel (.identity 1) [.line 0,.line 1] : Operation ℝ).matrix? = .ok (some m) ∧
    ¬ IsPower 2 (Mat.identity 2) m := by
  have hunit : toMatrix 2 (Mat.identity 2) ∈ Matrix.unitaryGroup (Fin 2) ℂ := by
    rw [toMatrix_identity]
    exact one_mem _
  obtain ⟨⟨m,hm,hiff⟩,-⟩ := parallel_isPower_iff (g := .identity 1) rfl rfl hunit (show [Qubit.line 0,.line 1].Nodup by decide)
    (by decide)
  exact ⟨m,hm,fun h => absurd (hiff.mp h) (by decide)⟩

/-! ## Phases -/
section
variable {q : Qubit} {g' : Gate ℝ} {op new : Operation ℝ} {t : ℝ}
/-- Gates that phases can cross, and copies of such gates for one qubit. -/
inductive Framed : Operation ℝ → Prop
  | gate {g : Gate ℝ} {qs : Qubits} (hg : Phasable (.gate g qs)) : Framed (.gate g qs)
  | copies {g : Gate ℝ} {qs : Qubits} (hg : ∀ q, Phasable (.gate g [q])) (hqs : qs.Nodup) : Framed (.parallel g qs)

/-- What an operation does; copies of a gate act one after another. -/
noncomputable def effect : Operation ℝ → Operator Qubit
  | .parallel g qs => (qs.map fun q => operator (.gate g [q])).prod
  | op => operator op
def reached (q : Qubit) : Operation ℝ → Qubits
  | .parallel _ qs => qs
  | _ => [q]
lemma zTurns_mul_neg (t : ℝ) (qs) : zTurns (fun _ => t) qs * zTurns (fun _ => -t) qs = 1 := by
  induction qs with
  | nil => exact one_mul 1
  | cons q qs ih =>
    have hc : Commute (zTurns (fun _ => t) qs) (wire q (zTurn (-t))) := wire_zTurn q (-t) ▸ (diagonal_commute_zTurns _ _ qs).symm
    rw [zTurns_cons,zTurns_cons,hc.mul_mul_mul_comm,ih,mul_one,← map_mul,zTurn_mul_neg,map_one]
lemma phaseBy_first (hg : Phasable (.gate g [q])) (h : g.phaseBy? t i = .ok (some g')) : g.phaseBy? t 0 = .ok (some g') := by
  rcases hg with (ht | ⟨e,s,axis,r⟩) | ⟨hm,b,r⟩
  · rcases turnOf?_cases ht with ⟨s,axis,he,-⟩ | ⟨s,axis,he,-⟩ | ⟨s,he⟩
    all_goals obtain ⟨rfl,-⟩ := Operation.gate.inj he
    · exact h
    · exact h
    · rw [phaseBy?] at h
      split at h
      · cases h
      · exact h
  · exact h
  · rw [phaseBy?,hm.rows_eq] at h ⊢
    exact h
lemma exists_of_map {x : Outcome (Option (Gate ℝ))} {f : Gate ℝ → Operation ℝ}
    (h : (x >>= fun y => .ok (y.map f)) = .ok (some new)) : ∃ g', x = .ok (some g') ∧ f g' = new := by
  rcases x with e | _ | g'
  · cases h
  · cases h
  · exact ⟨g',rfl,Option.some.inj (Except.ok.inj h)⟩
lemma effect_copies (hg : ∀ q, Phasable (.gate g [q])) (h : g.phaseBy? t i = .ok (some g')) (hqs : qs.Nodup) :
    UpToPhase (effect (.parallel g qs) * zTurns (fun _ => -t) qs) (zTurns (fun _ => -t) qs * effect (.parallel g' qs)) := by
  have hon : OnQubits operator := ⟨exists_act_operator⟩
  induction qs with
  | nil => exact .refl _
  | cons r qs ih =>
    obtain ⟨hr,hqs⟩ := nodup_cons.mp hqs
    obtain ⟨new,hnew,-,-,hc⟩ := phaseBy_rephased (hg r) (i := 0) rfl (-t)
    rw [neg_neg,Operation.phaseBy?,phaseBy_first (hg r) h] at hnew
    cases hnew
    have hcons : ∀ g, effect (.parallel g (r :: qs)) = operator (.gate g [r]) * effect (.parallel g qs) := fun g => prod_cons
    have hcopies : Commute (effect (.parallel g qs)) (wire r (zTurn (-t))) := by
      refine Commute.list_prod_left _ _ fun x hx => ?_
      obtain ⟨s,hs,rfl⟩ := mem_map.mp hx
      exact hon.commute _ _ fun hrs => hr (mem_singleton.mp hrs ▸ hs)
    have hturns : Commute (operator (.gate g' [r])) (zTurns (fun _ => -t) qs) := by
      refine Commute.list_prod_right _ _ fun x hx => ?_
      obtain ⟨s,hs,rfl⟩ := mem_map.mp hx
      exact hon.commute _ _ fun hsr => hr (mem_singleton.mp hsr ▸ hs)
    rw [zTurns_cons,hcons,hcons,hcopies.mul_mul_mul_comm,hturns.symm.mul_mul_mul_comm]
    exact hc.mul (ih hqs)

/-- What is answered is the operation conjugated by phases, up to a global phase: at the qubit that was asked for if there is
one gate, and at all of its qubits if there are copies. -/
theorem phaseBy_conjugates (hop : Framed op) (hq : op.qubits[i]? = some q) (h : op.phaseBy? t i = .ok (some new)) :
    UpToPhase (effect new) (zTurns (fun _ => t) (reached q op) * effect op * zTurns (fun _ => -t) (reached q op)) := by
  have hc : UpToPhase (effect op * zTurns (fun _ => -t) (reached q op)) (zTurns (fun _ => -t) (reached q op) * effect new) := by
    cases hop with
    | gate hg =>
      obtain ⟨new',hnew,-,-,hc⟩ := phaseBy_rephased hg hq (-t)
      rw [neg_neg,h] at hnew
      cases hnew
      obtain ⟨g',-,rfl⟩ := exists_of_map h
      simpa [zTurns,reached,effect] using hc
    | copies hg hqs =>
      obtain ⟨g',hp,rfl⟩ := exists_of_map h
      exact effect_copies hg hp hqs
  have hback := (hc.mul_left (zTurns (fun _ => t) (reached q op))).symm
  rwa [← mul_assoc,zTurns_mul_neg,one_mul,← mul_assoc] at hback

/-- Two flips that are asked for a quarter turn of the first turn both. -/
theorem flips_turn_both : ∃ new, (Operation.parallel .X [.line 0,.line 1] : Operation ℝ).phaseBy? (1/4) 0 = .ok (some new) ∧
    UpToPhase (effect new) (zTurns (fun _ => 1/4) [.line 0,.line 1] * effect (.parallel .X [.line 0,.line 1]) *
      zTurns (fun _ => -(1/4)) [.line 0,.line 1]) := by
  have hnew : (Operation.parallel .X [.line 0,.line 1] : Operation ℝ).phaseBy? (1/4) 0 = .ok (some _) := rfl
  have hall := phaseBy_conjugates (.copies (fun q => .inl (.equator rfl)) (by decide)) (q := .line 0) rfl hnew
  exact ⟨_,hnew,hall⟩
end
end QuantumCircuits.ParallelCopies
