import QuantumCircuits.Proofs.LentArrays

/-! # Actions within controls

Powers, controlled swaps and matrices act on a tensor by their matrix, also when they are wrapped in controls again and again. -/
namespace QuantumCircuits.WrappedActions
open Exact WireOperators Registers GateActions PureEvolution List Gate
variable {m : Mat ℝ} {op : Operation ℝ}

/-! ## Gates -/
section
/-- Powers with a known exponent, controlled swaps, and matrices for one or two qubits. -/
def Plain : Gate ℝ → Prop
  | .power _ (.num _) _ _ | .cswap => True
  | .matrix m _ => Square 2 m ∨ Square 4 m
  | _ => False

/-- Such gates with controls, which may be added to a gate that has controls already. -/
inductive Built : Gate ℝ → Prop
  | plain {g : Gate ℝ} (hg : Plain g) : Built g
  | controlledBy {g : Gate ℝ} (cs : List (Option Qubit)) (hg : Built g) : Built (g.controlledBy cs)
lemma Built.plain_or_controlled (hg : Built g) : Plain g ∨ ∃ cs h, Plain h ∧ g = .controlled cs h := by
  induction hg with
  | plain hg => exact .inl hg
  | @controlledBy g cs hg ih =>
    rcases ih with hp | ⟨ds,h,hh,rfl⟩
    · refine .inr ⟨cs,g,hp,?_⟩
      cases g with
      | controlled ds h => exact hp.elim
      | _ => rfl
    · exact .inr ⟨cs ++ ds,h,hh,rfl⟩
lemma Plain.shaped (hg : Plain g) : Shaped g := by
  cases g with
  | matrix m isComplex => exact hg
  | controlled cs h => exact hg.elim
  | _ => trivial
lemma Plain.own (hg : Plain g) : ∃ m, ∀ sub, ownMatrix sub g = .ok (some m) := by
  cases g with
  | power k e s a =>
    cases e with
    | num e => exact ⟨_,fun _ => rfl⟩
    | _ => exact hg.elim
  | cswap => exact ⟨_,fun _ => rfl⟩
  | matrix m isComplex => exact ⟨m,fun _ => rfl⟩
  | _ => exact hg.elim
lemma Built.acts (hg : Built g) : ∃ m, g.matrix? = .ok (some m) ∧ Square (2^g.numQubits) m ∧
    ∀ n, ActsBy (applyAt (n+5) g) g.numQubits m ∧
      ∀ t axes, axes.length = g.numQubits → ∃ t', applyAt (n+5) g t axes = .ok (some t') := by
  have hfound : ∃ m, Shaped g ∧ ∀ n, matrixAt (n+2) g = .ok (some m) := by
    rcases hg.plain_or_controlled with hp | ⟨cs,h,hp,rfl⟩
    · obtain ⟨m,hown⟩ := hp.own
      exact ⟨m,hp.shaped,fun n => matrixAt_of_own hown (n+1)⟩
    · obtain ⟨m,hown⟩ := hp.own
      refine ⟨Mat.underIdentity (2^(h.numQubits+cs.length)) m,hp.shaped,fun n => ?_⟩
      rw [matrixAt,ownMatrix,matrixAt_of_own hown]
      rfl
  obtain ⟨m,hs,hm⟩ := hfound
  exact ⟨m,hm 98,square_matrixAt hs (hm 0),fun n => ⟨applyAt_actsBy hs (hm 0),fun t _ => applyAt_some hs (hm (n+1)) t⟩⟩
end

/-! ## Operations -/
section
/-- Operations of such gates on as many qubits as they act on, wrapped in controls any number of times. -/
inductive Wrapped : Operation ℝ → Prop
  | gate {g : Gate ℝ} {qs : Qubits} (hg : Built g) (hqs : qs.length = g.numQubits) : Wrapped (.gate g qs)
  | controlled {op : Operation ℝ} (cs : Qubits) (hop : Wrapped op) : Wrapped (.controlled cs op)

/-- Controls before an action put its matrix under an identity. -/
lemma underControls_actsBy {action} (hm : Square (2^k) m) (ha : ActsBy action k m) :
    ActsBy (fun t axes => t.underControls (axes.take c) (axes.drop c) action) (c+k) (m.underIdentity (2^(c+k))) := by
  intro n φ ws t hws hlen h
  have hr : (ws.drop c).length = k := by
    rw [length_drop,hlen]
    exact Nat.add_sub_cancel_left _ _
  subst hr
  have hws' : (ws.take c ++ ws.drop c).Nodup := by rwa [take_append_drop]
  have hmat := onWires_underIdentity hws' hm φ
  rw [take_append_drop,hlen] at hmat
  dsimp only at h
  rw [← map_take,← map_drop] at h
  rw [underControls_register hws' ha h,hmat]
lemma statedMatrix_controlled (h : op.statedMatrix? = .ok (some m)) (cs) :
    (Operation.controlled cs op).statedMatrix? = .ok (some (m.underIdentity (2^(cs.length+op.qubits.length)))) := by
  rw [Operation.statedMatrix?,Operation.statedMatrix?.matrixOf,h]
  rfl

/-- Both the matrix and the action exist, and the action is by the matrix. -/
lemma Wrapped.acts (hop : Wrapped op) : ∃ m, op.statedMatrix? = .ok (some m) ∧ Square (2^op.qubits.length) m ∧
    ∀ n, ActsBy (Operation.applyAt (n+op.wrappings+6) op) op.qubits.length m ∧
      ∀ t axes, axes.length = op.qubits.length → ∃ t', Operation.applyAt (n+op.wrappings+6) op t axes = .ok (some t') := by
  induction hop with
  | @gate g qs hg hqs =>
    obtain ⟨m,hm,hsq,ha⟩ := hg.acts
    refine ⟨m,by rwa [Operation.statedMatrix?],?_⟩
    rw [Operation.qubits,hqs]
    exact ⟨hsq,ha⟩
  | @controlled op cs hop ih =>
    obtain ⟨m,hm,hsq,ha⟩ := ih
    have hlen : (Operation.controlled cs op).qubits.length = cs.length+op.qubits.length := by
      rw [Operation.qubits,length_append]
    refine ⟨_,statedMatrix_controlled hm cs,?_⟩
    rw [hlen]
    refine ⟨square_underIdentity hsq (Nat.pow_le_pow_right (by norm_num) (Nat.le_add_left _ _)),fun n => ?_⟩
    refine ⟨underControls_actsBy hsq (ha n).1,fun t axes hlen => ?_⟩
    obtain ⟨part,hp⟩ := (ha n).2 (t.slice (axes.take cs.length)) ((axes.drop cs.length).map (Tensor.placeWithout (axes.take cs.length)))
      (by rw [length_map,length_drop,hlen]; exact Nat.add_sub_cancel_left _ _)
    exact ⟨_,underControls_ok hp⟩
lemma matrix_of_stated (h : op.statedMatrix? = .ok (some m)) : op.matrix? = .ok (some m) := by
  rw [Operation.matrix?,h]
  rfl
lemma Wrapped.place (hop : Wrapped op) (w : Workspace ℝ) (axes t) :
    (∃ spare, w.place op axes t = ⟨t,spare,w.isLent⟩) ∨ w.place op axes t = ⟨t,w.state,!w.isLent⟩ := by
  cases hop with
  | controlled cs hop => exact .inl ⟨_,rfl⟩
  | @gate g qs hg hqs =>
    have hpl : w.place (.gate g qs) axes t =
        if g.writesBeside then w.beside t else w.onTop t (w.spareAfter (.gate g qs) axes t) := by
      rcases hg.plain_or_controlled with hp | ⟨cs,h,hp,rfl⟩
      · cases g with
        | measurement => exact hp.elim
        | _ => rfl
      · rfl
    rw [hpl]
    split
    · exact .inr rfl
    · exact .inl ⟨_,rfl⟩

end
end QuantumCircuits.WrappedActions
