import QuantumCircuits.Proofs.ExactNumbers
import QuantumCircuits.Circuit.Export

/-! # Controls around controls

Controls in two groups act as all of them at once, but make another operation with another diagram. -/
namespace QuantumCircuits.NestedControls
open Exact Operation Mat

/-! ## Matrices under an identity -/
section
variable {R : Type} {k n : ℕ}
lemma ofFn_congr {f g : ℕ → ℕ → Cpx R} (h : ∀ i < k, ∀ j < n, f i j = g i j) : ofFn k n f = ofFn k n g := by
  have he : ∀ x : Fin (k*n), f (x/n) (x % n) = g (x/n) (x % n) := fun x =>
    h _ (Nat.div_lt_of_lt_mul (x.isLt.trans_eq (mul_comm k n))) _ (Nat.mod_lt _ (Nat.pos_of_mul_pos_left x.pos))
  simp only [ofFn,he]
variable [RealScalar R] {m : Mat R}
lemma directSum_directSum (a b) (m : Mat R) :
    (identity a).directSum ((identity b).directSum m) = (identity (a+b)).directSum m := by
  have hid : ∀ n, (identity n : Mat R).rows = n ∧ (identity n : Mat R).cols = n := fun n => ⟨rfl,rfl⟩
  change ofFn (a+(b+m.rows)) (a+(b+m.cols)) _ = ofFn (a+b+m.rows) (a+b+m.cols) _
  rw [← add_assoc,← add_assoc]
  refine ofFn_congr fun i hi j hj => ?_
  grind [get_ofFn,directSum,identity]
lemma underIdentity_underIdentity (hk : m.rows ≤ k) (hn : k ≤ n) : (m.underIdentity k).underIdentity n = m.underIdentity n := by
  have hrows : (m.underIdentity k).rows = k := Nat.sub_add_cancel hk
  rw [underIdentity,hrows,underIdentity,directSum_directSum,show n-k+(k-m.rows) = n-m.rows by omega]
  rfl
lemma matrix_controlled (h : op.matrix? = .ok (some m)) (cs) :
    (controlled cs op).matrix? = .ok (some (m.underIdentity (2^(cs.length+op.qubits.length)))) := by
  have hof : statedMatrix?.matrixOf op = op.matrix? := by rw [statedMatrix?.matrixOf,matrix?]
  rw [matrix?,statedMatrix?,hof,h]
  rfl
lemma matrix_nested (hm : op.matrix? = .ok (some m)) (hr : m.rows = 2^op.qubits.length) (cs ds) :
    (controlled cs (controlled ds op)).matrix? = (controlled (cs ++ ds) op).matrix? := by
  have hpow : ∀ a b, 2^b ≤ 2^(a+b) := fun a b => Nat.pow_le_pow_right Nat.two_pos (Nat.le_add_left b a)
  have hq : (controlled ds op).qubits.length = ds.length+op.qubits.length := List.length_append
  rw [matrix_controlled (matrix_controlled hm ds),matrix_controlled hm,hq,underIdentity_underIdentity (hr ▸ hpow ..) (hpow ..),
    List.length_append,add_assoc]
end

/-! ## Comparisons and diagrams -/
section
variable {a : DiagramArgs} {i : DiagramInfo}
lemma wrappings_of_beq {op op' : Operation Number} (h : (op == op')) : op.wrappings = op'.wrappings := by
  change beq op op' at h
  fun_induction beq op op' with
  | case2 cs sub ds sub' ih => exact congrArg (· + 1) (ih (Bool.and_eq_true_iff.mp h).2)
  | case7 => cases h
  | _ => rfl
lemma diagramInfo_controlled (cs) (h : op.diagramInfo (a.dropFirst 1) = .ok (some i)) :
    (controlled cs op).diagramInfo a = .ok (some { symbols := "@" :: i.symbols, exponent := i.exponent }) := by
  rw [diagramInfo,h]
  rfl
lemma depict_ok_iff (hi : op.diagramInfo a = .ok (some i)) :
    (∃ info, depict a op = .ok info) ↔ op.qubits.length = i.symbols.length := by
  rw [depict,hi]
  by_cases hs : op.qubits.length = i.symbols.length
  · exact iff_of_true ⟨i,if_neg (not_not.mpr hs)⟩ hs
  · refine iff_of_false (fun ⟨_,h⟩ => ?_) hs
    cases h.symm.trans (if_pos hs)

/-- Controls in two groups act on the same qubits and by the same matrix as one group of all of them. The operation is another
one, though, and a diagram shows one symbol for each group: it can be drawn only if there are as many groups as controls. -/
theorem nested_controls (hm : op.matrix? = .ok (some m)) (hr : m.rows = 2^op.qubits.length)
    (hinfo : ∀ a, ∃ i, op.diagramInfo a = .ok (some i) ∧ i.symbols.length = op.qubits.length) (cs ds a) :
    (controlled cs (controlled ds op)).qubits = (controlled (cs ++ ds) op).qubits ∧
      (controlled cs (controlled ds op)).matrix? = (controlled (cs ++ ds) op).matrix? ∧
      (controlled cs (controlled ds op) == controlled (cs ++ ds) op) = false ∧
      (∃ i, op.diagramInfo ((a.dropFirst 1).dropFirst 1) = .ok (some i) ∧
        (controlled cs (controlled ds op)).diagramInfo a = .ok (some { symbols := "@" :: "@" :: i.symbols, exponent := i.exponent })) ∧
      (∃ i, op.diagramInfo (a.dropFirst 1) = .ok (some i) ∧
        (controlled (cs ++ ds) op).diagramInfo a = .ok (some { symbols := "@" :: i.symbols, exponent := i.exponent })) ∧
      ((∃ info, depict a (controlled cs (controlled ds op)) = .ok info) ↔ (cs ++ ds).length = 2) ∧
      ((∃ info, depict a (controlled (cs ++ ds) op) = .ok info) ↔ (cs ++ ds).length = 1) := by
  obtain ⟨i,hi,hlen⟩ := hinfo ((a.dropFirst 1).dropFirst 1)
  obtain ⟨i',hi',hlen'⟩ := hinfo (a.dropFirst 1)
  have hn := diagramInfo_controlled cs (diagramInfo_controlled ds hi)
  have hf := diagramInfo_controlled (cs ++ ds) hi'
  have hq : (controlled cs (controlled ds op)).qubits = (controlled (cs ++ ds) op).qubits := (List.append_assoc ..).symm
  have hl : (controlled (cs ++ ds) op).qubits.length = (cs ++ ds).length+op.qubits.length := List.length_append
  refine ⟨hq,matrix_nested hm hr cs ds,Bool.eq_false_iff.mpr fun h => ?_,⟨i,hi,hn⟩,⟨i',hi',hf⟩,?_,?_⟩
  · have hw := wrappings_of_beq h
    simp [wrappings] at hw
  · rw [depict_ok_iff hn,hq,hl,List.length_cons,List.length_cons,hlen]
    omega
  · rw [depict_ok_iff hf,hl,List.length_cons,hlen']
    omega

/-- Two controls of the identity can be drawn one around the other, but not both at once. -/
theorem controls_in_turn : ∃ nested flat : Operation Number,
    nested = .controlled [.line 0] (.controlled [.line 1] (.gate (.identity 1) [.line 2])) ∧
      flat = .controlled [.line 0,.line 1] (.gate (.identity 1) [.line 2]) ∧ nested.matrix? = flat.matrix? ∧
      (nested == flat) = false ∧ (∃ info, depict {} nested = .ok info) ∧ ¬ ∃ info, depict {} flat = .ok info := by
  have hm : (Operation.gate (.identity 1) [.line 2] : Operation Number).matrix? = .ok (some (.identity 2)) := by
    rw [matrix?,statedMatrix?]
    rfl
  obtain ⟨-,hsame,hne,-,-,hn,hf⟩ := nested_controls hm rfl (fun a => ⟨_,rfl,rfl⟩) [.line 0] [.line 1] {}
  exact ⟨_,_,rfl,rfl,hsame,hne,hn.mpr rfl,fun hex => absurd (hf.mp hex) (by decide)⟩
end
end QuantumCircuits.NestedControls
