import QuantumCircuits.Proofs.StringPhases
import QuantumCircuits.Proofs.SwapNetwork

/-! # Phases pulled to the front

Every phase along a Pauli string is pulled past the operations before it that are not phases. -/
namespace QuantumCircuits.SeparatedPhases
open WireOrder Insertion CircuitEdits HalfTurns CarriedTurns StringPhases PauliPhase List Phasor
open PauliPassing (operator stringOperator stepped)

/-! ## The two halves -/
section
variable (op : Operation ℝ)
/-- Rotations and full controlled phases, and operations that no phase is moved across. -/
def Regular : Prop := Plain op ∨ (canCross op = false ∧ isPhasor op = false)
def Standing : Prop := Regular op ∨ Phasing op
def Separable : Prop := Plain op ∨ Phasing op
noncomputable def moved (backward : Bool) (ops : Ops ℝ) (p : Phasor ℝ) : Phasor ℝ :=
  { p with string := ops.foldl (stepped backward) p.string }
noncomputable def allDrawn (c : OpCircuit ℝ) : List (Phasor ℝ) :=
  (c.placed.filterMap fun (i,op) => (of? op).map (i,·)).map fun e => moved false (crossed c e.1) e.2
variable {c : OpCircuit ℝ} {op} {ops : Ops ℝ} {p : Phasor ℝ}
lemma fit_moved (h : Fit p) (hops : ∀ op ∈ ops, Plain op) (backward) : Fit (moved backward ops p) :=
  ⟨h.signed.foldl (fun op hop => (hops op hop).isClifford) backward,h.fixed⟩
lemma Regular.of?_eq_none (h : Regular op) : of? op = none := by
  rcases h with h | ⟨-,h⟩
  · cases h <;> rfl
  · simpa [isPhasor] using h
lemma Standing.fit (h : Standing op) (hp : of? op = some p) : Fit p ∧ op = p.toOp := by
  rcases h with h | h
  · simp [h.of?_eq_none] at hp
  · obtain ⟨r,hr,rfl⟩ := h.fit
    rw [hr.of?_toOp,Option.some.injEq] at hp
    exact hp ▸ ⟨hr,rfl⟩
lemma Standing.effect_upToPhase (h : Standing op) (u) : UpToPhase (effect u op) (meant u op) := by
  rcases h with h | h
  · exact UpToPhase.of_eq (effect_eq_meant u h.of?_eq_none)
  · exact h.effect_upToPhase u
lemma Separable.standing (h : Separable op) : Standing op := h.imp_left .inl
section
variable (hops : ∀ op ∈ c.operations, Separable op)
include hops
lemma plain_crossed (i) : ∀ op ∈ crossed c i, Plain op := by
  intro op hop
  obtain ⟨m,hm,hop⟩ := mem_flatMap.mp hop
  obtain ⟨hop,hnot⟩ := mem_filter.mp hop
  refine (hops op (mem_flatMap.mpr ⟨m,mem_of_mem_take (mem_reverse.mp hm),hop⟩)).resolve_right fun hph => ?_
  obtain ⟨p,hp,rfl⟩ := hph.fit
  simp [isPhasor,hp.of?_toOp] at hnot
lemma pulled_eq [OperationText ℝ] : pulled c = .ok (allDrawn c) := by
  refine mapM_eq_pure fun e he => ?_
  have hp := PauliPassing.passOperations_eq false e.2.string fun op hop => (plain_crossed hops e.1 op hop).isClifford
  simp only [Phasor.pass,hp]
  rfl
lemma fit_allDrawn : ∀ p ∈ allDrawn c, Fit p := by
  intro p hp
  obtain ⟨e,he,rfl⟩ := mem_map.mp hp
  obtain ⟨⟨i,op⟩,hop,hof⟩ := mem_filterMap.mp he
  obtain ⟨r,hr,rfl⟩ := Option.map_eq_some_iff.mp hof
  exact fit_moved ((hops op (map_placed c ▸ mem_map_of_mem hop)).standing.fit hr).1 (plain_crossed hops i) false
end
lemma halfTurns_allDrawn (c) : (allDrawn c).map halfTurns = (c.operations.filterMap of?).map halfTurns := by
  simp [allDrawn,← map_placed c,map_filterMap,Function.comp_def,moved]
lemma allDrawn_concat (ms) (m : OpMoment ℝ) : allDrawn ⟨ms ++ [m]⟩ =
    allDrawn ⟨ms⟩ ++ (m.ops.filterMap of?).map (moved false (crossed ⟨ms⟩ ms.length)) := by
  have hp : (⟨ms ++ [m]⟩ : OpCircuit ℝ).placed =
      (⟨ms⟩ : OpCircuit ℝ).placed ++ m.ops.map fun op => (ms.length,op) := by
    simp [Circuit.placed,zipIdx_append]
  have hc : ∀ i ≤ ms.length, crossed ⟨ms ++ [m]⟩ i = crossed ⟨ms⟩ i := by
    intro i hi
    simp [crossed,take_append_of_le_length hi]
  have hb : ∀ e ∈ (⟨ms⟩ : OpCircuit ℝ).placed.filterMap (fun (i,op) => (of? op).map (i,·)), e.1 ≤ ms.length := by
    intro e he
    obtain ⟨⟨i,op⟩,hop,hof⟩ := mem_filterMap.mp he
    obtain ⟨p,-,rfl⟩ := Option.map_eq_some_iff.mp hof
    exact (lt_of_mem_placed hop).le
  rw [allDrawn,hp,filterMap_append,map_append]
  congr 1
  · exact map_congr_left fun e he => by rw [hc _ (hb e he)]
  · simp [map_filterMap,Function.comp_def,hc]
variable {ms : Moments (Operation ℝ)} (u : Matrices)
/-- The operations between two phases, with a moment in either order. -/
lemma prod_crossed [OperationText ℝ] (hf : ∀ m ∈ ms, OverlapFree m) (hops : ∀ op ∈ opsOf ms, Separable op) :
    ((crossed ⟨ms⟩ ms.length).map operator).prod = evolution (meant u) (regularHalf ⟨ms⟩).operations := by
  have hp := plain_crossed (c := ⟨ms⟩) hops ms.length
  have hre : ((crossed ⟨ms⟩ ms.length).map operator).prod = evolution (meant u) (crossed ⟨ms⟩ ms.length).reverse := by
    rw [evolution,reverse_reverse,map_congr_left fun op hop => (hp op hop).meant_eq u]
  rw [hre]
  refine evolution_sameOrder (meant_apart u) ?_
  have hmo : (crossed ⟨ms⟩ ms.length).reverse = ms.flatMap fun m => (m.ops.filter fun op => !isPhasor op).reverse := by
    simp [crossed,reverse_flatMap,Function.comp_def]
  have hr : (regularHalf ⟨ms⟩).operations = ms.flatMap fun m => m.ops.filter fun op => !isPhasor op := by
    simp [regularHalf,Circuit.operations,flatMap_map]
  rw [hmo,hr]
  refine sameOrder_flatMap fun m hm => (sameOrder_of_overlapFree ?_ (reverse_perm _).symm).symm
  exact overlapFree_sublist (hf m hm) filter_sublist
lemma semiconj_drawn {ps : List (Phasor ℝ)} (hps : ∀ p ∈ ps, Fit p) (hops : ∀ op ∈ ops, Plain op) :
    SemiconjBy (ops.map operator).prod (evolution (meant u) ((ps.map (moved false ops)).map toOp)) (evolution (meant u) (ps.map toOp)) := by
  induction ps with
  | nil => exact SemiconjBy.one_right _
  | cons p ps ih =>
    have hp := hps p mem_cons_self
    have h := PauliPassing.string_mul_operator p.string hp.signed.nodup fun op hop => (hops op hop).isClifford
    rw [overlookedCount_plain false p.string hops,pow_zero,one_smul] at h
    have hf : SemiconjBy (ops.map operator).prod (meant u (moved false ops p).toOp) (meant u p.toOp) := by
      exact PauliOperators.semiconj_phased h.symm _
    simp only [map_cons,evolution_cons]
    exact (ih (forall_mem_cons.mp hps).2).mul_right hf
lemma filter_isPhasor (hops : ∀ op ∈ ops, Standing op) : ops.filter isPhasor = (ops.filterMap of?).map toOp := by
  induction ops with
  | nil => rfl
  | cons op ops ih =>
    obtain ⟨hop,hr⟩ := forall_mem_cons.mp hops
    cases hp : of? op with
    | none => simpa [isPhasor,hp] using ih hr
    | some p => simpa [isPhasor,hp,← (hop.fit hp).2] using ih hr
lemma evolution_moment [OperationText ℝ] {m} (hf : OverlapFree m) (hops : ∀ op ∈ m.ops, Separable op) :
    evolution (meant u) m.ops = evolution (meant u) (m.ops.filter fun op => !isPhasor op) *
      evolution (meant u) ((m.ops.filterMap of?).map toOp) := by
  rw [← filter_isPhasor fun op hop => (hops op hop).standing,← evolution_append]
  refine evolution_sameOrder (meant_apart u) (sameOrder_of_overlapFree hf ?_)
  exact (filter_append_perm isPhasor m.ops).symm
lemma evolution_halves [OperationText ℝ] (hf : ∀ m ∈ ms, OverlapFree m) (hops : ∀ op ∈ opsOf ms, Separable op) :
    evolution (meant u) (opsOf ms) =
      evolution (meant u) (regularHalf ⟨ms⟩).operations * evolution (meant u) ((allDrawn ⟨ms⟩).map toOp) := by
  induction ms using reverseRecOn with
  | nil => simp [regularHalf,Circuit.operations,allDrawn,Circuit.placed]
  | append_singleton ms m ih =>
    simp only [forall_mem_append,forall_mem_singleton,opsOf_append,opsOf_cons,opsOf_nil,append_nil] at hf hops ⊢
    have hr : (regularHalf ⟨ms ++ [m]⟩).operations = (regularHalf ⟨ms⟩).operations ++ m.ops.filter fun op => !isPhasor op := by
      simp [regularHalf,Circuit.operations]
    have hfit : ∀ p ∈ m.ops.filterMap of?, Fit p := by
      intro p hp
      obtain ⟨op,hop,hof⟩ := mem_filterMap.mp hp
      exact ((hops.2 op hop).standing.fit hof).1
    have hc := semiconj_drawn u hfit (plain_crossed (c := ⟨ms⟩) hops.1 ms.length)
    rw [prod_crossed u hf.1 hops.1] at hc
    rw [hr,allDrawn_concat,map_append,evolution_append,evolution_append,evolution_append,ih hf.1 hops.1,
      evolution_moment u hf.2 hops.2,mul_assoc,← mul_assoc (evolution (meant u) (map _ _)),← hc.eq]
    simp only [mul_assoc]

/-- The phases of a circuit come out as one phase for each, by the same half turns, and what is left stays in its moments. The
phases and then the rest have the effect of the circuit. -/
theorem halves_keep_effect [OperationText ℝ] (c : Circuit (Operation ℝ)) (hfree : ∀ m ∈ c.moments, OverlapFree m)
    (hops : ∀ op ∈ c.operations, Separable op) :
    ∃ d, stringHalf c = .ok d ∧ (∀ m ∈ d.moments, OverlapFree m) ∧ (∀ op ∈ d.operations, isPhasor op = true) ∧
      ((d.operations.filterMap Phasor.of?).map Phasor.halfTurns).Perm ((c.operations.filterMap Phasor.of?).map Phasor.halfTurns) ∧
      (regularHalf c).moments.map Moment.ops = (c.moments.map fun m => m.ops.filter fun op => !isPhasor op) ∧
      ∀ u, UpToPhase (evolution (effect u) (d.operations ++ (regularHalf c).operations)) (evolution (effect u) c.operations) := by
  have hfit := fit_allDrawn hops
  have hnodup : ∀ op ∈ (allDrawn c).map Phasor.toOp, op.qubits.Nodup := by
    intro op hop
    obtain ⟨p,hp,rfl⟩ := mem_map.mp hop
    rw [Phasor.toOp,(hfit p hp).phasorOf]
    exact (hfit p hp).signed.nodup
  obtain ⟨d,hd,hdfree,horder⟩ := ofOps_order hnodup
  have hphases : ∀ op ∈ d.operations, ∃ p : Phasor ℝ, Fit p ∧ p.toOp = op := by
    intro op hop
    obtain ⟨p,hp,rfl⟩ := mem_map.mp (horder.perm.mem_iff.mp hop)
    exact ⟨p,hfit p hp,rfl⟩
  have hall : ((allDrawn c).map Phasor.toOp).filterMap Phasor.of? = allDrawn c := by
    rw [filterMap_map]
    exact (filterMap_congr fun p hp => (hfit p hp).of?_toOp).trans filterMap_some
  refine ⟨d,?_,hdfree,fun op hop => ?_,?_,by simp [regularHalf],fun u => ?_⟩
  · rw [stringHalf,pulled_eq hops]
    exact hd
  · obtain ⟨p,hp,rfl⟩ := hphases op hop
    rw [isPhasor,hp.of?_toOp]
    rfl
  · rw [← halfTurns_allDrawn c,← hall]
    exact (horder.perm.filterMap _).map _
  · have hparts : ∀ op ∈ d.operations ++ (regularHalf c).operations, Separable op := by
      intro op hop
      rcases mem_append.mp hop with hop | hop
      · obtain ⟨p,hp,rfl⟩ := hphases op hop
        exact Or.inr hp.phasing
      · obtain ⟨m,hm,hop⟩ := mem_flatMap.mp hop
        obtain ⟨m',hm',rfl⟩ := mem_map.mp hm
        exact hops op (mem_flatMap.mpr ⟨m',hm',(mem_filter.mp hop).1⟩)
    calc UpToPhase (evolution (effect u) (d.operations ++ (regularHalf c).operations))
          (evolution (meant u) (d.operations ++ (regularHalf c).operations)) :=
          evolution_upToPhase fun op hop => (hparts op hop).standing.effect_upToPhase u
      UpToPhase _ (evolution (meant u) c.operations) := by
          have hhalves : evolution (meant u) c.operations = _ := evolution_halves u hfree hops
          rw [evolution_append,evolution_sameOrder (meant_apart u) horder,hhalves]
      UpToPhase _ (evolution (effect u) c.operations) :=
          (evolution_upToPhase fun op hop => (hops op hop).standing.effect_upToPhase u).symm
noncomputable def twoPhases : OpCircuit ℝ where
  moments := [⟨[.gate (.clifford .hadamard) [.line 0],.phasorOf ⟨[(.line 1,.x)],1⟩ (.num (RealScalar.ratio 1 3))]⟩,
    ⟨[.gate (.power .cz (.num 1) 0 false) [.line 0,.line 1]]⟩,
    ⟨[.phasorOf ⟨[(.line 0,.x),(.line 1,.y)],-1⟩ (.num (RealScalar.ratio 5 4))]⟩]
theorem twoPhases_keep_effect :
    letI : OperationText ℝ := ⟨fun _ => "",fun _ => "",fun _ => ""⟩
    (∀ m ∈ twoPhases.moments, OverlapFree m) ∧ (∀ op ∈ twoPhases.operations, Separable op) ∧
      ∃ d, stringHalf twoPhases = .ok d ∧
        ∀ u, UpToPhase (evolution (effect u) (d.operations ++ (regularHalf twoPhases).operations)) (evolution (effect u) twoPhases.operations) := by
  let _ := Exact.silentText
  have hfree : ∀ m ∈ twoPhases.moments, OverlapFree m := by
    simp only [twoPhases,forall_mem_cons,overlapFree_iff]
    simp [Located.qubits,Operation.qubits,Operation.phasorOf,PauliString.support]
  have hops : ∀ op ∈ twoPhases.operations, Separable op := by
    simp only [twoPhases,Circuit.operations,flatMap_cons,flatMap_nil,append_nil,cons_append,nil_append,
      forall_mem_cons]
    refine ⟨Or.inl (.rotation (by decide) _),Or.inr (.mk ⟨by decide,Or.inl rfl⟩ _),Or.inl (.phase (by decide) _ _),
      Or.inr (.mk ⟨by decide,Or.inr rfl⟩ _),by simp⟩
  obtain ⟨d,hd,-,-,-,-,heffect⟩ := halves_keep_effect twoPhases hfree hops
  exact ⟨hfree,hops,d,hd,heffect⟩
end
end QuantumCircuits.SeparatedPhases
