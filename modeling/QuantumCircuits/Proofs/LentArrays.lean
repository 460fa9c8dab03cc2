import QuantumCircuits.Proofs.HalfTurns
import QuantumCircuits.Proofs.PureEvolution
import QuantumCircuits.Simulation.Workspace

/-! # Sweeps from an array

A sweep that starts from an array lends it to one point after the other. A point ends in the state that a simulation
reaches from what the array then holds.
-/
namespace QuantumCircuits.LentArrays
open List Gate Workspace ExceptT InitialState Tensor
open PureEvolution (bind_eq_pure pure_injective simulate_state)
section
variable {M : Type → Type} [Monad M] [LawfulMonad M]
lemma map_foldlM {α σ τ : Type} {view : σ → τ} {f : σ → α → M σ} {g : τ → α → M τ} (step : ∀ s a, view <$> f s a = g (view s) a)
    (xs : List α) (s) : view <$> xs.foldlM f s = xs.foldlM g (view s) := by
  induction xs generalizing s with
  | nil => simp
  | cons a xs ih =>
    rw [foldlM_cons,foldlM_cons,← step,map_bind,bind_map_left]
    exact bind_congr fun s' => ih s'
lemma mk_pure_bind (x : Outcome α) (f : α → Outcome β) :
    (mk (pure (x >>= f)) : ExceptT Fault M β) = mk (pure x) >>= fun a => mk (pure (f a)) := by
  apply ext
  cases x with
  | error fault => simp only [run_bind,run_mk,pure_bind]; rfl
  | ok a => simp only [run_bind,run_mk,pure_bind]; rfl
variable {R : Type} [RealScalar R]
lemma place_state (w : Workspace R) (op axes t) : (w.place op axes t).state = t := by
  unfold place
  split
  · rfl
  · split <;> rfl
  · rfl
  · split <;> rfl
  · rfl
variable [Chance R M] (qs : Qubits)
lemma advanceOp_state (s) (op : Operation R) :
    (fun s => (s.1.state,s.2)) <$> advanceOp qs s op = WaveFunction.advanceOp (M := M) qs true (s.1.state,s.2) op := by
  unfold advanceOp
  simp only [map_bind,map_pure,place_state]
  exact bind_pure _
variable [OperationText R]
lemma advance_state (w) (m : OpMoment R) :
    state <$> advance qs w m = Prod.fst <$> WaveFunction.advance (M := M) qs true w.state m := by
  unfold advance WaveFunction.advance
  simp only [map_bind]
  apply bind_congr
  intro ops
  rw [← map_foldlM (advanceOp_state qs) ops (w,[])]
  simp
variable [NumberText R]
lemma point_state (p c order array) (r : Resolver R) :
    state <$> point p c order array r =
      Prod.fst <$> (WaveFunction.simulator (M := M) p).simulate c r order (.array array p) := by
  rw [simulate_state]
  unfold point WaveFunction.simulator
  have hok {α : Type} a : (mk (pure (.ok a)) : ExceptT Fault M α) = pure a := rfl
  simp only [map_bind,hok,pure_bind,mk_pure_bind,bind_assoc]
  refine bind_congr fun qs => bind_congr fun entries => ?_
  exact map_foldlM (f := advance (M := M) qs)
    (g := fun t m => Prod.fst <$> WaveFunction.advance qs true t m) (advance_state qs) _ _
end
section
variable {array t : Tensor R}
lemma reshape_eq_iff : t.reshape array.shape = array ↔ t.entries = array.entries := by
  cases array
  simp [reshape]
variable [RealScalar R] {ops : Ops R}
/-- Whether an operation leaves the state in the array that was spare before. -/
def changesPlace : Operation R → Bool
  | .gate (.measurement ..) _ => false
  | .gate g _ => g.writesBeside
  | .controlled .. => false
  | .parallel g qs => g.writesBeside && qs.length % 2 == 1
  | _ => true
def returns (ops : Ops R) : Bool := ops.countP changesPlace % 2 == 0
lemma returns_append (ops others : Ops R) : returns (ops ++ others) = (returns ops == returns others) := by
  unfold returns
  rw [countP_append,Nat.add_mod]
  rcases Nat.mod_two_eq_zero_or_one (ops.countP changesPlace) with h | h <;>
    rcases Nat.mod_two_eq_zero_or_one (others.countP changesPlace) with h' | h' <;> simp [h,h']
lemma place_isLent (w : Workspace R) (op) (qs : Qubits) (t) :
    (w.place op (op.qubits.map qs.idxOf) t).isLent = (w.isLent == returns [op]) := by
  have hr : returns [op] = !changesPlace op := by
    cases h : changesPlace op <;> simp [returns,h]
  rw [hr]
  cases op with
  | gate g rs =>
    cases g with
    | measurement k key invert => simp [place,changesPlace,onTop]
    | _ =>
      simp only [place,changesPlace]
      split <;> rename_i h <;> simp [onTop,beside,h]
  | parallel g rs =>
    cases rs with
    | nil => simp [place,changesPlace,Operation.qubits,onTop]
    | cons r rs =>
      simp only [place,changesPlace,Operation.qubits]
      cases h : g.writesBeside <;> cases h' : (rs.length+1) % 2 == 1 <;> cases hl : w.isLent <;>
        simp_all [onTop]
  | controlled cs sub => simp [place,changesPlace,onTop]
  | _ => cases hl : w.isLent <;> simp [place,changesPlace,beside,hl]
variable {qs : Qubits}
lemma foldlM_advanceOp_isLent {s s'} (h : ops.foldlM (advanceOp (M := Id) qs) s = pure s') :
    s'.1.isLent = (s.1.isLent == returns ops) := by
  induction ops generalizing s with
  | nil =>
    cases pure_injective h
    simp [returns]
  | cons op ops ih =>
    obtain ⟨s₁,hop,hops⟩ := bind_eq_pure.mp h
    obtain ⟨⟨t,report⟩,-,hop⟩ := bind_eq_pure.mp hop
    cases pure_injective hop
    have hc : returns (op :: ops) = (returns [op] == returns ops) := returns_append [op] ops
    rw [ih hops,place_isLent,hc]
    cases s.1.isLent <;> cases returns [op] <;> cases returns ops <;> rfl
variable [OperationText R] [NumberText R] (p : Precision) (c : OpCircuit R) (order : QubitOrder)
variable {r : Resolver R} {rs : List (Resolver R)}
inductive Runs : Tensor R → List (Resolver R) → List (Workspace R) → Tensor R → Prop
  | nil (array : Tensor R) : Runs array [] [] array
  | cons {array last : Tensor R} {r : Resolver R} {rs : List (Resolver R)} {w : Workspace R} {ws : List (Workspace R)}
      (first : point (M := Id) p c order array r = pure w)
      (others : Runs (w.lent.reshape array.shape) rs ws last) : Runs array (r :: rs) (w :: ws) last
def shown (last : Tensor R) (w : Workspace R) : Tensor R := if w.isLent then last else w.state
lemma points_eq_iff {results} : points (M := Id) p c order array rs = pure (results,last) ↔
      ∃ ws, Runs p c order array rs ws last ∧ results = ws.map fun w => if w.isLent then none else some w.state := by
  induction rs generalizing array results with
  | nil =>
    constructor
    · intro h
      obtain ⟨rfl,rfl⟩ := Prod.mk.inj (pure_injective h)
      exact ⟨[],.nil _,rfl⟩
    · rintro ⟨_,hr,rfl⟩
      cases hr
      rfl
  | cons r rs ih =>
    unfold points
    rw [bind_eq_pure]
    constructor
    · rintro ⟨w,hw,h⟩
      obtain ⟨⟨others,last'⟩,ho,h⟩ := bind_eq_pure.mp h
      cases pure_injective h
      obtain ⟨ws,hr,rfl⟩ := ih.mp ho
      exact ⟨w :: ws,.cons hw hr,rfl⟩
    · rintro ⟨_,hr,rfl⟩
      cases hr with
      | @cons _ _ _ _ w ws first others =>
        refine ⟨w,first,?_⟩
        rw [bind_eq_pure]
        exact ⟨_,ih.mpr ⟨ws,others,rfl⟩,rfl⟩
lemma sweep_eq_iff {results} : sweep (M := Id) p c order array rs = pure (results,last) ↔
      ∃ ws, Runs p c order array rs ws last ∧ results = ws.map (shown last) := by
  have hs (ws : List (Workspace R)) :
      (ws.map fun w => if w.isLent then none else some w.state).map (fun t => t.getD last) = ws.map (shown last) := by
    rw [map_map]
    apply map_congr_left
    intro w _
    cases h : w.isLent <;> simp [shown,h]
  unfold sweep
  rw [bind_eq_pure]
  constructor
  · rintro ⟨⟨results',last'⟩,hp,h⟩
    cases pure_injective h
    obtain ⟨ws,hr,rfl⟩ := (points_eq_iff p c order).mp hp
    exact ⟨ws,hr,hs ws⟩
  · rintro ⟨ws,hr,rfl⟩
    refine ⟨_,(points_eq_iff p c order).mpr ⟨ws,hr,rfl⟩,?_⟩
    rw [← hs]
def Leaves (array : Tensor R) (r : Resolver R) : Prop :=
  ∃ w, point (M := Id) p c order array r = pure w ∧ w.lent.entries = array.entries
def finalVector (array : Tensor R) (r : Resolver R) : ExceptT Fault Id (Tensor R) :=
  Prod.fst <$> (WaveFunction.simulator p).simulate c r order (.array array p)
def finalDensity (array : Tensor R) (r : Resolver R) : ExceptT Fault Id (Tensor R) :=
  Prod.fst <$> (MixedState.simulator p).simulate c r order (.array array p)
def Shows (sweep : ExceptT Fault Id (List (Tensor R) × Tensor R)) (states : List (Tensor R)) (array : Tensor R) : Prop :=
  ∃ results, sweep = pure (results,array) ∧ results.map entries = states.map entries
variable {p c order}
lemma exists_point (ht : finalVector p c order array r = pure t) :
    ∃ w, point (M := Id) p c order array r = pure w ∧ w.state = t := by
  have hs : state <$> point (M := Id) p c order array r = pure t := (point_state p c order array r).trans ht
  obtain ⟨w,hw,hs⟩ := bind_eq_pure.mp hs
  exact ⟨w,hw,pure_injective hs⟩
variable {w : Workspace R}
lemma state_eq (hw : point (M := Id) p c order array r = pure w) (ht : finalVector p c order array r = pure t) : w.state = t := by
  obtain ⟨w',hw',hs⟩ := exists_point ht
  rw [pure_injective (hw.symm.trans hw'),hs]
variable {f : Resolver R → Tensor R}
/-- Points that leave the array as it was all start from it, and show the states of simulations from it. -/
lemma runs_of_leaves (hf : ∀ r ∈ rs, finalVector p c order array r = pure (f r)) (hle : ∀ r ∈ rs, Leaves p c order array r) :
    ∃ ws, Runs p c order array rs ws array ∧ (ws.map (shown array)).map entries = (rs.map f).map entries := by
  induction rs with
  | nil => exact ⟨[],.nil array,rfl⟩
  | cons r rs ih =>
    obtain ⟨hr,hrs⟩ := forall_mem_cons.mp hf
    obtain ⟨⟨w,hw,hl⟩,ho⟩ := forall_mem_cons.mp hle
    obtain ⟨ws,hru,hsh⟩ := ih hrs ho
    have hs := state_eq hw hr
    have he : (shown array w).entries = (f r).entries := by
      cases h : w.isLent with
      | true =>
        have hsa : w.lent = w.state := by simp [lent,h]
        simp only [shown,h,if_true]
        rw [← hl,hsa,hs]
      | false => simp [shown,h,hs]
    refine ⟨w :: ws,.cons hw ?_,?_⟩
    · rw [reshape_eq_iff.mpr hl]
      exact hru
    · rw [map_cons,map_cons,map_cons,map_cons,he,hsh]
lemma leaves_of_shows {states} (h : Shows (sweep p c order array [r]) states array) : Leaves p c order array r := by
  obtain ⟨results,hs,-⟩ := h
  obtain ⟨ws,hr,-⟩ := (sweep_eq_iff p c order).mp hs
  cases hr with
  | @cons _ _ _ _ w ws first others =>
    refine ⟨w,first,?_⟩
    generalize hl : w.lent.reshape array.shape = left at others
    cases others
    exact reshape_eq_iff.mp hl

/-- What the points of a sweep from a density matrix do to the array, one after the other. -/
lemma sweepArray_matrix (hs : array.shape.length = 2) (rs) : MixedState.sweepArray p c order array rs = (do
      let last ← rs.foldlM (fun a r => reshape array.shape <$> finalDensity p c order a r) array
      return (rs.map fun _ => last,last)) := by
  simp [MixedState.sweepArray,finalDensity,hs]
lemma sweepArray_vector (hs : array.shape.length ≠ 2) (rs) :
    MixedState.sweepArray p c order array rs = (fun results => (results,array)) <$> rs.mapM (finalDensity p c order array) := by
  unfold finalDensity
  simp [MixedState.sweepArray,hs]
lemma foldlM_fixed (hf : ∀ r ∈ rs, finalDensity p c order array r = pure (f r)) (hs : ∀ r ∈ rs, (f r).entries = array.entries) :
    rs.foldlM (fun a r => reshape array.shape <$> finalDensity p c order a r) array = pure array := by
  induction rs with
  | nil => rfl
  | cons r rs ih =>
    obtain ⟨hr,hrs⟩ := forall_mem_cons.mp hf
    obtain ⟨hfi,ho⟩ := forall_mem_cons.mp hs
    rw [foldlM_cons,hr,map_pure,reshape_eq_iff.mpr hfi]
    exact ih hrs ho
def performed (c : OpCircuit R) : Outcome (Ops R) := do
  .ok (← c.moments.mapM fun m => WaveFunction.expander.expand (m.ops.filter fun op => !WaveFunction.isDisplay op)).flatten
omit [NumberText R] in
lemma foldlM_advance_isLent {ms w'} (h : ms.foldlM (advance (M := Id) qs) w = pure w') :
    ∃ ops, performed ⟨ms⟩ = .ok ops ∧ w'.isLent = (w.isLent == returns ops) := by
  induction ms generalizing w with
  | nil =>
    cases pure_injective h
    exact ⟨[],rfl,by simp [returns]⟩
  | cons m ms ih =>
    obtain ⟨w₁,hm,hms⟩ := bind_eq_pure.mp h
    obtain ⟨ops,he,hm⟩ := bind_eq_pure.mp hm
    obtain ⟨⟨w₂,report⟩,hops,hw₁⟩ := bind_eq_pure.mp hm
    cases pure_injective hw₁
    obtain ⟨others,ho,hl⟩ := ih hms
    have hf : WaveFunction.expander.expand (m.ops.filter fun op => !WaveFunction.isDisplay op) = .ok ops := he
    refine ⟨ops ++ others,?_,?_⟩
    · unfold performed at ho ⊢
      rw [mapM_cons,hf]
      cases hr : ms.mapM (fun m => WaveFunction.expander.expand (m.ops.filter fun op => !WaveFunction.isDisplay op)) with
      | error fault => simp [hr,bind,Except.bind] at ho
      | ok rest =>
        simp only [hr,bind,Except.bind,Except.ok.injEq] at ho
        rw [← ho]
        rfl
    · rw [hl,foldlM_advanceOp_isLent hops,returns_append]
      cases w.isLent <;> cases returns ops <;> cases returns others <;> rfl
lemma point_isLent (hw : point (M := Id) p c order array r = pure w) (hops : performed (Simulator.resolve r c) = .ok ops) :
    w.isLent = returns ops := by
  obtain ⟨qs,-,hw⟩ := bind_eq_pure.mp hw
  obtain ⟨entries,-,hw⟩ := bind_eq_pure.mp hw
  obtain ⟨ops',hops',hl⟩ := foldlM_advance_isLent hw
  cases hops.symm.trans hops'
  rw [hl]
  cases returns ops <;> rfl

/-- Where the state returns to the array, a point leaves the array as it was only if the simulation changes nothing. -/
lemma leaves_iff_of_returns (hops : performed (Simulator.resolve r c) = .ok ops) (hr : returns ops)
    (ht : finalVector p c order array r = pure t) : Leaves p c order array r ↔ t.entries = array.entries := by
  obtain ⟨w,hw,rfl⟩ := exists_point ht
  have hl : w.lent = w.state := by simp [lent,point_isLent hw hops,hr]
  constructor
  · rintro ⟨w',hw',he⟩
    cases pure_injective (hw.symm.trans hw')
    rw [← hl,he]
  · intro he
    exact ⟨w,hw,by rw [hl,he]⟩

/-- A sweep from an array shows the states of simulations from fresh copies, whatever its points, exactly when every single
point leaves the array as it was. Where its state returns to the array, a point does so only if its simulation changes nothing.
From a density matrix no other point does; from a state vector a sweep of density matrices always works on copies. -/
theorem sweep_shows_fresh_iff (p : Precision) (c : Circuit (Operation R)) (order : QubitOrder) (points : Set (Resolver R)) :
    (∀ (array : Tensor R) (f : Resolver R → Tensor R), (∀ r ∈ points, finalVector p c order array r = pure (f r)) →
      ((∀ rs, (∀ r ∈ rs, r ∈ points) → Shows (Workspace.sweep p c order array rs) (rs.map f) array) ↔
        ∀ r ∈ points, Leaves p c order array r) ∧
      ∀ r ∈ points, ∀ ops, performed (Simulator.resolve r c) = .ok ops → returns ops = true →
        (Leaves p c order array r ↔ (f r).entries = array.entries)) ∧
    ∀ (array : Tensor R) (f : Resolver R → Tensor R), (∀ r ∈ points, finalDensity p c order array r = pure (f r)) →
      ((∀ rs, (∀ r ∈ rs, r ∈ points) → Shows (MixedState.sweepArray p c order array rs) (rs.map f) array) ↔
        (array.shape.length = 2 → ∀ r ∈ points, (f r).entries = array.entries)) := by
  refine ⟨fun array f hf => ⟨⟨?_, ?_⟩, fun r hr ops hops hreturns => leaves_iff_of_returns hops hreturns (hf r hr)⟩,
    fun array f hf => ⟨?_, ?_⟩⟩
  · intro h r hr
    exact leaves_of_shows (h [r] (by simpa using hr))
  · intro h rs hrs
    obtain ⟨ws, hruns, hentries⟩ := runs_of_leaves (fun r hr => hf r (hrs r hr)) fun r hr => h r (hrs r hr)
    exact ⟨_, (sweep_eq_iff p c order).mpr ⟨ws, hruns, rfl⟩, hentries⟩
  · intro h hshape r hr
    obtain ⟨results, hsweep, -⟩ := h [r] (by simpa using hr)
    rw [sweepArray_matrix hshape, List.foldlM_cons, hf r hr, map_pure, pure_bind, List.foldlM_nil, pure_bind] at hsweep
    exact reshape_eq_iff.mp (Prod.mk.inj (pure_injective hsweep)).2
  · intro h rs hrs
    by_cases hshape : array.shape.length = 2
    · have hsame (r : Resolver R) (hr : r ∈ rs) : (f r).entries = array.entries := h hshape r (hrs r hr)
      refine ⟨rs.map fun _ => array, ?_, ?_⟩
      · rw [sweepArray_matrix hshape, foldlM_fixed (fun r hr => hf r (hrs r hr)) hsame, pure_bind]
      · rw [List.map_map, List.map_map]
        exact List.map_congr_left fun r hr => (hsame r hr).symm
    · refine ⟨rs.map f, ?_, rfl⟩
      have hmapM : rs.mapM (finalDensity p c order array) = pure (rs.map f) := WireOrder.mapM_eq_pure fun r hr => hf r (hrs r hr)
      rw [sweepArray_vector hshape, hmapM, map_pure]
end
section
open Exact WireOperators Registers PauliOperators Measuring GateActions PureEvolution
noncomputable def phaseFlip : OpCircuit ℝ := ⟨[⟨[.gate .Z [.line 0]]⟩]⟩
noncomputable def tilted : Tensor ℝ := ⟨[2],#[⟨3/5,0⟩,⟨4/5,0⟩]⟩
lemma resolve_phaseFlip : Simulator.resolve .empty phaseFlip = phaseFlip := by
  simp [Simulator.resolve,Circuit.map,phaseFlip,Operation.resolve,Z,resolve,withExponent,Param.resolve]
lemma tilted_register :
    ⟨qubitShape 1,tilted.entries⟩ = register fun x : Fin 1 → Fin 2 => if x 0 = 1 then 4/5 else 3/5 := by
  have he : tilted.entries = (register fun x : Fin 1 → Fin 2 => if x 0 = 1 then 4/5 else 3/5).entries := by
    refine entries_eq rfl fun x => ?_
    have hn : number x = x 0 := by simp [number]
    rw [hn]
    generalize x 0 = b
    fin_cases b <;> simp [tilted,cpx]
  exact congrArg (Tensor.mk _) he
variable (p : Precision)
lemma vector_tilted [NumberText ℝ] : (array tilted p).vector 1 p = .ok tilted.entries := by
  have hn : lanesSum (tilted.entries.toList.map Cpx.normSq) = 1 := by norm_num [lanesSum,tilted,Cpx.normSq,sum_eq]
  have hcl : (Cpx.ofReal (1 : ℝ)).close .usual 1 := by
    have hz : (Cpx.ofReal (1 : ℝ) - 1).normSq = 0 := by
      change (1-1) * (1-1) + (0-0)*(0-0) = 0
      norm_num
    have hone : (1 : Cpx ℝ).normSq = 1 := by
      change 1 * 1 + 0*0 = 1
      norm_num
    simp only [Cpx.close,Cpx.norm,hz,hone,Tolerance.usual]
    norm_num
  have hc : checkNormalized 1 p tilted p = .ok () := by
    have hs : tilted.entries.size = 2^1 := rfl
    simp [checkNormalized,hs,hn,hcl]
  simp only [vector,hc]
  rfl
lemma advance_phaseFlip [OperationText ℝ] (φ : Wave 1) :
    Prod.fst <$> WaveFunction.advance (M := Id) [.line 0] true (register φ) ⟨[.gate .Z [.line 0]]⟩ =
      pure (register fun x => if x 0 = 1 then -φ x else φ x) := by
  have hk : ∀ op ∈ [(Operation.gate .Z [.line 0] : Operation ℝ)], op.hasUnitary = .ok true := by
    intro op hop
    rw [mem_singleton.mp hop]
    rfl
  obtain ⟨t,ht⟩ : ∃ t, powerUpdate .z one nought [0] (register φ) = some t := ⟨_,rfl⟩
  have hf : t = register fun x => if x 0 = 1 then -φ x else φ x := by
    have hmat : toMatrix 2 (powerMatrix .z 1 0) = phased (sigma .z) (turned 1) := toMatrix_axis .z 1
    have hu : powerUpdate .z 1 0 ([(0 : Fin 1)].map Fin.val) (register φ) = some t := by
      rw [← one_eq,← nought_eq]
      exact ht
    rw [powerUpdate_register (nodup_singleton 0) rfl hu,onWires_single,hmat,HalfTurns.wire_phased_z,turned_one]
    congr 1
    funext x
    simp [HalfTurns.diagonal_apply]
  have ha : WaveFunction.advanceOp (M := Id) [.line 0] true (register φ,[]) (.gate Z [.line 0]) = pure (t,[]) := by
    rw [← Option.some.inj ht]
    rfl
  rw [(advance_kept hk (register φ)).1,foldlM_cons,ha,hf]
  rfl
lemma finalVector_phaseFlip [OperationText ℝ] [NumberText ℝ] : finalVector p phaseFlip (.explicit [.line 0]) tilted .empty =
      pure (register fun x : Fin 1 → Fin 2 => if x 0 = 1 then -(4/5) else 3/5) := by
  have hs : (WaveFunction.simulator (M := Id) p).start 1 (.array tilted p) =
      .ok (register fun x : Fin 1 → Fin 2 => if x 0 = 1 then 4/5 else 3/5) := by
    simp only [WaveFunction.simulator,vector_tilted,← tilted_register]
    rfl
  unfold finalVector
  rw [simulate_state,resolve_phaseFlip]
  refine bind_eq_pure.mpr ⟨(),rfl,bind_eq_pure.mpr ⟨[.line 0],rfl,bind_eq_pure.mpr ⟨_,congrArg (ExceptT.mk ∘ pure) hs,?_⟩⟩⟩
  simp only [phaseFlip,foldlM_cons,foldlM_nil,bind_pure]
  refine (advance_phaseFlip _).trans (congrArg (fun φ => pure (register φ)) ?_)
  funext x
  by_cases hx : x 0 = 1
  · simp [hx]
  · simp [hx]

/-- A sweep from an array whose sign is flipped does not show the states of simulations from fresh copies. -/
theorem phaseFlip_sweep_shows_other :
    letI : OperationText ℝ := ⟨fun _ => "", fun _ => "", fun _ => ""⟩
    letI : NumberText ℝ := ⟨fun _ => "", fun _ _ => "", fun _ _ => "", fun _ _ => "", fun _ => "", fun _ _ => "", fun _ _ _ => ""⟩
    ∃ t, finalVector .single phaseFlip (.explicit [.line 0]) tilted .empty = pure t ∧
      ¬ ∀ rs, (∀ r ∈ rs, r = .empty) →
        Shows (Workspace.sweep .single phaseFlip (.explicit [.line 0]) tilted rs) (rs.map fun _ => t) tilted := by
  let _ := silentText
  let _ := silentNumber
  refine ⟨_, finalVector_phaseFlip .single, fun hshows => ?_⟩
  have hfinal : ∀ r ∈ ({.empty} : Set (Resolver ℝ)), finalVector .single phaseFlip (.explicit [.line 0]) tilted r =
      pure (register fun x : Fin 1 → Fin 2 => if x 0 = 1 then -(4 / 5) else 3 / 5) := by
    intro r hr
    rw [Set.mem_singleton_iff.mp hr]
    exact finalVector_phaseFlip .single
  have hperformed : performed (Simulator.resolve .empty phaseFlip) = .ok [.gate .Z [.line 0]] := by
    have hk : ∀ op ∈ [(Operation.gate .Z [.line 0] : Operation ℝ)], WaveFunction.expander.keep op = true := by
      intro op hop
      rw [mem_singleton.mp hop]
      rfl
    rw [resolve_phaseFlip]
    simp [performed,phaseFlip,WaveFunction.isDisplay,Decompositions.expand_kept _ hk]
    rfl
  obtain ⟨hiff, hreturned⟩ := (sweep_shows_fresh_iff .single phaseFlip (.explicit [.line 0]) {.empty}).1 tilted _ hfinal
  have hentries := (hreturned .empty rfl _ hperformed rfl).mp (hiff.mp hshows .empty rfl)
  have hsecond := getD_register (fun x : Fin 1 → Fin 2 => if x 0 = 1 then (-(4 / 5) : ℂ) else 3 / 5) ![1]
  have hnumber : number ![(1 : Fin 2)] = 1 := rfl
  rw [hentries, hnumber] at hsecond
  have hreal := congrArg Cpx.re hsecond
  norm_num [tilted, cpx] at hreal
end
end QuantumCircuits.LentArrays
