import QuantumCircuits.Proofs.GateActions

/-! # Pure evolution

Where both simulators succeed, the density matrix is the outer product of the state vector. An operation acts on a
state vector whenever it has a matrix in some way, but on a density matrix only through a gate that states its matrix
and covers all its qubits.
-/
namespace QuantumCircuits.PureEvolution
open Exact WireOperators Registers PauliOperators Measuring SampledRuns GateActions List Gate WaveFunction Decompositions
variable {n : ℕ} {axes : List ℕ} {order : QubitOrder} {p : Precision} {α β : Type} {c : OpCircuit ℝ}
section
lemma bind_eq_pure {f : α → ExceptT Fault Id β} {b : β} :
    x >>= f = pure b ↔ ∃ a, x = pure a ∧ f a = pure b := by
  constructor
  · intro h
    cases x with
    | ok a => exact ⟨a,rfl,h⟩
    | error fault => cases h
  · rintro ⟨a,rfl,h⟩
    exact (pure_bind a f).trans h
lemma pure_injective {a b} (h : (pure a : ExceptT Fault Id α) = pure b) : a = b := by
  cases h
  rfl
variable [Monad M] [LawfulMonad M]
lemma walk_last {R S : Type} [RealScalar R] (sim : Simulator R S M) (qs perform)
    (ms s) :
    (fun all => (all.getLast?.map Prod.fst).getD s) <$> sim.walk qs perform s ms =
      ms.foldlM (fun s m => Prod.fst <$> sim.advance qs perform s m) s := by
  induction ms generalizing s with
  | nil => simp [Simulator.walk]
  | cons m ms ih =>
    simp only [Simulator.walk,map_bind,foldlM_cons,bind_map_left]
    apply bind_congr
    rintro ⟨s',report⟩
    rw [← ih s']
    simp only [map_eq_pure_bind]
    apply bind_congr
    intro all
    cases h : all.getLast? <;> simp [getLast?_cons,h]
lemma simulate_state {R S : Type} [RealScalar R] [OperationText R] (sim : Simulator R S M) (c : OpCircuit R)
    (r : Resolver R) (order) (initial : InitialState R) :
    Prod.fst <$> sim.simulate c r order initial = (do
      ExceptT.mk (pure (sim.check (Simulator.resolve r c)))
      let qs ← ExceptT.mk (pure ((Simulator.resolve r c).orderedQubits order []))
      let s ← ExceptT.mk (pure (sim.start qs.length initial))
      (Simulator.resolve r c).moments.foldlM (fun s m => Prod.fst <$> sim.advance qs true s m) s) := by
  unfold Simulator.simulate Simulator.steps
  simp only [map_bind,bind_assoc]
  refine bind_congr fun _ => bind_congr fun qs => bind_congr fun s => ?_
  cases hms : (Simulator.resolve r c).moments with
  | nil => simp
  | cons m ms =>
    -- the walk of a moment and more has a last state, so no fault is thrown
    simp only [Simulator.walk,isEmpty_cons,Bool.false_eq_true,if_false,bind_assoc,foldlM_cons,bind_map_left]
    apply bind_congr
    rintro ⟨s',report⟩
    rw [← walk_last sim qs true ms s']
    simp only [map_eq_pure_bind]
    apply bind_congr
    intro all
    cases h : all.getLast? <;> simp [getLast?_cons,h]
end
section
def Refines {α : Type} (x y : Outcome α) : Prop := ∀ a, x = .ok a → y = .ok a
namespace Refines
lemma refl (x : Outcome α) : Refines x x := fun _ h => h
lemma trans {x y z : Outcome α} (hxy : Refines x y) (hyz : Refines y z) : Refines x z := fun a h => hyz a (hxy a h)
lemma error (f) (y : Outcome α) : Refines (.error f) y := by
  intro a h
  cases h
lemma bind {f g : α → Outcome β} (hxy : Refines x y) (hfg : ∀ a, Refines (f a) (g a)) :
    Refines (x >>= f) (y >>= g) := by
  intro b hb
  obtain ⟨a,hx,hfa⟩ := of_bind_eq_ok hb
  rw [hxy a hx]
  exact hfg a b hfa
lemma foldlM {f g} (hfg : ∀ b a, Refines (f b a) (g b a)) (as : List α) (b : β) : Refines (as.foldlM f b) (as.foldlM g b) := by
  induction as generalizing b with
  | nil => exact refl _
  | cons a as ih =>
    exact bind (hfg b a) ih
lemma underControls {f g} (hfg : ∀ t axes, Refines (f t axes) (g t axes)) (controls axes) (t : Tensor ℝ) :
    Refines (t.underControls controls axes f) (t.underControls controls axes g) :=
  bind (hfg _ _) fun _ => refl _
end Refines
structure Deepens (n : ℕ) : Prop where
  matrix : ∀ g : Gate ℝ, Refines (matrixAt n g) (matrixAt (n+1) g)
  product : ∀ (qs : Qubits) (ops : Ops ℝ), Refines (Operation.productAt n qs ops) (Operation.productAt (n+1) qs ops)
  gate : ∀ (g : Gate ℝ) (t : Tensor ℝ) (axes : List ℕ), Refines (applyAt n g t axes) (applyAt (n+1) g t axes)
  operation : ∀ (op : Operation ℝ) (t : Tensor ℝ) (axes : List ℕ),
    Refines (Operation.applyAt n op t axes) (Operation.applyAt (n+1) op t axes)
lemma ownMatrix_refines {f g} (hfg : ∀ h, Refines (f h) (g h)) (h : Gate ℝ) : Refines (ownMatrix f h) (ownMatrix g h) := by
  cases h with
  | controlled cs sub => exact .bind (hfg sub) fun _ => .refl _
  | power k e s a => cases e <;> exact .refl _
  | _ => exact .refl _
lemma ownAction_refines {f g} (hfg : ∀ h t axes, Refines (f h t axes) (g h t axes)) (h : Gate ℝ) (t axes) :
    Refines (ownAction f h t axes) (ownAction g h t axes) := by
  unfold ownAction
  split
  · split
    · exact .underControls (hfg _) _ _ _
    · exact .refl _
  · exact .refl _
  · exact .refl _
  · split
    · exact .underControls (hfg _) _ _ _
    · exact .refl _
  · exact .underControls (hfg _) _ _ _
  · exact .refl _
lemma deepens (n) : Deepens n := by
  induction n with
  | zero => exact ⟨fun _ => .error _ _,fun _ _ => .error _ _,fun _ _ _ => .error _ _,fun _ _ _ => .error _ _⟩
  | succ n ih =>
    constructor
    · intro g
      refine .bind (ownMatrix_refines ih.matrix g) fun m => ?_
      cases m with
      | some m => exact .refl _
      | none =>
        refine .bind (.refl _) fun ops => ?_
        cases ops with
        | none => exact .refl _
        | some ops => exact ih.product _ ops
    · intro qs ops
      refine .bind (.foldlM (fun acc op => ?_) ops _) fun _ => .refl _
      cases acc with
      | none => exact .refl _
      | some t => exact ih.operation op t _
    · intro g t axes
      refine .bind (ownAction_refines ih.gate g t axes) fun action => ?_
      cases action with
      | some r => exact .refl _
      | none => exact .bind (ih.matrix g) fun _ => .refl _
    · intro op t axes
      cases op with
      | gate g qs => exact ih.gate g t axes
      | controlled cs sub => exact .underControls (ih.operation sub) _ _ _
      | parallel g qs =>
        refine .foldlM (fun acc a => ?_) axes _
        cases acc with
        | none => exact .refl _
        | some t => exact ih.gate g t [a]
      | pauli p | phasor p t' | expectation p samples key | acquainted qs indices =>
        refine .bind (.refl _) fun ops => ?_
        cases ops with
        | none => exact .refl _
        | some ops => exact .bind (ih.product _ ops) fun _ => .refl _
lemma matrixAt_refines {k} (h : n ≤ k) (g : Gate ℝ) : Refines (matrixAt n g) (matrixAt k g) := by
  induction k, h using Nat.le_induction with
  | base => exact .refl _
  | succ k _ ih => exact ih.trans ((deepens k).matrix g)
lemma matrixAt_unique {g : Gate ℝ} {a b : Option (Mat ℝ)} (ha : matrixAt n g = .ok a) (hb : matrixAt k g = .ok b) :
    a = b := by
  have ha' := matrixAt_refines (le_max_left n k) g a ha
  have hb' := matrixAt_refines (le_max_right n k) g b hb
  exact Except.ok.inj (ha'.symm.trans hb')
end
section
def Shaped : Gate ℝ → Prop
  | .matrix m _ => Square 2 m ∨ Square 4 m
  | .controlled _ g => Shaped g
  | _ => True
lemma square_clifford (c) : Square 2 (cliffordMatrix c) := by
  unfold cliffordMatrix
  split
  · exact square_power .h _ _
  · refine foldlRecOn c.rotations _ (square_identity 2) fun m hm t _ => ?_
    have ht := (square_axisPower t.1 (one * RealScalar.ratio t.2 2) nought).mul hm
    obtain ⟨p,n⟩ := t
    cases p <;> exact ht
lemma square_ownMatrix {sub} (hsub : ∀ {h m}, Shaped h → sub h = .ok (some m) → Square (2^h.numQubits) m) (hg : Shaped g)
    (hm : ownMatrix sub g = .ok (some m)) : Square (2^g.numQubits) m := by
  cases g with
  | power k e s a =>
    cases e with
    | num e =>
      cases hm
      exact square_power k e s
    | _ => cases hm
  | phasedX p e s =>
    simp only [ownMatrix] at hm
    split at hm
    · cases hm
    · split at hm
      · cases hm
        exact (((square_power .z _ _).mul (square_power .x _ _)).mul ⟨rfl,rfl⟩).scale _
      · cases hm
      · cases hm
  | interaction p0 i0 p1 i1 e =>
    cases e with
    | num e =>
      cases hm
      exact ⟨rfl,rfl⟩
    | _ => cases hm
  | identity n =>
    cases hm
    exact square_identity _
  | matrix u isComplex =>
    cases hm
    rcases hg with hu | hu
    · simpa [numQubits,hu.rows_eq] using hu
    · simpa [numQubits,hu.rows_eq] using hu
  | controlled cs h =>
    obtain ⟨u,hu,hm⟩ := of_bind_eq_ok hm
    obtain ⟨u',rfl,rfl⟩ := Option.map_eq_some_iff.mp (Except.ok.inj hm)
    have hin : Square (2^h.numQubits) u' := hsub hg hu
    exact square_underIdentity hin (Nat.pow_le_pow_right (by norm_num) (Nat.le_add_right _ _))
  | clifford c =>
    cases hm
    exact square_clifford c
  | cswap =>
    cases hm
    exact square_ofFn _
  | universal lambda theta phi =>
    cases hm
    exact ((square_power .z _ _).mul (square_power .y _ _)).mul (square_power .z _ _)
  | _ => cases hm
lemma square_productAt {qs ops} (hm : Operation.productAt n qs ops = .ok (some m)) : Square (2^qs.length) m := by
  cases n with
  | zero => cases hm
  | succ n =>
    obtain ⟨t,-,hm⟩ := of_bind_eq_ok hm
    obtain ⟨t',-,rfl⟩ := Option.map_eq_some_iff.mp (Except.ok.inj hm)
    exact ⟨rfl,rfl⟩
lemma square_matrixAt (hg : Shaped g) (hm : matrixAt n g = .ok (some m)) : Square (2^g.numQubits) m := by
  induction n generalizing g m with
  | zero => cases hm
  | succ n ih =>
    obtain ⟨own,hown,hm⟩ := of_bind_eq_ok hm
    cases own with
    | some u =>
      cases hm
      exact square_ownMatrix ih hg hown
    | none =>
      obtain ⟨ops,hops,hm⟩ := of_bind_eq_ok hm
      cases ops with
      | none => cases hm
      | some ops =>
        have hlen : (Qubit.lineRange g.numQubits).length = g.numQubits := by simp [Qubit.lineRange]
        simpa only [hlen] using square_productAt hm
end
section
variable {g : Gate ℝ} {m : Mat ℝ} {N : ℕ} {sub : Gate ℝ → Tensor ℝ → List ℕ → Outcome (Option (Tensor ℝ))}
lemma eq_of_ownMatrix {u} (hm : matrixAt N g = .ok (some m)) (hown : ∀ sub, ownMatrix sub g = .ok (some u)) : m = u := by
  cases N with
  | zero => cases hm
  | succ N =>
    rw [matrixAt,hown] at hm
    exact (Option.some.inj (Except.ok.inj hm)).symm
lemma isSome_of_applyAt {t t' r} (h : applyAt n g t axes = .ok (some t')) (hr : matrixAt N g = .ok r) : r.isSome := by
  induction n generalizing g N t t' axes r with
  | zero => cases h
  | succ n ih =>
    obtain ⟨action,ha,h⟩ := of_bind_eq_ok h
    cases action with
    | none =>
      obtain ⟨u,hu,h⟩ := of_bind_eq_ok h
      rw [← matrixAt_unique hu hr]
      cases u with
      | none => cases h
      | some u => rfl
    | some t'' =>
      cases N with
      | zero => cases hr
      | succ N =>
        have hown : ∀ {u}, ownMatrix (matrixAt N) g = .ok (some u) → r.isSome := by
          intro u hu
          rw [matrixAt,hu] at hr
          cases hr
          rfl
        unfold ownAction at ha
        split at ha
        · exact hown rfl
        · exact hown rfl
        · exact hown rfl
        · exact hown rfl
        · obtain ⟨part,hp,-⟩ := underControls_some ha
          obtain ⟨u,hu,hr⟩ := of_bind_eq_ok hr
          obtain ⟨v,hv,hu⟩ := of_bind_eq_ok hu
          obtain ⟨w,rfl⟩ := Option.isSome_iff_exists.mp (ih hp hv)
          cases hu
          cases hr
          rfl
        · cases ha
section
variable (hsub : ∀ {h m N}, Shaped h → matrixAt N h = .ok (some m) → ActsBy (sub h) h.numQubits m)
include hsub
lemma power_actsBy (k e) {e' s} (he : e' = e) (hs : s = 0) (axis) :
    ActsBy (sub (.power k (.num e') s axis)) k.numQubits (powerMatrix k e 0) := by
  subst he hs
  exact hsub (h := .power k (.num e') 0 axis) (N := 1) trivial rfl
lemma ownAction_actsBy
    (hs : ∀ {h t axes t' N r}, sub h t axes = .ok (some t') → matrixAt N h = .ok r → r.isSome) (hg : Shaped g)
    (hm : matrixAt N g = .ok (some m)) : ActsBy (ownAction sub g) g.numQubits m := by
  intro n φ ws t hws hlen h
  unfold ownAction at h
  split at h
  · rename_i e s a
    obtain ⟨c,c',w,rfl⟩ := length_eq_three.mp hlen
    have hws' : ([c,c'] ++ [w]).Nodup := hws
    have hmat : onWires (powerMatrix .ccx e 0) [c,c',w] φ =
        guarded [c,c'] (onWires (powerMatrix .x e 0) [w]) φ := by
      rw [onWires_congr [c,c',w] (toMatrix_ccx e)]
      exact onWires_underIdentity hws' (square_power .x e 0) φ
    rw [phase_register] at h
    rw [eq_of_ownMatrix hm fun _ => rfl,underControls_register hws' (power_actsBy hsub .x e (by simp [one]) (by simp [nought]) _) h,guarded_smul,
      onWires_shift (k := .ccx) rfl,Operator.smul_apply,hmat]
  · rw [eq_of_ownMatrix hm fun _ => rfl]
    exact powerUpdate_register hws hlen (Except.ok.inj h)
  · subst hlen
    rw [eq_of_ownMatrix hm fun _ => rfl,onWires_identity ws hws]
    exact (Option.some.inj (Except.ok.inj h)).symm
  · obtain ⟨c,v,w,rfl⟩ := length_eq_three.mp hlen
    have hws' : ([c] ++ [v,w]).Nodup := hws
    have hmat : onWires m [c,v,w] φ = guarded [c] (onWires (powerMatrix .swap 1 0) [v,w]) φ := by
      have hown : ownMatrix (matrixAt N) .cswap = .ok (some m) :=
        congrArg (fun u => Except.ok (some u)) (eq_of_ownMatrix hm fun _ => rfl).symm
      rw [onWires_congr [c,v,w] (toMatrix_cswap hown)]
      exact onWires_underIdentity hws' (square_power .swap 1 0) φ
    rw [underControls_register hws' (power_actsBy hsub .swap 1 (by simp [one]) (by simp [nought]) _) h,hmat]
  · rename_i cs sub'
    obtain ⟨part,hp,-⟩ := underControls_some h
    cases N with
    | zero => cases hm
    | succ N =>
      obtain ⟨own,hown,hm⟩ := of_bind_eq_ok hm
      obtain ⟨inner,hin,hown⟩ := of_bind_eq_ok hown
      obtain ⟨u,rfl⟩ := Option.isSome_iff_exists.mp (hs hp hin)
      cases hown
      cases hm
      have hr : (ws.drop cs.length).length = sub'.numQubits := by
        rw [length_drop,hlen]
        exact Nat.add_sub_cancel _ _
      have hu : ActsBy (sub sub') (ws.drop cs.length).length u := by
        rw [hr]
        exact hsub hg hin
      have hsq : Square (2^(ws.drop cs.length).length) u := by
        rw [hr]
        exact square_matrixAt hg hin
      have hws' : (ws.take cs.length ++ ws.drop cs.length).Nodup := by rwa [take_append_drop]
      have hmat := onWires_underIdentity hws' hsq φ
      rw [take_append_drop,hlen] at hmat
      rw [← map_take,← map_drop] at h
      rw [underControls_register hws' hu h,← hmat]
      rfl
  · cases h
end
lemma matrixAt_of_own (hown : ∀ sub, ownMatrix sub g = .ok (some m)) (n) : matrixAt (n+1) g = .ok (some m) := by
  rw [matrixAt,hown]
  rfl
section
variable {t : Tensor ℝ}
/-- A gate with a matrix acts, unless what it says about its action is a fault. -/
lemma exists_applyAt (hg : Shaped g) (hlen : axes.length = g.numQubits) (hr : matrixAt (n+1) g = .ok r)
    (ha : ∃ a, ownAction (applyAt (n+1)) g t axes = .ok a) :
    ∃ r', applyAt (n+2) g t axes = .ok r' ∧ (r.isSome → r'.isSome) := by
  obtain ⟨a,ha⟩ := ha
  rw [applyAt,ha,hr]
  cases a with
  | some t' => exact ⟨some t',rfl,fun _ => rfl⟩
  | none =>
    cases r with
    | none => exact ⟨none,rfl,id⟩
    | some m =>
      have hro : m.rows = 2^axes.length := by rw [(square_matrixAt hg hr).rows_eq,hlen]
      exact ⟨some (t.applyMatrix m axes),by simp only [bind,Except.bind,hro,if_true],fun _ => rfl⟩
lemma underControls_ok {f : Tensor ℝ → List ℕ → Outcome (Option (Tensor ℝ))} {controls : List ℕ} {r}
    (h : f (t.slice controls) (axes.map (Tensor.placeWithout controls)) = .ok r) :
    t.underControls controls axes f = .ok (r.map fun part => t.setSlice controls part) := by
  rw [Tensor.underControls,h]
  rfl

/-- A gate acts once its matrix is found, if two more gates may stand around it. -/
lemma applyAt_of_matrixAt (hg : Shaped g) (hlen : axes.length = g.numQubits) (hr : matrixAt n g = .ok r) :
    ∃ r', applyAt (n+2) g t axes = .ok r' ∧ (r.isSome → r'.isSome) := by
  induction n generalizing g r t axes with
  | zero => cases hr
  | succ n ih =>
    refine exists_applyAt hg hlen (matrixAt_refines (Nat.le_succ _) g _ hr) ?_
    cases g with
    | power k e s a =>
      cases e with
      | num e =>
        cases k with
        | ccx =>
          obtain ⟨c,c',w,rfl⟩ := length_eq_three.mp hlen
          exact ⟨_,underControls_ok (exists_applyAt (g := .axisPower .x (.num (one*e))) trivial rfl rfl ⟨_,rfl⟩).choose_spec.1⟩
        | _ => exact ⟨_,rfl⟩
      | _ => cases k <;> exact ⟨_,rfl⟩
    | cswap =>
      obtain ⟨c,v,w,rfl⟩ := length_eq_three.mp hlen
      exact ⟨_,underControls_ok (exists_applyAt (g := .SWAP) trivial rfl rfl ⟨_,rfl⟩).choose_spec.1⟩
    | controlled cs h =>
      obtain ⟨_,hown,-⟩ := of_bind_eq_ok hr
      obtain ⟨_,hh,-⟩ := of_bind_eq_ok hown
      have hle : (axes.drop cs.length).length = h.numQubits := by
        rw [length_drop,hlen]
        exact Nat.add_sub_cancel _ _
      exact ⟨_,underControls_ok (ih (g := h) hg (by rw [length_map,hle]) hh).choose_spec.1⟩
    | _ => exact ⟨_,rfl⟩
end

/-- A gate acts on registers by its matrix, whichever way it takes. -/
lemma applyAt_actsBy (hg : Shaped g) (hm : matrixAt N g = .ok (some m)) : ActsBy (applyAt n g) g.numQubits m := by
  induction n generalizing g m N with
  | zero =>
    intro k φ ws t _ _ h
    cases h
  | succ n ih =>
    intro k φ ws t hws hlen h
    obtain ⟨action,ha,h⟩ := of_bind_eq_ok h
    cases action with
    | some t' =>
      cases h
      exact ownAction_actsBy ih isSome_of_applyAt hg hm φ ws hws hlen ha
    | none =>
      obtain ⟨u,hu,h⟩ := of_bind_eq_ok h
      cases matrixAt_unique hu hm
      dsimp only at h
      split at h
      · cases h
        have hsq : Square (2^ws.length) m := by
          rw [hlen]
          exact square_matrixAt hg hm
        exact applyMatrix_register hws hsq φ
      · cases h
lemma applyAt_some (hg : Shaped g) (hm : matrixAt n g = .ok (some m)) (t) (hlen : axes.length = g.numQubits) :
    ∃ t', applyAt (n+2) g t axes = .ok (some t') := by
  obtain ⟨r,hr,hsome⟩ := applyAt_of_matrixAt (t := t) hg hlen hm
  obtain ⟨t',rfl⟩ := Option.isSome_iff_exists.mp (hsome rfl)
  exact ⟨t',hr⟩
lemma applyAt_register (hg : Shaped g) (hm : matrixAt N g = .ok (some m)) {ws : List (Fin n)} (hws : ws.Nodup)
    (hlen : ws.length = g.numQubits) (φ) :
    applyAt (N+2) g (register φ) (ws.map Fin.val) = .ok (some (register (onWires m ws φ))) := by
  obtain ⟨t,ht⟩ := applyAt_some hg hm (register φ) ((length_map Fin.val).trans hlen)
  rw [ht,applyAt_actsBy hg hm φ ws hws hlen ht]
end
section
variable {σ : Type}
def Follows (rel : σ → τ → Prop) (able : Prop) (s : σ) (run : ExceptT Fault Id τ) : Prop :=
  (able → ∃ t, run = pure t ∧ rel s t) ∧ (¬ able → ∃ fault, run = throw fault)
lemma Follows.map {σ' τ' : Type} {rel' : σ' → τ' → Prop} {able : Prop} {s : σ} {run : ExceptT Fault Id τ} {f : σ → σ'}
    {g : τ → τ'} (h : Follows rel able s run) (hmap : ∀ {t}, rel s t → rel' (f s) (g t)) : Follows rel' able (f s) (g <$> run) := by
  constructor
  · intro ha
    obtain ⟨t,rfl,ht⟩ := h.1 ha
    exact ⟨g t,map_pure g t,hmap ht⟩
  · intro ha
    obtain ⟨fault,rfl⟩ := h.2 ha
    exact ⟨fault,rfl⟩
lemma foldlM_follows {f : σ → α → ExceptT Fault Id σ} {g : τ → α → ExceptT Fault Id τ} {able : α → Prop} {as : List α}
    (hs : ∀ a ∈ as, ∀ {s s' t}, rel s t → f s a = pure s' → Follows rel (able a) s' (g t a)) {s s' t} (hst : rel s t)
    (h : as.foldlM f s = pure s') : Follows rel (∀ a ∈ as, able a) s' (as.foldlM g t) := by
  induction as generalizing s t with
  | nil =>
    cases pure_injective h
    exact ⟨fun _ => ⟨t,rfl,hst⟩,fun hab => absurd (fun a ha => absurd ha not_mem_nil) hab⟩
  | cons a as ih =>
    obtain ⟨s₁,ha,has⟩ := bind_eq_pure.mp h
    obtain ⟨hg,hbad⟩ := hs a mem_cons_self hst ha
    rw [foldlM_cons]
    by_cases hab : able a
    · obtain ⟨t₁,ht₁,hst₁⟩ := hg hab
      rw [ht₁]
      obtain ⟨hall,hso⟩ := ih (fun b hb => hs b (mem_cons_of_mem a hb)) hst₁ has
      refine ⟨fun h' => hall fun b hb => h' b (mem_cons_of_mem a hb),fun h' => hso fun hr => h' ?_⟩
      exact forall_mem_cons.mpr ⟨hab,hr⟩
    · obtain ⟨fault,hf⟩ := hbad hab
      rw [hf]
      exact ⟨fun h' => absurd (h' a mem_cons_self) hab,fun _ => ⟨fault,rfl⟩⟩
end
section
variable {m : OpMoment ℝ}
/-- A gate is applied to as many different qubits as it has, to one at a time if it is applied to several in parallel. -/
def WellFormed : Operation ℝ → Prop
  | .gate g qs => Shaped g ∧ qs.length = g.numQubits ∧ qs.Nodup
  | .parallel g qs => Shaped g ∧ g.numQubits = 1 ∧ qs.Nodup
  | _ => True

/-- Whether the gate of an operation states its matrix and covers all qubits of the operation. -/
def HasKraus : Operation ℝ → Prop
  | .gate g _ => ∃ m, g.statedMatrix? = .ok (some m)
  | .parallel g qs => qs.length = 1 ∧ ∃ m, g.statedMatrix? = .ok (some m)
  | _ => False
def Matches (n : ℕ) (s t : Tensor ℝ) : Prop := ∃ φ : Wave n, s = register φ ∧ t = register (density φ)
def MatchesReported (n : ℕ) (s t : Tensor ℝ × Report) : Prop := Matches n s.1 t.1 ∧ s.2 = t.2
variable {g : Gate ℝ} {qs : Qubits} {op : Operation ℝ}
lemma kraus_of_hasUnitary (h : g.hasUnitary = .ok true) : g.kraus? = (do .ok ((← g.statedMatrix?).map fun u => [u])) := by
  cases g with
  | measurement k key invert => exact absurd rfl (ne_measurement h k key invert)
  | channel c =>
    cases h
  | _ => rfl
lemma matrixAt_of_stated {m} (h : g.statedMatrix? = .ok (some m)) : matrixAt (nesting+1) g = .ok (some m) := by
  rw [matrixAt]
  have hown : ownMatrix (matrixAt nesting) g = .ok (some m) := h
  rw [hown]
  rfl
section
variable (h : g.hasUnitary = .ok true) (hop : MixedState.channelGate op = .ok g)
include h hop
lemma applyChannel_stated {m} (hm : g.statedMatrix? = .ok (some m)) (hs : g.numQubits = axes.length) (t : Tensor ℝ) :
    MixedState.applyChannel n axes op t = .ok (t.applyKraus [m] axes (axes.map (· + n))) := by
  have hk : g.kraus? = .ok (some [m]) := by
    rw [kraus_of_hasUnitary h,hm]
    rfl
  rw [MixedState.applyChannel,hop]
  simp [bind,Except.bind,hk,hs]
lemma applyChannel_refused (n) (hnot : ¬ (g.numQubits = axes.length ∧ ∃ m, g.statedMatrix? = .ok (some m))) (t) :
    ∃ fault, MixedState.applyChannel n axes op t = .error fault := by
  rw [MixedState.applyChannel,hop]
  simp only [bind,Except.bind,kraus_of_hasUnitary h]
  rcases hs : g.statedMatrix? with fault | _ | m
  · exact ⟨fault,rfl⟩
  · exact ⟨_,rfl⟩
  · exact ⟨.bare .value,if_pos fun hsi => hnot ⟨hsi,m,hs⟩⟩
end
variable {t : Tensor ℝ}
lemma applyChannel_follows (hg : Shaped g) (hu : g.hasUnitary = .ok true) (hlen : rs.length = g.numQubits) (hrs : rs ⊆ qs)
    (hn : rs.Nodup) {φ : Wave qs.length} (ht : applyAt n g (register φ) (rs.map qs.idxOf) = .ok (some t))
    (hop : MixedState.channelGate op = .ok g) :
    Follows (Matches qs.length) (∃ m, g.statedMatrix? = .ok (some m)) t
      (ExceptT.mk (pure (MixedState.applyChannel qs.length (rs.map qs.idxOf) op (register (density φ))))) := by
  have hw : (wiresOf qs rs).length = g.numQubits := (length_wiresOf hrs).trans hlen
  have hs : g.numQubits = ((wiresOf qs rs).map Fin.val).length := by rw [length_map,hw]
  rw [← wiresOf_val hrs] at ht ⊢
  constructor
  · rintro ⟨m,hm⟩
    have hmat := matrixAt_of_stated hm
    have hsq : Square (2^(wiresOf qs rs).length) m := by
      rw [hw]
      exact square_matrixAt hg hmat
    refine ⟨_,?_,onWires m (wiresOf qs rs) φ,applyAt_actsBy hg hmat φ _ (nodup_wiresOf hrs hn) hw ht,rfl⟩
    rw [applyChannel_stated hu hop hm hs,applyKraus_density (nodup_wiresOf hrs hn) hsq]
    rfl
  · intro hno
    obtain ⟨fault,hf⟩ := applyChannel_refused hu hop qs.length (fun h => hno h.2) (register (density φ))
    rw [hf]
    exact ⟨fault,rfl⟩
lemma advanceOp_follows (hun : op.hasUnitary = .ok true) (hop : WellFormed op) (hqs : op.qubits ⊆ qs) {s s' t}
    (hst : MatchesReported qs.length s t) (h : advanceOp (M := Id) qs true s op = pure s') :
    Follows (MatchesReported qs.length) (HasKraus op) s' (MixedState.advanceOp qs true t op) := by
  obtain ⟨s,report⟩ := s
  obtain ⟨t,report'⟩ := t
  obtain ⟨⟨φ,rfl,rfl⟩,rfl⟩ := hst
  have hke : WaveFunction.hasUnitary op := by simp [WaveFunction.hasUnitary,hun,Except.toOption]
  simp only [advanceOp,hke] at h
  obtain ⟨u,hu,h⟩ := bind_eq_pure.mp h
  cases pure_injective h
  have ha : applyUnitary (op.qubits.map qs.idxOf) op (register φ) = .ok u := hu
  obtain ⟨action,hac,ha⟩ := of_bind_eq_ok ha
  obtain rfl : action = some u := by
    cases action with
    | none => cases ha
    | some u' => rw [Except.ok.inj ha]
  have ho able (hf : Follows (Matches qs.length) able u (ExceptT.mk (pure
      (MixedState.applyChannel qs.length (op.qubits.map qs.idxOf) op (register (density φ)))))) :
      Follows (MatchesReported qs.length) able (u,report)
        (do return (← ExceptT.mk (pure (MixedState.applyChannel qs.length (op.qubits.map qs.idxOf) op (register (density φ)))),report)) := by
    exact hf.map (f := fun t => (t,report)) (g := fun t => (t,report)) fun hma => ⟨hma,rfl⟩
  cases op with
  | gate g rs =>
    obtain ⟨hg,hlen,hn⟩ := hop
    have hf := ho _ (applyChannel_follows hg hun hlen hqs hn hac rfl)
    cases g with
    | measurement k key invert => exact absurd rfl (ne_measurement hun k key invert)
    | _ => exact hf
  | parallel g rs =>
    obtain ⟨hg,hone,hn⟩ := hop
    by_cases hlen : rs.length = 1
    · obtain ⟨r,rfl⟩ := length_eq_one_iff.mp hlen
      have hs : applyAt 102 g (register φ) ([r].map qs.idxOf) = .ok (some u) := by
        have hfo : (Operation.parallel g [r]).act? (register φ) ([r].map qs.idxOf) =
            (do Except.ok (← applyAt 102 g (register φ) ([r].map qs.idxOf))) := rfl
        obtain ⟨v,hv,hvu⟩ := of_bind_eq_ok (hfo.symm.trans hac)
        rw [hv,hvu]
      obtain ⟨hab,hub⟩ := ho _ (applyChannel_follows hg hun (hlen.trans hone.symm) hqs hn hs rfl)
      exact ⟨fun hk => hab hk.2,fun hk => hub fun hm => hk ⟨rfl,hm⟩⟩
    · have hga : MixedState.channelGate (.parallel g rs) = .ok g := rfl
      have hsi : ¬ g.numQubits = (rs.map qs.idxOf).length := by
        rw [hone,length_map]
        exact Ne.symm hlen
      obtain ⟨fault,hfa⟩ := applyChannel_refused hun hga qs.length (fun h => hsi h.1) (register (density φ))
      refine ⟨fun hk => absurd hk.1 hlen,fun _ => ⟨fault,?_⟩⟩
      simp only [MixedState.advanceOp,Operation.qubits,hfa]
      rfl
  | controlled cs sub => exact ⟨fun hno => hno.elim,fun _ => ⟨.bare .attribute,rfl⟩⟩
  | phasor p e => exact ⟨fun hno => hno.elim,fun _ => ⟨.bare .attribute,rfl⟩⟩
  | _ => cases hun
lemma keep_of_hasUnitary [OperationText ℝ] (h : op.hasUnitary = .ok true) :
    expander.keep op ∧ MixedState.expander.keep op := by
  have hc : op.hasChannel = .ok true := by
    cases op with
    | gate g rs => exact hasChannel_of_hasUnitary h
    | controlled cs sub | parallel g rs | phasor p e =>
      simp [Operation.hasChannel,Operation.hasMixtureChannel,h,bind,Except.bind]
    | _ => cases h
  constructor
  · simp [expander,WaveFunction.hasUnitary,h,Except.toOption]
  · cases op <;> simp [MixedState.expander,hc,Except.toOption]
lemma advance_kept [OperationText ℝ] (hops : ∀ op ∈ m.ops, op.hasUnitary = .ok true) (s) :
    advance (M := Id) qs true s m = m.ops.foldlM (advanceOp qs true) (s,[]) ∧
      MixedState.advance (M := Id) qs true s m = m.ops.foldlM (MixedState.advanceOp qs true) (s,[]) := by
  have hs : m.ops.filter (fun op => !isDisplay op) = m.ops := by
    refine filter_eq_self.mpr fun op hop => ?_
    have hu := hops op hop
    cases op with
    | expectation p samples key => cases hu
    | _ => rfl
  have hv := expand_kept expander fun op hop => (keep_of_hasUnitary (hops op hop)).1
  have hd := expand_kept MixedState.expander fun op hop => (keep_of_hasUnitary (hops op hop)).2
  rw [advance,MixedState.advance,hs,hv,hd]
  exact ⟨rfl,rfl⟩
lemma advance_follows [OperationText ℝ] (hops : ∀ op ∈ m.ops, op.hasUnitary = .ok true ∧ WellFormed op)
    (hqs : ∀ op ∈ m.ops, op.qubits ⊆ qs) {s s' t} (hst : Matches qs.length s t)
    (h : Prod.fst <$> advance (M := Id) qs true s m = pure s') :
    Follows (Matches qs.length) (∀ op ∈ m.ops, HasKraus op) s' (Prod.fst <$> MixedState.advance qs true t m) := by
  have hun : ∀ op ∈ m.ops, op.hasUnitary = .ok true := fun op hop => (hops op hop).1
  rw [(advance_kept hun s).1] at h
  rw [(advance_kept hun t).2]
  obtain ⟨⟨u,report⟩,hfo,hu⟩ := bind_eq_pure.mp ((map_eq_pure_bind _ _).symm.trans h)
  cases pure_injective hu
  have hs : MatchesReported qs.length (s,[]) (t,[]) := ⟨hst,rfl⟩
  have hf := foldlM_follows (fun op hop => advanceOp_follows (hops op hop).1 (hops op hop).2 (hqs op hop)) hs hfo
  exact hf.map fun hm => hm.1
def Restores : QubitOrder → Prop
  | .explicitThen _ fallback => Restores fallback
  | .mapped inner internalize externalize => Restores inner ∧ ∀ q, externalize (internalize q) = q
  | _ => True
lemma subset_fixed {fixed} (h : ((Qubit.distinct rs).filter fun q => !fixed.contains q).isEmpty) : rs ⊆ fixed := by
  intro q hq
  have hn := filter_eq_nil_iff.mp (isEmpty_iff.mp h) q (FrontierInsertion.mem_distinct.mpr hq)
  simpa using hn
lemma exists_of_map_eq_ok {x : Outcome α} {f : α → β} {b : β} (h : x.map f = .ok b) : ∃ a, x = .ok a ∧ f a = b := by
  cases x with
  | error fault => cases h
  | ok a => exact ⟨a,rfl,Except.ok.inj h⟩
lemma subset_orderFor (hord : Restores order) {rs'} (h : order.orderFor rs = .ok rs') : rs ⊆ rs' := by
  induction order generalizing rs rs' with
  | sorted =>
    cases h
    exact fun _ => mem_mergeSort.mpr
  | explicit fixed =>
    simp only [QubitOrder.orderFor] at h
    split at h
    · rename_i hr
      cases h
      exact subset_fixed hr
    · cases h
  | explicitThen fixed fallback ih =>
    simp only [QubitOrder.orderFor] at h
    split at h
    · rename_i hr
      cases h
      exact subset_fixed hr
    · obtain ⟨found,hf,rfl⟩ := exists_of_map_eq_ok h
      intro q hq
      by_cases hfi : q ∈ fixed
      · exact mem_append_left _ hfi
      · refine mem_append_right _ (ih hord hf (mem_filter.mpr ⟨FrontierInsertion.mem_distinct.mpr hq,?_⟩))
        simpa using hfi
  | sortedBy key =>
    cases h
    exact fun _ => mem_mergeSort.mpr
  | mapped inner internalize externalize ih =>
    obtain ⟨found,hf,rfl⟩ := exists_of_map_eq_ok h
    intro q hq
    exact mem_map.mpr ⟨internalize q,ih hord.1 hf (mem_map_of_mem hq),hord.2 q⟩
lemma exists_start [NumberText ℝ] {k entries} (h : (.basis k : InitialState ℝ).vector n p = .ok entries) :
    ∃ φ : Wave n, entries = (register φ).entries := by
  have hb : entries = StateVector.basis n k.toNat := by
    simp only [InitialState.vector] at h
    split_ifs at h
    exact (Except.ok.inj h).symm
  exact ⟨_,hb.trans (entries_basis n k.toNat)⟩
variable [OperationText ℝ] [NumberText ℝ]
lemma simulate_follows {r} (hord : Restores order) {k}
    (hops : ∀ op ∈ (Simulator.resolve r c).operations, op.hasUnitary = .ok true ∧ WellFormed op)
    (ht : Prod.fst <$> (simulator (M := Id) p).simulate c r order (.basis k) = pure t) :
    ∃ n, Follows (Matches n) (∀ op ∈ (Simulator.resolve r c).operations, HasKraus op) t
      (Prod.fst <$> (MixedState.simulator p).simulate c r order (.basis k)) := by
  rw [simulate_state] at ht
  set d := Simulator.resolve r c with hd
  obtain ⟨-,-,ht⟩ := bind_eq_pure.mp ht
  obtain ⟨qs,hqs,ht⟩ := bind_eq_pure.mp ht
  obtain ⟨s,hs,ht⟩ := bind_eq_pure.mp ht
  have ho : order.orderFor (Qubit.distinct (d.qubits ++ [])) = .ok qs := hqs
  have hst : (simulator (M := Id) p).start qs.length (.basis k) = .ok s := hs
  obtain ⟨entries,he,hst⟩ := of_bind_eq_ok hst
  obtain ⟨φ,rfl⟩ := exists_start he
  cases hst
  have hmi : (MixedState.simulator (M := Id) p).start qs.length (.basis k) = .ok (register (density φ)) := by
    simp only [MixedState.simulator,InitialState.density,he]
    exact congrArg Except.ok (outer_register φ)
  have hsi : Prod.fst <$> (MixedState.simulator (M := Id) p).simulate c r order (.basis k) =
      d.moments.foldlM (fun s m => Prod.fst <$> MixedState.advance qs true s m) (register (density φ)) := by
    rw [simulate_state,← hd,hqs]
    simp only [pure_bind,hmi]
    rfl
  have hmem {m : OpMoment ℝ} hm {op : Operation ℝ} hop : op ∈ d.operations :=
    mem_flatMap.mpr ⟨m,hm,hop⟩
  have hsu {m : OpMoment ℝ} (hm : m ∈ d.moments) {op : Operation ℝ} (hop : op ∈ m.ops) : op.qubits ⊆ qs := by
    intro q hq
    refine subset_orderFor hord ho (FrontierInsertion.mem_distinct.mpr (mem_append_left _ ?_))
    exact mem_flatMap.mpr ⟨op,hmem hm hop,hq⟩
  refine ⟨qs.length,?_⟩
  rw [hsi]
  have hf := foldlM_follows (fun m hm => advance_follows (fun op hop => hops op (hmem hm hop)) fun op hop => hsu hm hop)
    (show Matches qs.length _ _ from ⟨φ,rfl,rfl⟩) ht
  have ha : (∀ m ∈ d.moments, ∀ op ∈ m.ops, HasKraus op) ↔ ∀ op ∈ d.operations, HasKraus op := by
    simp only [Circuit.operations,mem_flatMap]
    constructor
    · rintro h op ⟨m,hm,hop⟩
      exact h m hm op hop
    · exact fun h m hm op hop => h op ⟨m,hm,hop⟩
  rwa [ha] at hf

/-- Where the state vector of a unitary circuit is found, its density matrix is found exactly when the gate of every operation
states its matrix and covers all qubits of the operation, and it is then the outer product of the state vector. -/
theorem density_found_iff (p : Precision) (c : Circuit (Operation ℝ)) (r : Resolver ℝ) {order : QubitOrder} (horder : Restores order)
    (k : ℤ) (hops : ∀ op ∈ (Simulator.resolve r c).operations, op.hasUnitary = .ok true ∧ WellFormed op) {t : Tensor ℝ}
    (ht : Prod.fst <$> (WaveFunction.simulator (M := Id) p).simulate c r order (.basis k) = pure t) :
    ((∃ ρ, Prod.fst <$> (MixedState.simulator (M := Id) p).simulate c r order (.basis k) = pure ρ) ↔
      ∀ op ∈ (Simulator.resolve r c).operations, HasKraus op) ∧
    ∀ ρ, Prod.fst <$> (MixedState.simulator (M := Id) p).simulate c r order (.basis k) = pure ρ →
      ρ = Tensor.ofMat (Tensor.qubitShape (2 * t.rank)) (StateVector.outer t.entries) := by
  obtain ⟨n, hable, hunable⟩ := simulate_follows horder hops ht
  have hfound : ∀ ρ, Prod.fst <$> (MixedState.simulator (M := Id) p).simulate c r order (.basis k) = pure ρ →
      ∀ op ∈ (Simulator.resolve r c).operations, HasKraus op := by
    intro ρ hρ
    by_contra hnot
    obtain ⟨fault, hfault⟩ := hunable hnot
    cases hρ.symm.trans hfault
  constructor
  · constructor
    · rintro ⟨ρ, hρ⟩
      exact hfound ρ hρ
    · intro hkraus
      obtain ⟨ρ, hρ, -⟩ := hable hkraus
      exact ⟨ρ, hρ⟩
  · intro ρ hρ
    obtain ⟨ρ', hρ', φ, rfl, rfl⟩ := hable (hfound ρ hρ)
    have hrank : (register φ).rank = n := by simp [Tensor.rank]
    rw [hrank, outer_register]
    exact pure_injective (hρ.symm.trans hρ')
end
section
lemma foldlM_total {f : σ → α → ExceptT Fault Id σ} {as : List α} (h : ∀ a ∈ as, ∀ s, ∃ s', f s a = pure s')
    (s) : ∃ s', as.foldlM f s = pure s' := by
  induction as generalizing s with
  | nil => exact ⟨s,rfl⟩
  | cons a as ih =>
    obtain ⟨s₁,hs₁⟩ := h a mem_cons_self s
    rw [foldlM_cons,hs₁]
    exact ih (fun b hb => h b (mem_cons_of_mem a hb)) s₁

/-- A simulation of operations that act on every state finds a state. -/
lemma simulate_total [OperationText ℝ] [NumberText ℝ] {r k}
    (hops : ∀ op ∈ (Simulator.resolve r c).operations, op.hasUnitary = .ok true ∧
      ∀ t axes, ∃ t', op.act? t axes = .ok (some t')) {qs}
    (hqs : (Simulator.resolve r c).orderedQubits order [] = .ok qs) {entries}
    (hst : (.basis k : InitialState ℝ).vector qs.length p = .ok entries) :
    ∃ t, Prod.fst <$> (simulator (M := Id) p).simulate c r order (.basis k) = pure t := by
  have hop : ∀ op ∈ (Simulator.resolve r c).operations, ∀ s,
      ∃ s', advanceOp (M := Id) qs true s op = pure s' := by
    rintro op hmem ⟨t,report⟩
    obtain ⟨hu,hact⟩ := hops op hmem
    obtain ⟨t',ht'⟩ := hact t (op.qubits.map qs.idxOf)
    have hk : WaveFunction.hasUnitary op := by simp [WaveFunction.hasUnitary,hu,Except.toOption]
    have ha : applyUnitary (op.qubits.map qs.idxOf) op t = .ok t' := by
      rw [applyUnitary,ht']
      rfl
    refine ⟨(t',report),?_⟩
    simp only [advanceOp,hk,ha]
    rfl
  have hmo : ∀ m ∈ (Simulator.resolve r c).moments, ∀ s, ∃ s', Prod.fst <$> advance (M := Id) qs true s m = pure s' := by
    intro m hm s
    have hmem : ∀ op ∈ m.ops, op ∈ (Simulator.resolve r c).operations := fun op hop => mem_flatMap.mpr ⟨m,hm,hop⟩
    obtain ⟨s',hs'⟩ := foldlM_total (fun op hmem' => hop op (hmem op hmem')) (s,[])
    rw [(advance_kept (fun op hmem' => (hops op (hmem op hmem')).1) s).1,hs']
    exact ⟨s'.1,rfl⟩
  obtain ⟨t,ht⟩ := foldlM_total hmo ⟨Tensor.qubitShape qs.length,entries⟩
  refine ⟨t,?_⟩
  have hf : (simulator (M := Id) p).start qs.length (.basis k) = .ok ⟨Tensor.qubitShape qs.length,entries⟩ := by
    simp only [simulator,hst]
    rfl
  rw [simulate_state,bind_eq_pure]
  refine ⟨(),rfl,bind_eq_pure.mpr ⟨qs,?_,bind_eq_pure.mpr ⟨_,?_,ht⟩⟩⟩
  · rw [hqs]
    rfl
  · rw [hf]
    rfl
noncomputable def turnedUnderControl : OpCircuit ℝ :=
  ⟨[⟨[.gate .X [.line 0]]⟩,⟨[.controlled [.line 0] (.gate .X [.line 1])]⟩]⟩
lemma resolve_turnedUnderControl : Simulator.resolve .empty turnedUnderControl = turnedUnderControl := by
  have hx : (X : Gate ℝ).resolve Resolver.empty.get? = X := by
    simp [X,resolve,withExponent,Param.resolve]
  simp [Simulator.resolve,Circuit.map,turnedUnderControl,Operation.resolve,hx]
lemma applyAt_x (n) (t : Tensor ℝ) (axes) : ∃ t', applyAt (n+1) X t axes = .ok (some t') := by
  rw [applyAt]
  simp [ownAction,X,powerUpdate,one_eq,bind,Except.bind]

/-- The state vector of a half turn under a control is found, its density matrix is not. -/
theorem turnedUnderControl_density_missing :
    letI : OperationText ℝ := ⟨fun _ => "", fun _ => "", fun _ => ""⟩
    letI : NumberText ℝ := ⟨fun _ => "", fun _ _ => "", fun _ _ => "", fun _ _ => "", fun _ => "", fun _ _ => "", fun _ _ _ => ""⟩
    (∃ t, Prod.fst <$> (WaveFunction.simulator (M := Id) .single).simulate turnedUnderControl .empty
      (.explicit [.line 0, .line 1]) (.basis 0) = pure t) ∧
    ¬ ∃ ρ, Prod.fst <$> (MixedState.simulator (M := Id) .single).simulate turnedUnderControl .empty
      (.explicit [.line 0, .line 1]) (.basis 0) = pure ρ := by
  let _ := silentText
  let _ := silentNumber
  have hcases : ∀ op ∈ (Simulator.resolve .empty turnedUnderControl).operations,
      op = .gate .X [.line 0] ∨ op = .controlled [.line 0] (.gate .X [.line 1]) := by
    intro op hop
    rw [resolve_turnedUnderControl] at hop
    simpa [turnedUnderControl, Circuit.operations] using hop
  have hops : ∀ op ∈ (Simulator.resolve .empty turnedUnderControl).operations, op.hasUnitary = .ok true ∧ WellFormed op := by
    intro op hop
    rcases hcases op hop with rfl | rfl
    · exact ⟨rfl, trivial, rfl, List.nodup_singleton _⟩
    · exact ⟨rfl, trivial⟩
  have hacts : ∀ op ∈ (Simulator.resolve .empty turnedUnderControl).operations, op.hasUnitary = .ok true ∧
      ∀ t axes, ∃ t', op.act? t axes = .ok (some t') := by
    intro op hop
    refine ⟨(hops op hop).1, fun t axes => ?_⟩
    rcases hcases op hop with rfl | rfl
    · exact applyAt_x 98 t axes
    · obtain ⟨part, hpart⟩ := applyAt_x 97 (t.slice (axes.take 1)) ((axes.drop 1).map (Tensor.placeWithout (axes.take 1)))
      refine ⟨t.setSlice (axes.take 1) part, ?_⟩
      exact congrArg (fun x : Outcome (Option (Tensor ℝ)) => x >>= fun part => .ok (part.map (t.setSlice (axes.take 1)))) hpart
  have hqs : (Simulator.resolve .empty turnedUnderControl).orderedQubits (.explicit [.line 0, .line 1]) [] =
      .ok [.line 0, .line 1] := by
    rw [resolve_turnedUnderControl]
    rfl
  obtain ⟨t, ht⟩ := simulate_total hacts hqs (vector_ground 2 .single)
  refine ⟨⟨t, ht⟩, fun hfound => ?_⟩
  have hmember : Operation.controlled [.line 0] (.gate .X [.line 1]) ∈ (Simulator.resolve .empty turnedUnderControl).operations := by
    rw [resolve_turnedUnderControl]
    simp [turnedUnderControl, Circuit.operations]
  have horder : Restores (.explicit [.line 0, .line 1]) := trivial
  exact (density_found_iff .single turnedUnderControl .empty horder 0 hops ht).1.mp hfound _ hmember
end
end QuantumCircuits.PureEvolution
