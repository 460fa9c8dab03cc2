import QuantumCircuits.Proofs.FrontierInsertion
import QuantumCircuits.Proofs.Measuring
import QuantumCircuits.Proofs.Decompositions

/-! # Runs by sampling and runs by repetition

A circuit can be run by sampling its final state, or by measuring along the way. The second way reports what the first
one does, after the bits that a measurement asks to invert are inverted.
-/
namespace QuantumCircuits.SampledRuns
noncomputable section
open Exact WireOperators Registers Measuring List Gate Function Simulator MixedState Decompositions Circuit
open WireOrder (Legal overlapFree_iff)
variable {g : Gate ℝ} {report : Report} {ops : Ops ℝ} {G : Gate ℝ → Mat ℝ → Prop} {n : ℕ}
section
def wiresOf (qs rs : Qubits) : List (Fin qs.length) :=
  rs.filterMap fun r => if h : r ∈ qs then some ⟨qs.idxOf r,idxOf_lt_length_iff.mpr h⟩ else none
variable {qs rs : Qubits}
lemma wiresOf_cons {r} (hr : r ∈ qs) : wiresOf qs (r :: rs) = ⟨qs.idxOf r,idxOf_lt_length_iff.mpr hr⟩ :: wiresOf qs rs := by
  simp [wiresOf,hr]
lemma wiresOf_val (h : rs ⊆ qs) : (wiresOf qs rs).map Fin.val = rs.map qs.idxOf := by
  induction rs with
  | nil => rfl
  | cons r rs ih =>
    obtain ⟨hr,hrs⟩ := cons_subset.mp h
    rw [wiresOf_cons hr,map_cons,map_cons,ih hrs]
lemma get_wiresOf (h : rs ⊆ qs) : (wiresOf qs rs).map qs.get = rs := by
  induction rs with
  | nil => rfl
  | cons r rs ih =>
    obtain ⟨hr,hrs⟩ := cons_subset.mp h
    rw [wiresOf_cons hr,map_cons,ih hrs]
    simp
lemma length_wiresOf (h : rs ⊆ qs) : (wiresOf qs rs).length = rs.length := by
  have hlen := congrArg length (wiresOf_val h)
  simpa using hlen
lemma mem_wiresOf {w} : w ∈ wiresOf qs rs ↔ ∃ r ∈ rs, r ∈ qs ∧ qs.idxOf r = w := by
  simp only [wiresOf,mem_filterMap]
  constructor
  · rintro ⟨r,hr,hw⟩
    by_cases hqs : r ∈ qs
    · simp only [hqs,dif_pos,Option.some.injEq] at hw
      exact ⟨r,hr,hqs,congrArg Fin.val hw⟩
    · simp [hqs] at hw
  · rintro ⟨r,hr,hqs,hw⟩
    exact ⟨r,hr,by simp [hqs,hw]⟩
lemma disjoint_wiresOf {rs'} (h : rs.Disjoint rs') : (wiresOf qs rs).Disjoint (wiresOf qs rs') := by
  intro w hw hw'
  obtain ⟨r,hr,hqs,hidx⟩ := mem_wiresOf.mp hw
  obtain ⟨r',hr',hqs',hidx'⟩ := mem_wiresOf.mp hw'
  have hs : r = r' := (idxOf_inj hqs).mp (hidx.trans hidx'.symm)
  exact h hr (hs ▸ hr')
lemma nodup_wiresOf (h : rs ⊆ qs) (hrs : rs.Nodup) : (wiresOf qs rs).Nodup := by
  have hmap : ((wiresOf qs rs).map Fin.val).Nodup := by
    rw [wiresOf_val h]
    exact hrs.map_on fun r hr r' _ hidx => (idxOf_inj (h hr)).mp hidx
  exact hmap.of_map _
end
section
/-- A gate without symbols that acts on states by a unitary matrix. -/
structure UnitaryGate (g : Gate ℝ) (m : Mat ℝ) : Prop where
  resolved : g.resolve Resolver.empty.get? = g
  hasUnitary : g.hasUnitary = .ok true
  square : Square (2^g.numQubits) m
  unitary : (toMatrix (2^g.numQubits) m).conjTranspose * toMatrix (2^g.numQubits) m = 1
  acts : ∀ {n : ℕ} (φ : Wave n) (ws : List (Fin n)) (rs : Qubits), ws.Nodup → ws.length = g.numQubits →
    (Operation.gate g rs).act? (register φ) (ws.map Fin.val) = .ok (some (register (onWires m ws φ)))

/-- Such a gate that states its matrix, as density matrices ask for. -/
structure StatedGate (g : Gate ℝ) (m : Mat ℝ) : Prop extends UnitaryGate g m where
  kraus : g.kraus? = .ok (some [m])
variable (G) (qs : Qubits)
abbrev ByUnitaries : Prop := ∀ {g m}, G g m → UnitaryGate g m
inductive StepOf : Operation ℝ → Step qs.length → Prop
  | turn {g : Gate ℝ} {rs : Qubits} {u : LocalUnitary qs.length} (hg : G g u.matrix)
      (hlength : rs.length = g.numQubits) (hrs : rs ⊆ qs) (hwires : u.wires = wiresOf qs rs) : StepOf (.gate g rs) (.turn u)
  | look {k : ℕ} {key : String} {invert : List Bool} {rs : Qubits} (hrs : rs ⊆ qs) :
      StepOf (.gate (.measurement k key invert) rs) (.look key invert (wiresOf qs rs))
abbrev StepsOf := Forall₂ (StepOf G qs)
abbrev StagesOf := Forall₂ fun m : Moment (Operation ℝ) => StepsOf G qs m.ops
structure FollowsOps (advanceOp : Qubits → Bool → Tensor ℝ × Report → Operation ℝ → ExceptT Fault PMF (Tensor ℝ × Report))
    (encode : {n : ℕ} → PureState n → Tensor ℝ) : Prop where
  turn : ∀ {qs : Qubits} {op : Operation ℝ} {u : LocalUnitary qs.length} (perform : Bool) (ψ : PureState qs.length)
    (report : Report), StepOf G qs op (.turn u) → advanceOp qs perform (encode ψ,report) op = pure (encode (u.apply ψ),report)
  look : ∀ {qs : Qubits} {op : Operation ℝ} {key : String} {invert : List Bool} {ws : List (Fin qs.length)}
    (ψ : PureState qs.length) (report : Report), StepOf G qs op (.look key invert ws) → advanceOp qs true (encode ψ,report) op =
      ExceptT.lift (ψ.law.map fun x => (encode (ψ.given ws x),report.extend key (invertBits invert (readout ws x))))
  pass : ∀ {qs : Qubits} {op : Operation ℝ} {key : String} {invert : List Bool} {ws : List (Fin qs.length)}
    (ψ : PureState qs.length) (report : Report), StepOf G qs op (.look key invert ws) →
      advanceOp qs false (encode ψ,report) op = pure (encode ψ,report)
lemma ne_measurement (h : g.hasUnitary = .ok true) (k key invert) : g ≠ .measurement k key invert := by
  rintro rfl
  cases h
end
section
lemma followsOps_vector : FollowsOps UnitaryGate (WaveFunction.advanceOp (M := PMF)) fun ψ => register ψ.amplitude where
  turn {qs op u} perform ψ report h := by
    cases h with
    | @turn g rs _ hg hlen hrs hwi =>
      have hu : WaveFunction.hasUnitary (.gate g rs) := by
        simp [WaveFunction.hasUnitary,Operation.hasUnitary,hg.hasUnitary,Except.toOption]
      have hlen' : u.wires.length = g.numQubits := by rw [hwi,length_wiresOf hrs,hlen]
      have hac := hg.acts ψ.amplitude u.wires rs u.nodup hlen'
      have ha : WaveFunction.applyUnitary (rs.map qs.idxOf) (.gate g rs) (register ψ.amplitude) =
          .ok (register (u.apply ψ).amplitude) := by
        rw [WaveFunction.applyUnitary,← wiresOf_val hrs,← hwi,hac]
        rfl
      simp [WaveFunction.advanceOp,hu,Operation.qubits,ha,mk_pure_ok]
  look {qs op key invert ws} ψ report h := by
    cases h with
    | @look k _ _ rs hrs =>
      simp only [WaveFunction.advanceOp,Operation.qubits,← wiresOf_val hrs,measure_vector]
      rw [lift_bind_pure,PMF.map_comp]
      rfl
  pass ψ report h := by
    cases h with
    | look hrs => rfl
end
section
variable {k : ℕ}
lemma add_lt_double (w : Fin n) : n+w < 2*n := by omega
def firstWire (w : Fin n) : Fin (2*n) := ⟨w,(Nat.le_add_left _ n).trans_lt (add_lt_double w)⟩
def secondWire (w : Fin n) : Fin (2*n) := ⟨n+w,add_lt_double w⟩
lemma firstWire_injective : Injective (firstWire (n := n)) := fun v w h => by
  simpa [firstWire,Fin.ext_iff] using h
lemma secondWire_injective : Injective (secondWire (n := n)) := fun v w h => by
  simpa [secondWire,Fin.ext_iff] using h
lemma firstWire_ne_secondWire (v w : Fin n) : firstWire v ≠ secondWire w := by
  simp only [firstWire,secondWire,ne_eq,Fin.mk.injEq]
  omega
lemma extend_comp_wire {ι : Type} {f} (hf : Injective f) {w : Fin k → Fin n} (hw : Injective w) (c)
    (z : ι → Fin 2) : extend (f ∘ w) c z ∘ f = extend w c (z ∘ f) := by
  funext j
  by_cases hj : ∃ i, w i = j
  · obtain ⟨i,rfl⟩ := hj
    exact ((hf.comp hw).extend_apply c z i).trans (hw.extend_apply c (z ∘ f) i).symm
  · rw [extend_apply' _ _ _ hj]
    refine extend_apply' _ _ _ ?_
    rintro ⟨i,hi⟩
    exact hj ⟨i,hf hi⟩
def product (α β : Wave n) : Amplitudes (Fin (2*n)) := fun z => α (z ∘ firstWire) * β (z ∘ secondWire)
lemma density_eq_product (φ : Wave n) : density φ = product φ fun x => star (φ x) := rfl
section
variable {w : Fin k → Fin n} (hw : Injective w) (u : BitMatrix k)
include hw
lemma act_first (α β) : act (firstWire ∘ w) u (product α β) = product (act w u α) β := by
  funext z
  have hd : ∀ j v, (firstWire ∘ w) j ≠ secondWire v := fun j => firstWire_ne_secondWire (w j)
  simp only [act_apply,product,extend_comp_wire firstWire_injective hw,extend_comp_of_disjoint hd,Finset.sum_mul,mul_assoc]
  rfl
lemma act_second (α β) : act (secondWire ∘ w) u (product α β) = product α (act w u β) := by
  funext z
  have hd : ∀ j v, (secondWire ∘ w) j ≠ firstWire v := fun j v => (firstWire_ne_secondWire v (w j)).symm
  simp only [act_apply,product,extend_comp_wire secondWire_injective hw,extend_comp_of_disjoint hd,Finset.mul_sum,mul_left_comm]
  rfl
omit hw in
lemma act_star (φ : Wave n) : act w (u.map star) (fun x => star (φ x)) = fun x => star (act w u φ x) := by
  funext x
  simp [act_apply]
end
lemma onWires_eq_act (m) (ws : List ι) (h : ws.length = k) :
    onWires m ws = act (fun j => ws.get (j.cast h.symm)) ((toMatrix (2^k) m).submatrix (place k) (place k)) := by
  subst h
  rfl
lemma onWires_map {ι κ : Type} (f : ι → κ) (m) (ws : List ι) :
    onWires m (ws.map f) = act (f ∘ ws.get) ((toMatrix (2^ws.length) m).submatrix (place _) (place _)) := by
  rw [onWires_eq_act m (ws.map f) (length_map f)]
  congr 1
  funext j
  simp

/-- The images under all Kraus matrices are added up, whatever the other arrays hold. -/
lemma applyKraus_register {left right : List (Fin n)} (hl : left.Nodup) (hr : right.Nodup) (hlr : right.length = left.length)
    {ks : List (Mat ℝ)} (hks : ∀ m ∈ ks, Square (2^left.length) m) (φ ω : Wave n) (copy half : Tensor ℝ) :
    (ChannelArrays.applyKraus (left.map Fin.val) (right.map Fin.val) ⟨register φ,register ω,copy,half⟩ ks).sum =
      register (ks.map fun m => onWires m.conj right (onWires m left φ)).sum := by
  have hsum : ∀ a ω, a.copy = register φ → a.sum = register ω →
      (ks.foldl (ChannelArrays.addImage (left.map Fin.val) (right.map Fin.val)) a).sum =
        register (ω + (ks.map fun m => onWires m.conj right (onWires m left φ)).sum) := by
    induction ks with
    | nil =>
      intro a ω _ ha
      simpa using ha
    | cons m ks ih =>
      intro a ω hc ha
      have hm := hks m mem_cons_self
      have hm' : Square (2^right.length) m.conj := ⟨by rw [hlr]; exact hm.rows_eq,by rw [hlr]; exact hm.cols_eq⟩
      have hs : (a.addImage (left.map Fin.val) (right.map Fin.val) m).sum =
          register (ω + onWires m.conj right (onWires m left φ)) := by
        simp only [ChannelArrays.addImage,hc,ha,applyMatrix_register hl hm,applyMatrix_register hr hm',add_register]
      rw [map_cons,sum_cons,← add_assoc]
      exact ih (forall_mem_cons.mp hks).2 _ _ hc hs
  have hz : (register ω).map (fun _ => 0) = register (0 : Wave n) := by
    simp [Tensor.map,register,cpx]
    rfl
  exact (hsum _ 0 rfl hz).trans (by rw [zero_add])
lemma applyKraus_density {m ws} (hws : ws.Nodup) (hm : Square (2^ws.length) m) (φ : Wave n) :
    (register (density φ)).applyKraus [m] (ws.map Fin.val) ((ws.map Fin.val).map (· + n)) =
      register (density (onWires m ws φ)) := by
  have hl : ws.map Fin.val = (ws.map firstWire).map Fin.val := by simp [firstWire]
  have hr : (ws.map Fin.val).map (· + n) = (ws.map secondWire).map Fin.val := by simp [secondWire,add_comm]
  have hinj := nodup_iff_injective_get.mp hws
  rw [Tensor.applyKraus,hr,hl,ChannelArrays.ofState,applyKraus_register (hws.map firstWire_injective) (hws.map secondWire_injective)
    (by simp) (by simpa using hm),map_singleton,sum_singleton,onWires_map,onWires_map,density_eq_product,act_first hinj,act_second hinj,
    toMatrix_conj]
  exact congrArg (fun β => register (product _ β)) (act_star _ φ)
lemma followsOps_density : FollowsOps StatedGate (advanceOp (M := PMF)) fun ψ => register (density ψ.amplitude) where
  turn {qs op u} perform ψ report h := by
    cases h with
    | @turn g rs _ hg hlen hrs hwi =>
      have hlen' : u.wires.length = g.numQubits := by rw [hwi,length_wiresOf hrs,hlen]
      have ha : applyChannel qs.length (rs.map qs.idxOf) (.gate g rs) (register (density ψ.amplitude)) =
          .ok (register (density (u.apply ψ).amplitude)) := by
        have hs : ¬ g.numQubits ≠ (u.wires.map Fin.val).length := by simp [hlen']
        have hk := applyKraus_density u.nodup u.square ψ.amplitude
        rw [applyChannel,← wiresOf_val hrs,← hwi]
        simp only [channelGate,hg.kraus,bind,Except.bind,if_neg hs,hk]
        rfl
      have ho : advanceOp qs perform (register (density ψ.amplitude),report) (.gate g rs) =
          (do return (← ExceptT.mk (pure (applyChannel qs.length (rs.map qs.idxOf) (.gate g rs)
            (register (density ψ.amplitude)))),report) : ExceptT Fault PMF (Tensor ℝ × Report)) := by
        cases g with
        | measurement k key invert => exact absurd rfl (ne_measurement hg.hasUnitary k key invert)
        | _ => rfl
      rw [ho,ha,mk_pure_ok,pure_bind]
  look {qs op key invert ws} ψ report h := by
    cases h with
    | @look k _ _ rs hrs =>
      simp only [advanceOp,Operation.qubits,← wiresOf_val hrs]
      refine (congrArg (· >>= _) (measure_density ψ (wiresOf qs rs) (numQubits_density _))).trans ?_
      rw [lift_bind_pure,PMF.map_comp]
      rfl
  pass ψ report h := by
    cases h with
    | look hrs => rfl
end
section
variable {qs : Qubits} {advanceOp : Qubits → Bool → Tensor ℝ × Report → Operation ℝ → ExceptT Fault PMF (Tensor ℝ × Report)} {encode : {n : ℕ} → PureState n → Tensor ℝ}
def keysOf : List (Step n) → List String
  | [] => []
  | .turn _ :: steps => keysOf steps
  | .look key _ _ :: steps => key :: keysOf steps
lemma extend_new {key} (h : key ∉ report.map Prod.fst) (bits) : report.extend key bits = report ++ [(key,bits)] := by
  have hany : report.any (·.1 == key) = false := by
    rw [any_eq_false]
    intro e he hkey
    exact h (mem_map.mpr ⟨e,he,by simpa using hkey⟩)
  simp [Report.extend,hany]
lemma lift_map_bind {α β γ : Type} {p f} {k : β → ExceptT Fault PMF γ} {q : α → PMF γ} (h : ∀ a, k (f a) = ExceptT.lift (q a)) :
    (ExceptT.lift (p.map f) >>= k) = ExceptT.lift (p >>= q) := by
  rw [← lift_bind_pure,bind_assoc]
  simp only [pure_bind,h,lift_bind_lift]
lemma lift_bind_support {p k} {g : α → γ} (h : ∀ a ∈ p.support, k a = pure (g a)) :
    (ExceptT.lift p >>= k : ExceptT Fault PMF γ) = ExceptT.lift (p.map g) := by
  rw [← lift_bind_pure]
  apply ExceptT.ext
  simp only [ExceptT.run_bind,ExceptT.run_lift,bind_map_left]
  refine PMF.ext fun b => (PMF.bind_apply _ _ _).trans (Eq.trans (tsum_congr fun a => ?_) (PMF.bind_apply _ _ _).symm)
  by_cases ha : a ∈ p.support
  · simp only [h a ha]
  · rw [(PMF.apply_eq_zero_iff p a).mpr ha,zero_mul,zero_mul]
lemma keys_of_mem_observe {ψ steps} {p : Report × PureState n} (hp : p ∈ (observe ψ steps).support) :
    p.1.map Prod.fst = keysOf steps := by
  induction steps generalizing ψ p with
  | nil =>
    have hnil : p = ([],ψ) := (PMF.mem_support_pure_iff _ _).mp hp
    rw [hnil]
    rfl
  | cons step steps ih =>
    cases step with
    | turn u => exact ih hp
    | look key invert ws =>
      rw [observe_look,PMF.mem_support_bind_iff] at hp
      obtain ⟨x,-,hx⟩ := hp
      obtain ⟨r,hr,rfl⟩ := (PMF.mem_support_map_iff _ _ _).mp hx
      exact congrArg (key :: ·) (ih hr)
lemma foldlM_evolve (hops : FollowsOps G advanceOp encode) {steps} (h : StepsOf G qs ops steps) (ψ report) :
    ops.foldlM (advanceOp qs false) (encode ψ,report) = pure (encode (evolve ψ steps),report) := by
  induction h generalizing ψ with
  | nil => rfl
  | @cons op step ops steps hop _ ih =>
    rw [foldlM_cons]
    cases step with
    | turn u => rw [hops.turn false ψ report hop,pure_bind,ih,evolve]
    | look key invert ws => rw [hops.pass ψ report hop,pure_bind,ih,evolve]
lemma foldlM_observe (hops : FollowsOps G advanceOp encode) {steps} (h : StepsOf G qs ops steps)
    (ψ) (hk : (report.map Prod.fst ++ keysOf steps).Nodup) :
    ops.foldlM (advanceOp qs true) (encode ψ,report) =
      ExceptT.lift ((observe ψ steps).map fun p => (encode p.2,report ++ p.1)) := by
  induction h generalizing ψ report with
  | nil =>
    have hmap : (observe ψ []).map (fun p => (encode p.2,report ++ p.1)) = pure (encode ψ,report) :=
      (PMF.pure_map _ _).trans (by rw [append_nil]; rfl)
    rw [foldlM_nil,pure_eq_lift,hmap]
  | @cons op step ops steps hop _ ih =>
    rw [foldlM_cons]
    cases step with
    | turn u =>
      rw [hops.turn true ψ report hop,pure_bind,ih (u.apply ψ) hk,observe]
    | look key invert ws =>
      have hnew : key ∉ report.map Prod.fst := fun hmem =>
        (nodup_append.mp hk).2.2 key hmem key (by simp [keysOf]) rfl
      have hre : ∀ bits, ((report ++ [(key,bits)]).map Prod.fst ++ keysOf steps).Nodup := by
        simpa [keysOf] using hk
      rw [hops.look ψ report hop,lift_map_bind fun x => by rw [extend_new hnew]; exact ih (ψ.given ws x) (hre _)]
      have hr : ∀ bits (p : Report × PureState qs.length),
          (encode p.2,(report ++ [(key,bits)]) ++ p.1) = (encode p.2,report ++ (key,bits) :: p.1) := by simp
      simp only [hr]
      exact congrArg ExceptT.lift
        (bind_observe_look (PMF.pure ∘ fun p => (encode p.2,report ++ p.1)) ψ key invert ws steps).symm
end
section
def ground (n : ℕ) : PureState n where
  amplitude x := if number x = 0 then 1 else 0
  unit := by
    have hp : ∀ x : Fin n → Fin 2, Complex.normSq (if number x = 0 then 1 else 0) =
        (fun i : Fin (2^n) => if i = 0 then (1 : ℝ) else 0) (place n x) := by
      intro x
      have hz : place n x = 0 ↔ number x = 0 := by rw [Fin.ext_iff,place_val,Fin.val_zero]
      simp only [hz]
      split <;> simp
    simp only [hp]
    rw [Equiv.sum_comp (place n) fun i : Fin (2^n) => if i = 0 then (1 : ℝ) else 0]
    simp
variable (G) (sim : Simulator ℝ (Tensor ℝ) PMF) (encode : {n : ℕ} → PureState n → Tensor ℝ)
structure Faithful : Prop where
  check : ∀ c, sim.check c = .ok ()
  start : ∀ n, sim.start n (.basis 0) = .ok (encode (ground n))
  advance : ∃ advanceOp, FollowsOps G advanceOp encode ∧
    ∀ {qs : Qubits} {m : OpMoment ℝ} {steps : List (Step qs.length)} (perform : Bool) (t : Tensor ℝ),
      StepsOf G qs m.ops steps → sim.advance qs perform t m = m.ops.foldlM (advanceOp qs perform) (t,[])
  sample : ∀ {n : ℕ} (ψ : PureState n) (ws : List (Fin n)),
    sim.sample (indices ws) 1 (encode ψ) = ExceptT.lift (ψ.law.map fun x => [readout ws x])
  repeatsKeys : sim.repeatsKeys = true
variable {G sim encode} {qs : Qubits} {ms : Moments (Operation ℝ)} {stepss : List (List (Step qs.length))}
lemma keysOf_append (steps rest : List (Step n)) : keysOf (steps ++ rest) = keysOf steps ++ keysOf rest := by
  induction steps with
  | nil => rfl
  | cons step steps ih => cases step <;> simp [keysOf,ih]
lemma evolve_append (ψ) (steps rest : List (Step n)) : evolve ψ (steps ++ rest) = evolve (evolve ψ steps) rest := by
  induction steps generalizing ψ with
  | nil => rfl
  | cons step steps ih => cases step <;> simp [evolve,ih]
variable (hsim : Faithful G sim encode) (h : StagesOf G qs ms stepss)
include hsim h
lemma walk_evolve (ψ report) : ∃ all, sim.walk qs false (encode ψ) ms = pure all ∧ all.length = ms.length ∧
      ∃ last, ((encode ψ,report) :: all).getLast? = some (encode (evolve ψ stepss.flatten),last) := by
  induction h generalizing ψ report with
  | nil => exact ⟨[],rfl,rfl,report,rfl⟩
  | @cons m steps ms stepss hm _ ih =>
    obtain ⟨advanceOp,hops,ha⟩ := hsim.advance
    obtain ⟨all,hall,hlen,last,hl⟩ := ih (evolve ψ steps) []
    refine ⟨(encode (evolve ψ steps),[]) :: all,?_,by simp [hlen],last,?_⟩
    · rw [walk,ha false (encode ψ) hm,foldlM_evolve hops hm]
      simp [hall]
    · rw [getLast?_cons_cons,hl,flatten_cons,evolve_append]
lemma walk_observe (hk : (keysOf stepss.flatten).Nodup) (ψ) :
    (sim.walk qs true (encode ψ) ms >>= fun all => pure (all.flatMap Prod.snd)) =
      ExceptT.lift ((observe ψ stepss.flatten).map Prod.fst) := by
  induction h generalizing ψ with
  | nil =>
    have hmap : (observe ψ []).map Prod.fst = pure [] := PMF.pure_map _ _
    rw [walk,pure_bind,pure_eq_lift,flatten_nil,hmap]
    rfl
  | @cons m steps ms stepss hm _ ih =>
    obtain ⟨advanceOp,hops,ha⟩ := hsim.advance
    rw [flatten_cons,keysOf_append,nodup_append] at hk
    have hwa : ∀ φ report, (sim.walk qs true (encode φ) ms >>= fun rest =>
        pure (report ++ rest.flatMap Prod.snd)) =
          ExceptT.lift ((observe φ stepss.flatten).map fun p => report ++ p.1) := by
      intro φ report
      have hb := congrArg (· >>= fun r => (pure (report ++ r))) (ih hk.2.1 φ)
      simp only [bind_assoc,pure_bind,lift_bind_pure,PMF.map_comp] at hb
      exact hb
    simp only [walk,bind_assoc,pure_bind]
    rw [ha true (encode ψ) hm,foldlM_observe hops hm ψ (by simpa using hk.1),lift_map_bind fun p => hwa p.2 ([] ++ p.1)]
    exact congrArg ExceptT.lift (bind_observe_append (PMF.pure ∘ Prod.fst) ψ steps stepss.flatten).symm
end
section
lemma exists_of_mem_forall₂ {α β : Type} {R} {as : List α} {bs} (h : Forall₂ R as bs) {b : β} (hb : b ∈ bs) :
    ∃ a ∈ as, R a b := by
  obtain ⟨n,hn,rfl⟩ := getElem_of_mem hb
  have hlt : n < as.length := h.length_eq ▸ hn
  exact ⟨as[n],getElem_mem hlt,h.get hlt hn⟩
lemma forall_of_steps {qs steps} {P : Operation ℝ → Prop} (h : StepsOf G qs ops steps)
    (ht : ∀ g m rs, G g m → P (.gate g rs)) (hl : ∀ k key invert rs, P (.gate (.measurement k key invert) rs)) :
    ∀ op ∈ ops, P op := by
  intro op hop
  obtain ⟨step,-,hst⟩ := exists_of_mem_forall₂ h.flip hop
  cases hst with
  | turn hg => exact ht _ _ _ hg
  | look => exact hl _ _ _ _
lemma entries_basis (n k) :
    (StateVector.basis n k) = (register fun x : Fin n → Fin 2 => if number x = k then 1 else 0).entries := by
  refine entries_eq (by simp [StateVector.basis]) fun x => ?_
  have hlt := number_lt x
  simp only [StateVector.basis,Array.size_ofFn,hlt,dif_pos,Array.getInternal_eq_getElem,Array.getElem_ofFn]
  split <;> rfl
lemma vector_ground (n p) [NumberText ℝ] :
    (InitialState.basis 0).vector n p = .ok (register (ground n).amplitude).entries := by
  simp [InitialState.vector,entries_basis,ground]
lemma outer_register (φ : Wave n) :
    Tensor.ofMat (Tensor.qubitShape (2*n)) (StateVector.outer (register φ).entries) = register (density φ) := by
  have he : (StateVector.outer (register φ).entries).entries = (register (density φ)).entries := by
    have hpow : 2^n*2^n = 2^(2*n) := by rw [← pow_add,two_mul]
    refine entries_eq (by simp [StateVector.outer,Mat.ofFn,hpow]) fun z => ?_
    have hget : (StateVector.outer (register φ).entries).get (number (first z)) (number (second z)) =
        cpx (φ (first z)) * (cpx (φ (second z))).conj := by
      refine (get_ofFn _ ?_ ?_).trans ?_
      · rw [size_register]; exact number_lt _
      · rw [size_register]; exact number_lt _
      · rw [getD_register,getD_register]
    have hc : (StateVector.outer (register φ).entries).cols = 2^n := size_register φ
    rw [Mat.get,hc,← number_pair] at hget
    rw [hget,← cpx_val (_*_),val_mul,val_conj,val_cpx,val_cpx,density]
  exact congrArg (Tensor.mk _) he
lemma hasChannel_of_hasUnitary (h : g.hasUnitary = .ok true) : g.hasChannel = .ok true := by
  cases g <;> first | rfl | simp [hasChannel,hasMixtureChannel,h,bind,Except.bind]
variable [OperationText ℝ] [NumberText ℝ]
lemma faithful_vector (p : Precision) : Faithful UnitaryGate (WaveFunction.simulator p) fun ψ => register ψ.amplitude where
  check _ := rfl
  start n := by
    simp only [WaveFunction.simulator,vector_ground]
    rfl
  advance := by
    refine ⟨WaveFunction.advanceOp,followsOps_vector,fun {qs m steps} perform t h => ?_⟩
    have hs : m.ops.filter (fun op => !WaveFunction.isDisplay op) = m.ops :=
      filter_eq_self.mpr (forall_of_steps h (fun _ _ _ _ => rfl) fun _ _ _ _ => rfl)
    have hk : ∀ op ∈ m.ops, WaveFunction.expander.keep op := by
      refine forall_of_steps h (fun g u rs hg => ?_) fun k key invert rs => rfl
      simp [WaveFunction.expander,WaveFunction.hasUnitary,Operation.hasUnitary,hg.hasUnitary,Except.toOption]
    simp [WaveFunction.simulator,WaveFunction.advance,hs,expand_kept _ hk,mk_pure_ok]
  sample ψ ws := (sample_vector ψ ws 1).trans (congrArg _ rows_one)
  repeatsKeys := rfl
lemma faithful_density (p : Precision) : Faithful StatedGate (simulator p) fun ψ => register (density ψ.amplitude) where
  check _ := rfl
  start n := by
    simp only [simulator,InitialState.density,vector_ground]
    exact congrArg Except.ok (outer_register _)
  advance := by
    refine ⟨advanceOp,followsOps_density,fun {qs m steps} perform t h => ?_⟩
    have hk : ∀ op ∈ m.ops, expander.keep op := by
      refine forall_of_steps h (fun g u rs hg => ?_) fun k key invert rs => rfl
      simp [expander,Operation.hasChannel,hasChannel_of_hasUnitary hg.hasUnitary,Except.toOption]
    simp [simulator,MixedState.advance,expand_kept _ hk,mk_pure_ok]
  sample ψ ws := (sample_density ψ ws (numQubits_density _) 1).trans (congrArg _ rows_one)
  repeatsKeys := rfl
end
section
def rowsOf (report : Report) : Measurements := report.map fun e => (e.1,[e.2])
lemma keys_reportOf (correct x) (steps : List (Step n)) :
    (reportOf correct x steps).map Prod.fst = keysOf steps := by
  induction steps with
  | nil => rfl
  | cons step steps ih => cases step <;> simp [reportOf,keysOf,ih]
lemma addRows_append (m r s) : addRows m (r ++ s) = addRows (addRows m r) s := foldl_append
lemma foldl_addRows {S : Type} (all : List (S × Report)) (m) :
    all.foldl (fun m p => addRows m p.2) m = addRows m (all.flatMap Prod.snd) := by
  induction all generalizing m with
  | nil => rfl
  | cons p all ih => rw [foldl_cons,ih,flatMap_cons,addRows_append]
lemma addRows_new {m} (h : (m.map Prod.fst ++ report.map Prod.fst).Nodup) : addRows m report = m ++ rowsOf report := by
  induction report generalizing m with
  | nil => simp [addRows,rowsOf]
  | cons e report ih =>
    have hany : m.any (·.1 == e.1) = false := by
      rw [any_eq_false]
      intro e' he' hkey
      exact (nodup_append.mp h).2.2 e'.1 (mem_map_of_mem he') e.1 (by simp) (by simpa using hkey)
    have hs : addRows m (e :: report) = addRows (m ++ [(e.1,[e.2])]) report := by
      simp [addRows,hany]
    rw [hs,ih (by simpa using h)]
    simp [rowsOf]
lemma checkRows_rowsOf (report) : checkRows (rowsOf report) = .ok () := by simp [checkRows,rowsOf]
lemma checkSampled_of_nodup {ms seen} (h : (seen ++ ms.map Prod.fst).Nodup) : checkSampled seen ms = .ok () := by
  induction ms generalizing seen with
  | nil => rfl
  | cons m ms ih =>
    have hnew : seen.contains m.1 = false := by
      rw [contains_eq_mem,decide_eq_false_iff_not]
      exact fun hmem => (nodup_append.mp h).2.2 m.1 hmem m.1 (by simp) rfl
    have hr : (m.1 :: seen ++ ms.map Prod.fst).Nodup := by
      refine (Perm.nodup_iff ?_).mp h
      exact perm_middle
    rw [checkSampled,hnew]
    exact ih hr
end
section
variable {qs : Qubits} {steps : List (Step qs.length)}
variable (G) in
inductive Part : Operation ℝ → Prop
  | gate {g : Gate ℝ} {m : Mat ℝ} {rs : Qubits} (hg : G g m) (hlength : rs.length = g.numQubits) : Part (.gate g rs)
  | measurement (k : ℕ) (key : String) (invert : List Bool) (rs : Qubits) : Part (.gate (.measurement k key invert) rs)
lemma exists_forall₂ {α β : Type} {R : α → β → Prop} {as} (h : ∀ a ∈ as, ∃ b, R a b) : ∃ bs, Forall₂ R as bs := by
  induction as with
  | nil => exact ⟨[],.nil⟩
  | cons a as ih =>
    obtain ⟨b,hb⟩ := h a mem_cons_self
    obtain ⟨bs,hbs⟩ := ih (forall_mem_cons.mp h).2
    exact ⟨b :: bs,.cons hb hbs⟩
lemma exists_step (hG : ByUnitaries G) {op} (hop : Part G op) (hn : op.qubits.Nodup)
    (hqs : op.qubits ⊆ qs) : ∃ step, StepOf G qs op step := by
  cases hop with
  | @gate g m rs hg hlen =>
    have hwi : (wiresOf qs rs).length = g.numQubits := (length_wiresOf hqs).trans hlen
    have hsq := (hG hg).square
    have hu := (hG hg).unitary
    rw [← hwi] at hsq hu
    exact ⟨.turn ⟨wiresOf qs rs,nodup_wiresOf hqs hn,m,hsq,hu⟩,.turn hg hlen hqs rfl⟩
  | measurement k key invert rs => exact ⟨_,.look hqs⟩
lemma forall₂_flatten {ms stepss} (h : StagesOf G qs ms stepss) : StepsOf G qs (ms.flatMap Moment.ops) stepss.flatten := by
  induction h with
  | nil => exact .nil
  | cons hm _ ih => exact rel_append hm ih
lemma settled_of_pairwise (h : StepsOf G qs ops steps)
    (hops : ops.Pairwise fun a b => a.isMeasurement → a.qubits.Disjoint b.qubits) : Settled steps := by
  induction h with
  | nil => exact trivial
  | @cons op step ops steps hop hr ih =>
    obtain ⟨hf,hl⟩ := pairwise_cons.mp hops
    cases hop with
    | turn => exact ih hl
    | @look k key invert rs hrs =>
      refine ⟨fun u hu => ?_,ih hl⟩
      obtain ⟨op',hmem,hop'⟩ := exists_of_mem_forall₂ hr hu
      cases hop' with
      | turn hg hlen hrs' hwi =>
        rw [hwi]
        exact (disjoint_wiresOf (hf _ hmem rfl)).symm
def looked : List (Step n) → List (Fin n)
  | [] => []
  | .turn _ :: steps => looked steps
  | .look _ _ ws :: steps => ws ++ looked steps
def measuredOf (ops : Ops ℝ) : List (String × Qubits) :=
  ops.filterMap fun op => op.measurementKey?.map fun k => (k,op.qubits)
lemma measuredOf_turn (h : g.hasUnitary = .ok true) (rs) : measuredOf (.gate g rs :: ops) = measuredOf ops := by
  cases g with
  | measurement k key invert => exact absurd rfl (ne_measurement h k key invert)
  | _ => rfl
section
variable (hG : ByUnitaries G) (h : StepsOf G qs ops steps)
include hG h
lemma keys_measuredOf : (measuredOf ops).map Prod.fst = keysOf steps := by
  induction h with
  | nil => rfl
  | cons hop _ ih =>
    cases hop with
    | turn hg => rw [measuredOf_turn (hG hg).hasUnitary,ih,keysOf]
    | look => exact congrArg (cons _) ih
lemma looked_val : (looked steps).map Fin.val = ((measuredOf ops).flatMap Prod.snd).map qs.idxOf := by
  induction h with
  | nil => rfl
  | @cons _ _ ops steps hop _ ih =>
    cases hop with
    | turn hg => rw [measuredOf_turn (hG hg).hasUnitary,← ih,looked]
    | @look k key invert rs hrs =>
      have hc : measuredOf (.gate (.measurement k key invert) rs :: ops) = (key,rs) :: measuredOf ops := rfl
      rw [hc,looked,map_append,flatMap_cons,map_append,ih,wiresOf_val hrs]
lemma splitRows_readout (seen : List Bool) (x : Fin qs.length → Fin 2) :
    splitRows [seen ++ readout (looked steps) x] seen.length (measuredOf ops) =
      rowsOf (reportOf (fun _ bits => bits) x steps) := by
  induction h generalizing seen with
  | nil => rfl
  | @cons _ _ ops steps hop _ ih =>
    cases hop with
    | turn hg => rw [measuredOf_turn (hG hg).hasUnitary,looked,ih,reportOf]
    | @look k key invert rs hrs =>
      have hc : measuredOf (.gate (.measurement k key invert) rs :: ops) = (key,rs) :: measuredOf ops := rfl
      have hlen : (readout (wiresOf qs rs) x).length = rs.length := by rw [readout,length_map,length_wiresOf hrs]
      have hre : readout (wiresOf qs rs ++ looked steps) x = readout (wiresOf qs rs) x ++ readout (looked steps) x :=
        map_append
      have hr := ih (seen ++ readout (wiresOf qs rs) x)
      rw [append_assoc,length_append,hlen] at hr
      rw [hc,looked,hre,splitRows,hr]
      simp [reportOf,rowsOf,← hlen]
end
def maskIn (key : String) : Ops ℝ → List Bool
  | .gate (.measurement _ k invert) _ :: ops => if k = key then invert else maskIn key ops
  | _ :: ops => maskIn key ops
  | [] => []

/-- Results with the bits inverted that the measurements of a circuit ask to invert. -/
def inverted (c : OpCircuit ℝ) (m : Measurements) : Measurements :=
  m.map fun e => (e.1,e.2.map (invertBits (maskIn e.1 c.operations)))
def Plain (c : OpCircuit ℝ) : Prop :=
  ∀ k key invert rs, Operation.gate (.measurement k key invert) rs ∈ c.operations →
    invert = [] ∨ invert = List.replicate rs.length false
lemma maskIn_turn (h : g.hasUnitary = .ok true) (key rs) :
    maskIn key (.gate g rs :: ops) = maskIn key ops := by
  cases g with
  | measurement k key invert => exact absurd rfl (ne_measurement h k key invert)
  | _ => rfl
lemma reportOf_inverted (hG : ByUnitaries G) (h : StepsOf G qs ops steps) (hk : (keysOf steps).Nodup) (x : Fin qs.length → Fin 2) :
    reportOf invertBits x steps =
      (reportOf (fun _ bits => bits) x steps).map fun e => (e.1,invertBits (maskIn e.1 ops) e.2) := by
  induction h with
  | nil => rfl
  | @cons _ _ ops steps hop _ ih =>
    cases hop with
    | turn hg =>
      simp only [maskIn_turn (hG hg).hasUnitary]
      exact ih hk
    | @look k key invert rs hrs =>
      obtain ⟨hnew,hr⟩ := nodup_cons.mp hk
      have ho : ∀ e ∈ reportOf (fun _ bits => bits) x steps,
          maskIn e.1 (.gate (.measurement k key invert) rs :: ops) = maskIn e.1 ops := by
        intro e he
        have hkey : e.1 ∈ keysOf steps := keys_reportOf (fun _ bits => bits) x steps ▸ mem_map_of_mem he
        exact if_neg fun hs : key = e.1 => hnew (hs ▸ hkey)
      have hr' : (reportOf (fun _ bits => bits) x steps).map (fun e =>
          (e.1,invertBits (maskIn e.1 (.gate (.measurement k key invert) rs :: ops)) e.2)) = reportOf invertBits x steps := by
        rw [ih hr]
        exact map_congr_left fun e he => by rw [ho e he]
      rw [reportOf,reportOf,map_cons,hr']
      simp [maskIn]
lemma invertBits_replicate (bits) : invertBits (replicate bits.length false) bits = bits := by
  unfold invertBits
  split
  case isTrue => rfl
  case isFalse => exact ext_getElem (by simp) fun i hi hi' => by simp
lemma reportOf_plain (hp : ∀ k key invert rs, Operation.gate (.measurement k key invert) rs ∈ ops →
      invert = [] ∨ invert = replicate rs.length false)
    (h : StepsOf G qs ops steps) (x : Fin qs.length → Fin 2) :
    reportOf invertBits x steps = reportOf (fun _ bits => bits) x steps := by
  induction h with
  | nil => rfl
  | @cons _ _ ops steps hop _ ih =>
    have hr := ih fun k key invert rs hmem => hp k key invert rs (mem_cons_of_mem _ hmem)
    cases hop with
    | turn hg => exact hr
    | @look k key invert rs hrs =>
      have hb : invertBits invert (readout (wiresOf qs rs) x) = readout (wiresOf qs rs) x := by
        rcases hp k key invert rs mem_cons_self with rfl | rfl
        · rfl
        · have hlen : (readout (wiresOf qs rs) x).length = rs.length := by rw [readout,length_map,length_wiresOf hrs]
          rw [← hlen,invertBits_replicate]
      rw [reportOf,reportOf,hb,hr]
end
section
variable [OperationText ℝ] {sim : Simulator ℝ (Tensor ℝ) PMF} {encode : {n : ℕ} → PureState n → Tensor ℝ} {c : OpCircuit ℝ}
variable (G c) in
/-- Unitary gates and terminal measurements under different keys. -/
structure Samplable : Prop where
  overlapFree : Legal c
  parts : ∀ op ∈ c.operations, Part G op
  terminal : c.measurementsAreTerminal = true
  keys : ((measured c).map Prod.fst).Nodup
lemma Samplable.imp {H} (hc : Samplable G c) (h : ∀ {g m}, G g m → H g m) : Samplable H c where
  overlapFree := hc.overlapFree
  parts op hop := by
    cases hc.parts op hop with
    | gate hg hlen => exact .gate (h hg) hlen
    | measurement k key invert rs => exact .measurement k key invert rs
  terminal := hc.terminal
  keys := hc.keys
lemma subset_sortedQubits {op} (hop : op ∈ c.operations) : op.qubits ⊆ c.sortedQubits := by
  intro q hq
  rw [sortedQubits,Qubit.sort,mem_mergeSort,FrontierInsertion.mem_distinct]
  exact mem_flatMap.mpr ⟨op,hop,hq⟩
lemma exists_steps (hG : ByUnitaries G) (hf : Legal c) (hp : ∀ op ∈ c.operations, Part G op) :
    ∃ stepss, StagesOf G c.sortedQubits c.moments stepss := by
  refine exists_forall₂ fun m hm => exists_forall₂ fun op hop => ?_
  have hmem : op ∈ c.operations := mem_flatMap.mpr ⟨m,hm,hop⟩
  exact exists_step hG (hp op hmem) ((overlapFree_iff.mp (hf m hm)).1 op hop) (subset_sortedQubits hmem)
lemma Samplable.pairwise (hc : Samplable G c) :
    c.operations.Pairwise fun a b => a.isMeasurement → a.qubits.Disjoint b.qubits := by
  refine pairwise_flatMap.mpr ⟨fun m hm => ?_,?_⟩
  · refine Pairwise.imp ?_ (overlapFree_iff.mp (hc.overlapFree m hm)).2
    intro a b hd _
    exact hd
  · rw [pairwise_iff_getElem]
    intro i j hi hj hij a ha b hb hme q hqa hqb
    have hp : (i,a) ∈ c.placed := by
      refine mem_flatMap.mpr ⟨(c.moments[i],i),?_,mem_map.mpr ⟨a,ha,rfl⟩⟩
      exact mem_zipIdx_iff_getElem?.mpr (getElem?_eq_getElem hi)
    have ht := all_eq_true.mp hc.terminal _ hp
    simp only [hme,Bool.not_true,Bool.false_or,Option.isNone_iff_eq_none,Circuit.next?,find?_eq_none] at ht
    have hpl : (j : ℤ) ∈ places (i+1) (c.size-(i+1)) := by
      refine mem_map.mpr ⟨j-(i+1),?_,by omega⟩
      rw [mem_range,size]
      omega
    refine ht j hpl ?_
    have hmo : c.momentAt? j = some c.moments[j] := by simp [momentAt?]
    rw [actsAt,hmo]
    refine any_eq_true.mpr ⟨q,hqa,?_⟩
    exact contains_iff_mem.mpr (mem_flatMap.mpr ⟨b,hb,hqb⟩)
omit [OperationText ℝ] in
lemma resolve_parts (hG : ByUnitaries G) (hp : ∀ op ∈ c.operations, Part G op) : resolve .empty c = c := by
  have hop : ∀ op ∈ c.operations, op.resolve Resolver.empty.get? = op := by
    intro op hop
    cases hp op hop with
    | gate hg => rw [Operation.resolve,(hG hg).resolved]
    | measurement => rfl
  have hmo : ∀ m ∈ c.moments, ⟨m.ops.map fun op => op.resolve Resolver.empty.get?⟩ = m := by
    intro m hm
    have hops : m.ops.map (fun op => op.resolve Resolver.empty.get?) = m.ops :=
      (map_congr_left fun op hmem => hop op (mem_flatMap.mpr ⟨m,hm,hmem⟩)).trans (map_id' _)
    rw [hops]
  exact congrArg Circuit.mk ((map_congr_left hmo).trans (map_id' _))
lemma steps_eq (hsim : Faithful G sim encode) (hc : resolve .empty c = c) (perform) :
    sim.steps c .empty .sorted (.basis 0) perform = if c.moments.isEmpty then pure [(encode (ground c.sortedQubits.length),[])]
      else sim.walk c.sortedQubits perform (encode (ground c.sortedQubits.length)) c.moments := by
  have hqs : c.orderedQubits .sorted [] = .ok c.sortedQubits := by
    rw [orderedQubits,append_nil]
    rfl
  simp [steps,hc,hsim.check,hqs,hsim.start,mk_pure_ok]
lemma runRepeated_observe (hsim : Faithful G sim encode) (hc : resolve .empty c = c) {stepss}
    (hs : StagesOf G c.sortedQubits c.moments stepss)
    (hk : (keysOf stepss.flatten).Nodup) :
    sim.runRepeated c 1 = ExceptT.lift (((observe (ground c.sortedQubits.length) stepss.flatten).map Prod.fst).map rowsOf) := by
  have hre : (sim.steps c .empty .sorted (.basis 0) true >>= fun all => pure (all.flatMap Prod.snd)) =
      ExceptT.lift ((observe (ground c.sortedQubits.length) stepss.flatten).map Prod.fst) := by
    rw [← walk_observe hsim hs hk,steps_eq hsim hc]
    by_cases he : c.moments.isEmpty
    · have hnil : c.moments = [] := by simpa using he
      simp [hnil,walk]
    · simp [he]
  have hrun : sim.runRepeated c 1 = (sim.steps c .empty .sorted (.basis 0) true >>= fun all => pure (all.flatMap Prod.snd)) >>=
      fun r => (do ExceptT.mk (pure (checkRows (addRows [] r))); pure (addRows [] r)) := by
    simp [runRepeated,hsim.repeatsKeys,foldl_addRows]
  rw [hrun,hre]
  refine lift_bind_support fun r hr => ?_
  obtain ⟨p,hp,rfl⟩ := (PMF.mem_support_map_iff _ _ _).mp hr
  have hro : addRows [] p.1 = rowsOf p.1 := by
    refine addRows_new ?_
    rw [keys_of_mem_observe hp]
    exact hk
  rw [hro,checkRows_rowsOf,mk_pure_ok,pure_bind]

/-- Both ways to run a circuit, by what they report for each assignment of bits in the final state. -/
lemma runs_eq (hG : ByUnitaries G) (hsim : Faithful G sim encode) (hc : Samplable G c) {stepss}
    (hs : StagesOf G c.sortedQubits c.moments stepss) :
    sim.runSampled c 1 = ExceptT.lift ((evolve (ground c.sortedQubits.length) stepss.flatten).law.map fun x =>
      rowsOf (reportOf (fun _ bits => bits) x stepss.flatten)) ∧
    sim.runRepeated c 1 = ExceptT.lift ((evolve (ground c.sortedQubits.length) stepss.flatten).law.map fun x =>
      rowsOf (reportOf invertBits x stepss.flatten)) := by
  have hf : StepsOf G c.sortedQubits c.operations stepss.flatten := forall₂_flatten hs
  have hm : measured c = measuredOf c.operations := rfl
  have hk : (keysOf stepss.flatten).Nodup := by
    rw [← keys_measuredOf hG hf]
    exact hc.keys
  constructor
  · have hl : ∃ all last, sim.steps c .empty .sorted (.basis 0) false = pure all ∧
        all.getLast? = some (encode (evolve (ground c.sortedQubits.length) stepss.flatten),last) := by
      obtain ⟨all,hall,hlen,last,hl⟩ := walk_evolve hsim hs (ground c.sortedQubits.length) []
      rw [steps_eq hsim (resolve_parts hG hc.parts)]
      by_cases he : c.moments.isEmpty
      · have hnil : c.moments = [] := by simpa using he
        obtain rfl : stepss = [] := forall₂_nil_left_iff.mp (hnil ▸ hs)
        exact ⟨_,[],if_pos he,rfl⟩
      · cases all with
        | nil => simp [length_eq_zero_iff.mp hlen.symm] at he
        | cons s all =>
          exact ⟨s :: all,last,(if_neg he).trans hall,hl⟩
    obtain ⟨all,last,hall,hl⟩ := hl
    have hp : ((measuredOf c.operations).flatMap Prod.snd).map (fun q => (c.sortedQubits.idxOf q : ℤ)) =
        indices (looked stepss.flatten) := by
      rw [indices,looked_val hG hf,map_map]
      rfl
    have hch : checkSampled [] (measuredOf c.operations) = .ok () := checkSampled_of_nodup hc.keys
    simp only [runSampled,hall,pure_bind,hl,sampleMeasured,hm,hch,mk_pure_ok,hp,hsim.sample]
    rw [lift_bind_pure,PMF.map_comp]
    congr 2
    funext x
    exact splitRows_readout hG hf [] x
  · rw [runRepeated_observe hsim (resolve_parts hG hc.parts) hs hk,observe_map_fst _ (settled_of_pairwise hf hc.pairwise),
      PMF.map_comp]
    rfl
variable (sim c) in
/-- Both ways to run a circuit give results; those of measuring along the way are those of sampling with bits inverted. -/
def SampledThenInverted : Prop :=
  ∃ L : PMF Measurements, sim.runSampled c 1 = ExceptT.lift L ∧ sim.runRepeated c 1 = ExceptT.lift (L.map (inverted c)) ∧
    (Plain c → sim.runRepeated c 1 = sim.runSampled c 1)
lemma sampledThenInverted (hG : ByUnitaries G) (hsim : Faithful G sim encode) (hc : Samplable G c) : SampledThenInverted sim c := by
  obtain ⟨stepss,hst⟩ := exists_steps hG hc.overlapFree hc.parts
  have hf : StepsOf G c.sortedQubits c.operations stepss.flatten := forall₂_flatten hst
  have hk : (keysOf stepss.flatten).Nodup := by
    rw [← keys_measuredOf hG hf]
    exact hc.keys
  obtain ⟨hs,hr⟩ := runs_eq hG hsim hc hst
  refine ⟨_,hs,?_,fun hp => ?_⟩
  · rw [hr,PMF.map_comp]
    congr 2
    funext x
    rw [reportOf_inverted hG hf hk]
    simp [rowsOf,inverted]
  · rw [hr,hs]
    simp only [reportOf_plain hp hf]
end
section
lemma numQubits_matrix {m k} (hk : k = 1 ∨ k = 2) (hm : Square (2^k) m) (isComplex) :
    (matrix m isComplex).numQubits = k := by
  rw [numQubits,hm.rows_eq]
  rcases hk with rfl | rfl <;> rfl
lemma statedGate_matrix {m k} (hk : k = 1 ∨ k = 2) (hm : Square (2^k) m)
    (hu : (toMatrix (2^k) m).conjTranspose * toMatrix (2^k) m = 1) (isComplex : Bool) :
    StatedGate (.matrix m isComplex) m where
  resolved := rfl
  hasUnitary := rfl
  square := by rwa [numQubits_matrix hk hm]
  unitary := by rwa [numQubits_matrix hk hm]
  acts φ ws rs hws hlen := by
    rw [numQubits_matrix hk hm] at hlen
    subst hlen
    have hr : m.rows = 2^(ws.map Fin.val).length := by rw [length_map,hm.rows_eq]
    have hown : matrixAt (97+1) (.matrix m isComplex) = .ok (some m) := by
      rfl
    have hact : (Operation.gate (.matrix m isComplex) rs).act? (register φ) (ws.map Fin.val) =
        applyAt (98+1) (.matrix m isComplex) (register φ) (ws.map Fin.val) := by
      have hn : (Operation.gate (.matrix m isComplex) rs).act? (register φ) (ws.map Fin.val) =
        Operation.applyAt (99+1) (.gate (.matrix m isComplex) rs) (register φ) (ws.map Fin.val) := rfl
      rw [hn,Operation.applyAt]
    rw [hact,applyAt,ownAction,hown]
    · simp only [bind,Except.bind,hr,if_true,applyMatrix_register hws hm]
    all_goals simp
  kraus := rfl
end
/-- Of the two ways to run a circuit of unitary gates and terminal measurements under different keys, only measuring along the
way inverts bits. -/
theorem runRepeated_inverts_sampled [OperationText ℝ] [NumberText ℝ] (p : Precision) (c : Circuit (Operation ℝ)) :
    (Samplable UnitaryGate c → SampledThenInverted (WaveFunction.simulator p) c) ∧
      (Samplable StatedGate c → SampledThenInverted (MixedState.simulator p) c) :=
  ⟨sampledThenInverted id (faithful_vector p), sampledThenInverted StatedGate.toUnitaryGate (faithful_density p)⟩
def flip : Mat ℝ := Mat.ofFn 2 2 fun i j => if i = j then 0 else 1
lemma toMatrix_flip : toMatrix 2 flip = Matrix.of fun i j : Fin 2 => if i = j then 0 else 1 := by
  refine (toMatrix_ofFn _).trans ?_
  ext i j
  fin_cases i <;> fin_cases j <;> simp
def flippedTwice : OpCircuit ℝ :=
  ⟨[⟨[.gate (.matrix flip true) [.line 0]]⟩,⟨[.gate (.measurement 1 "m" [true]) [.line 0]]⟩]⟩
lemma statedGate_flip : StatedGate (.matrix flip true) flip := by
  have hu : (toMatrix (2^1) flip).conjTranspose * toMatrix (2^1) flip = 1 := by
    rw [pow_one,toMatrix_flip]
    ext i j
    fin_cases i <;> fin_cases j <;> simp [Matrix.mul_apply]
  exact statedGate_matrix (.inl rfl) ⟨rfl,rfl⟩ hu true
lemma samplable_flippedTwice [OperationText ℝ] : Samplable StatedGate flippedTwice where
  overlapFree m hm := by
    have hc : m = ⟨[.gate (.matrix flip true) [.line 0]]⟩ ∨ m = ⟨[.gate (.measurement 1 "m" [true]) [.line 0]]⟩ := by
      simpa [flippedTwice] using hm
    rcases hc with rfl | rfl <;> exact nodup_singleton _
  parts op hop := by
    have hc : op = .gate (.matrix flip true) [.line 0] ∨ op = .gate (.measurement 1 "m" [true]) [.line 0] := by
      simpa [flippedTwice,operations] using hop
    rcases hc with rfl | rfl
    · exact .gate statedGate_flip rfl
    · exact .measurement 1 "m" [true] [.line 0]
  terminal := by rfl
  keys := nodup_singleton _
lemma sortedQubits_flippedTwice [OperationText ℝ] : flippedTwice.sortedQubits = [.line 0] := by
  have hd : Qubit.distinct flippedTwice.qubits = [.line 0] := rfl
  rw [sortedQubits,hd,Qubit.sort,mergeSort_singleton]
lemma runSampled_flippedTwice [OperationText ℝ] {sim encode} (hG : ByUnitaries G)
    (hsim : Faithful G sim encode) (hc : Samplable G flippedTwice) (hg : G (.matrix flip true) flip) :
    sim.runSampled flippedTwice 1 = ExceptT.lift (pure [("m",[[true]])]) := by
  have hr := @runs_eq _ _ _ _ _ hG hsim hc
  rw [sortedQubits_flippedTwice] at hr
  have hu : (toMatrix (2^1) flip).conjTranspose * toMatrix (2^1) flip = 1 := statedGate_flip.unitary
  let u : LocalUnitary 1 := ⟨[0],nodup_singleton _,flip,⟨rfl,rfl⟩,hu⟩
  have hst : StagesOf G [.line 0] flippedTwice.moments
      [[.turn u],[.look "m" [true] [0]]] :=
    .cons (.cons (.turn hg rfl (Subset.refl _) rfl) .nil) (.cons (.cons (.look (Subset.refl _)) .nil) .nil)
  have hoff : ∀ x, x 0 = 0 → (u.apply (ground 1)).amplitude x = 0 := by
    intro x hx
    have hset : number (update x 0 1) = 1 := by simp [number]
    have hamp : (u.apply (ground 1)).amplitude x = onWires flip [0] (ground 1).amplitude x := rfl
    rw [hamp,onWires_single,toMatrix_flip,wire_apply,hx]
    simp [ground,hset]
  have hon : ∀ x ∈ (u.apply (ground 1)).law.support, rowsOf (reportOf (fun _ bits => bits) x
      [.turn u,.look "m" [true] [0]]) = [("m",[[true]])] := by
    intro x hx
    have hbit : x 0 = 1 := by
      by_contra hne
      refine hx ?_
      rw [PureState.law_apply,hoff x (by omega)]
      simp
    simp [rowsOf,reportOf,readout,hbit]
  have hs := (hr hst).1
  refine hs.trans (congrArg ExceptT.lift ?_)
  exact (map_congr_support hon).trans (PMF.map_const _ _)
lemma lift_injective {p q} (h : (ExceptT.lift p : ExceptT Fault PMF α) = ExceptT.lift q) : p = q := by
  ext a
  have hr : ∀ r : PMF α, (r.map (Except.ok : α → Except Fault α)) (.ok a) = r a := by
    intro r
    rw [PMF.map_apply,tsum_eq_single a fun b hb => if_neg fun hab => hb (Except.ok.inj hab).symm,if_pos rfl]
  have hrun : p.map Except.ok = q.map Except.ok := congrArg ExceptT.run h
  rw [← hr p,hrun,hr q]

/-- The bit is sampled as it is, and inverted only if it is measured along the way. -/
theorem flippedTwice_sampled_once :
    letI : OperationText ℝ := ⟨fun _ => "", fun _ => "", fun _ => ""⟩
    letI : NumberText ℝ := ⟨fun _ => "", fun _ _ => "", fun _ _ => "", fun _ _ => "", fun _ => "", fun _ _ => "", fun _ _ _ => ""⟩
    Samplable StatedGate flippedTwice ∧
      (WaveFunction.simulator .single).runSampled flippedTwice 1 = (ExceptT.lift (pure [("m", [[true]])]) : ExceptT Fault PMF _) ∧
      (WaveFunction.simulator .single).runRepeated flippedTwice 1 = (ExceptT.lift (pure [("m", [[false]])]) : ExceptT Fault PMF _) ∧
      (MixedState.simulator .single).runSampled flippedTwice 1 = (ExceptT.lift (pure [("m", [[true]])]) : ExceptT Fault PMF _) ∧
      (MixedState.simulator .single).runRepeated flippedTwice 1 = (ExceptT.lift (pure [("m", [[false]])]) : ExceptT Fault PMF _) := by
  let _ := silentText
  let _ := silentNumber
  have hc : Samplable StatedGate flippedTwice := samplable_flippedTwice
  have hc' : Samplable UnitaryGate flippedTwice := hc.imp StatedGate.toUnitaryGate
  have hwave := runSampled_flippedTwice id (faithful_vector .single) hc' statedGate_flip.toUnitaryGate
  have hmixed := runSampled_flippedTwice StatedGate.toUnitaryGate (faithful_density .single) hc statedGate_flip
  have hinverted : (PMF.pure [("m", [[true]])]).map (inverted flippedTwice) = pure [("m", [[false]])] := PMF.pure_map _ _
  obtain ⟨hrun, hrun'⟩ := runRepeated_inverts_sampled .single flippedTwice
  obtain ⟨L, hsampled, hrepeated, -⟩ := hrun hc'
  obtain ⟨L', hsampled', hrepeated', -⟩ := hrun' hc
  obtain rfl := lift_injective (hsampled.symm.trans hwave)
  obtain rfl := lift_injective (hsampled'.symm.trans hmixed)
  exact ⟨hc, hwave, hrepeated.trans (congrArg _ hinverted), hmixed, hrepeated'.trans (congrArg _ hinverted)⟩
end
end QuantumCircuits.SampledRuns
