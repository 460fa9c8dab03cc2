import QuantumCircuits.Proofs.CarriedTurns
import QuantumCircuits.Proofs.PureEvolution

/-! # What measurements record while half turns are moved

A run that measures along the way records each outcome with the probability of the part of the state that goes with it.
A measurement takes in the half turns on its qubits: it reports the opposite bits, and the state that it leaves is
flipped. The flips are not made up for later. -/
namespace QuantumCircuits.RecordedBits
noncomputable section
open Exact WireOperators PauliOperators GateActions Registers WireOrder Measuring SampledRuns HalfTurns CarriedTurns List Gate Function Complex Operation Simulator
open PauliPassing (operator operator_gate)
variable (f : String → List Bool) (effect : Reading) (q : Qubit)
variable {invert : List Bool} {ops : Ops ℝ} {op : Operation ℝ} {h : Qubit → Bool} {oss : List (Ops ℝ)}

/-! ## The part of a state that goes with a record -/
section
variable {n : ℕ} {x : Fin n → Fin 2} (ψ : PureState n)
/-- The part of a state that goes with the bits that are reported under the keys. -/
def branch (f : String → List Bool) : Step n → Operator (Fin n)
  | .turn u => u.operator
  | .look key invert ws => diagonal fun x => if invertBits invert (readout ws x) = f key then 1 else 0
def branches (f : String → List Bool) : List (Step n) → Operator (Fin n)
  | [] => 1
  | step :: steps => branches f steps * branch f step
def Full : Step n → Prop
  | .turn _ => True
  | .look _ invert ws => invert.length = ws.length
lemma invertBits_injective {a b} (ha : a.length = invert.length) (hb : b.length = invert.length)
    (h : invertBits invert a = invertBits invert b) : a = b := by
  cases invert with
  | nil => rw [length_eq_zero_iff.mp ha,length_eq_zero_iff.mp hb]
  | cons i invert =>
    have hzip : a.zipWith (fun b i => b != i) (i :: invert) = b.zipWith (fun b i => b != i) (i :: invert) := h
    refine ext_getElem (ha.trans hb.symm) fun k hka hkb => ?_
    have hki : k < (i :: invert).length := ha ▸ hka
    have hk := congrArg (fun l => l[k]?) hzip
    simp only [getElem?_zipWith,getElem?_eq_getElem hka,getElem?_eq_getElem hkb,getElem?_eq_getElem hki] at hk
    revert hk
    cases a[k] <;> cases b[k] <;> cases (i :: invert)[k] <;> simp
lemma invertBits_readout_iff {bits} (hf : invert.length = ws.length) (hx : invertBits invert (readout ws x) = bits)
    (y) : invertBits invert (readout ws y) = bits ↔ readout ws y = readout ws x := by
  constructor
  · intro hy
    exact invertBits_injective (by simp [readout,hf]) (by simp [readout,hf]) (hy.trans hx.symm)
  · intro hy
    rw [hy,hx]
lemma branch_look_of_eq {key} (hf : invert.length = ws.length) (hx : invertBits invert (readout ws x) = f key)
    (φ : Wave n) : branch f (.look key invert ws) φ = cut ws (readout ws x) φ := by
  funext y
  rw [branch,diagonal_apply]
  simp [invertBits_readout_iff hf hx,cut]
lemma map_cons_apply (p : PMF Report) (e e' : String × List Bool) (r : Report) :
    p.map (e :: ·) (e' :: r) = if e' = e then p r else 0 := by
  rw [PMF.map_apply,tsum_eq_single r]
  · by_cases h : e' = e <;> simp
  · intro r' hr'
    exact if_neg fun h => hr' (cons.inj h).2.symm

/-- A record has the probability of the part of the state that goes with it. -/
lemma observe_branches {steps} (hf : ∀ step ∈ steps, Full step) :
    (observe ψ steps).map Prod.fst ((keysOf steps).map fun key => (key,f key)) =
      ENNReal.ofReal (∑ x, normSq (branches f steps ψ.amplitude x)) := by
  induction steps generalizing ψ with
  | nil =>
    have hnil : (observe ψ []).map Prod.fst = PMF.pure [] := PMF.pure_map _ _
    rw [hnil]
    simp [keysOf,branches,ψ.unit]
  | cons step steps ih =>
    have hr := fun φ => ih φ (forall_mem_cons.mp hf).2
    cases step with
    | turn u => exact hr (u.apply ψ)
    | look key invert ws =>
      have hlen : invert.length = ws.length := hf _ mem_cons_self
      have hl : (observe ψ (.look key invert ws :: steps)).map Prod.fst = ψ.law.bind fun x =>
          ((observe (ψ.given ws x) steps).map Prod.fst).map ((key,invertBits invert (readout ws x)) :: ·) := by
        rw [observe_look,PMF.map_bind]
        simp only [PMF.map_comp]
        rfl
      have ht : ∀ x, ((observe (ψ.given ws x) steps).map Prod.fst).map ((key,invertBits invert (readout ws x)) :: ·)
          ((key,f key) :: (keysOf steps).map fun key => (key,f key)) = if invertBits invert (readout ws x) = f key
            then ENNReal.ofReal (∑ y, normSq (branches f steps (ψ.given ws x).amplitude y)) else 0 := by
        intro x
        rw [map_cons_apply,hr]
        exact if_congr (by rw [Prod.mk.injEq,eq_comm (a := f key)]; simp) rfl rfl
      rw [hl,keysOf,map_cons,PMF.bind_apply,tsum_fintype]
      simp only [ht]
      by_cases hso : ∃ x, invertBits invert (readout ws x) = f key
      · obtain ⟨x₀,hx₀⟩ := hso
        have hsm : ∀ z φ, ∑ y, normSq (branches f steps (z • φ) y) =
            normSq z * ∑ y, normSq (branches f steps φ y) := by
          simp [Operator.map_smul,Finset.mul_sum]
        simp only [invertBits_readout_iff hlen hx₀]
        refine (sum_law_given ψ ws _ hsm fun φ => Finset.sum_nonneg fun _ _ => normSq_nonneg _).trans ?_
        rw [← branch_look_of_eq f hlen hx₀]
        rfl
      · have hn : ∀ x, ¬ invertBits invert (readout ws x) = f key := fun x hx => hso ⟨x,hx⟩
        have hz : branch f (.look key invert ws) ψ.amplitude = 0 := by
          funext y
          rw [branch,diagonal_apply,if_neg (hn y),zero_mul]
          rfl
        rw [branches,Operator.mul_apply,hz,Operator.map_zero]
        simp [hn]
end

/-! ## States of some of the qubits -/
section
variable {qs : Qubits}
open Classical in
def spread (qs : Qubits) (φ : Wave qs.length) : Amplitudes Qubit :=
  fun x => if ∀ q, q ∉ qs → x q = 0 then φ (x ∘ qs.get) else 0
lemma spread_of_off (h : ∀ q, q ∉ qs → x q = 0) (φ) : spread qs φ x = φ (x ∘ qs.get) := if_pos h
lemma spread_of_on (h : ¬ ∀ q, q ∉ qs → x q = 0) (φ) : spread qs φ x = 0 := if_neg h
open Classical in
def allOff : Amplitudes Qubit := fun x => if x = 0 then 1 else 0
lemma number_eq_zero {n} (y : Fin n → Fin 2) : number y = 0 ↔ y = 0 := by rw [← number_zero n,number_injective.eq_iff]
lemma spread_ground (qs) : spread qs (ground qs.length).amplitude = allOff := by
  funext x
  have hg : (ground qs.length).amplitude (x ∘ qs.get) = if x ∘ qs.get = 0 then 1 else 0 := by
    simp only [ground,number_eq_zero]
  have hiff : x = 0 ↔ (∀ q, q ∉ qs → x q = 0) ∧ x ∘ qs.get = 0 := by
    constructor
    · rintro rfl
      exact ⟨fun _ _ => rfl,rfl⟩
    · rintro ⟨hoff,hin⟩
      funext q
      by_cases hq : q ∈ qs
      · obtain ⟨j,rfl⟩ := mem_iff_get.mp hq
        exact congrFun hin j
      · exact hoff q hq
  rw [spread,hg,← ite_and]
  classical exact if_congr hiff.symm rfl rfl
lemma tsum_spread (hqs : qs.Nodup) (φ) :
    (tsum fun x => normSq (spread qs φ x)) = ∑ y, normSq (φ y) := by
  have hinj : Injective qs.get := nodup_iff_injective_get.mp hqs
  have hb : ∀ y : Fin qs.length → Fin 2, extend qs.get y 0 ∘ qs.get = y := fun y => extend_comp hinj y 0
  have hout : ∀ (y : Fin qs.length → Fin 2) q, q ∉ qs → extend qs.get y 0 q = 0 := by
    intro y q hq
    refine extend_apply' _ _ _ ?_
    rintro ⟨j,rfl⟩
    exact hq (qs.get_mem j)
  have hsub : support (fun x => normSq (spread qs φ x)) ⊆ Set.range fun y => extend qs.get y 0 := by
    intro x hx
    have hoff : ∀ q, q ∉ qs → x q = 0 := by
      by_contra h
      exact hx (by simp only [spread_of_on h,map_zero])
    refine ⟨x ∘ qs.get,funext fun q => ?_⟩
    by_cases hq : q ∈ qs
    · obtain ⟨j,rfl⟩ := mem_iff_get.mp hq
      exact congrFun (hb (x ∘ qs.get)) j
    · exact (hout _ q hq).trans (hoff q hq).symm
  have hinj' : Injective fun y : Fin qs.length → Fin 2 => extend qs.get y 0 :=
    LeftInverse.injective (g := (· ∘ qs.get)) hb
  rw [← hinj'.tsum_eq hsub,tsum_fintype]
  refine Finset.sum_congr rfl fun y _ => ?_
  rw [spread_of_off (hout y),hb]
lemma onWires_spread (hqs : qs.Nodup) (m) {ws} (hws : ws.Nodup) (φ) :
    onWires m (ws.map qs.get) (spread qs φ) = spread qs (onWires m ws φ) := by
  have hinj : Injective qs.get := nodup_iff_injective_get.mp hqs
  have hinj' : Injective ws.get := nodup_iff_injective_get.mp hws
  rw [onWires_map]
  funext x
  have hoff : ∀ c, (∀ q, q ∉ qs → extend (qs.get ∘ ws.get) c x q = 0) ↔ ∀ q, q ∉ qs → x q = 0 := by
    intro c
    have hs : ∀ q, q ∉ qs → extend (qs.get ∘ ws.get) c x q = x q := by
      intro q hq
      refine extend_apply' _ _ _ ?_
      rintro ⟨j,rfl⟩
      exact hq (qs.get_mem _)
    exact forall₂_congr fun q hq => by rw [hs q hq]
  have hc : ∀ c, extend (qs.get ∘ ws.get) c x ∘ qs.get = extend ws.get c (x ∘ qs.get) :=
    fun c => extend_comp_wire hinj hinj' c x
  rw [act_apply]
  by_cases hx : ∀ q, q ∉ qs → x q = 0
  · simp only [spread_of_off hx,spread_of_off ((hoff _).mpr hx),hc]
    rfl
  · simp [spread_of_on hx,spread_of_on (mt (hoff _).mp hx)]
lemma diagonal_spread {g g'} (h : ∀ x, g x = g' (x ∘ qs.get)) (φ) :
    diagonal g (spread qs φ) = spread qs (diagonal g' φ) := by
  funext x
  rw [diagonal_apply]
  by_cases hx : ∀ q, q ∉ qs → x q = 0
  · rw [spread_of_off hx,spread_of_off hx,diagonal_apply,h]
  · rw [spread_of_on hx,spread_of_on hx,mul_zero]
end

/-! ## Turns in simulations -/
section
open PureEvolution
structure TurnGate (g : Gate ℝ) (m : Mat ℝ) : Prop extends UnitaryGate g m where
  own : ownMatrix (matrixAt 99) g = .ok (some m)
lemma turnGate {g m} (hres : g.resolve Resolver.empty.get? = g) (hhas : g.hasUnitary = .ok true) (hs : Shaped g)
    (hown : ∀ sub, ownMatrix sub g = .ok (some m)) (hu : (toMatrix (2^g.numQubits) m).conjTranspose * toMatrix (2^g.numQubits) m = 1) : TurnGate g m := by
  have hmat := matrixAt_of_own hown 0
  have hsq : Square (2^g.numQubits) m := square_matrixAt hs hmat
  refine ⟨⟨hres,hhas,hsq,hu,fun φ ws rs hws hlen => ?_⟩,hown _⟩
  have hact : (gate g rs).act? (register φ) (ws.map Fin.val) =
    Operation.applyAt (97+2+1) (.gate g rs) (register φ) (ws.map Fin.val) := rfl
  rw [hact,Operation.applyAt,applyAt_register hs (matrixAt_of_own hown 96) hws hlen]
lemma conjTranspose_mul_smul {m : Matrix (Fin k) (Fin k) ℂ} (hm : m.conjTranspose*m = 1) {z : ℂ} (hz : ‖z‖ = 1) :
    (z • m).conjTranspose*(z • m) = 1 := by
  have hone : star z * z = 1 := by
    rw [mul_comm,star_def,mul_conj,normSq_eq_norm_sq,hz]
    norm_num
  rw [Matrix.conjTranspose_smul,smul_mul_smul_comm,hone,hm,one_smul]
lemma conjTranspose_mul_phased {a : OneBitMatrix} (hs : a.conjTranspose = a) (ha : a*a = 1) (t) :
    (phased a (turned t)).conjTranspose * phased a (turned t) = 1 := by
  have hp : (phased a (turned t)).conjTranspose = phased a (turned (-t)) := by
    rw [← star_turned]
    simp only [phased,Matrix.conjTranspose_add,Matrix.conjTranspose_smul]
    congr 2 <;> simp
  rw [hp,phased_mul_phased ha,mul_comm,turned_mul_neg,phased_one]
lemma unitary_axis (p e s) : (toMatrix (2^(axisKind p).numQubits) (powerMatrix (axisKind p) e s)).conjTranspose *
    toMatrix (2^(axisKind p).numQubits) (powerMatrix (axisKind p) e s) = 1 := by
  have hs : (sigma p).conjTranspose = sigma p := by
    ext i j
    cases p <;> fin_cases i <;> fin_cases j <;> simp [sigma]
  rw [toMatrix_shift]
  refine conjTranspose_mul_smul ?_ (norm_shiftPhase e s)
  have ha := conjTranspose_mul_phased hs (sigma_mul_self p) e
  rw [← toMatrix_axis] at ha
  cases p <;> exact ha
lemma unitary_phasedX (p e s) : (toMatrix 2 (phasedXMatrix p e s)).conjTranspose * toMatrix 2 (phasedXMatrix p e s) = 1 := by
  have hs : (equator p).conjTranspose = equator p := by
    ext i j
    fin_cases i <;> fin_cases j <;> simp [equator,star_turned]
  rw [toMatrix_phasedX]
  exact conjTranspose_mul_smul (conjTranspose_mul_phased hs (equator_mul_self p) e) (norm_exp_ofReal_mul_I _)
lemma unitary_coupling (e s) :
    (toMatrix (2^2) (powerMatrix .cz e s)).conjTranspose * toMatrix (2^2) (powerMatrix .cz e s) = 1 := by
  have hd : toMatrix (2^2) (powerMatrix .cz e 0) = Matrix.diagonal fun i =>
      if (place 2).symm i 0 = 1 ∧ (place 2).symm i 1 = 1 then turned e else 1 := by
    ext i j
    obtain ⟨b,rfl⟩ := (place 2).surjective i
    obtain ⟨c,rfl⟩ := (place 2).surjective j
    refine (val_get_coupling e b c).trans ?_
    by_cases hbc : c = b
    · rw [hbc,if_pos rfl,Matrix.diagonal_apply_eq,Equiv.symm_apply_apply]
    · rw [if_neg hbc,Matrix.diagonal_apply_ne _ fun h => hbc ((place 2).injective h).symm]
  have hs : toMatrix (2^2) (powerMatrix .cz e s) =
    val (shiftPhase e s) • toMatrix (2^2) (powerMatrix .cz e 0) := toMatrix_shift .cz e s
  rw [hs]
  refine conjTranspose_mul_smul ?_ (norm_shiftPhase e s)
  rw [hd,Matrix.diagonal_conjTranspose,Matrix.diagonal_mul_diagonal]
  congr 1
  funext i
  have hone : star (turned e) * turned e = 1 := by rw [star_turned,mul_comm,turned_mul_neg]
  simp only [Pi.star_apply]
  split
  · exact hone
  · simp
lemma exists_turnGate (h : Turning op) (hres : op.resolve Resolver.empty.get? = op) :
    ∃ g m rs, op = .gate g rs ∧ TurnGate g m ∧ rs.length = g.numQubits := by
  cases h with
  | equator ht =>
    rcases turnOf?_cases ht with ⟨s,axis,rfl,-⟩ | ⟨s,axis,rfl,-⟩ | ⟨s,rfl⟩ <;> have hg := (gate.inj hres).1
    · exact ⟨_,_,_,rfl,turnGate hg rfl trivial (fun _ => rfl) (unitary_axis .x _ s),rfl⟩
    · exact ⟨_,_,_,rfl,turnGate hg rfl trivial (fun _ => rfl) (unitary_axis .y _ s),rfl⟩
    · exact ⟨_,_,_,rfl,turnGate hg rfl trivial (fun _ => rfl) (unitary_phasedX _ _ s),rfl⟩
  | phase e s axis q =>
    have hg := (gate.inj hres).1
    exact ⟨_,_,_,rfl,turnGate hg rfl trivial (fun _ => rfl) (unitary_axis .z e s),rfl⟩
  | coupling e s axis hqr =>
    have hg := (gate.inj hres).1
    exact ⟨_,_,_,rfl,turnGate hg rfl trivial (fun _ => rfl) (unitary_coupling e s),rfl⟩
end

/-! ## What is recorded -/
section
def bitsOf (v : Qubit → Bool) (qs : Qubits) (x : Qubit → Fin 2) : List Bool := qs.map fun q => (x q == 1) != v q

/-- The part of a state in which qubits, some of them inverted, show given bits. -/
def look (v : Qubit → Bool) (qs : Qubits) (bits : List Bool) : Operator Qubit :=
  diagonal fun x => if bitsOf v qs x = bits then 1 else 0
def maskOf (invert : List Bool) (qs : Qubits) : Qubit → Bool := fun q => invert.getD (qs.idxOf q) false
def branchOf (f : String → List Bool) : Reading
  | .gate (.measurement _ key invert) qs => look (maskOf invert qs) qs (f key)
  | op => operator op

/-- A measurement with all its bits, inverted or not, written out. -/
def padded : Operation ℝ → Operation ℝ
  | .gate (.measurement n key invert) qs =>
    .gate (.measurement n key ((List.range qs.length).map fun k => invert.getD k false)) qs
  | op => op
def FullMask : Operation ℝ → Prop
  | .gate (.measurement _ _ invert) rs => invert.length = rs.length
  | _ => True
lemma look_congr {qs : Qubits} {bits : List Bool} (h : ∀ q ∈ qs, v q = v' q) :
    look v qs bits = look v' qs bits := by
  refine congrArg diagonal (funext fun x => ?_)
  have hb : bitsOf v qs x = bitsOf v' qs x := map_congr_left fun q hq => by rw [h q hq]
  rw [hb]
lemma exists_measurement (h : op.isMeasurement) : ∃ n key invert qs, op = .gate (.measurement n key invert) qs := by
  cases op with
  | gate g qs =>
    cases g with
    | measurement n key invert => exact ⟨n,key,invert,qs,rfl⟩
    | _ => cases h
  | _ => cases h
lemma of_not_isMeasurement (h : op.isMeasurement = false) : (∀ f, branchOf f op = operator op) ∧ padded op = op ∧ FullMask op := by
  cases op with
  | gate g qs =>
    cases g with
    | measurement n key invert => cases h
    | _ => exact ⟨fun _ => rfl,rfl,trivial⟩
  | _ => exact ⟨fun _ => rfl,rfl,trivial⟩
lemma exists_act_branchOf (op) : ∃ m, branchOf f op = act op.qubits.get m := by
  cases hop : op.isMeasurement with
  | true =>
    obtain ⟨n,key,invert,qs,rfl⟩ := exists_measurement hop
    refine exists_act_diagonal fun x y hxy => ?_
    have hb : bitsOf (maskOf invert qs) qs x = bitsOf (maskOf invert qs) qs y := map_congr_left fun q hq => by rw [hxy q hq]
    simp only [hb]
  | false =>
    rw [(of_not_isMeasurement hop).1]
    exact exists_act_operator op
lemma reads_branchOf : Reads (branchOf f) :=
  ⟨⟨exists_act_branchOf f⟩,fun h => (of_not_isMeasurement h.isMeasurement).1 f⟩
def chance (f : String → List Bool) (ops : Ops ℝ) : ℝ :=
  tsum fun x => normSq (evolution (branchOf f) ops allOff x)
lemma tsum_normSq_upToPhase {a b : Operator Qubit} (h : UpToPhase a b) (φ) :
    (tsum fun x => normSq (a φ x)) = tsum fun x => normSq (b φ x) := by
  obtain ⟨z,hz,rfl⟩ := h
  refine tsum_congr fun x => ?_
  rw [Operator.smul_apply,Pi.smul_apply,smul_eq_mul,normSq_mul,normSq_eq_norm_sq z,hz]
  norm_num
lemma bitsOf_eq_invertBits {rs} (hrs : rs ⊆ qs) (hn : rs.Nodup) (hf : invert.length = rs.length) (x) :
    bitsOf (maskOf invert rs) rs x = invertBits invert (readout (wiresOf qs rs) (x ∘ qs.get)) := by
  have hr : readout (wiresOf qs rs) (x ∘ qs.get) = rs.map fun q => x q == 1 := by
    conv_rhs => rw [← get_wiresOf hrs,map_map]
    rfl
  have hzip : invertBits invert (rs.map fun q => x q == 1) = (rs.map fun q => x q == 1).zipWith (fun b i => b != i) invert := by
    cases invert with
    | nil => rw [length_eq_zero_iff.mp hf.symm]; rfl
    | cons i invert => rfl
  rw [hr,hzip]
  refine ext_getElem (by simp [bitsOf,hf]) fun k hk hk' => ?_
  have hkr : k < rs.length := by simpa [bitsOf] using hk
  have hki : k < invert.length := hf ▸ hkr
  have hidx : rs.idxOf rs[k] = k := hn.idxOf_getElem k hkr
  simp [bitsOf,maskOf,hidx,hki]
lemma branchOf_spread (hqs : qs.Nodup) (hs : StepOf TurnGate qs op step) (hn : op.qubits.Nodup) (hm : FullMask op)
    (φ) : branchOf f op (spread qs φ) = spread qs (branch f step φ) := by
  cases hs with
  | @turn g rs u hg hlen hrs hw =>
    have hme : (gate g rs).isMeasurement = false := by
      cases hop : (gate g rs).isMeasurement with
      | false => rfl
      | true =>
        obtain ⟨n,key,invert,rs',heq⟩ := exists_measurement hop
        exact absurd (gate.inj heq).1 (ne_measurement hg.hasUnitary n key invert)
    have hrs' : u.wires.map qs.get = rs := by rw [hw,get_wiresOf hrs]
    rw [(of_not_isMeasurement hme).1,operator_gate hg.own,← hrs']
    exact onWires_spread hqs u.matrix u.nodup φ
  | @look n key invert rs hrs =>
    refine diagonal_spread (fun x => ?_) φ
    rw [bitsOf_eq_invertBits hrs hn hm]
lemma stepOf_imp {G H} (hGH : ∀ {g m}, G g m → H g m) (h : StepOf G qs op step) : StepOf H qs op step := by
  cases h with
  | turn hg hlen hrs hw => exact .turn (hGH hg) hlen hrs hw
  | look hrs => exact .look hrs
lemma full_of_step (hs : StepOf TurnGate qs op step) (hm : FullMask op) : Full step := by
  cases hs with
  | turn => trivial
  | look hrs =>
    have hlen := length_wiresOf hrs
    exact Eq.trans hm hlen.symm
lemma evolution_spread (hqs : qs.Nodup) {steps} (hs : StepsOf TurnGate qs ops steps)
    (hn : ∀ op ∈ ops, op.qubits.Nodup) (hm : ∀ op ∈ ops, FullMask op) (φ) :
    evolution (branchOf f) ops (spread qs φ) = spread qs (branches f steps φ) := by
  induction hs generalizing φ with
  | nil => rfl
  | @cons op step ops steps hst _ ih =>
    rw [evolution_cons,Operator.mul_apply,branchOf_spread f hqs hst (hn op mem_cons_self) (hm op mem_cons_self),
      ih (forall_mem_cons.mp hn).2 (forall_mem_cons.mp hm).2]
    rfl
def keysIn (ops : Ops ℝ) : List String := ops.filterMap Operation.measurementKey?
lemma keysIn_eq (ops) : (measuredOf ops).map Prod.fst = keysIn ops := by simp [measuredOf,keysIn,map_filterMap,comp_def]
def taken (op : Operation ℝ) : Operation ℝ := (padded op).resolve Resolver.empty.get?
structure Takes (op op' : Operation ℝ) : Prop where
  qubits : op'.qubits = op.qubits
  key : op'.measurementKey? = op.measurementKey?
  part : Part TurnGate op'
  mask : FullMask op'
  branch : ∀ f, UpToPhase (branchOf f op') (branchOf f op)
lemma takes_turning (h : Turning op) : Takes op (taken op) := by
  obtain ⟨ht,hq,hp,hres⟩ := h.resolve Resolver.empty.get?
  have hta : taken op = op.resolve Resolver.empty.get? := by rw [taken,(of_not_isMeasurement h.isMeasurement).2.1]
  obtain ⟨g,m,rs,heq,hg,hlen⟩ := exists_turnGate ht hres
  rw [hta]
  refine ⟨hq,?_,?_,(of_not_isMeasurement ht.isMeasurement).2.2,fun f => ?_⟩
  · rw [ht.measurementKey?,h.measurementKey?]
  · rw [heq]
    exact .gate hg hlen
  · rw [(of_not_isMeasurement ht.isMeasurement).1,(of_not_isMeasurement h.isMeasurement).1]
    exact hp
lemma takes_measurement (n : ℕ) (key : String) (invert qs) :
    Takes (.gate (.measurement n key invert) qs) (taken (.gate (.measurement n key invert) qs)) where
  qubits := rfl
  key := rfl
  part := .measurement n key _ qs
  mask := by
    have hlen : ((range qs.length).map fun k => invert.getD k false).length = qs.length := by simp
    exact hlen
  branch f := by
    have hm : branchOf f (taken (.gate (.measurement n key invert) qs)) = branchOf f (.gate (.measurement n key invert) qs) := by
      refine look_congr fun q hq => ?_
      have hlt : qs.idxOf q < qs.length := idxOf_lt_length_iff.mpr hq
      simp [maskOf,hlt]
    rw [hm]
lemma takes_taken (h : Turning op ∨ op.isMeasurement) : Takes op (taken op) := by
  rcases h with h | h
  · exact takes_turning h
  · obtain ⟨n,key,invert,qs,rfl⟩ := exists_measurement h
    exact takes_measurement n key invert qs
end

/-! ## Runs -/
section
lemma resolve_padded (c : OpCircuit ℝ) : Simulator.resolve .empty (c.map padded) = c.map taken := by
  simp only [Simulator.resolve,Circuit.map,map_map,comp_def]
  rfl
variable (g : Operation ℝ → Operation ℝ)
lemma operations_map (c : OpCircuit ℝ) : (c.map g).operations = c.operations.map g := by
  simp only [Circuit.map,Circuit.operations,map_flatMap,flatMap_map]
lemma evolution_map (ops) : evolution effect (ops.map g) = evolution (fun op => effect (g op)) ops := by
  rw [evolution,← map_reverse,map_map]
  rfl
variable [OperationText ℝ] {c : OpCircuit ℝ}
variable (c) in
structure Measured : Prop where
  free : Legal c
  parts : ∀ op ∈ c.operations, Turning op ∨ op.isMeasurement = true
  keys : (keysIn c.operations).Nodup
lemma nodup_sortedQubits (c : OpCircuit ℝ) : c.sortedQubits.Nodup := by
  refine (mergeSort_perm _ _).nodup_iff.mpr ?_
  rw [FrontierInsertion.distinct_eq_dedup]
  exact nodup_reverse.mpr (nodup_dedup _)
lemma runRepeated_congr {S : Type} {sim : Simulator ℝ S PMF} (hsim : sim.repeatsKeys) {c d : OpCircuit ℝ}
    (h : resolve .empty c = resolve .empty d) (reps) : sim.runRepeated c reps = sim.runRepeated d reps := by
  have hs : sim.steps c .empty .sorted (.basis 0) true = sim.steps d .empty .sorted (.basis 0) true := by
    rw [steps,h]
    rfl
  simp [runRepeated,hsim,hs]
section
variable (hc : Measured c)
include hc
lemma Measured.takes : ∀ op ∈ c.operations, Takes op (taken op) := fun op hop => takes_taken (hc.parts op hop)
lemma Measured.free_taken : ∀ m ∈ (c.map taken).moments, OverlapFree m := by
  intro m' hm'
  obtain ⟨m,hm,rfl⟩ := mem_map.mp hm'
  have hq : Moment.allQubits (m.ops.map taken) = Moment.allQubits m.ops := by
    rw [Moment.allQubits,flatMap_map]
    refine congrArg flatten (map_congr_left fun op hop => ?_)
    exact (hc.takes op (mem_flatMap.mpr ⟨m,hm,hop⟩)).qubits
  rw [OverlapFree,hq]
  exact hc.free m hm
lemma Measured.keysIn_taken : keysIn (c.operations.map taken) = keysIn c.operations := by
  rw [keysIn,filterMap_map]
  exact filterMap_congr fun op hop => (hc.takes op hop).key
lemma Measured.chance_taken (f) : chance f (c.operations.map taken) = chance f c.operations := by
  refine tsum_normSq_upToPhase ?_ allOff
  rw [evolution_map]
  exact evolution_upToPhase fun op hop => (hc.takes op hop).branch f

/-- In a run from the state with all bits off, a record has the weight of the part of the state that goes with it. -/
lemma exists_law [NumberText ℝ] (p) :
    ∃ P : PMF Report, (WaveFunction.simulator p).runRepeated (c.map padded) 1 = ExceptT.lift (P.map rowsOf) ∧
      (∀ r ∈ P.support, r.map Prod.fst = keysIn c.operations) ∧
      ∀ f, P ((keysIn c.operations).map fun key => (key,f key)) = ENNReal.ofReal (chance f c.operations) := by
  have hops : ∀ op ∈ (c.map taken).operations, Part TurnGate op ∧ FullMask op := by
    intro op hop
    rw [operations_map] at hop
    obtain ⟨o,ho,rfl⟩ := mem_map.mp hop
    exact ⟨(hc.takes o ho).part,(hc.takes o ho).mask⟩
  have hn : ∀ op ∈ (c.map taken).operations, op.qubits.Nodup := by
    intro op hop
    obtain ⟨m,hm,hop⟩ := mem_flatMap.mp hop
    exact (overlapFree_iff.mp (hc.free_taken m hm)).1 op hop
  have hres : resolve .empty (c.map taken) = c.map taken :=
    resolve_parts TurnGate.toUnitaryGate fun op hop => (hops op hop).1
  obtain ⟨stepss,hs⟩ := exists_steps TurnGate.toUnitaryGate hc.free_taken fun op hop => (hops op hop).1
  have hf : StepsOf TurnGate (c.map taken).sortedQubits (c.map taken).operations stepss.flatten :=
    forall₂_flatten hs
  have hk : keysOf stepss.flatten = keysIn c.operations := by
    rw [← keys_measuredOf TurnGate.toUnitaryGate hf,keysIn_eq,operations_map,hc.keysIn_taken]
  have hfu : ∀ step ∈ stepss.flatten, Full step := by
    intro step hsp
    obtain ⟨op,hop,hst⟩ := exists_of_mem_forall₂ hf hsp
    exact full_of_step hst (hops op hop).2
  have hso := nodup_sortedQubits (c.map taken)
  refine ⟨(observe (ground (c.map taken).sortedQubits.length) stepss.flatten).map Prod.fst,?_,fun r hr => ?_,fun f => ?_⟩
  · rw [runRepeated_congr rfl ((resolve_padded c).trans hres.symm)]
    refine runRepeated_observe (faithful_vector p) hres ?_ ?_
    · exact hs.imp fun m steps h => h.imp fun op step => stepOf_imp TurnGate.toUnitaryGate
    · rw [hk]
      exact hc.keys
  · obtain ⟨x,hx,rfl⟩ := (PMF.mem_support_map_iff _ _ _).mp hr
    rw [keys_of_mem_observe hx,hk]
  · rw [← hk,observe_branches f _ hfu,← hc.chance_taken f,← operations_map,chance,← spread_ground,
      evolution_spread f hso hf hn fun op hop => (hops op hop).2,tsum_spread hso]
end
end

/-! ## Laws of records -/
section
def entries (keys : List String) (f : String → List Bool) : String → Option (List (List Bool)) :=
  fun key => if key ∈ keys then some [f key] else none
lemma entries_inj {keys f g} : entries keys f = entries keys g ↔ ∀ key ∈ keys, f key = g key := by
  constructor
  · intro h key hkey
    simpa [entries,hkey] using congrFun h key
  · intro h
    funext key
    by_cases hkey : key ∈ keys
    · simp [entries,h key hkey]
    · simp [entries,hkey]
lemma lookup_rowsOf (keys f key) :
    (rowsOf (keys.map fun k => (k,f k))).lookup key = entries keys f key := by
  induction keys with
  | nil => rfl
  | cons k keys ih =>
    have hc : rowsOf ((k :: keys).map fun k => (k,f k)) = (k,[f k]) :: rowsOf (keys.map fun k => (k,f k)) := rfl
    rw [hc,lookup_cons,ih]
    by_cases hk : key = k
    · simp [entries,hk]
    · have hbeq : (key == k) = false := by simpa using hk
      simp [entries,hk,hbeq]
lemma exists_of_keys {r : Report} (h : (r.map Prod.fst).Nodup) :
    ∃ f : String → List Bool, r = (r.map Prod.fst).map fun key => (key,f key) := by
  obtain ⟨g,hg⟩ : ∃ g, Set.LeftInvOn g Prod.fst {e | e ∈ r} := ⟨_,Set.InjOn.leftInvOn_invFunOn (inj_on_of_nodup_map h)⟩
  have hs : ∀ e ∈ r, (e.1,(g e.1).2) = e := fun e he => by rw [hg he]
  refine ⟨fun key => (g key).2,?_⟩
  rw [map_map]
  exact ((map_congr_left hs).trans (map_id' r)).symm
variable [OperationText ℝ] [NumberText ℝ] (p : Precision)
/-- What one run from the state with all bits off records under each key. Masks are as long as their measurements ask. -/
def recorded (c : OpCircuit ℝ) : ExceptT Fault PMF (String → Option (List (List Bool))) := do
  let m ← (WaveFunction.simulator p).runRepeated (c.map padded) 1
  return fun key => m.lookup key
lemma exists_recorded (hc : Measured c) : ∃ L, recorded p c = ExceptT.lift L ∧
    (∀ g ∈ L.support, ∃ f, g = entries (keysIn c.operations) f) ∧
    ∀ f, L (entries (keysIn c.operations) f) = ENNReal.ofReal (chance f c.operations) := by
  obtain ⟨P,hrun,hk,hch⟩ := exists_law hc p
  have hre : ∀ r ∈ P.support, ∃ f : String → List Bool, r = (keysIn c.operations).map fun key => (key,f key) := by
    intro r hr
    obtain ⟨f,hf⟩ := exists_of_keys (hk r hr ▸ hc.keys)
    exact ⟨f,hk r hr ▸ hf⟩
  have he : ∀ f, (fun key => (rowsOf ((keysIn c.operations).map fun key => (key,f key))).lookup key) = entries (keysIn c.operations) f :=
    fun f => funext (lookup_rowsOf _ f)
  refine ⟨P.map fun r key => (rowsOf r).lookup key,?_,fun g hg => ?_,fun f => ?_⟩
  · rw [recorded,hrun,lift_bind_pure,PMF.map_comp]
    rfl
  · obtain ⟨r,hr,rfl⟩ := (PMF.mem_support_map_iff _ _ _).mp hg
    obtain ⟨f,rfl⟩ := hre r hr
    exact ⟨f,he f⟩
  · rw [← hch f,PMF.map_apply,tsum_eq_single ((keysIn c.operations).map fun key => (key,f key)),if_pos (he f).symm]
    intro r hr
    by_cases hs : r ∈ P.support
    · obtain ⟨f',rfl⟩ := hre r hs
      rw [he,if_neg]
      intro heq
      exact hr (map_congr_left fun key hkey => by rw [entries_inj.mp heq key hkey])
    · rw [(PMF.apply_eq_zero_iff P r).mpr hs,ite_self]
lemma recorded_eq (hc : Measured c) (hd : Measured d) (hk : (keysIn c.operations).Perm (keysIn d.operations))
    (h : ∀ f, chance f c.operations = chance f d.operations) : recorded p c = recorded p d := by
  obtain ⟨L,hL,hs,hch⟩ := exists_recorded p hc
  obtain ⟨L',hL',hs',hch'⟩ := exists_recorded p hd
  have he : entries (keysIn c.operations) = entries (keysIn d.operations) := by
    funext f key
    simp only [entries,hk.mem_iff]
  rw [hL,hL']
  congr 1
  ext g
  by_cases hg : ∃ f, g = entries (keysIn c.operations) f
  · obtain ⟨f,rfl⟩ := hg
    rw [hch,he,hch',h]
  · have hz : L g = 0 := (PMF.apply_eq_zero_iff L g).mpr (mt (hs g) hg)
    have hz' : L' g = 0 := (PMF.apply_eq_zero_iff L' g).mpr fun hmem => hg (he ▸ hs' g hmem)
    rw [hz,hz']
end

/-! ## Masks with further bits inverted -/
section
variable {bits : List ℕ}
lemma getD_foldl_set {m : List Bool} (hbi : bits.Nodup) (hlt : ∀ b ∈ bits, b < m.length) (k) :
    (bits.foldl (fun m b => m.set b (!(m.getD b false))) m).getD k false = (m.getD k false != bits.contains k) := by
  induction bits generalizing m with
  | nil => simp
  | cons b bits ih =>
    obtain ⟨hnew,hr⟩ := nodup_cons.mp hbi
    have hb := hlt b mem_cons_self
    rw [foldl_cons,ih hr fun b' hb' => by simpa using hlt b' (mem_cons_of_mem _ hb')]
    by_cases hk : k = b
    · subst hk
      simp [hb,hnew]
    · simp [hk,Ne.symm hk]
lemma getD_flipBits (invert) (hbi : bits.Nodup) (k) :
    (flipBits invert bits).getD k false = (invert.getD k false != bits.contains k) := by
  obtain ⟨hle,hlt⟩ := FrontierInsertion.le_foldl_max (· + 1) bits invert.length
  rw [flipBits,getD_foldl_set hbi fun b hb => by simpa using hlt b hb]
  by_cases hk : k < bits.foldl (fun m b => max m (b+1)) invert.length
  · simp [hk]
  · have hout : invert.length ≤ k := by omega
    simp [hk,hout]
variable {qs : Qubits}
lemma places_eq (h : Qubit → Bool) (qs : Qubits) :
    (qs.zipIdx.filterMap fun (q,k) => if h q then some k else none) = (qs.zipIdx.filter (h ·.1)).map Prod.snd := by
  induction qs.zipIdx with
  | nil => rfl
  | cons e es ih => cases he : h e.1 <;> simp [he,ih]
lemma nodup_places (h : Qubit → Bool) (qs : Qubits) : (qs.zipIdx.filterMap fun (q,k) => if h q then some k else none).Nodup := by
  have hp : (qs.zipIdx.map Prod.snd).Nodup := by
    rw [zipIdx_map_snd]
    exact nodup_range'
  rw [places_eq]
  exact (filter_sublist.map _).nodup hp
lemma contains_places {q} (hq : q ∈ qs) :
    (qs.zipIdx.filterMap fun (q,k) => if h q then some k else none).contains (qs.idxOf q) = h q := by
  have hget : qs[qs.idxOf q]? = some q := getElem?_idxOf hq
  rw [places_eq,Bool.eq_iff_iff,contains_iff_mem,mem_map]
  constructor
  · rintro ⟨e,he,hk⟩
    obtain ⟨he,hyes⟩ := mem_filter.mp he
    have hen := mem_zipIdx_iff_getElem?.mp he
    rw [hk,hget] at hen
    rwa [Option.some.inj hen]
  · exact fun hyes => ⟨(q,qs.idxOf q),mem_filter.mpr ⟨mem_zipIdx_iff_getElem?.mpr hget,hyes⟩,rfl⟩
end

/-! ## Measurements of flipped qubits -/
section
open EjectPauli
variable {qs rs : Qubits} {bits : List Bool} {v : Qubit → Bool}
lemma equator_look_equator {r} (hr : r ∈ qs) (a) :
    UpToPhase (wire r (equator 0) * look v qs bits * wire r (equator a)) (look (fun q => v q != decide (q = r)) qs bits) := by
  set v' : Qubit → Bool := fun q => v q != decide (q = r) with hv'
  have hnot : ∀ b w, (((1-b : Fin 2) == 1) != w) = ((b == 1) != (w != true)) := by decide
  have hf : ∀ x, bitsOf v qs (flipped r x) = bitsOf v' qs x := by
    intro x
    refine map_congr_left fun q _ => ?_
    by_cases hq : q = r
    · simpa [hv',hq] using hnot (x r) (v r)
    · simp [hv',hq]
  -- The bits that are reported fix the bit of the qubit, and so the phase that is left there.
  obtain ⟨z,hz,hp⟩ : ∃ z, ‖z‖ = 1 ∧ ∀ x, bitsOf v' qs x = bits → (if x r = 1 then turned (2*(0 - a)) else 1) = z := by
    by_cases hs : ∃ y, bitsOf v' qs y = bits
    · obtain ⟨y,hy⟩ := hs
      refine ⟨if y r = 1 then turned (2*(0-a)) else 1,by split <;> simp,fun x hx => ?_⟩
      have hbit := map_inj_left.mp (hx.trans hy.symm) r hr
      have hiff : x r = 1 ↔ y r = 1 := by simpa using hbit
      simp only [hiff]
    · exact ⟨1,norm_one,fun x hx => absurd ⟨x,hx⟩ hs⟩
  refine ⟨turned (a-0) * z,by rw [norm_mul,norm_turned,hz,one_mul],?_⟩
  rw [mul_assoc,look,diagonal_mul_equator,← mul_assoc,← map_mul,equator_mul_equator,map_smul,wire_phased_z,smul_mul_assoc,
    diagonal_mul,mul_smul]
  refine congrArg (turned (a-0) • ·) ?_
  rw [look,smul_diagonal]
  refine congrArg diagonal (funext fun x => ?_)
  rw [hf]
  by_cases hx : bitsOf v' qs x = bits
  · rw [hp x hx]
  · rw [if_neg hx,mul_zero,mul_zero]
lemma turnOf?_flip : turnOf? (.gate .X [q]) = some (((1 : ℤ) : ℝ),0,q) := by
  have hone : (one : ℝ) = (1 : ℤ) := by simp [one]
  rw [← hone]
  rfl
lemma asHalfTurns_flip : asHalfTurns effect (.gate .X [q]) = wire q (equator 0) :=
  asHalfTurns_of_isWhole (turnOf?_flip q) ⟨1,0,q,turnOf?_flip q⟩
lemma holds_release (s) {q r} (h : q ≠ r) : holds (s.release r) q = holds s q := by rw [holds,held?_release,if_neg h,holds]
lemma held?_releases (s : State ℝ) (rs : Qubits) (q) :
    (rs.foldl State.release s).held? q = if q ∈ rs then none else s.held? q := by
  induction rs generalizing s with
  | nil => rfl
  | cons r rs ih =>
    rw [foldl_cons,ih,held?_release]
    by_cases hq : q = r <;> simp [hq]
lemma fit_releases (hfit : Fit s.held) (rs : Qubits) : Fit (rs.foldl State.release s).held :=
  foldlRecOn (motive := fun s : State ℝ => Fit s.held) rs _ hfit fun _ h r _ => h.release r
lemma edits_releases (s : State ℝ) (rs : Qubits) : (rs.foldl State.release s).edits = s.edits :=
  foldlRecOn (motive := fun t : State ℝ => t.edits = s.edits) rs _ rfl fun _ h _ _ => h

/-- A measurement takes in the half turns on its qubits, one qubit after the other. -/
lemma flips_look (hrs : rs.Nodup) (hsub : rs ⊆ qs) (hfit : Fit s.held) :
    UpToPhase (evolution (asHalfTurns effect) ((rs.filter (holds s)).map fun q => .gate .X [q]) * look v qs bits * heldTurns s.held)
      (look (fun q => v q != (rs.contains q && holds s q)) qs bits * heldTurns (rs.foldl State.release s).held) := by
  induction rs generalizing s v with
  | nil =>
    have hs : look (fun q => v q != (([]).contains q && holds s q)) qs bits = look v qs bits :=
      look_congr fun q _ => by simp
    rw [hs,filter_nil,map_nil,evolution_nil,one_mul,foldl_nil]
  | cons r rs ih =>
    obtain ⟨hnew,hre⟩ := nodup_cons.mp hrs
    obtain ⟨hr,hsub⟩ := cons_subset.mp hsub
    have hf : rs.filter (holds (s.release r)) = rs.filter (holds s) :=
      filter_congr fun q hq => holds_release s fun heq => hnew (heq ▸ hq)
    have hrun := fun v => ih (v := v) hre hsub (hfit.release r)
    simp only [hf] at hrun
    have hs : ∀ u : Qubit → Bool, (∀ q, u q = (v q != (decide (q = r) && holds s r))) →
        look (fun q => u q != (rs.contains q && holds (s.release r) q)) qs bits =
          look (fun q => v q != ((r :: rs).contains q && holds s q)) qs bits := by
      refine fun u hu => look_congr fun q _ => ?_
      rw [hu]
      by_cases hq : q = r
      · simp [hq,hnew]
      · simp [hq,holds_release s hq]
    rw [heldTurns_eq hfit r]
    cases hh : s.held? r with
    | none =>
      have hno : holds s r = false := by simp [holds,hh]
      rw [filter_cons_of_neg (by simp [hno]),← hs v fun q => by simp [hno]]
      exact hrun v
    | some x =>
      obtain ⟨a,rfl⟩ := hfit.exists_num hh
      have hyes : holds s r := by simp [holds,hh]
      rw [filter_cons_of_pos hyes,map_cons,evolution_cons,asHalfTurns_flip,← hs _ fun q => by rw [hyes,Bool.and_true]]
      refine UpToPhase.trans ?_ (hrun _)
      rw [mul_assoc,mul_assoc (evolution _ _),← mul_assoc (look v qs bits),← mul_assoc (wire r (equator 0)),← mul_assoc (wire r (equator 0))]
      exact ((equator_look_equator hr a).mul_right _).mul_left _
variable [OperationText ℝ]
lemma passes_measurement (n key invert) (hqs : qs.Nodup) :
    Passes (branchOf f) (.gate (.measurement n key invert) qs) := by
  set op : Operation ℝ := .gate (.measurement n key invert) qs with hop
  have hre := reads_branchOf f
  have hu : Unread op := by
    refine ⟨ite_self _,rfl,rfl,fun htr => ?_⟩
    cases htr.isMeasurement
  refine passes_unread hre hu hqs fun i s hfit hh => ?_
  set flips := qs.zipIdx.filterMap fun (q,k) => if holds s q then some k else none with hf
  set op' : Operation ℝ := .gate (.measurement n key (flipBits invert flips)) qs with hop'
  set s₁ : State ℝ := (qs.foldl State.release s).edit (·.replace i op op') with hs₁
  have hst : step 0 s (i,op) = .ok (s₁.dump i qs) := step_unread hu hh i
  have hheld₁ : ∀ q, s₁.held? q = if q ∈ qs then none else s.held? q := held?_releases s qs
  obtain ⟨ws,hws⟩ := dump_putBack hre i qs (s := s₁) (fit_releases hfit qs)
  -- Nothing is left on the qubits of the measurement that had to be put back.
  obtain rfl : ws = [] := by
    refine eq_nil_iff_forall_not_mem.mpr fun w hw => ?_
    obtain ⟨q,hq,hs,-⟩ := hws.on_qubit w hw
    rw [hheld₁,if_pos hq] at hs
    cases hs
  have hn : ∀ q, (s₁.dump i qs).held? q = if q ∈ qs then none else s.held? q := by
    intro q
    rw [hws.held,hheld₁]
    split <;> rfl
  refine ⟨_,⟨i,op,[],some [op']⟩,hst,rfl,rfl,?_,?_,hws.fit,carry_unread hu hn,
    .stays (forall_mem_nil _) (.inr ⟨n,key,invert,_,qs,rfl,rfl⟩),?_⟩
  · obtain ⟨q,hq,-⟩ := hh
    obtain ⟨r,rs,rfl⟩ := exists_cons_of_ne_nil (ne_nil_of_mem hq)
    refine sound_instead i (told_measurement n key invert r rs) ?_ overlapFree_empty (overlapFree_singleton.mpr hqs) (by simp)
    intro o ho
    rw [mem_singleton.mp ho]
    exact fun _ hr => hr
  · rw [hws.edits,followed_instead]
    simp [hs₁,State.edit,edits_releases,Edits.replace,Edits.remove,Edits.add]
  · have hm : branchOf f op' = look (fun q => maskOf invert qs q != (qs.contains q && holds s q)) qs (f key) := by
      refine look_congr fun q hq => ?_
      rw [maskOf,getD_flipBits invert (nodup_places (holds s) qs),contains_places hq]
      simp [maskOf,hq]
    have ht : evolution (asHalfTurns (branchOf f)) (op :: takenIn (holds s) op) =
        evolution (asHalfTurns (branchOf f)) ((qs.filter (holds s)).map fun q => .gate .X [q]) * branchOf f op := by
      rw [evolution_cons]
      rfl
    have hp : Commute (branchOf f op') (heldTurns (qs.foldl State.release s).held) :=
      hre.commute_unheld fun q hq => (held?_releases s qs q).trans (if_pos hq)
    have htu : UpToPhase (heldTurns s₁.held) (heldTurns (s₁.dump i qs).held) := by
      simpa only [evolution_nil,mul_one] using hws.turns
    rw [ht]
    refine (flips_look (branchOf f) hqs (Subset.refl qs) hfit).trans ?_
    rw [← hm,hp.eq]
    exact htu.mul_right _
end

/-! ## Flips after measurements -/
section
lemma not_isEven_flip : ¬ IsEven (.gate .X [q]) := by
  rintro ⟨n,p,r,h⟩
  rw [turnOf?_flip,Option.some.injEq,Prod.mk.injEq] at h
  have hodd : 1 = 2*n := by exact_mod_cast h.1
  omega
lemma flip_upToPhase : UpToPhase (branchOf f (.gate .X [q])) (wire q (equator 0)) := by
  rw [← asHalfTurns_flip (branchOf f) q]
  exact (asHalfTurns_upToPhase (reads_branchOf f) (not_isEven_flip q)).symm
lemma tsum_normSq_flip (φ) : (tsum fun x => normSq (wire q (equator 0) φ x)) = tsum fun x => normSq (φ x) := by
  have hf : ∀ x, normSq (wire q (equator 0) φ x) = normSq (φ (flipped q x)) := by
    intro x
    rw [wire_equator_apply]
    simp
  simp only [hf]
  exact (Involutive.toPerm (flipped q) (flipped_flipped q)).tsum_eq fun x => normSq (φ x)
lemma chance_flips (ops) (rs : Qubits) : chance f (ops ++ rs.map fun q => .gate .X [q]) = chance f ops := by
  induction rs generalizing ops with
  | nil => rw [map_nil,append_nil]
  | cons q rs ih =>
    rw [map_cons,append_cons,ih,chance,evolution_append,evolution_singleton]
    rw [tsum_normSq_upToPhase ((flip_upToPhase f q).mul_right _)]
    exact tsum_normSq_flip q _
lemma keysIn_append (xs ys) : keysIn (xs ++ ys) = keysIn xs ++ keysIn ys := filterMap_append
lemma keysIn_turning {ws} (h : ∀ w ∈ ws, Turning w) : keysIn ws = [] :=
  filterMap_eq_nil_iff.mpr fun w hw => (h w hw).measurementKey?
lemma exists_takenIn (h op) : ∃ rs : Qubits, takenIn h op = rs.map fun q => .gate .X [q] := by
  unfold takenIn
  split
  · exact ⟨_,rfl⟩
  · exact ⟨[],rfl⟩
lemma mem_restored {o} (ho : o ∈ restored h ops) : o ∈ ops ∨ ∃ q, o = .gate .X [q] := by
  induction ops generalizing h with
  | nil => cases ho
  | cons op ops ih =>
    obtain ⟨rs,hrs⟩ := exists_takenIn h op
    rw [restored,hrs] at ho
    rcases mem_cons.mp ho with rfl | ho
    · exact .inl mem_cons_self
    · rcases mem_append.mp ho with ho | ho
      · obtain ⟨q,-,rfl⟩ := mem_map.mp ho
        exact .inr ⟨q,rfl⟩
      · exact (ih ho).imp_left (mem_cons_of_mem op)
lemma keysIn_restored (h ops) : keysIn (restored h ops) = keysIn ops := by
  induction ops generalizing h with
  | nil => rfl
  | cons op ops ih =>
    obtain ⟨rs,hrs⟩ := exists_takenIn h op
    have hf : keysIn (rs.map fun q => .gate .X [q]) = [] := by
      refine keysIn_turning fun w hw => ?_
      obtain ⟨q,-,rfl⟩ := mem_map.mp hw
      exact .equator (turnOf?_flip q)
    have hs : ∀ os, keysIn (op :: os) = keysIn [op] ++ keysIn os := fun os => keysIn_append [op] os
    rw [restored,hrs,hs,hs ops,keysIn_append,hf,ih,nil_append]
lemma keysIn_of_becomes [OperationText ℝ] {os} (h : Becomes op os) : keysIn os = keysIn [op] := by
  cases h with
  | turns hop hos => rw [keysIn_turning hos,keysIn_turning (forall_mem_singleton.mpr hop)]
  | @stays ws op' hws hop' =>
    rw [keysIn_append,keysIn_turning hws]
    rcases hop' with rfl | ⟨n,key,invert,invert',qs,rfl,rfl⟩
    · rfl
    · rfl
lemma keysIn_flatten [OperationText ℝ] (h : Forall₂ Becomes ops oss) : keysIn oss.flatten = keysIn ops := by
  induction h with
  | nil => rfl
  | @cons op os ops oss hop _ ih =>
    rw [flatten_cons,keysIn_append,keysIn_of_becomes hop,ih]
    exact (keysIn_append [op] ops).symm
end

/-! ## What the pass keeps -/
section
open EjectPauli
def oneByOne (ops : Ops ℝ) : OpCircuit ℝ := ⟨ops.map fun op => ⟨[op]⟩⟩
lemma operations_oneByOne (ops) : (oneByOne ops).operations = ops := by simp [oneByOne,Circuit.operations,flatMap_map]
variable [OperationText ℝ] {c d : OpCircuit ℝ}
/-- Where a measurement takes in half turns, nothing follows on their qubits. -/
def Undisturbed : (Qubit → Bool) → Ops ℝ → Prop
  | _, [] => True
  | h, op :: ops => Apart (takenIn h op) ops ∧ Undisturbed (carry h op) ops
lemma restored_sameOrder (hops : Undisturbed h ops) :
    ∃ rs : Qubits, SameOrder (restored h ops) (ops ++ rs.map fun q => .gate .X [q]) := by
  induction ops generalizing h with
  | nil => exact ⟨[],SameOrder.refl _⟩
  | cons op ops ih =>
    obtain ⟨ha,hr⟩ := hops
    obtain ⟨rs,hrs⟩ := exists_takenIn h op
    obtain ⟨rs',hrs'⟩ := ih hr
    have hord : SameOrder (takenIn h op ++ restored (carry h op) ops) (ops ++ (rs ++ rs').map fun q => .gate .X [q]) := by
      rw [map_append,← hrs,← append_assoc]
      refine (hrs'.append_left _).trans ?_
      rw [← append_assoc]
      exact (SameOrder.swap ha).append_right _
    exact ⟨rs ++ rs',hord.append_left [op]⟩
lemma chance_restored (hops : Undisturbed h ops) : chance f (restored h ops) = chance f ops := by
  obtain ⟨rs,hrs⟩ := restored_sameOrder hops
  rw [chance,evolution_sameOrder (reads_branchOf f).apart hrs]
  exact chance_flips f ops rs
lemma Measured.restored (hc : Measured c) (h) : Measured (oneByOne (restored h c.operations)) where
  free m hm := by
    obtain ⟨o,ho,rfl⟩ := mem_map.mp hm
    refine overlapFree_singleton.mpr ?_
    rcases mem_restored ho with ho | ⟨q,rfl⟩
    · obtain ⟨m,hm,ho⟩ := mem_flatMap.mp ho
      exact (overlapFree_iff.mp (hc.free m hm)).1 o ho
    · exact nodup_singleton q
  parts o ho := by
    rw [operations_oneByOne] at ho
    rcases mem_restored ho with ho | ⟨q,rfl⟩
    · exact hc.parts o ho
    · exact .inl (.equator (turnOf?_flip q))
  keys := by
    rw [operations_oneByOne,keysIn_restored]
    exact hc.keys

/-- What the pass leaves still consists of turns and of measurements under the same keys. -/
lemma Measured.becomes (hc : Measured c) (hf : Legal d) {ws} (hb : Forall₂ Becomes c.operations oss) (hws : ∀ w ∈ ws, Turning w)
    (hord : SameOrder d.operations (oss.flatten ++ ws)) : Measured d ∧ (keysIn d.operations).Perm (keysIn c.operations) := by
  have hp : (keysIn d.operations).Perm (keysIn c.operations) := by
    have hk : keysIn (oss.flatten ++ ws) = keysIn c.operations := by
      rw [keysIn_append,keysIn_turning hws,append_nil,keysIn_flatten hb]
    rw [← hk]
    exact hord.perm.filterMap _
  refine ⟨⟨hf,fun o ho => ?_,hp.nodup_iff.mpr hc.keys⟩,hp⟩
  rcases mem_append.mp (hord.perm.mem_iff.mp ho) with ho | ho
  · obtain ⟨os,hos,ho⟩ := mem_flatten.mp ho
    obtain ⟨op,hop,hbe⟩ := exists_of_mem_forall₂ hb hos
    cases hbe with
    | turns _ ht => exact .inl (ht o ho)
    | stays ht hop' =>
      rcases mem_append.mp ho with ho | ho
      · exact .inl (ht o ho)
      · rw [mem_singleton.mp ho]
        rcases hop' with rfl | ⟨n,key,invert,invert',qs,rfl,rfl⟩
        · exact hc.parts _ hop
        · exact .inr rfl
  · exact .inl (hws o ho)
lemma Measured.passes (hc : Measured c) (f) : ∀ op ∈ c.operations, Passes (branchOf f) op := by
  intro op hop
  rcases hc.parts op hop with ht | hme
  · exact passes_turning (reads_branchOf f) ht
  · obtain ⟨n,key,invert,qs,rfl⟩ := exists_measurement hme
    obtain ⟨m,hm,hop⟩ := mem_flatMap.mp hop
    exact passes_measurement f n key invert ((overlapFree_iff.mp (hc.free m hm)).1 _ hop)
variable [NumberText ℝ]
/-- A circuit of turns at exponents that are not even, and of measurements, on which the pass is run, comes to record what it
records with a flip after each measurement for every half turn that the measurement has taken in. So it records what it did
if nothing follows on the qubits of these half turns. -/
theorem run_recorded (p : Precision) (hc : Measured c) (heven : ∀ op ∈ c.operations, ¬ IsEven op) :
    ∃ d L, run 0 .none c = (d, .ok ()) ∧ recorded p d = ExceptT.lift L ∧
      recorded p (oneByOne (restored (fun _ => false) c.operations)) = ExceptT.lift L ∧
      (Undisturbed (fun _ => false) c.operations → recorded p c = ExceptT.lift L) := by
  obtain ⟨d, oss, ws, hrun, hfree, hbecomes, hws, horder, -⟩ := run_order (reads_branchOf fun _ => []) hc.free (hc.passes _)
  obtain ⟨hd, hkeys⟩ := hc.becomes hfree hbecomes hws horder
  have hrestored : Measured (oneByOne (restored (fun _ => false) c.operations)) := hc.restored _
  have hrestoredKeys : keysIn (oneByOne (restored (fun _ => false) c.operations)).operations = keysIn c.operations := by
    rw [operations_oneByOne, keysIn_restored]
  have hnone : ∀ op ∈ restored (fun _ => false) c.operations, ¬ IsEven op := by
    intro op hop
    rcases mem_restored hop with hop | ⟨q, rfl⟩
    · exact heven op hop
    · exact not_isEven_flip q
  have hchance : ∀ f, chance f d.operations = chance f (restored (fun _ => false) c.operations) := by
    intro f
    obtain ⟨d', -, -, hrun', -, -, -, -, hphase⟩ := run_order (reads_branchOf f) hc.free (hc.passes f)
    obtain rfl : d = d' := (Prod.mk.inj (hrun.symm.trans hrun')).1
    exact tsum_normSq_upToPhase
      (hphase.trans (evolution_upToPhase fun op hop => asHalfTurns_upToPhase (reads_branchOf f) (hnone op hop))) allOff
  obtain ⟨L, hL, -⟩ := exists_recorded p hd
  have hsame : recorded p (oneByOne (restored (fun _ => false) c.operations)) = recorded p d := by
    refine recorded_eq p hrestored hd ?_ fun f => ?_
    · rw [hrestoredKeys]
      exact hkeys.symm
    · rw [operations_oneByOne, hchance]
  refine ⟨d, L, hrun, hL, hsame.trans hL, fun hundisturbed => ?_⟩
  rw [← hL, ← hsame]
  refine recorded_eq p hc hrestored ?_ fun f => ?_
  · rw [hrestoredKeys]
  · rw [operations_oneByOne, chance_restored f hundisturbed]
end
section
def readTwice : OpCircuit ℝ :=
  oneByOne [.gate .X [.line 0],.gate (.measurement 1 "a" []) [.line 0],.gate (.measurement 1 "b" []) [.line 0]]
lemma restored_readTwice : restored (fun _ => false) readTwice.operations = [.gate .X [.line 0],
    .gate (.measurement 1 "a" []) [.line 0],.gate .X [.line 0],.gate (.measurement 1 "b" []) [.line 0]] := by
  have hf : carry (fun _ => false) (.gate .X [.line 0]) (.line 0) := by
    rw [carry_of_isWhole ⟨1,0,_,turnOf?_flip (.line 0)⟩]
    simp [Operation.qubits]
  have hr : ∀ h, carry h (.gate (.measurement 1 "a" []) [.line 0]) (.line 0) = false := by
    intro h
    rw [carry_of_not_turning fun ht => by cases ht.isMeasurement]
    simp [Operation.qubits]
  rw [readTwice,operations_oneByOne]
  simp [restored,takenIn,Operation.isMeasurement,measurementKey?,Operation.qubits,hf,hr]
lemma chance_readTwice : chance (fun key => [key == "a"]) readTwice.operations = 0 := by
  have hz : ∀ x, evolution (branchOf fun key => [key == "a"]) readTwice.operations allOff x = 0 := by
    intro x
    rw [readTwice,operations_oneByOne,evolution_cons,evolution_cons,evolution_singleton,Operator.mul_apply,Operator.mul_apply,
      branchOf,branchOf,look,look,diagonal_apply,diagonal_apply]
    by_cases hx : x (.line 0) = 1 <;> simp [bitsOf,maskOf,hx]
  simp [chance,hz]
lemma chance_restored_readTwice : chance (fun key => [key == "a"]) (restored (fun _ => false) readTwice.operations) = 1 := by
  set f : String → List Bool := fun key => [key == "a"] with hf
  have hfl := flip_upToPhase f (.line 0)
  set a := branchOf f (.gate (.measurement 1 "b" []) [.line 0]) * wire (Qubit.line 0) (equator 0) *
    branchOf f (.gate (.measurement 1 "a" []) [.line 0]) * wire (Qubit.line 0) (equator 0) with ha
  have hp : UpToPhase (evolution (branchOf f) (restored (fun _ => false) readTwice.operations)) a := by
    rw [restored_readTwice,evolution_cons,evolution_cons]
    exact ((hfl.mul_left _).mul_right _).mul hfl
  have hk : ∀ x, a allOff x = allOff x := by
    intro x
    rw [ha,Operator.mul_apply,Operator.mul_apply,Operator.mul_apply,branchOf,branchOf,look,look,diagonal_apply,wire_equator_apply,
      diagonal_apply,wire_equator_apply]
    by_cases hx : x (.line 0) = 1
    · have hne : x ≠ 0 := by
        rintro rfl
        simp at hx
      simp [allOff,hne]
    · have hx0 : x (.line 0) = 0 := by omega
      simp [bitsOf,maskOf,hf,hx0]
  rw [chance,tsum_normSq_upToPhase hp]
  simp only [hk]
  simp [allOff]

/-- The second measurement reads the flip that the first one has taken in. -/
theorem readTwice_not_recorded :
    letI : OperationText ℝ := ⟨fun _ => "", fun _ => "", fun _ => ""⟩
    letI : NumberText ℝ := ⟨fun _ => "", fun _ _ => "", fun _ _ => "", fun _ _ => "", fun _ => "", fun _ _ => "", fun _ _ _ => ""⟩
    Measured readTwice ∧ (∀ op ∈ readTwice.operations, ¬ IsEven op) ∧
      ∃ d, EjectPauli.run 0 .none readTwice = (d, .ok ()) ∧ recorded .single d ≠ recorded .single readTwice := by
  let _ := silentText
  let _ := silentNumber
  have hops : ∀ op ∈ readTwice.operations, op = .gate .X [.line 0] ∨ ∃ key, op = .gate (.measurement 1 key []) [.line 0] := by
    rw [readTwice, operations_oneByOne]
    simp
  have hc : Measured readTwice := by
    refine ⟨fun m hm => ?_, fun op hop => ?_, ?_⟩
    · obtain ⟨op, hop, rfl⟩ := List.mem_map.mp hm
      refine overlapFree_singleton.mpr ?_
      rcases hops op (by rwa [readTwice, operations_oneByOne]) with rfl | ⟨key, rfl⟩ <;> exact List.nodup_singleton _
    · rcases hops op hop with rfl | ⟨key, rfl⟩
      · exact Or.inl (.equator (turnOf?_flip _))
      · exact Or.inr rfl
    · have hkeys : keysIn readTwice.operations = ["a", "b"] := by
        rw [readTwice, operations_oneByOne]
        rfl
      rw [hkeys]
      decide
  have heven : ∀ op ∈ readTwice.operations, ¬ IsEven op := by
    intro op hop
    rcases hops op hop with rfl | ⟨key, rfl⟩
    · exact not_isEven_flip _
    · rintro ⟨n, p, q, hturn⟩
      cases (Turning.equator hturn).isMeasurement
  obtain ⟨d, L, hrun, hd, hrestored, -⟩ := run_recorded .single hc heven
  refine ⟨hc, heven, d, hrun, fun hsame => ?_⟩
  obtain ⟨P, hP, -, hchance⟩ := exists_recorded .single hc
  obtain ⟨Q, hQ, -, hchance'⟩ := exists_recorded .single (hc.restored fun _ => false)
  obtain rfl : L = P := lift_injective (hd.symm.trans (hsame.trans hP))
  obtain rfl : L = Q := lift_injective (hrestored.symm.trans hQ)
  have hzero := hchance fun key => [key == "a"]
  have hone := hchance' fun key => [key == "a"]
  rw [operations_oneByOne, keysIn_restored, hzero, chance_readTwice, chance_restored_readTwice] at hone
  simp at hone
end
end
end QuantumCircuits.RecordedBits
