import QuantumCircuits.Proofs.Registers
import QuantumCircuits.Simulation.Simulator

/-! # Measuring registers

A state of norm one gives each assignment of bits the probability of its squared amplitude. Measuring some wires shows
the bits of a random assignment there and leaves the part of the state that agrees with it.
-/
namespace QuantumCircuits.Measuring
noncomputable section
open Exact WireOperators Registers List Complex DensityMatrix Chance Function
variable {x : Fin n → Fin 2} {ws : List (Fin n)}
section
instance : Chance ℝ PMF where
  pick ps :=
    if h : (∀ p ∈ ps, 0 ≤ p) ∧ ps.sum = 1 then
      (PMF.ofFintype (fun i : Fin ps.length => ENNReal.ofReal (ps.get i)) (by
        rw [← ENNReal.ofReal_sum_of_nonneg fun i _ => h.1 _ (get_mem ps i),← sum_ofFn,ofFn_get,h.2,ENNReal.ofReal_one])).map Fin.val
    else PMF.pure 0
lemma pick_apply {ps} (hn : ∀ p ∈ ps, 0 ≤ p) (hsum : ps.sum = 1) (r) :
    (pick ps : PMF ℕ) r = ENNReal.ofReal (ps.getD r 0) := by
  have hv : (∀ p ∈ ps, 0 ≤ p) ∧ ps.sum = 1 := ⟨hn,hsum⟩
  simp only [pick,dif_pos hv]
  rw [PMF.map_apply,tsum_fintype]
  by_cases hr : r < ps.length
  · rw [Finset.sum_eq_single ⟨r,hr⟩]
    · simp [hr]
    · intro i _ hi
      have hne : r ≠ i.val := fun h => hi (Fin.ext h.symm)
      simp [hne]
    · simp
  · have hno : ∀ i : Fin ps.length, r ≠ i.val := fun i h => hr (h ▸ i.isLt)
    simp [hno,hr]
lemma pick_ofFn {α : Type} [Fintype α] (p : PMF α) (weight : α → ℝ) (hw : ∀ a, 0 ≤ weight a)
    (hp : ∀ a, p a = ENNReal.ofReal (weight a)) {size} (f : α → ℕ) (hf : ∀ a, f a < size) :
    (ofFn fun r : Fin size => ∑ a, if f a = r then weight a else 0).sum = 1 ∧
      pick (ofFn fun r : Fin size => ∑ a, if f a = r then weight a else 0) = p.map f := by
  have hone : ∑ a, weight a = 1 := by
    have ht := p.tsum_coe
    simp only [hp,tsum_fintype] at ht
    rw [← ENNReal.ofReal_sum_of_nonneg fun a _ => hw a] at ht
    simpa using ht
  have hn : ∀ r, 0 ≤ ∑ a, if f a = r then weight a else 0 := fun r =>
    Finset.sum_nonneg fun a _ => by split <;> simp [hw]
  have hsum : (ofFn fun r : Fin size => ∑ a, if f a = r then weight a else 0).sum = 1 := by
    rw [sum_ofFn,Finset.sum_comm,← hone]
    refine Finset.sum_congr rfl fun a _ => ?_
    rw [Finset.sum_eq_single ⟨f a,hf a⟩]
    · simp
    · intro r _ hr
      have hne : f a ≠ r.val := fun h => hr (Fin.ext h.symm)
      simp [hne]
    · simp
  refine ⟨hsum,PMF.ext fun r => ?_⟩
  have hmem : ∀ q ∈ ofFn fun r : Fin size => ∑ a, if f a = r then weight a else 0, 0 ≤ q := by
    intro q hq
    obtain ⟨r,rfl⟩ := mem_ofFn.mp hq
    exact hn r
  have hmap : p.map f r = ENNReal.ofReal (∑ a, if f a = r then weight a else 0) := by
    rw [PMF.map_apply,tsum_fintype,ENNReal.ofReal_sum_of_nonneg fun a _ => by split <;> simp [hw]]
    refine Finset.sum_congr rfl fun a _ => ?_
    by_cases h : f a = r
    · simp [h,hp]
    · simp [h,Ne.symm h]
  rw [pick_apply hmem hsum,hmap]
  by_cases hr : r < size
  · simp [hr]
  · have hno : ∀ a, f a ≠ r := fun a h => hr (h ▸ hf a)
    simp [hr,hno]
lemma draw_eq {ps : List ℝ} (h : ps.sum = 1) : (draw ps : ExceptT Fault PMF ℕ) = ExceptT.lift (pick ps) := by
  have hn : RealScalar.near slack (RealScalar.sum ps) 1 := by
    rw [sum_eq,h,RealScalar.near,slack,RealScalar.abs]
    norm_num
  rw [draw,if_pos hn]
end
section
def readout (ws : List (Fin n)) (x : Fin n → Fin 2) : List Bool := ws.map fun w => x w == 1
def code : List Bool → ℕ
  | [] => 0
  | b :: bs => b.toNat + 2 * code bs
variable (bs : List Bool)
lemma code_lt : code bs < 2^bs.length := by
  induction bs with
  | nil => simp [code]
  | cons b bs ih =>
    have hb : b.toNat ≤ 1 := Bool.toNat_le b
    rw [code,length_cons]
    omega
lemma outcomeBits_code : outcomeBits bs.length (code bs) = bs := by
  induction bs with
  | nil => rfl
  | cons b bs ih =>
    have hh : (b.toNat + 2 * code bs)/2 = code bs := by
      have hb : b.toNat ≤ 1 := Bool.toNat_le b
      omega
    have hbit : ((b.toNat + 2 * code bs) % 2 == 1) = b := by cases b <;> simp
    rw [code,length_cons,outcomeBits,hh,hbit,ih]
lemma code_injective_of_length {bs cs} (hlen : bs.length = cs.length) (h : code bs = code cs) : bs = cs := by
  rw [← outcomeBits_code bs,← outcomeBits_code cs,hlen,h]
lemma outcomeOf_number (ws) (x : Fin n → Fin 2) : outcomeOf n (ws.map Fin.val) (number x) = code (readout ws x) := by
  induction ws with
  | nil => rfl
  | cons w ws ih =>
    have hbit : (x w == 1).toNat = (x w).val := by
      generalize x w = b
      revert b
      decide
    simp only [map_cons,outcomeOf,bitOf,digit_number,ih,readout,code,hbit]
lemma getD_foldl_modify (outcome : ℕ → ℕ) (weight : ℕ → ℝ) (is : List ℕ) (acc : Array ℝ) :
    (is.foldl (fun acc i => acc.modify (outcome i) (· + weight i)) acc).size = acc.size ∧ ∀ r < acc.size,
      (is.foldl (fun acc i => acc.modify (outcome i) (· + weight i)) acc).getD r 0 =
        acc.getD r 0 + (is.map fun i => if outcome i = r then weight i else 0).sum := by
  induction is generalizing acc with
  | nil => simp
  | cons i is ih =>
    obtain ⟨hs,hget⟩ := ih (acc.modify (outcome i) (· + weight i))
    rw [Array.size_modify] at hs hget
    refine ⟨hs,fun r hr => ?_⟩
    rw [foldl_cons,hget r hr,map_cons,sum_cons,← add_assoc]
    by_cases h : outcome i = r
    · simp [hr,Array.getElem_modify,h]
    · simp [Array.getD,Array.getElem_modify,h]
lemma outcomeWeights_eq (size k outcome) (weight : ℕ → ℝ) : outcomeWeights size k outcome weight =
      ofFn fun r : Fin (2^k) => ∑ i : Fin size, if outcome i = r then weight i else 0 := by
  obtain ⟨hs,hget⟩ := getD_foldl_modify outcome weight (range size) (Array.replicate (2^k) 0)
  rw [Array.size_replicate] at hs hget
  apply ext_getElem
  · simp [outcomeWeights,hs]
  · intro r hr hr'
    have hrk : r < 2^k := by simpa using hr'
    have hsum := hget r hrk
    rw [sum_range_eq (fun i => if outcome i = r then weight i else 0)] at hsum
    simpa [outcomeWeights,hs,hrk] using hsum
end
section
@[ext] structure PureState (n : ℕ) where
  amplitude : Wave n
  unit : ∑ x, normSq (amplitude x) = 1
namespace PureState
variable (ψ : PureState n) (ws : List (Fin n)) (x : Fin n → Fin 2)
def law : PMF (Fin n → Fin 2) :=
  PMF.ofFintype (fun x => ENNReal.ofReal (normSq (ψ.amplitude x))) (by
    rw [← ENNReal.ofReal_sum_of_nonneg fun x _ => normSq_nonneg _,ψ.unit,ENNReal.ofReal_one])
lemma law_apply : ψ.law x = ENNReal.ofReal (normSq (ψ.amplitude x)) := rfl
def share : ℝ := ∑ y, if readout ws y = readout ws x then normSq (ψ.amplitude y) else 0
lemma share_pos (hx : x ∈ ψ.law.support) : 0 < ψ.share ws x := by
  have hpos : 0 < normSq (ψ.amplitude x) := by exact ENNReal.ofReal_pos.mp (pos_iff_ne_zero.mpr hx)
  refine hpos.trans_le ?_
  have hle := Finset.single_le_sum (f := fun y => if readout ws y = readout ws x then normSq (ψ.amplitude y) else 0)
    (fun y _ => by split <;> simp [normSq_nonneg]) (Finset.mem_univ x)
  simpa [share] using hle

/-- The part of a state that agrees with an assignment at some wires, with norm one. -/
def given : PureState n :=
  if h : ψ.share ws x = 0 then ψ
  else
    { amplitude := fun y => if readout ws y = readout ws x then ψ.amplitude y / (√(ψ.share ws x) : ℝ) else 0
      unit := by
        have hn : 0 ≤ ψ.share ws x := Finset.sum_nonneg fun y _ => by split <;> simp [normSq_nonneg]
        have ht : ∀ y, normSq (if readout ws y = readout ws x then ψ.amplitude y / (√(ψ.share ws x) : ℝ) else 0) =
            (if readout ws y = readout ws x then normSq (ψ.amplitude y) else 0) / ψ.share ws x := by
          intro y
          split
          · rw [normSq_div,normSq_ofReal,Real.mul_self_sqrt hn]
          · simp
        simp only [ht,← Finset.sum_div]
        exact div_self h }
end PureState
variable (ψ : PureState n)
def outcomeLaw (ψ : PureState n) (ws : List (Fin n)) : List ℝ :=
  ofFn fun r : Fin (2^ws.length) => ∑ x, if code (readout ws x) = r then normSq (ψ.amplitude x) else 0
lemma code_readout_lt (ws) (x : Fin n → Fin 2) : code (readout ws x) < 2^ws.length := by
  simpa [readout] using code_lt (readout ws x)
lemma code_readout_inj {y} : code (readout ws x) = code (readout ws y) ↔ readout ws x = readout ws y :=
  ⟨fun h => code_injective_of_length (by simp [readout]) h,fun h => by rw [h]⟩
variable (ws : List (Fin n))
lemma sum_outcomeLaw : (outcomeLaw ψ ws).sum = 1 :=
  (pick_ofFn ψ.law _ (fun _ => normSq_nonneg _) (fun _ => rfl) _ (code_readout_lt ws)).1
lemma pick_outcomeLaw : pick (outcomeLaw ψ ws) = ψ.law.map fun x => code (readout ws x) :=
  (pick_ofFn ψ.law _ (fun _ => normSq_nonneg _) (fun _ => rfl) _ (code_readout_lt ws)).2
lemma getD_outcomeLaw (x) : (outcomeLaw ψ ws).getD (code (readout ws x)) 0 = ψ.share ws x := by
  simp [outcomeLaw,code_readout_lt,PureState.share,code_readout_inj]
lemma normalized_outcomeWeights {weight} (hw : ∀ x, weight (number x) = normSq (ψ.amplitude x)) :
    normalizeWeights (outcomeWeights (2^n) (ws.map Fin.val).length (outcomeOf n (ws.map Fin.val)) weight) = outcomeLaw ψ ws := by
  have hlaw : outcomeWeights (2^n) (ws.map Fin.val).length (outcomeOf n (ws.map Fin.val)) weight = outcomeLaw ψ ws := by
    rw [outcomeWeights_eq,length_map]
    refine congrArg ofFn (funext fun r => ?_)
    refine Fintype.sum_equiv (place n).symm _ _ fun i => ?_
    have hn : i.val = number ((place n).symm i) := by rw [← place_val,Equiv.apply_symm_apply]
    rw [hn,outcomeOf_number,hw]
  rw [hlaw,normalizeWeights,sum_eq,sum_outcomeLaw]
  simp
end
section
variable {α β : Type} (p : PMF α)
lemma lift_bind_lift (f) :
    (ExceptT.lift p >>= fun a => ExceptT.lift (f a) : ExceptT Fault PMF β) = ExceptT.lift (p >>= f) := by
  simp
lemma pure_eq_lift (a) : (pure a : ExceptT Fault PMF α) = ExceptT.lift (pure a) := by
  simp
lemma mk_pure_ok (a) : (ExceptT.mk (pure (.ok a)) : ExceptT Fault PMF α) = pure a := rfl
lemma lift_bind_pure (f) : (ExceptT.lift p >>= fun a => pure (f a) : ExceptT Fault PMF β) = ExceptT.lift (p.map f) := by
  simp only [pure_eq_lift,lift_bind_lift]
  rfl
lemma map_congr_support {p : PMF α} {f g : α → β} (h : ∀ a ∈ p.support, f a = g a) : p.map f = p.map g := by
  ext b
  rw [PMF.map_apply,PMF.map_apply]
  refine tsum_congr fun a => ?_
  by_cases ha : a ∈ p.support
  · rw [h a ha]
  · rw [(PMF.apply_eq_zero_iff p a).mpr ha,ite_self,ite_self]
end
section
lemma entries_eq {s} {φ : Wave n} (hs : s.size = 2^n) (h : ∀ x, s.getD (number x) 0 = cpx (φ x)) :
    s = (register φ).entries := by
  apply Array.ext
  · rw [hs,size_register]
  · intro i hi hi'
    have hin : i < 2^n := hs ▸ hi
    have hn : i = number ((place n).symm ⟨i,hin⟩) := by rw [← place_val,Equiv.apply_symm_apply]
    have hget := (h ((place n).symm ⟨i,hin⟩)).trans (getD_register φ _).symm
    rw [← hn] at hget
    simpa [hi,hin] using hget
abbrev indices (ws : List (Fin n)) : List ℤ := (ws.map Fin.val).map fun (i : ℕ) => (i : ℤ)
lemma checkIndices_wires (ws : List (Fin n)) : checkIndices n (indices ws) = .ok (ws.map Fin.val) := by
  have hlow : (indices ws).any (· < 0) = false := by simp
  have hh : ((indices ws).any fun i => n ≤ i) = false := by simp
  rw [checkIndices,hlow,hh]
  simp
lemma numQubits_two_pow (n) : StateVector.numQubits (2^n) = .ok n := by
  rw [StateVector.numQubits,Nat.log2_two_pow,if_pos rfl]
variable (ψ : PureState n) (ws : List (Fin n))
lemma probabilities_vector : StateVector.probabilities n (ws.map Fin.val) (register ψ.amplitude).entries = outcomeLaw ψ ws := by
  rw [StateVector.probabilities,size_register]
  exact normalized_outcomeWeights ψ ws fun x => by rw [getD_register]; rfl
lemma PureState.given_amplitude (hx : x ∈ ψ.law.support) :
    (ψ.given ws x).amplitude = fun y => if readout ws y = readout ws x then ψ.amplitude y / √(ψ.share ws x) else 0 := by
  rw [given,dif_neg (ψ.share_pos ws x hx).ne']
lemma PureState.given_nil (hx : x ∈ ψ.law.support) : ψ.given [] x = ψ := by
  have hs : ψ.share [] x = 1 := by simpa [share,readout] using ψ.unit
  have hamp := ψ.given_amplitude [] hx
  simp only [hs,Real.sqrt_one,ofReal_one,div_one] at hamp
  exact PureState.ext hamp
lemma collapse_vector (hx : x ∈ ψ.law.support) :
    StateVector.collapse n (ws.map Fin.val) (code (readout ws x)) (ψ.share ws x) (register ψ.amplitude).entries =
      (register (ψ.given ws x).amplitude).entries := by
  refine entries_eq (by simp [StateVector.collapse]) fun y => ?_
  have hlt : number y < 2^n := number_lt y
  rw [ψ.given_amplitude ws hx]
  by_cases hy : readout ws y = readout ws x
  · have he := getD_register ψ.amplitude y
    simp only [size_register,hlt,dif_pos,Array.getInternal_eq_getElem] at he
    simp only [StateVector.collapse,Array.getD,Array.size_ofFn,size_register,hlt,Array.getInternal_eq_getElem,
      Array.getElem_ofFn,outcomeOf_number,hy,he]
    simp [cpx]
  · simp [StateVector.collapse,Array.getD,outcomeOf_number,code_readout_inj,hy]
    rfl
lemma outcomeBits_readout (x) : outcomeBits (ws.map Fin.val).length (code (readout ws x)) = readout ws x := by
  have hlen : (ws.map Fin.val).length = (readout ws x).length := by simp [readout]
  rw [hlen,outcomeBits_code]
lemma draw_outcome (collapse : ℕ → ℝ → S) {after : (Fin n → Fin 2) → S}
    (h : ∀ x ∈ ψ.law.support, collapse (code (readout ws x)) (ψ.share ws x) = after x) :
    (do
      let r ← draw (outcomeLaw ψ ws)
      pure (outcomeBits (ws.map Fin.val).length r,collapse r ((outcomeLaw ψ ws).getD r 0)) :
        ExceptT Fault PMF (List Bool × S)) = ExceptT.lift (ψ.law.map fun x => (readout ws x,after x)) := by
  rw [draw_eq (sum_outcomeLaw ψ ws),pick_outcomeLaw,lift_bind_pure,PMF.map_comp]
  refine congrArg _ (map_congr_support fun x hx => ?_)
  rw [comp_apply,outcomeBits_readout,getD_outcomeLaw,h x hx]
lemma pure_unchanged {after : (Fin n → Fin 2) → S} {s} (h : ∀ x ∈ ψ.law.support, after x = s) :
    (pure ([],s) : ExceptT Fault PMF (List Bool × S)) = ExceptT.lift (ψ.law.map fun x => (readout [] x,after x)) := by
  have hc : (ψ.law.map fun x => (readout [] x,after x)) = ψ.law.map (const _ ([],s)) :=
    map_congr_support fun x hx => by rw [h x hx]; rfl
  rw [hc,PMF.map_const,pure_eq_lift]
  rfl
lemma measure_vector :
    (StateVector.measure (indices ws) (register ψ.amplitude).entries) =
      ExceptT.lift (ψ.law.map fun x => (readout ws x,(register (ψ.given ws x).amplitude).entries)) := by
  rw [StateVector.measure,size_register,numQubits_two_pow]
  simp only [mk_pure_ok,pure_bind,checkIndices_wires,probabilities_vector]
  split
  case isTrue he =>
    obtain rfl : ws = [] := by simpa using he
    exact pure_unchanged ψ fun x hx => by rw [ψ.given_nil hx]
  case isFalse =>
    exact draw_outcome ψ ws (fun r p => StateVector.collapse n (ws.map Fin.val) r p (register ψ.amplitude).entries)
      fun x hx => collapse_vector ψ ws hx
def rows {α : Type} (reps : ℕ) (p : PMF α) : PMF (List α) := (List.replicate reps ()).mapM fun _ => p
lemma rows_one {α β : Type} {p : PMF α} {f : α → β} : rows 1 (p.map f) = p.map fun a => [f a] := by
  simp only [rows,replicate_one,mapM_cons,mapM_nil,pure_bind]
  exact PMF.map_comp f p fun b => [b]
lemma lift_mapM {α β : Type} (f) (as : List α) :
    (as.mapM fun a => ExceptT.lift (f a) : ExceptT Fault PMF (List β)) = ExceptT.lift (as.mapM f) := by
  induction as with
  | nil => exact pure_eq_lift _
  | cons a as ih => simp only [mapM_cons,ih,pure_eq_lift,lift_bind_lift]
variable (reps : ℕ)
lemma sampleOutcomes_rows : sampleOutcomes (ws.map Fin.val).length (outcomeLaw ψ ws) reps =
      ExceptT.lift (rows reps (ψ.law.map (readout ws))) := by
  unfold sampleOutcomes rows
  split
  case isTrue he =>
    obtain rfl : ws = [] := by simpa using he
    have hp : ψ.law.map (readout []) = pure [] := PMF.map_const _ _
    rw [hp,mapM_pure,map_const',length_replicate,pure_eq_lift]
    rfl
  case isFalse =>
    have hd : (do return outcomeBits (ws.map Fin.val).length (← draw (outcomeLaw ψ ws))) =
        ExceptT.lift (ψ.law.map (readout ws)) := by
      rw [draw_eq (sum_outcomeLaw ψ ws),pick_outcomeLaw,lift_bind_pure,PMF.map_comp]
      exact congrArg _ (map_congr_support fun x _ => outcomeBits_readout ws x)
    rw [hd,lift_mapM]
    rfl
lemma checkRepetitions_natural : checkRepetitions reps = .ok () := if_neg (Int.natCast_nonneg reps).not_gt
lemma sample_vector : (StateVector.sample (indices ws) reps (register ψ.amplitude).entries :
      ExceptT Fault PMF (List (List Bool))) = ExceptT.lift (rows reps (ψ.law.map (readout ws))) := by
  rw [StateVector.sample,size_register,numQubits_two_pow,checkRepetitions_natural]
  simp only [mk_pure_ok,pure_bind,checkIndices_wires,probabilities_vector]
  exact sampleOutcomes_rows ψ ws reps
end
section
variable (z : Fin (2*n) → Fin 2)
def first : Fin n → Fin 2 := fun j => z ⟨j,by omega⟩
def second : Fin n → Fin 2 := fun j => z ⟨n+j,by omega⟩
lemma index_pair : index z = index (first z) ++ index (second z) := by
  apply ext_getElem
  · simp [index,two_mul]
  · intro i hi hi'
    by_cases hin : i < n
    · simp [index,hin,first]
    · have hp : n+(i-n) = i := by omega
      simp [index,getElem_append,hin,second,hp]
lemma number_pair : number z = number (first z) * 2^n + number (second z) := by
  have hf := flatten_append (first z) n (index (second z))
  rw [flatten_index,← index_pair,← two_mul,flatten_index] at hf
  exact hf
def density (φ : Wave n) : Amplitudes (Fin (2*n)) := fun z => φ (first z) * star (φ (second z))
def pair (x y : Fin n → Fin 2) : Fin (2*n) → Fin 2 := fun j => if h : j.val < n then x ⟨j,h⟩ else y ⟨j-n,by omega⟩
@[simp] lemma first_pair (x y : Fin n → Fin 2) : first (pair x y) = x := by
  funext j
  simp [first,pair]
@[simp] lemma second_pair (x y : Fin n → Fin 2) : second (pair x y) = y := by
  funext j
  simp [second,pair]
lemma numQubits_density (n) : numQubits (replicate (2*n) 2) = .ok n := by
  have hh : (replicate (2*n) 2).length/2 = n := by simp
  have ht : (replicate (2*n) 2).take n = replicate n 2 := by simp [two_mul]
  have hd : (replicate (2*n) 2).drop n = replicate n 2 := by simp [two_mul]
  have hs : Tensor.sizeOf (replicate n 2) = 2^n := foldr_replicate n
  unfold numQubits
  simp only [hh,ht,hd,hs]
  cases n with
  | zero => rfl
  | succ n =>
    simp
variable (ψ : PureState n) (ws : List (Fin n)) {Φ : Amplitudes (Fin (2*n))}
def remainder (Φ : Amplitudes (Fin (2*n))) (x : Fin n → Fin 2) : Amplitudes (Fin (2*n)) := fun z =>
  if readout ws (first z) = readout ws x ∧ readout ws (second z) = readout ws x then Φ z / (ψ.share ws x : ℝ) else 0
lemma density_diagonal (x) : density ψ.amplitude (pair x x) = normSq (ψ.amplitude x) := by
  rw [density,first_pair,second_pair]
  exact mul_conj _
lemma density_given (hx : x ∈ ψ.law.support) : density (ψ.given ws x).amplitude = remainder ψ ws (density ψ.amplitude) x := by
  funext z
  have hr : √(ψ.share ws x) * star (√(ψ.share ws x) : ℂ) = ψ.share ws x := by
    rw [star_def,conj_ofReal,← ofReal_mul,Real.mul_self_sqrt (ψ.share_pos ws x hx).le]
  rw [density,ψ.given_amplitude ws hx,remainder]
  by_cases h1 : readout ws (first z) = readout ws x
  · by_cases h2 : readout ws (second z) = readout ws x
    · simp only [h1,h2,and_self,if_true]
      rw [star_div₀,div_mul_div_comm,hr]
      rfl
    · simp [h2]
  · simp [h1]
lemma collapse_register (Φ : Amplitudes (Fin (2*n))) (x) : collapse n (ws.map Fin.val) (code (readout ws x)) (ψ.share ws x)
    (register Φ).entries = (register (remainder ψ ws Φ x)).entries := by
  refine entries_eq (by simp [collapse]) fun z => ?_
  have hlt : number z < 2^(2*n) := number_lt z
  have hs : number (second z) < 2^n := number_lt _
  have hdiv : number z / 2^n = number (first z) := by
    rw [number_pair,mul_comm,Nat.mul_add_div (by positivity),Nat.div_eq_of_lt hs,Nat.add_zero]
  have hmod : number z % 2^n = number (second z) := by rw [number_pair,mul_comm,Nat.mul_add_mod,Nat.mod_eq_of_lt hs]
  have he := getD_register Φ z
  simp only [size_register,hlt,dif_pos,Array.getInternal_eq_getElem] at he
  simp only [collapse,Array.getD,Array.size_ofFn,size_register,hlt,Array.getInternal_eq_getElem,
    Array.getElem_ofFn,hdiv,hmod,outcomeOf_number,code_readout_inj,he,remainder]
  by_cases h : readout ws (first z) = readout ws x ∧ readout ws (second z) = readout ws x
  · simp [h,cpx]
  · simp only [h,if_false]
    rfl
variable {shape : List ℕ} (hs : numQubits shape = .ok n) (hΦ : ∀ x, Φ (pair x x) = normSq (ψ.amplitude x))
include hΦ
lemma probabilities_matrix : probabilities n (ws.map Fin.val) (register Φ).entries = outcomeLaw ψ ws := by
  refine normalized_outcomeWeights ψ ws fun x => ?_
  have hd : number x * 2^n + number x = number (pair x x) := by rw [number_pair,first_pair,second_pair]
  rw [hd,getD_register,hΦ]
  simp [Cpx.norm,Cpx.normSq,cpx,normSq_nonneg]
include hs
lemma measure_matrix :
    (DensityMatrix.measure (indices ws) ⟨shape,(register Φ).entries⟩) =
      ExceptT.lift (ψ.law.map fun x => (readout ws x,⟨shape,(register (remainder ψ ws Φ x)).entries⟩)) := by
  simp only [DensityMatrix.measure,hs,mk_pure_ok,pure_bind,checkIndices_wires,probabilities_matrix ψ ws hΦ]
  split
  case isTrue he =>
    obtain rfl : ws = [] := by simpa using he
    have hrem : ∀ x, remainder ψ [] Φ x = Φ := fun x => by
      funext z
      simp [remainder,PureState.share,readout,ψ.unit]
    exact pure_unchanged ψ fun x _ => by rw [hrem]
  case isFalse =>
    exact draw_outcome ψ ws (fun r p => (⟨shape,collapse n (ws.map Fin.val) r p
      (register Φ).entries⟩ : Tensor ℝ)) fun x _ => by rw [collapse_register]
omit hΦ
lemma measure_density : (measure (indices ws) ⟨shape,(register (density ψ.amplitude)).entries⟩ :
      ExceptT Fault PMF (List Bool × Tensor ℝ)) =
      ExceptT.lift (ψ.law.map fun x => (readout ws x,⟨shape,(register (density (ψ.given ws x).amplitude)).entries⟩)) := by
  rw [measure_matrix ψ ws hs (density_diagonal ψ)]
  exact congrArg _ (map_congr_support fun x hx => by rw [density_given ψ ws hx])
lemma sample_density (reps : ℕ) : (sample (indices ws) reps ⟨shape,(register (density ψ.amplitude)).entries⟩ :
      ExceptT Fault PMF (List (List Bool))) = ExceptT.lift (rows reps (ψ.law.map (readout ws))) := by
  simp only [sample,hs,checkRepetitions_natural,mk_pure_ok,pure_bind,checkIndices_wires,
    probabilities_matrix ψ ws (density_diagonal ψ)]
  exact sampleOutcomes_rows ψ ws reps
end

/-! ## Sampling the final state

Where nothing follows a measurement, measuring along the way reports what a sample of the final state shows, except
that only the former inverts bits.
-/
section
structure LocalUnitary (n : ℕ) where
  wires : List (Fin n)
  nodup : wires.Nodup
  matrix : Mat ℝ
  square : Square (2^wires.length) matrix
  unitary : (toMatrix (2^wires.length) matrix).conjTranspose * toMatrix (2^wires.length) matrix = 1

/-- A state is turned, or bits are read off and reported under a key, some of them inverted. -/
inductive Step (n : ℕ) where
  | turn (u : LocalUnitary n)
  | look (key : String) (invert : List Bool) (wires : List (Fin n))
namespace LocalUnitary
variable (u : LocalUnitary n)
def operator : Operator (Fin n) := onWires u.matrix u.wires
lemma sum_normSq_operator (φ : Wave n) : ∑ x, normSq (u.operator φ x) = ∑ x, normSq (φ x) := by
  refine sum_normSq_act (nodup_iff_injective_get.mp u.nodup) ?_ φ
  rw [Matrix.conjTranspose_submatrix,Matrix.submatrix_mul_equiv,u.unitary,Matrix.submatrix_one_equiv]
def apply (ψ : PureState n) : PureState n := ⟨u.operator ψ.amplitude,by rw [sum_normSq_operator,ψ.unit]⟩
end LocalUnitary
def turns : List (Step n) → Operator (Fin n)
  | [] => 1
  | .turn u :: steps => turns steps * u.operator
  | .look .. :: steps => turns steps
def evolve (ψ : PureState n) : List (Step n) → PureState n
  | [] => ψ
  | .turn u :: steps => evolve (u.apply ψ) steps
  | .look .. :: steps => evolve ψ steps
lemma evolve_amplitude (ψ) (steps : List (Step n)) : (evolve ψ steps).amplitude = turns steps ψ.amplitude := by
  induction steps generalizing ψ with
  | nil => rfl
  | cons step steps ih =>
    cases step with
    | turn u => exact ih (u.apply ψ)
    | look key invert ws => exact ih ψ
def observe (ψ : PureState n) : List (Step n) → PMF (Report × PureState n)
  | [] => pure ([],ψ)
  | .turn u :: steps => observe (u.apply ψ) steps
  | .look key invert ws :: steps => do
    let x ← ψ.law
    let (report,φ) ← observe (ψ.given ws x) steps
    return ((key,invertBits invert (readout ws x)) :: report,φ)
section
variable {β : Type} (f : Report × PureState n → PMF β) (ψ : PureState n)
lemma observe_look (key invert ws steps) : observe ψ (.look key invert ws :: steps) = ψ.law.bind fun x =>
    (observe (ψ.given ws x) steps).map fun p => ((key,invertBits invert (readout ws x)) :: p.1,p.2) := rfl
lemma bind_observe_look (key invert ws steps) : (observe ψ (.look key invert ws :: steps)).bind f = ψ.law.bind fun x =>
    (observe (ψ.given ws x) steps).bind fun p => f ((key,invertBits invert (readout ws x)) :: p.1,p.2) := by
  rw [observe_look,PMF.bind_bind]
  simp only [PMF.bind_map]
  rfl
lemma bind_observe_append (steps rest) : (observe ψ (steps ++ rest)).bind f =
      (observe ψ steps).bind fun p => (observe p.2 rest).bind fun q => f (p.1 ++ q.1,q.2) := by
  induction steps generalizing ψ f with
  | nil => exact (PMF.pure_bind ([],ψ) fun p => (observe p.2 rest).bind fun q => f (p.1 ++ q.1,q.2)).symm
  | cons step steps ih =>
    cases step with
    | turn u => exact ih f (u.apply ψ)
    | look key invert ws =>
      rw [cons_append,bind_observe_look,bind_observe_look]
      simp [ih]
end
/-- What the same steps report for one assignment of bits; `correct` says what becomes of the bits. -/
def reportOf (correct : List Bool → List Bool → List Bool) (x : Fin n → Fin 2) : List (Step n) → Report
  | [] => []
  | .turn _ :: steps => reportOf correct x steps
  | .look key invert ws :: steps => (key,correct invert (readout ws x)) :: reportOf correct x steps
def Settled : List (Step n) → Prop
  | [] => True
  | .turn _ :: steps => Settled steps
  | .look _ _ ws :: steps => (∀ u, .turn u ∈ steps → u.wires.Disjoint ws) ∧ Settled steps
end
section
def cut (ws : List (Fin n)) (bits : List Bool) (φ : Wave n) : Wave n :=
  fun y => if readout ws y = bits then φ y else 0
lemma readout_extend {us : List (Fin n)} (h : us.Disjoint ws) (c y) :
    readout ws (extend us.get c y) = readout ws y := by
  refine map_congr_left fun w hw => ?_
  rw [extend_apply']
  rintro ⟨j,rfl⟩
  exact h (get_mem us j) hw
lemma operator_cut {u : LocalUnitary n} (h : u.wires.Disjoint ws) (bits φ) :
    u.operator (cut ws bits φ) = cut ws bits (u.operator φ) := by
  funext y
  simp only [LocalUnitary.operator,onWires,act_apply,cut,readout_extend h]
  split <;> simp
lemma turns_cut {steps} (h : ∀ u, .turn u ∈ steps → u.wires.Disjoint ws) (bits φ) :
    turns steps (cut ws bits φ) = cut ws bits (turns steps φ) := by
  induction steps generalizing φ with
  | nil => rfl
  | cons step steps ih =>
    have hr := ih fun u hu => h u (mem_cons_of_mem _ hu)
    cases step with
    | turn u =>
      rw [turns,Operator.mul_apply,Operator.mul_apply,operator_cut (h u mem_cons_self),hr]
    | look key invert us => exact hr φ
variable (ψ : PureState n)
/-- What grows with the square of a state comes out, over the outcomes with the same bits, as for the part with these bits. -/
lemma sum_law_given (ws bits) {g : Wave n → ℝ} (hsm : ∀ z φ, g (z • φ) = normSq z * g φ)
    (hn : ∀ φ, 0 ≤ g φ) :
    ∑ x, ψ.law x * (if readout ws x = bits then ENNReal.ofReal (g (ψ.given ws x).amplitude) else 0) =
      ENNReal.ofReal (g (cut ws bits ψ.amplitude)) := by
  have hw : ∀ x, 0 ≤ if readout ws x = bits then normSq (ψ.amplitude x) else 0 := fun x => by split <;> simp [normSq_nonneg]
  by_cases hs : ∃ y ∈ ψ.law.support, readout ws y = bits
  · obtain ⟨y,hy,rfl⟩ := hs
    have hpos : 0 < ψ.share ws y := ψ.share_pos ws y hy
    have ht : ∀ x, ψ.law x * (if readout ws x = readout ws y then ENNReal.ofReal (g (ψ.given ws x).amplitude) else 0) =
        ENNReal.ofReal ((if readout ws x = readout ws y then normSq (ψ.amplitude x) else 0) *
          (g (cut ws (readout ws y) ψ.amplitude) / ψ.share ws y)) := by
      intro x
      by_cases hxy : readout ws x = readout ws y
      · rw [if_pos hxy,if_pos hxy,ENNReal.ofReal_mul (normSq_nonneg _),← PureState.law_apply]
        by_cases hx : x ∈ ψ.law.support
        · have hsh : ψ.share ws x = ψ.share ws y := by simp only [PureState.share,hxy]
          have hg : (ψ.given ws x).amplitude = (√(ψ.share ws y) : ℂ)⁻¹ • cut ws (readout ws y) ψ.amplitude := by
            rw [ψ.given_amplitude ws hx,hsh,hxy]
            funext z
            simp [cut,div_eq_inv_mul]
          rw [hg,hsm,normSq_inv,normSq_ofReal,Real.mul_self_sqrt hpos.le,div_eq_inv_mul]
        · rw [(PMF.apply_eq_zero_iff ψ.law x).mpr hx,zero_mul,zero_mul]
      · simp [hxy]
    simp only [ht]
    rw [← ENNReal.ofReal_sum_of_nonneg fun x _ => mul_nonneg (hw x) (div_nonneg (hn _) hpos.le),← Finset.sum_mul]
    exact congrArg ENNReal.ofReal (mul_div_cancel₀ _ hpos.ne')
  · have hcut : cut ws bits ψ.amplitude = (0 : ℂ) • 0 := by
      funext y
      by_cases hy : readout ws y = bits
      · have hlaw := (PMF.apply_eq_zero_iff ψ.law y).mpr fun hmem => hs ⟨y,hmem,hy⟩
        rw [PureState.law_apply,ENNReal.ofReal_eq_zero] at hlaw
        simpa [cut,hy] using hlaw.antisymm (normSq_nonneg _)
      · simp [cut,hy]
    rw [hcut,hsm,map_zero,zero_mul,ENNReal.ofReal_zero]
    refine Finset.sum_eq_zero fun x _ => ?_
    by_cases hx : readout ws x = bits
    · rw [(PMF.apply_eq_zero_iff ψ.law x).mpr fun hmem => hs ⟨x,hmem,hx⟩,zero_mul]
    · rw [if_neg hx,mul_zero]
lemma law_bind_given (h : ∀ u, .turn u ∈ steps → u.wires.Disjoint ws) :
    (ψ.law.bind fun x => (evolve (ψ.given ws x) steps).law.map fun y => (readout ws x,y)) =
      (evolve ψ steps).law.map fun y => (readout ws y,y) := by
  have hmap : ∀ (p : PMF (Fin n → Fin 2)) (f : (Fin n → Fin 2) → List Bool) b y,
      p.map (fun y => (f y,y)) (b,y) = if f y = b then p y else 0 := by
    intro p f b y
    rw [PMF.map_apply,tsum_eq_single y]
    · simp [eq_comm]
    · intro z hz
      simp [Ne.symm hz]
  ext ⟨b,y⟩
  rw [PMF.bind_apply,tsum_fintype]
  simp only [hmap _ (fun _ => readout ws _),PureState.law_apply (evolve _ _),evolve_amplitude]
  have hs : ∀ z φ, normSq (turns steps (z • φ) y) = normSq z * normSq (turns steps φ y) := by
    intro z φ
    rw [Operator.map_smul,Pi.smul_apply,smul_eq_mul,normSq_mul]
  have hsum := sum_law_given ψ ws b (g := fun φ => normSq (turns steps φ y)) hs fun φ => normSq_nonneg _
  rw [hsum,turns_cut h,cut]
  split <;> simp

/-- Reading off along the way reports what the final state shows, with the inverted bits. -/
lemma observe_map_fst (h : Settled steps) :
    (observe ψ steps).map Prod.fst = (evolve ψ steps).law.map fun x => reportOf invertBits x steps := by
  induction steps generalizing ψ with
  | nil =>
    exact (PMF.pure_map _ _).trans (PMF.map_const _ _).symm
  | cons step steps ih =>
    cases step with
    | turn u => exact ih (u.apply ψ) h
    | look key invert ws =>
      obtain ⟨hd,hs⟩ := h
      have hr : ∀ x, (observe (ψ.given ws x) steps).map (fun p => (key,invertBits invert (readout ws x)) :: p.1) =
          ((evolve (ψ.given ws x) steps).law.map fun y => (readout ws x,y)).map fun p =>
            (key,invertBits invert p.1) :: reportOf invertBits p.2 steps := by
        intro x
        have hmap := congrArg (PMF.map fun r => (key,invertBits invert (readout ws x)) :: r) (ih (ψ.given ws x) hs)
        rw [PMF.map_comp,PMF.map_comp] at hmap
        rw [PMF.map_comp]
        exact hmap
      have hl : (observe ψ (.look key invert ws :: steps)).map Prod.fst =
          ψ.law.bind fun x => (observe (ψ.given ws x) steps).map fun p => (key,invertBits invert (readout ws x)) :: p.1 :=
        bind_observe_look (PMF.pure ∘ Prod.fst) ψ key invert ws steps
      rw [hl]
      simp only [hr]
      rw [← PMF.map_bind,law_bind_given ψ hd,PMF.map_comp]
      rfl
end
end
end QuantumCircuits.Measuring
