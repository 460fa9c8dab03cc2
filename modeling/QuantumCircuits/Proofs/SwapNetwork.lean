import QuantumCircuits.Proofs.NetworkMeetings
import QuantumCircuits.Proofs.Decompositions
import QuantumCircuits.Acquaintance.Strategy

/-! # Swap networks

The layers of a swap network turn the order of its parts around and may change the order of the qubits in each part; the
last step, found from the record of what the qubits carry, completes the reversal.
-/
namespace QuantumCircuits.SwapNetwork
open List hiding getElem?_eq_some_iff product
open Network Exchanges Assignments NetworkMoves Courses Course WireOrder NetworkMeetings Decompositions Acquaintance
variable {α : Type} {lens : List Nat} {qs : List α}
lemma total_eq_sum (lens) : Permuter.total lens = lens.sum := sum_eq_foldl_nat.symm
lemma flatten_cut (lens) (qs : List α) : (cut lens qs).flatten = qs.take lens.sum := by
  induction lens generalizing qs with
  | nil => rfl
  | cons n lens ih => rw [cut,flatten_cons,ih,sum_cons,take_add]
lemma length_cut (lens) (qs : List α) : (cut lens qs).length = lens.length := by
  induction lens generalizing qs with
  | nil => rfl
  | cons n lens ih => rw [cut,length_cons,length_cons,ih]
lemma cut_nonempty (h : lens.sum = qs.length) (hpos : ∀ n ∈ lens, 1 ≤ n) : ∀ part ∈ cut lens qs, part ≠ [] := by
  induction lens generalizing qs with
  | nil => simp [cut]
  | cons n lens ih =>
    obtain ⟨hn,hpos⟩ := forall_mem_cons.mp hpos
    rw [sum_cons] at h
    refine forall_mem_cons.mpr ⟨?_,ih (by rw [length_drop]; omega) hpos⟩
    rw [← length_pos_iff,length_take]
    omega
variable [DecidableEq α]
lemma get?_map_pair (f : α → β) {q} (hq : q ∈ qs) : Carrying.get? (qs.map fun q => (q,f q)) q = some (f q) := by
  have hs : (Carrying.get? (qs.map fun q => (q,f q)) q).isSome := by
    rw [isSome_get?_iff]
    simpa using hq
  obtain ⟨v,hv⟩ := Option.isSome_iff_exists.mp hs
  obtain ⟨e,he,rfl⟩ := Option.map_eq_some_iff.mp hv
  obtain ⟨x,-,rfl⟩ := mem_map.mp (mem_of_find?_eq_some he)
  obtain rfl : x = q := by simpa using find?_some he
  exact hv
lemma map_idxOf (hqs : qs.Nodup) : (qs.map fun q => qs.idxOf q) = range qs.length := by
  refine ext_getElem (by simp) fun p hp _ => ?_
  rw [getElem_map,getElem_range,hqs.idxOf_getElem]
section
variable {start : List (List α)} {μ : Equiv.Perm α} (carried : α → Nat)
section
variable (hqs : qs.Nodup) (hc : ∀ q ∈ qs, carried (μ q) = qs.idxOf q)
include hqs hc
lemma ends_eq (hs : start.flatten = qs) {parts}
    (harr : Arranged Perm start parts (bricks start.length start.length) μ)
    :
    (parts.reverse.flatMap fun part => (part.map carried).mergeSort (· ≤ ·)) = range qs.length := by
  have hpa : ∀ {o part : List α}, o ∈ start → (o.map μ).Perm part →
      (part.map carried).mergeSort (· ≤ ·) = o.map fun q => qs.idxOf q := by
    intro o part ho hp
    have hsub : o.Sublist qs := hs ▸ sublist_flatten_of_mem ho
    have hso : (o.map fun q => qs.idxOf q).Pairwise (· ≤ ·) := by
      have hr : (o.map fun q => qs.idxOf q).Sublist (range qs.length) := map_idxOf hqs ▸ hsub.map _
      exact (pairwise_lt_range.sublist hr).imp Nat.le_of_lt
    have hv : (o.map fun q => qs.idxOf q) = (o.map μ).map carried := by
      rw [map_map]
      exact map_congr_left fun q hq => (hc q (hsub.subset hq)).symm
    have hp' : ((part.map carried).mergeSort (· ≤ ·)).Perm (o.map fun q => qs.idxOf q) := by
      rw [hv]
      exact (mergeSort_perm _ _).trans (hp.map carried).symm
    have hm : ((part.map carried).mergeSort (· ≤ ·)).Pairwise (· ≤ ·) := pairwise_mergeSort' (· ≤ ·) _
    exact hp'.eq_of_pairwise (fun a b _ _ hab hba => Nat.le_antisymm hab hba) hm hso
  have hall : (parts.reverse.map fun part => (part.map carried).mergeSort (· ≤ ·)) =
      start.map fun o => o.map fun q => qs.idxOf q := by
    refine ext_getElem (by simp [harr.length_eq]) fun k hk hk' => ?_
    rw [length_map] at hk'
    have hlen := harr.length_eq
    obtain ⟨o,ho,hp⟩ := harr.placed (parts.length-1-k) _ (getElem?_eq_getElem (by omega))
    rw [origin_bricks (by omega),show start.length-1-(parts.length-1-k) = k by omega] at ho
    obtain ⟨_,rfl⟩ := getElem?_eq_some_iff.mp ho
    rw [getElem_map,getElem_map,getElem_reverse]
    exact hpa (getElem_mem hk') hp
  rw [flatMap_def,hall,← map_flatten,hs,map_idxOf hqs]
lemma carried_perm (hμ : (qs.map μ).Perm qs) :
    (qs.map carried).Perm (range qs.length) := by
  have hv : (qs.map μ).map carried = range qs.length := by
    rw [← map_idxOf hqs,map_map]
    exact map_congr_left hc
  exact (hμ.map carried).symm.trans (hv ▸ .refl _)
lemma acts_reversal {last f} (hfix : ∀ x, x ∉ qs → μ x = x)
    (hl : Acts last qs f) (hf : ∀ p x, qs[p]? = some x → f p = qs.length-1 - carried x) :
    Acts (last*μ) qs fun p => qs.length-1-p := by
  refine ⟨fun p x hx => ?_,fun x hx => by rw [Equiv.Perm.mul_apply,hfix x hx,hl.2 x hx]⟩
  have hxm := mem_of_getElem? hx
  obtain ⟨p',hp'⟩ := mem_iff_getElem?.mp (image_mem_of_fixes hfix hxm)
  have him := hl.1 p' _ hp'
  rw [hf p' _ hp',hc x hxm] at him
  obtain ⟨hp,rfl⟩ := getElem?_eq_some_iff.mp hx
  rwa [hqs.idxOf_getElem] at him
end
lemma range_perm {f g : Nat → Nat} (h : ∀ i < n, f i < n ∧ g (f i) = i) : ((range n).map f).Perm (range n) := by
  have hn : ((range n).map f).Nodup := nodup_range.map_on fun i hi j hj hij => by
    rw [← (h i (mem_range.mp hi)).2,hij,(h j (mem_range.mp hj)).2]
  refine (hn.subperm fun i hi => ?_).perm_of_length_le (by simp)
  obtain ⟨j,hj,rfl⟩ := mem_map.mp hi
  exact mem_range.mpr (h j (mem_range.mp hj)).1
lemma reversed_perm (n) : ((range n).map fun i => n-1-i).Perm (range n) :=
  range_perm (g := fun i => n-1-i) fun i hi => by omega
def lastSteps (carried : α → Nat) (qs : List α) : Steps α :=
  let images := (List.range qs.length).zip (qs.map fun q => qs.length-1 - carried q)
  if images.any fun (i,j) => i ≠ j then [.permute (.linear qs.length images) qs] else []
lemma last_spec (size) (hqs : qs.Nodup) (hc : (qs.map carried).Perm (range qs.length)) :
    (∀ st ∈ lastSteps carried qs, Proper qs size st) ∧ (course (lastSteps carried qs)).meets = 0 ∧ ∃ f, Acts (course (lastSteps carried qs)).moves qs f ∧
      ∀ p x, qs[p]? = some x → f p = qs.length-1 - carried x := by
  have hig : (qs.map fun q => qs.length-1 - carried q).Perm (range qs.length) := by
    have hmap : (qs.map fun q => qs.length-1 - carried q) = (qs.map carried).map fun i => qs.length-1-i := by simp
    rw [hmap]
    exact (hc.map _).trans (reversed_perm qs.length)
  have hk : ((range qs.length).zip (qs.map fun q => qs.length-1 - carried q)).map Prod.fst = range qs.length :=
    map_fst_zip (by simp)
  have hv : ((range qs.length).zip (qs.map fun q => qs.length-1 - carried q)).map Prod.snd =
      qs.map fun q => qs.length-1 - carried q := map_snd_zip (by simp)
  unfold lastSteps
  dsimp only
  split
  case isTrue hany =>
    have hm := Moves.linear (by rintro rfl; simp at hany) hqs
      ⟨by rw [hk]; exact nodup_range,by rwa [hk,hv],fun i hi => mem_range.mp (hk ▸ hi)⟩
    obtain ⟨f,hf,ha⟩ := hm.acts
    refine ⟨forall_mem_singleton.mpr (.move hm (Subset.refl qs)),rfl,f,ha,fun p x hx => ?_⟩
    have hp := (getElem?_eq_some_iff.mp hx).1
    rcases hf.sends p hp with hse | ⟨-,hnot⟩
    · obtain ⟨i,hi⟩ := mem_iff_getElem?.mp hse
      obtain ⟨hpl,him⟩ := getElem?_zip_eq_some.mp hi
      obtain ⟨_,rfl⟩ := getElem?_eq_some_iff.mp hpl
      rw [getElem_range] at hx
      rw [getElem?_map,hx] at him
      exact (Option.some.inj him).symm
    · exact absurd (hig.mem_iff.mpr (mem_range.mpr hp)) (hv ▸ hnot)
  case isFalse hs =>
    refine ⟨by simp,rfl,id,Acts.one qs,fun p x hx => ?_⟩
    have hp := (getElem?_eq_some_iff.mp hx).1
    have hpa : (p,qs.length-1 - carried x) ∈ (range qs.length).zip (qs.map fun q => qs.length-1 - carried q) :=
      mem_of_getElem? (getElem?_zip_eq_some.mpr ⟨getElem?_range hp,by rw [getElem?_map,hx]; rfl⟩)
    have hn := any_eq_false.mp (Bool.not_eq_true _ ▸ hs) _ hpa
    simpa using hn
end
/-- The steps of a swap network can always be given. Together they turn the qubits around, all their opportunities are for
groups that stand together, and every two parts meet once. -/
lemma swapNetworkSteps_eq {qs : List α} (size) (hqs : qs.Nodup) (hlen : qs.length = Permuter.total lens)
    (hpos : ∀ n ∈ lens, 1 ≤ n) : ∃ steps, swapNetworkSteps lens size qs = .ok steps ∧ (∀ st ∈ steps, Proper qs size st) ∧
      Acts (course steps).moves qs (fun p => qs.length-1-p) ∧
      (course steps).meets = meetings size (cut lens qs) (ascents lens.length) := by
  have hsum : lens.sum = qs.length := by rw [hlen,total_eq_sum]
  have hfl : (cut lens qs).flatten = qs := by rw [flatten_cut,hsum,take_length]
  have hl : Laden (cut lens qs).flatten (qs.map fun q => (q,qs.idxOf q)) := fun q hq => by
    rw [get?_map_pair _ (hfl ▸ hq)]
    rfl
  have hr : Running _ size _ _ _ := running_layers qs.idxOf (hfl.symm ▸ hqs) hl (cut_nonempty hsum hpos)
    (cut lens qs).length le_rfl
  unfold swapNetworkSteps
  dsimp only
  rw [← length_cut lens qs]
  generalize (range (cut lens qs).length).foldl (networkLayer size fun q => qs.idxOf q)
    ⟨cut lens qs,qs.map fun q => (q,qs.idxOf q),{},[]⟩ = s at hr ⊢
  obtain ⟨⟨harr,hmet⟩,hca,hp,hpr,-⟩ := hr
  have hph : phases ({ prior := s.layers.posterior }) = s.layers.posterior := append_nil _
  rw [hph] at harr hmet hca hp
  rw [hfl] at hp
  let carried q : Nat := (s.carried.get? q).getD 0
  have hc : ∀ q ∈ qs, carried ((course (s.steps ++ s.layers.posterior)).moves q) = qs.idxOf q := by
    intro q hq
    dsimp only [carried]
    rw [hca.2,get?_map_pair _ hq]
    rfl
  have hfix := (within_course fun st hst => (hp st hst).within).fixes
  have he := ends_eq carried hqs hc hfl harr
  obtain ⟨hla,hqu,f,ha,hf⟩ := last_spec carried size hqs
    (carried_perm carried hqs hc (map_perm_of_fixes hfix hqs))
  have hs := sortSteps_perm size qs.idxOf s.layers.posterior
  have hco : course (s.steps ++ sortSteps size qs.idxOf s.layers.posterior ++ lastSteps carried qs) =
      course (s.steps ++ s.layers.posterior) * course (lastSteps carried qs) := by
    rw [course_append,course_append,course_append,course_perm hs.symm hpr]
  rw [← hlen,if_neg (not_not.mpr he)]
  refine ⟨s.steps ++ sortSteps size qs.idxOf s.layers.posterior ++ lastSteps carried qs,?_,fun st hst => ?_,?_,?_⟩
  · unfold lastSteps
    dsimp only
    split
    · rfl
    · rw [append_nil]
  · rw [mem_append,mem_append,hs.mem_iff,← mem_append] at hst
    exact hst.elim (hp st) (hla st)
  · rw [hco]
    exact acts_reversal carried hqs hc hfix ha hf
  · rw [hco,mul_meets,hqu,Multiset.map_zero,add_zero,hmet,meetings_perm (crossings_bricks _)]
lemma course_swaps {qs : List α} {size : Option Nat} {steps : Steps α} (h : ∀ st ∈ steps, Proper qs size st) :
    (course (steps.flatMap swapsOf)).moves = (course steps).moves := by
  have hs : (steps.flatMap swapsOf).flatMap swapsOf = steps.flatMap swapsOf := by
    refine (flatMap_congr fun st hst => ?_).trans (flatMap_singleton' _)
    cases (proper_swaps h st hst).2 <;> rfl
  rw [course_moves,course_moves,hs]
section
variable [RealScalar R] (swap : Gate R) {qs : Qubits} {size : Option Nat} {st : NetworkStep Qubit} {steps : Steps Qubit} {m : Carrying Qubit Int}
def operationOf (st : NetworkStep Qubit) : Operation R := .gate (Gate.ofStep swap st).1 (Gate.ofStep swap st).2

/-- Permutations are taken apart into swaps; all other operations are kept. -/
def toSwaps : Expander (Operation R) :=
  { Operation.expander with
    keep := fun op => match op.permuter? with
      | none | some .swap => true
      | some _ => false }
lemma keep_exchanging (h : Exchanging st) : toSwaps.keep (operationOf swap st) := by
  cases h <;> rfl
lemma decomposeOnce?_permute {p} (hp : p ≠ .swap) (hs : p.steps qs = .ok steps) :
    (operationOf swap (.permute p qs)).decomposeOnce? = .ok (some (steps.map (operationOf swap))) := by
  have hn : nesting = 99+1 := rfl
  rw [operationOf,Gate.ofStep,Operation.decomposeOnce?,Gate.decomposeOnce?,hn,Gate.decomposeAt]
  · rw [hs]
    rfl
  · exact hp
lemma leaves_operationOf (h : Proper qs size st) (n) :
    toSwaps.leaves (n+2) (operationOf swap st) = .ok ((swapsOf st).map (operationOf swap)) := by
  have hk : ∀ st' ∈ swapsOf st, Exchanging st' := fun st' hst' =>
    (proper_swaps (forall_mem_singleton.mpr h) st' (by simpa using hst')).2
  have hp : ∀ b ∈ (swapsOf st).map (operationOf swap), toSwaps.keep b :=
    forall_mem_map.mpr fun st' hst' => keep_exchanging swap (hk st' hst')
  -- only circular shifts and linear permutations are taken apart; another network would not be an opportunity or a swap
  match st with
  | .acquaint _ | .permute .swap _ | .permute (.swapNetwork ..) _ | .permute (.shiftNetwork ..) _ | .permute (.bipartite ..) _ =>
    exact leaves_of_keep (hp _ (mem_singleton_self _)) (n+1)
  | .permute (.linear k images) _ =>
    exact leaves_of_parts rfl (decomposeOnce?_permute swap (p := .linear k images) (by simp) rfl) hp n
  | .permute (.shift k amount) _ =>
    exact leaves_of_parts rfl (decomposeOnce?_permute swap (p := .shift k amount) (by simp) rfl) hp n
lemma expand_operations (h : ∀ st ∈ steps, Proper qs size st) :
    toSwaps.expand (steps.map (operationOf swap)) = .ok ((steps.flatMap swapsOf).map (operationOf swap)) := by
  have hl : (steps.map (operationOf swap)).mapM (toSwaps.leaves nesting) =
      .ok (steps.map fun st => (swapsOf st).map (operationOf swap)) := by
    rw [mapM_map]
    exact mapM_eq_pure fun st hst => leaves_operationOf swap (h st hst) 98
  rw [Expander.expand,hl,map_flatMap]
  rfl
omit [RealScalar R] in
lemma carriedAfter_step (h : Proper qs size st) (hm : Laden qs m) :
    ∃ m', carriedAfter [operationOf swap st] m = .ok m' ∧ Carries m m' (ofStep st).moves := by
  cases h with
  | meet => exact ⟨m,rfl,.refl m⟩
  | @move p as hp hsub =>
    obtain ⟨m',hu,hc⟩ := hp.carries fun q hq => hm q (hsub hq)
    refine ⟨m',?_,hc⟩
    change (orFail .key (p.update? as m) >>= pure) = _
    rw [hu]
    rfl
omit [RealScalar R] in
/-- Following the steps carries what the qubits hold along the permutation they stand for. -/
lemma carriedAfter_carries (h : ∀ st ∈ steps, Proper qs size st) (hm : Laden qs m) :
    ∃ m', carriedAfter (steps.map (operationOf swap)) m = .ok m' ∧ Carries m m' (course steps).moves := by
  induction steps generalizing m with
  | nil => exact ⟨m,rfl,.refl m⟩
  | cons st steps ih =>
    obtain ⟨hst,hsp⟩ := forall_mem_cons.mp h
    obtain ⟨m₁,hs,hcarries₁⟩ := carriedAfter_step swap hst hm
    obtain ⟨m',hrun,hc⟩ := ih hsp (hcarries₁.laden hm)
    refine ⟨m',?_,hcarries₁.trans hc⟩
    simp only [carriedAfter,foldlM_cons,foldlM_nil,bind_pure] at hs
    rw [carriedAfter,map_cons,foldlM_cons,hs]
    exact hrun
def index (m : Carrying Qubit Int) (q : Qubit) : Int := (m.get? q).getD 0
lemma index_eq {m'} (h : Carries m m' τ) : index m' = index m ∘ ⇑τ⁻¹ := by
  funext q
  have hq : m'.get? q = m.get? (τ⁻¹ q) := by simpa using h.2 (τ⁻¹ q)
  rw [index,hq]
  rfl
lemma mapM_get? {as} (hm : Laden as m) : (as.mapM fun q => orFail .key (m.get? q)) = .ok (as.map (index m)) := by
  refine mapM_eq_pure fun q hq => ?_
  obtain ⟨v,hv⟩ := Option.isSome_iff_exists.mp (hm q hq)
  rw [index,hv]
  rfl
section
lemma keys_inOrder (order) : (inOrder order).map Prod.fst = order := by
  rw [inOrder,map_map]
  exact zipIdx_map_fst 0 order
lemma laden_inOrder (order : Qubits) : Laden order (inOrder order) := by
  intro q hq
  rwa [isSome_get?_iff,keys_inOrder]
lemma get?_inOrder (hord : order.Nodup) (hq : q ∈ order) : (inOrder order).get? q = some (order.idxOf q : Int) := by
  have he : inOrder order = order.map fun q => (q,(order.idxOf q : Int)) := by
    refine ext_getElem (by simp [inOrder]) fun p hp _ => ?_
    simp [inOrder,hord.idxOf_getElem]
  rw [he,get?_map_pair _ hq]
lemma image_inOrder (hord : order.Nodup) {S : Finset Qubit} (hS : ∀ x ∈ S, x ∈ order) :
    S.image (index (inOrder order)) = S.image fun q => (order.idxOf q : Int) := by
  refine Finset.image_congr fun q hq => ?_
  rw [index,get?_inOrder hord (hS q hq),Option.getD_some]
end
/-- The groups of what the qubits carry that come together at the opportunities, one opportunity after the other. -/
def groupsMet : Ops R → Carrying Qubit Int → Outcome (List (Finset Int))
  | [], _ => .ok []
  | op :: ops, m => do
    let here ← if op.isOpportunity then op.qubits.mapM fun q => orFail .key (m.get? q) else .ok []
    let later ← groupsMet ops (← Acquaintance.carriedAfter [op] m)
    .ok (if op.isOpportunity then here.toFinset :: later else later)
omit [RealScalar R] in
lemma groupsMet_run (h : ∀ st ∈ steps, Proper qs size st) (hm : Laden qs m) :
    ∃ met, groupsMet (steps.map (operationOf swap)) m = .ok met ∧
      met = (course steps).meets.map (Finset.image (index m)) := by
  induction steps generalizing m with
  | nil => exact ⟨[],rfl,rfl⟩
  | cons st steps ih =>
    obtain ⟨hst,hs⟩ := forall_mem_cons.mp h
    obtain ⟨m₁,hsp,hc⟩ := carriedAfter_step swap hst hm
    obtain ⟨met,hrun,hmet⟩ := ih hs (hc.laden hm)
    rw [index_eq hc,← Finset.image_comp_image] at hmet
    rw [map_cons,groupsMet,hsp,course_cons,mul_meets,Multiset.map_add,Multiset.map_map,← hmet]
    cases hst with
    | @meet as hsi hrow =>
      refine ⟨as.toFinset.image (index m) :: met,?_,rfl⟩
      change ((as.mapM fun q => orFail .key (m.get? q)) >>= fun here =>
        groupsMet (steps.map (operationOf swap)) m₁ >>= fun later => .ok (here.toFinset :: later)) = _
      rw [mapM_get? fun q hq => hm q (hrow.subset hq),hrun,← toFinset_map]
      rfl
    | move hp hsub =>
      refine ⟨met,?_,(zero_add _).symm⟩
      change (groupsMet (steps.map (operationOf swap)) m₁ >>= fun later => .ok later) = _
      rw [hrun]
      rfl

/-- The operations that a network is taken apart into bring together what the qubits carry as listed, and they move it as the
permutation declared by the network does: from each place to the one that the function gives. -/
def TakenApart (p : Permuter) (qs : Qubits) (met : List (Finset Int)) (f : Nat → Nat) : Prop :=
  ∃ ops, (Operation.gate (.permutation p swap) qs).decomposeOnce? = .ok (some ops) ∧
    groupsMet ops (Acquaintance.inOrder qs) = .ok met ∧
    ∀ m : Carrying Qubit Int, (m.map Prod.fst).Nodup → Laden qs m →
      ∃ m', Acquaintance.carriedAfter ops m = .ok m' ∧ p.update? qs m = some m' ∧
        ∀ i q q', qs[i]? = some q → qs[f i]? = some q' → m'.get? q' = m.get? q
lemma takenApart_of_steps {p f} (hp : p ≠ .swap) (hqs : qs.Nodup) (hs : p.steps qs = .ok steps)
    (h : ∀ st ∈ steps, Proper qs size st) (ha : Acts (course steps).moves qs f) (hf : Declares p qs.length f) :
    ∃ met, TakenApart swap p qs met f ∧
      met = (course steps).meets.map (Finset.image (index (inOrder qs))) := by
  obtain ⟨met,hrun,hmet⟩ := groupsMet_run swap h (laden_inOrder qs)
  refine ⟨met,⟨_,decomposeOnce?_permute swap hp hs,hrun,fun m hm hl => ?_⟩,hmet⟩
  obtain ⟨m',hca,hc⟩ := carriedAfter_carries swap h hl
  obtain ⟨m'',hu,hc'⟩ := update?_carries ha hqs hl hf
  obtain rfl := hc.unique hm hc'
  refine ⟨m',hca,hu,fun i q q' hq hq' => ?_⟩
  rw [← Option.some.inj ((ha.1 i q hq).symm.trans hq'),hc.2]
lemma network_carries (size) (hqs : qs.Nodup) (hlen : qs.length = Permuter.total lens) (hm : Laden qs m)
    (hτ : Acts τ qs fun p => qs.length-1-p) :
    ∃ m', (Permuter.swapNetwork lens size).update? qs m = some m' ∧ Carries m m' τ := by
  refine update?_carries hτ hqs hm (declares_of_graph ?_ (reversed_perm qs.length))
  rw [Permuter.permutation,hlen]
lemma map_get?_reverse {m'} (h : Carries m m' τ) (hτ : Acts τ qs fun p => qs.length-1-p) :
    qs.map m'.get? = (qs.map m.get?).reverse := by
  refine ext_getElem (by simp) fun p hp _ => ?_
  rw [length_map] at hp
  have him := hτ.1 (qs.length-1-p) _ (getElem?_eq_getElem (by omega))
  dsimp only at him
  rw [show qs.length-1-(qs.length-1-p) = p by omega,getElem?_eq_getElem hp] at him
  rw [getElem_map,Option.some.inj him,h.2]
  simp

/-- A swap network on distinct qubits can always be taken apart into opportunities and swaps of two qubits, and following these
leaves every qubit with what the permutation declared by the network gives it: the contents of the qubits in reverse order. -/
theorem swapNetwork_expands_to_reversal {lens : List Nat} {qs : List Qubit} (size : Option Nat)
    (hpos : ∀ n ∈ lens, 1 ≤ n) (hqs : qs.Nodup) (hlength : qs.length = Permuter.total lens) :
    ∃ ops swaps, (Operation.gate (.permutation (.swapNetwork lens size) swap) qs).decomposeOnce? = .ok (some ops) ∧
      toSwaps.expand ops = .ok swaps ∧ (∀ op ∈ swaps, op.isOpportunity = true ∨ op.permuter? = some .swap) ∧
      ∀ m : Carrying Qubit Int, (m.map Prod.fst).Nodup → Laden qs m →
        ∃ m', Acquaintance.carriedAfter swaps m = .ok m' ∧ (Permuter.swapNetwork lens size).update? qs m = some m' ∧
          qs.map m'.get? = (qs.map m.get?).reverse := by
  obtain ⟨steps, hsteps, hproper, hacts, -⟩ := swapNetworkSteps_eq size hqs hlength hpos
  refine ⟨_, _, decomposeOnce?_permute swap (by simp) hsteps, expand_operations swap hproper, fun op hop => ?_,
    fun m hnodup hm => ?_⟩
  · obtain ⟨st, hst, rfl⟩ := List.mem_map.mp hop
    cases (proper_swaps hproper st hst).2 with
    | acquaint as => exact .inl rfl
    | swap => exact .inr rfl
  · obtain ⟨m', hrun, hcarries⟩ := carriedAfter_carries swap (fun st hst => (proper_swaps hproper st hst).1) hm
    rw [course_swaps hproper] at hcarries
    obtain ⟨m'', hupdate, hcarries'⟩ := network_carries size hqs hlength hm hacts
    obtain rfl := hcarries.unique hnodup hcarries'
    exact ⟨m', hrun, hupdate, map_get?_reverse hcarries hacts⟩
def sixInLine : Qubits := [.line 0,.line 1,.line 2,.line 3,.line 4,.line 5]
theorem uneven_network_reverses :
    (∀ n ∈ [1, 2, 3], 1 ≤ n) ∧ sixInLine.Nodup ∧ sixInLine.length = Permuter.total [1, 2, 3] ∧
      ((Acquaintance.inOrder sixInLine).map Prod.fst).Nodup ∧ Laden sixInLine (Acquaintance.inOrder sixInLine) ∧
      ∃ ops swaps m', (Operation.gate (.permutation (.swapNetwork [1, 2, 3] (some 4)) (.power .swap (.num 1) 0 false))
          sixInLine : Operation Number).decomposeOnce? = .ok (some ops) ∧
        toSwaps.expand ops = .ok swaps ∧ Acquaintance.carriedAfter swaps (Acquaintance.inOrder sixInLine) = .ok m' ∧
        sixInLine.map m'.get? = [some 5, some 4, some 3, some 2, some 1, some 0] := by
  have hpos : ∀ n ∈ [1, 2, 3], 1 ≤ n := by decide
  have hqs : sixInLine.Nodup := by decide
  have hkeys : ((Acquaintance.inOrder sixInLine).map Prod.fst).Nodup := by decide
  have hladen := laden_inOrder sixInLine
  obtain ⟨ops, swaps, hops, hswaps, -, hfollow⟩ :=
    swapNetwork_expands_to_reversal (.power .swap (.num 1) 0 false : Gate Number) (some 4) hpos hqs rfl
  obtain ⟨m', hrun, -, hreverse⟩ := hfollow _ hkeys hladen
  refine ⟨hpos, hqs, rfl, hkeys, hladen, ops, swaps, m', hops, hswaps, hrun, ?_⟩
  rw [hreverse]
  decide
end
end QuantumCircuits.SwapNetwork
