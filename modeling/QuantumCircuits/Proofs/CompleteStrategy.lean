import QuantumCircuits.Proofs.Insertion
import QuantumCircuits.Proofs.NetworksInPlace

/-! # Complete strategies

A strategy on which all groups of a size meet is made in rounds: every group that meets is replaced by networks in
which it meets every other qubit. The labels of its opportunities are the groups of its course.
-/
namespace QuantumCircuits.CompleteStrategy
open Acquaintance NetworkMoves SwapNetwork Courses Course WireOrder Replacing NetworkMeetings NetworksInPlace List
open Device Circuit
variable {as : Qubits} {S : Finset Qubit} {steps : Steps Qubit}
def label? : Operation R → Option (List Int)
  | .acquainted _ indices => some indices
  | _ => none
def labelSets (ops : Ops R) : Multiset (Finset Int) := ((ops.filterMap label?).map List.toFinset : List (Finset Int))
lemma pairwise_eraseDups {l : List Int} (h : l.Pairwise (· ≤ ·)) : l.eraseDups.Pairwise (· < ·) := by
  match l with
  | [] => exact .nil
  | a :: l =>
    obtain ⟨hf,hl⟩ := pairwise_cons.mp h
    rw [eraseDups_cons]
    refine pairwise_cons.mpr ⟨fun b hb => ?_,pairwise_eraseDups (hl.filter _)⟩
    obtain ⟨hmem,hne⟩ := mem_filter.mp (mem_eraseDups.mp hb)
    exact lt_of_le_of_ne (hf b hmem) fun hab => by simp [hab] at hne
termination_by l.length
decreasing_by exact Nat.lt_succ_of_le (length_filter_le _ _)
lemma ascending_eq (indices : List Int) : (indices.mergeSort (· ≤ ·)).eraseDups = indices.toFinset.sort := by
  have hs : (indices.mergeSort fun a b => decide (a ≤ b)).Pairwise (· ≤ ·) := pairwise_mergeSort' (· ≤ ·) indices
  refine (pairwise_eraseDups hs).sortedLT.eq_of_mem_iff indices.toFinset.sortedLT_sort fun i => ?_
  simp
lemma labels_eq (c : OpCircuit R) : labels c = (labelSets c.operations).map fun S => S.sort := by
  have hl : labels c = (c.operations.filterMap label?).map fun indices => indices.toFinset.sort := by
    rw [map_filterMap]
    refine filterMap_congr fun op _ => ?_
    cases op with
    | acquainted qs indices => exact congrArg some (ascending_eq indices)
    | _ => rfl
  rw [hl,labelSets,Multiset.map_coe,map_map]
  rfl
variable [RealScalar R]
section
variable {m m' : Carrying Qubit Int} {qs : Qubits}
def labelling (s : Carrying Qubit Int × Unit) (op : Operation R) : Ops R × (Carrying Qubit Int × Unit) :=
  match executing annotating s ⟨[]⟩ 0 op with
  | .ok (some r,s') => (r.ops,s')
  | .ok (none,s') => ([op],s')
  | .error _ => ([op],s)
lemma executing_meet (hm : Laden as m) (c : OpCircuit R) (i) :
    executing annotating (m,()) c i (stepOp (.acquaint as)) = .ok (some ⟨1,as,[.acquainted as (as.map (index m))]⟩,(m,())) := by
  have hl : labelled as (as.map (index m)) = .ok (.acquainted as (as.map (index m)) : Operation R) :=
    if_neg (by simp)
  change ((as.mapM fun q => orFail .key (m.get? q)) >>= _) = _
  rw [mapM_get? hm]
  change (annotating () (as.map (index m)) as >>= _) = _
  rw [annotating,hl]
  rfl
lemma executing_move (hm : p.update? qs m = some m') (c : OpCircuit R) (i) :
    executing annotating (m,()) c i (stepOp (.permute p qs)) = .ok (none,(m',())) := by
  change (orFail .key (p.update? qs m) >>= _) = _
  rw [hm]
  rfl
end
variable [OperationText R]
section
variable {xs ys : Ops R} {op : Operation R}
def Allowed (ops : Ops R) : Prop := ∀ op ∈ ops, checkAcquaintance op = .ok ()
lemma putAt_together (hf : OverlapFree ⟨xs ++ [op]⟩) (ha : Allowed (xs ++ [op])) {c} (hc : c.padTo 1 = ⟨[⟨xs⟩]⟩) :
    putAt acquaintance.rules c 0 op = (⟨[⟨xs ++ [op]⟩]⟩,.ok ()) := by
  have hw : (⟨xs⟩ : OpMoment R).withOp op = .ok ⟨xs ++ [op]⟩ := ofList_eq_ok hf
  simp only [putAt,hc,getD_cons_zero,hw]
  exact congrArg _ (forM_eq_ok_iff.mpr ha)
lemma insertItems_together (hf : OverlapFree ⟨xs ++ ys⟩) (ha : Allowed (xs ++ ys)) :
    insertItems acquaintance.rules (ys.map .inl) .earliest ⟨[⟨xs⟩]⟩ 1 = (⟨[⟨xs ++ ys⟩]⟩,.ok 1) := by
  induction ys generalizing xs with
  | nil => simp [insertItems]
  | cons y ys ih =>
    rw [append_cons] at hf ha ⊢
    have hfi : OverlapFree ⟨xs ++ [y]⟩ := overlapFree_sublist hf (sublist_append_left _ _)
    have hput := putAt_together hfi (fun o ho => ha o (mem_append_left _ ho)) (c := ⟨[⟨xs⟩]⟩) rfl
    have hf' : (⟨xs⟩ : OpMoment R).actsOnAny (qubits y) = false := by
      have hap := (pairwise_append.mp (overlapFree_iff.mp hfi).2).2.2
      exact actsOnAny_eq_false.mpr (.symm hap)
    have hp : pickMoment acquaintance.rules ⟨[⟨xs⟩]⟩ 1 y .earliest = .ok (⟨[⟨xs⟩]⟩,0) := by
      have hac : (⟨[⟨xs⟩]⟩ : OpCircuit R).actsAt (qubits y) 0 = false := hf'
      have hadd : acquaintance.rules.canAdd y ⟨xs⟩ = .ok true := congrArg (fun b => Except.ok !b) hf'
      simp [pickMoment,canAddAt,earliestFrom,hac,hadd,bind,Except.bind]
    rw [map_cons,insertItems]
    simp only [hp,hput]
    exact ih hf ha
lemma strategyOf_eq (hne : ys ≠ []) (hfr : OverlapFree ⟨ys⟩) (ha : Allowed ys) : strategyOf ys = .ok ⟨⟨[⟨ys⟩]⟩,.acquaintance⟩ := by
  let r : DeviceRules (Operation R) := acquaintance.rules
  have hit : (OpTree.node (ys.map .leaf)).items = .ok (ys.map .inl) := Insertion.itemsAll_leaves ys
  have ht : (OpTree.node (ys.map .leaf)).transform true r.decompose = .ok (.node (ys.map .leaf)) :=
    Insertion.transform_of_items hit
  have hc : (ys.map .inl).forM (checkItem r) = .ok () := by
    refine forM_eq_ok_iff.mpr fun x hx => ?_
    obtain ⟨y,hy,rfl⟩ := mem_map.mp hx
    exact ha y hy
  have hin : empty.append r (.node (ys.map .leaf)) .earliest = (⟨[⟨ys⟩]⟩,.ok 1) := by
    have hs : empty.append r (.node (ys.map .leaf)) .earliest =
        insertItems r (ys.map .inl) .earliest .empty 0 := by
      simp only [append,Circuit.insert,ht,hit,hc,bind,Except.bind]
      rfl
    obtain ⟨y,ys,rfl⟩ := exists_cons_of_ne_nil hne
    have hf : [y].Sublist (y :: ys) := by simp
    have hput : putAt r .empty 0 y = (⟨[⟨[] ++ [y]⟩]⟩,.ok ()) :=
      putAt_together (overlapFree_sublist hfr hf) (fun o ho => ha o (hf.subset ho)) rfl
    have hp : pickMoment r .empty 0 y .earliest = .ok (.empty,0) := rfl
    rw [hs,map_cons,insertItems]
    simp only [hp,hput]
    exact insertItems_together hfr ha
  have htr : ofTree r (.node (ys.map .leaf)) .earliest = .ok ⟨[⟨ys⟩]⟩ := by
    simp only [ofTree,hin]
    rfl
  rw [strategyOf,htr]
  rfl
end
section
variable {order : Qubits} {k : Nat} {b : BoundCircuit R}
structure Ready (order : Qubits) (k : Nat) (b : BoundCircuit R) : Prop where
  device : b.device = .acquaintance
  exposed : ∃ c, exposing.run b.circuit = (c,.ok ()) ∧ Strategic order k c ∧
    ∀ S : Finset Qubit, (∀ x ∈ S, x ∈ order) → S.card = k → S ∈ (courseOf c).meets
def round (order : Qubits) (b : BoundCircuit R) (k : Nat) : Outcome (BoundCircuit R) := do
  let (b,exposed) := b.expose
  let _ ← exposed
  let (b,replaced) := b.replaceByNetworks order (some k)
  let _ ← replaced
  .ok b
lemma Ready.round (hord : order.Nodup) (hk : 1 ≤ k) (hl : k+1 < order.length) (h : Ready order k b) :
    ∃ b', round order b (k+1) = .ok b' ∧ Ready order (k+1) b' := by
  obtain ⟨circuit,device⟩ := b
  obtain ⟨rfl,c,hrun,hc,hall⟩ := h
  have hne : order ≠ [] := length_pos_iff.mp (by omega)
  obtain ⟨hre,hsa⟩ := rectifyMoments_sameOrder true hc.overlapFree fun m hm op hop =>
    hc.proper op (mem_opsOf.mpr ⟨m,hm,hop⟩)
  obtain ⟨ρ,hρ⟩ := exists_reversal hord
  obtain ⟨ns,g,hr⟩ := replaces_moments hord hk hρ hl hre false
  have hrp : replaceMoments order (some (k+1)) false [] (rectifyMoments true c.moments) = (⟨ns⟩,.ok g) := by
    have hrun := hr.run [] []
    rwa [append_nil] at hrun
  refine ⟨⟨⟨ns⟩,.acquaintance⟩,?_,rfl,?_⟩
  · have he : (⟨circuit,.acquaintance⟩ : BoundCircuit R).expose = (⟨c,.acquaintance⟩,.ok ()) := by
      simp only [BoundCircuit.expose,BoundCircuit.edit,hrun]
    have hro : (⟨c,.acquaintance⟩ : BoundCircuit R).replaceByNetworks order (some (k+1)) =
        (⟨⟨ns⟩,.acquaintance⟩,.ok g) := by
      have hrc : (⟨c,.acquaintance⟩ : BoundCircuit R).rectify true =
          (⟨⟨rectifyMoments true c.moments⟩,.acquaintance⟩,.ok ()) := rfl
      simp only [BoundCircuit.replaceByNetworks,hrc,BoundCircuit.edit,hrp]
    simp only [CompleteStrategy.round,he,hro]
    rfl
  · obtain ⟨d,hrun',hd,hco⟩ := exposing_run hord (by omega) hne hr.overlapFree hr.exposed
    refine ⟨d,hrun',hd,fun S hS hca => ?_⟩
    -- all but one of the qubits have met before
    obtain ⟨x,hx⟩ := Finset.card_pos.mp (by omega : 0 < S.card)
    have hs : S.erase x ∈ (courseOf c).meets := by
      refine hall _ (fun y hy => hS y (Finset.mem_of_mem_erase hy)) ?_
      rw [Finset.card_erase_of_mem hx]
      omega
    rw [courseOf_eq hc hsa] at hs
    have hme := hr.course.meets _ hs x (hS x hx) (Finset.notMem_erase x S)
    rw [Finset.insert_erase hx] at hme
    rw [flipIf,if_neg Bool.false_ne_true,Equiv.Perm.coe_one,Finset.image_id] at hme
    rw [hco]
    exact hme
lemma Ready.rounds (hord : order.Nodup) (h : Ready order 1 b) (hk : 1 ≤ k) (hl : k < order.length) :
    ∃ b', (range' 2 (k-1)).foldlM (CompleteStrategy.round order) b = .ok b' ∧ Ready order k b' := by
  induction k, hk using Nat.le_induction with
  | base => exact ⟨b,rfl,h⟩
  | succ k hk ih =>
    obtain ⟨b',hf,hr⟩ := ih (by omega)
    obtain ⟨b'',hro,hr'⟩ := hr.round hord hk (by omega)
    refine ⟨b'',?_,hr'⟩
    have hra : range' 2 (k+1-1) = range' 2 (k-1) ++ [k+1] := by
      rw [show k+1-1 = k-1+1 by omega,range'_concat,show 2+1*(k-1) = k+1 by omega]
    rw [hra,foldlM_append,hf]
    change (CompleteStrategy.round order b' (k+1) >>= pure) = _
    rw [hro]
    rfl
lemma acquaint_eq (hne : as ≠ []) : Operation.acquaint as = .ok (stepOp (.acquaint as) : Operation R) := on_opportunity hne
variable (hord : order.Nodup)
include hord
lemma ready_of_groups (hk : 1 ≤ k) {groups} (hne : groups ≠ [])
    (hgr : ∀ g ∈ groups, g.length = k ∧ g <:+: order) (hdi : groups.Pairwise Disjoint)
    (hall : ∀ S, (∀ x ∈ S, x ∈ order) → S.card = k → ∃ g ∈ groups, g.toFinset = S) :
    ∃ b : BoundCircuit R, strategyOf (groups.map fun g => stepOp (.acquaint g)) = .ok b ∧ Ready order k b := by
  let steps : Steps Qubit := groups.map .acquaint
  have hops : (groups.map fun g => (stepOp (.acquaint g) : Operation R)) = steps.map stepOp := by
    rw [map_map]
    rfl
  have hp : ∀ st ∈ steps, Proper order k st :=
    forall_mem_map.mpr fun g hg => .meet (hgr g hg).1.symm (hgr g hg).2
  have hf : OverlapFree ⟨steps.map (stepOp (R := R))⟩ := by
    refine overlapFree_steps.mpr ⟨forall_mem_map.mpr fun g hg => ?_,pairwise_map.mpr hdi⟩
    exact hord.sublist (hgr g hg).2.sublist
  have ha : Allowed (steps.map (stepOp (R := R))) := forall_mem_map.mpr (forall_mem_map.mpr fun g _ => rfl)
  have horder_ne : order ≠ [] := by
    obtain ⟨g,hg⟩ := exists_mem_of_ne_nil _ hne
    obtain ⟨hs,hrow⟩ := hgr g hg
    exact length_pos_iff.mp (by have := hrow.length_le; omega)
  rw [hops]
  refine ⟨_,strategyOf_eq (by simpa [steps] using hne) hf ha,rfl,?_⟩
  have hc : (⟨[⟨steps.map stepOp⟩]⟩ : OpCircuit R).operations = steps.map stepOp := flatMap_singleton ..
  obtain ⟨d,hrun,hd,hco⟩ := exposing_run hord hk horder_ne (c := ⟨[⟨steps.map (stepOp (R := R))⟩]⟩)
    (forall_mem_singleton.mpr hf) (by
      rw [hc]
      exact forall_mem_map.mpr fun st hst => ⟨_,.kept (hp st hst)⟩)
  refine ⟨d,hrun,hd,fun S hS hca => ?_⟩
  obtain ⟨g,hg,rfl⟩ := hall S hS hca
  rw [hco,hc,product_kept hp]
  refine mem_course_opportunities (forall_mem_map.mpr fun g' _ => ⟨g',rfl⟩) ?_
  exact mem_map_of_mem hg
lemma ready_whole (hne : order ≠ []) :
    ∃ b : BoundCircuit R, strategyOf [stepOp (.acquaint order)] = .ok b ∧ Ready order order.length b := by
  have hall : ∀ S, (∀ x ∈ S, x ∈ order) → S.card = order.length → ∃ g ∈ [order], g.toFinset = S := by
    intro S hS hc
    refine ⟨order,mem_singleton_self order,(Finset.eq_of_subset_of_card_le (fun x hx => ?_) ?_).symm⟩
    · exact mem_toFinset.mpr (hS x hx)
    · rw [toFinset_card_of_nodup hord,hc]
  have hr := ready_of_groups (R := R) hord (length_pos_iff.mpr hne) (cons_ne_nil order [])
    (forall_mem_singleton.mpr ⟨rfl,infix_refl order⟩) (pairwise_singleton _ _) hall
  rwa [map_singleton] at hr
lemma ready_singles (hne : order ≠ []) :
    ∃ b : BoundCircuit R, strategyOf (order.map fun q => stepOp (.acquaint [q])) = .ok b ∧ Ready order 1 b := by
  have hg : ∀ g ∈ order.map fun q => [q], g.length = 1 ∧ g <:+: order := by
    refine forall_mem_map.mpr fun q hq => ⟨rfl,?_⟩
    obtain ⟨us,vs,rfl⟩ := append_of_mem hq
    exact ⟨us,vs,by simp⟩
  have hd : (order.map fun q => [q]).Pairwise Disjoint :=
    pairwise_map.mpr (hord.imp fun hab => disjoint_singleton.mpr (by simpa using hab.symm))
  have hr := ready_of_groups (R := R) hord le_rfl (by simpa using hne) hg hd fun S hS hc => by
    obtain ⟨x,rfl⟩ := Finset.card_eq_one.mp hc
    exact ⟨[x],mem_map_of_mem (hS x (Finset.mem_singleton_self x)),rfl⟩
  rwa [map_map] at hr
lemma complete_ready (hk : 1 ≤ k) (hle : k ≤ order.length) : ∃ b : BoundCircuit R, complete order k = .ok b ∧ Ready order k b := by
  have hne : order ≠ [] := length_pos_iff.mp (by omega)
  have hs : ¬ ((k : Int) = 0 ∨ (k : Int) > order.length) := by omega
  by_cases hw : k = order.length
  · obtain ⟨b,hb,hr⟩ := ready_whole (R := R) hord hne
    refine ⟨b,?_,hw ▸ hr⟩
    have hsz : (k : Int) = order.length := by omega
    simp only [complete,if_neg hs,if_pos hsz,acquaint_eq hne]
    exact hb
  · obtain ⟨b,hb,hr⟩ := ready_singles (R := R) hord hne
    obtain ⟨b',hb',hr'⟩ := hr.rounds hord hk (by omega)
    refine ⟨b',?_,hr'⟩
    have hp : ¬ (k : Int) = order.length := by omega
    have hmap : order.mapM (fun q => Operation.acquaint [q]) = .ok (order.map fun q => (stepOp (.acquaint [q]) : Operation R)) :=
      mapM_eq_pure fun q _ => acquaint_eq (cons_ne_nil q [])
    have hsi : (range ((k : Int).toNat+1)).drop 2 = range' 2 (k-1) := by
      rw [Int.toNat_natCast,range_eq_range',drop_range',show k+1-2 = k-1 by omega]
    simp only [complete,if_neg hs,if_neg hp,hmap,hsi]
    change (strategyOf _ >>= fun b => (range' 2 (k-1)).foldlM (round order) b) = _
    rw [hb]
    exact hb'
end
section
variable {order : Qubits} {k : Nat}
lemma labelling_step {st} (hst : Proper order k st) (hm : Laden order m) :
    ∃ (o : Operation R) (m' : Carrying Qubit Int), labelling (m,()) (stepOp st) = ([o],(m',())) ∧
      Carries m m' (ofStep st).moves ∧ qubits o = sites st ∧ labelSets [o] = (ofStep st).meets.map (Finset.image (index m)) ∧
      ∀ c i, executing annotating (m,()) c i (stepOp st) = .ok (none,(m',())) ∧ [o] = [stepOp st] ∨
        executing annotating (m,()) c i (stepOp st) = .ok (some ⟨1,sites st,[o]⟩,(m',())) := by
  cases hst with
  | @meet as hs hrow =>
    have hl : Laden as m := fun q hq => hm q (hrow.subset hq)
    refine ⟨.acquainted as (as.map (index m)),m,by rw [labelling,executing_meet hl],.refl m,rfl,?_,fun c i => .inr (executing_meet hl c i)⟩
    exact congrArg (fun S => ({S} : Multiset (Finset Int))) (toFinset_map (index m) as)
  | @move p qs hp hsub =>
    obtain ⟨m',hm',hc⟩ := hp.carries fun q hq => hm q (hsub hq)
    exact ⟨stepOp (.permute p qs),m',by rw [labelling,executing_move hm'],hc,rfl,rfl,fun c i => .inl ⟨executing_move hm' c i,rfl⟩⟩
lemma answersBy_labelling (hord : order.Nodup) (hk : 1 ≤ k) :
    AnswersBy (executing (annotating (R := R))) labelling (fun s => Laden order s.1)
      fun op => ∃ st, Proper order k st ∧ op = stepOp st where
  answer := by
    rintro ⟨m,⟨⟩⟩ c i op hm ⟨st,hst,rfl⟩
    obtain ⟨o,m',hl,-,-,-,ha⟩ := labelling_step (R := R) hst hm
    rw [hl,qubits_stepOp]
    exact ha c i
  keeps := by
    rintro ⟨m,⟨⟩⟩ op hm ⟨st,hst,rfl⟩
    obtain ⟨o,m',hl,hc,-⟩ := labelling_step (R := R) hst hm
    rw [hl]
    exact hc.laden hm
  focus := by
    rintro op ⟨st,hst,rfl⟩
    rw [qubits_stepOp]
    exact (Proper.sites_ok hst hord hk).1
  new := by
    rintro ⟨m,⟨⟩⟩ op hm ⟨st,hst,rfl⟩ o ho
    obtain ⟨o',m',hl,-,hqu,-⟩ := labelling_step (R := R) hst hm
    rw [hl,mem_singleton] at ho
    have hok := Proper.sites_ok hst hord hk
    rw [ho,hqu,qubits_stepOp]
    exact ⟨hok.1,hok.2.1,fun q hq => hq⟩
lemma labelling_run (hs : ∀ st ∈ steps, Proper order k st) (hm : Laden order m) :
    ∃ out m', answers labelling (m,()) (steps.map (stepOp (R := R))) = (out,(m',())) ∧
      Carries m m' (course steps).moves ∧
      labelSets out = (course steps).meets.map (Finset.image (index m)) := by
  induction steps using reverseRecOn with
  | nil => exact ⟨[],m,rfl,.refl m,rfl⟩
  | append_singleton steps st ih =>
    obtain ⟨out,m₁,hout,hc,hse⟩ := ih fun st' hst' => hs st' (mem_append_left _ hst')
    obtain ⟨o,m₂,hste,hc',-,hset,-⟩ := labelling_step (R := R) (hs st (by simp)) (hc.laden hm)
    have hp : course (steps ++ [st]) = course steps * ofStep st := by
      rw [course_append,course_singleton]
    have hsp : labelSets (out ++ [o]) = labelSets out + labelSets [o] := by
      simp [labelSets]
    refine ⟨out ++ [o],m₂,?_,hp ▸ hc.trans hc',?_⟩
    · rw [map_append,map_singleton,answers_concat,hout,hste]
    · rw [hsp,hse,hset,hp,mul_meets,Multiset.map_add,Multiset.map_map,index_eq hc,← Finset.image_comp_image]
end
section
variable {order : Qubits} {k : Nat}
lemma Strategic.exposing_run {c : OpCircuit R} (hc : Strategic order k c) (hord : order.Nodup) (hk : 1 ≤ k)
    (hne : order ≠ []) : ∃ d, exposing.run c = (d,.ok ()) ∧ Strategic order k d ∧ courseOf d = courseOf c := by
  obtain ⟨steps,hops,hp⟩ := exists_steps hc.proper
  obtain ⟨d,hrun,hd,hco⟩ := NetworksInPlace.exposing_run hord hk hne hc.overlapFree fun op hop => by
    obtain ⟨st,hst,rfl⟩ := hc.proper op hop
    exact ⟨_,.kept hst⟩
  refine ⟨d,hrun,hd,?_⟩
  rw [hco,courseOf,hops,product_kept hp,product_effect_map]
lemma sized_of_mem_meets (hord : order.Nodup) (hs : ∀ st ∈ steps, Proper order k st)
    (hS : S ∈ (course steps).meets) : (∀ x ∈ S, x ∈ order) ∧ S.card = k := by
  refine ⟨(within_course fun st hst => (hs st hst).within).meets S hS,?_⟩
  obtain ⟨xs,as,ys,rfl,him⟩ := exists_of_mem_course hS
  cases hs (.acquaint as) (by simp) with
  | meet hsi hrow =>
    rw [← Finset.card_image_of_injective S (course xs).moves.injective,him,toFinset_card_of_nodup (hord.sublist hrow.sublist)]
    exact hsi.symm

/-- The opportunities of a strategy are the groups of the size, by what their qubits carry at first. -/
lemma Ready.opportunities {b : BoundCircuit R} (h : Ready order k b) (hord : order.Nodup) (hk : 1 ≤ k) (hne : order ≠ [])
    {m : Carrying Qubit Int} (hm : Laden order m) :
    ∃ met, b.opportunities m = .ok met ∧
      ∀ s, s ∈ met ↔ ∃ S : Finset Qubit, (∀ x ∈ S, x ∈ order) ∧ S.card = k ∧ (S.image (index m)).sort = s := by
  obtain ⟨circuit,device⟩ := b
  obtain ⟨rfl,c,hrun,hc,hall⟩ := h
  obtain ⟨d,hrun',hd,hco⟩ := Strategic.exposing_run hc hord hk hne
  obtain ⟨e,offered,he,-,ho,hl⟩ :=
    (answersBy_labelling hord hk).run (s := (m,())) hm hd.overlapFree hd.proper
  obtain ⟨steps,rfl,hp⟩ := exists_steps fun op hop => hd.proper op (ho.perm.mem_iff.mpr hop)
  obtain ⟨out,m',hout,-,hse⟩ := labelling_run (R := R) hp hm
  have hme : course steps = courseOf c := by rw [← hco,courseOf_eq hd ho,product_effect_map]
  rw [hout] at he hl
  have hec : (⟨c,.acquaintance⟩ : BoundCircuit R).execute annotating m () = (⟨e,.unconstrained⟩,.ok m') := by
    simp only [BoundCircuit.execute,BoundCircuit.expose,BoundCircuit.edit,hrun',he]
    rfl
  have hs : labelSets e.operations = labelSets out :=
    Multiset.coe_eq_coe.mpr ((hl.perm.filterMap label?).map toFinset)
  refine ⟨(labels e).eraseDups.mergeSort fun a b => !decide (b < a),?_,fun s => ?_⟩
  · simp only [BoundCircuit.opportunities,BoundCircuit.expose,BoundCircuit.edit,hrun,BoundCircuit.annotated,hec]
    rfl
  · rw [mem_mergeSort,mem_eraseDups,← Multiset.mem_coe,labels_eq,hs,hse,Multiset.map_map,Multiset.mem_map]
    refine exists_congr fun S => ?_
    rw [← and_assoc]
    refine and_congr_left fun _ => ⟨sized_of_mem_meets hord hp,fun hS => ?_⟩
    rw [hme]
    exact hall S hS.1 hS.2
lemma injOn_idxOf (hS : ∀ x ∈ S, x ∈ order) : Set.InjOn (fun q => (order.idxOf q : Int)) S :=
  fun a ha b hb hab => (idxOf_inj (hS a ha)).mp (Int.ofNat.inj hab)
lemma exists_group (hord : order.Nodup) {s : Finset Int} (hr : ∀ i ∈ s, 0 ≤ i ∧ i < order.length) :
    ∃ S : Finset Qubit, (∀ x ∈ S, x ∈ order) ∧ S.image (fun q => (order.idxOf q : Int)) = s := by
  refine ⟨order.toFinset.filter fun q => (order.idxOf q : Int) ∈ s,fun x hx => mem_toFinset.mp (Finset.mem_filter.mp hx).1,?_⟩
  ext i
  simp only [Finset.mem_image,Finset.mem_filter,mem_toFinset]
  constructor
  · rintro ⟨q,⟨-,hq⟩,rfl⟩
    exact hq
  · intro hi
    obtain ⟨hn,hlt⟩ := hr i hi
    have hlt' : i.toNat < order.length := by omega
    have hp : order.idxOf order[i.toNat] = i := by
      rw [hord.idxOf_getElem]
      omega
    exact ⟨order[i.toNat],⟨getElem_mem hlt',hp.symm ▸ hi⟩,hp⟩

/-- The strategy for groups of a size is made without a fault, and when it is carried out exactly the groups of that many
indices meet. -/
theorem complete_opportunities_iff (horder : order.Nodup) (hk : 1 ≤ k) (hle : k ≤ order.length) :
    ∃ (b : BoundCircuit R) (met : List (List Int)), complete order k = .ok b ∧ b.opportunities (inOrder order) = .ok met ∧
      ∀ s, s ∈ met ↔ s.Pairwise (· < ·) ∧ s.length = k ∧ ∀ i ∈ s, 0 ≤ i ∧ i < order.length := by
  have hne : order ≠ [] := List.length_pos_iff.mp (by omega)
  obtain ⟨b, hb, hready⟩ := complete_ready (R := R) horder hk hle
  obtain ⟨met, hmet, hiff⟩ := hready.opportunities horder hk hne (laden_inOrder order)
  refine ⟨b, met, hb, hmet, fun s => (hiff s).trans ⟨?_, fun ⟨hs, hlength, hrange⟩ => ?_⟩⟩
  · rintro ⟨S, hS, hcard, rfl⟩
    rw [image_inOrder horder hS]
    refine ⟨(Finset.sortedLT_sort _).pairwise, ?_, fun i hi => ?_⟩
    · rw [Finset.length_sort, Finset.card_image_of_injOn (injOn_idxOf hS), hcard]
    · obtain ⟨q, hq, rfl⟩ := Finset.mem_image.mp ((Finset.mem_sort _).mp hi)
      have hlt := List.idxOf_lt_length_of_mem (hS q hq)
      omega
  · obtain ⟨S, hS, himage⟩ := exists_group horder (s := s.toFinset) fun i hi => hrange i (List.mem_toFinset.mp hi)
    refine ⟨S, hS, ?_, ?_⟩
    · rw [← Finset.card_image_of_injOn (injOn_idxOf hS), himage, List.toFinset_card_of_nodup (hs.imp fun h => ne_of_lt h), hlength]
    · rw [image_inOrder horder hS, himage]
      exact (Finset.sortedLT_sort _).eq_of_mem_iff hs.sortedLT fun i => by simp
def fiveMixed : Qubits := [.line 3,.line 0,.line 4,.line 1,.line 2]
theorem triples_of_five : fiveMixed.Nodup ∧ 1 ≤ 3 ∧ 3 ≤ fiveMixed.length ∧
    ∃ (b : BoundCircuit Number) (met : List (List Int)), complete fiveMixed 3 = .ok b ∧
      b.opportunities (inOrder fiveMixed) = .ok met ∧ [0, 2, 4] ∈ met ∧ [1, 3] ∉ met ∧ [0, 1, 2, 3] ∉ met := by
  have hnodup : fiveMixed.Nodup := by decide
  have hle : 3 ≤ fiveMixed.length := by decide
  obtain ⟨b, met, hb, hmet, hiff⟩ := complete_opportunities_iff (R := Number) hnodup (by decide) hle
  refine ⟨hnodup, by decide, hle, b, met, hb, hmet, (hiff _).mpr (by decide), fun h => ?_, fun h => ?_⟩
  · exact absurd ((hiff _).mp h).2.1 (by decide)
  · exact absurd ((hiff _).mp h).2.1 (by decide)
end
end QuantumCircuits.CompleteStrategy
