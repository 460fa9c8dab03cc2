import QuantumCircuits.Proofs.FrontierInsertion

/-! # Replacing in place

A replacer that stays on the qubits of the operation it is offered is offered every operation that has not been cleared
before its turn, once, and nothing that it has put in itself. On every qubit the blocks that it clears are replaced
where they stood.
-/
namespace QuantumCircuits.Replacing
open WireOrder FrontierInsertion StatefulReplacer List Moment
variable {α : Type} [Located α] {ms : Moments α} {w : StatefulReplacer σ α}
/-- A replacement on the qubits of the operation in focus, for operations that act on no other qubits. -/
structure Fits (c : Circuit α) (i : Nat) (op : α) (r : Replacement α) : Prop where
  span : 1 ≤ r.span
  focus : ∀ q, q ∈ r.qubits ↔ q ∈ qubits op
  cleared : ∀ j o, i ≤ j → j < i+r.span → StandsAt c.moments j o → touches r.qubits o = true →
    ∀ q ∈ qubits o, q ∈ r.qubits
  new : ∀ o ∈ r.ops, qubits o ≠ [] ∧ (qubits o).Nodup ∧ ∀ q ∈ qubits o, q ∈ r.qubits

/-- A replacer that always answers, and stays on the qubits of the operation in focus. -/
def Confined (w : StatefulReplacer σ α) : Prop :=
  ∀ s c i op, Legal c → StandsAt c.moments i op →
    ∃ answer s', w s c i op = .ok (answer,s') ∧ ∀ r ∈ answer, Fits c i op r
structure Offer (α : Type) where
  circuit : Circuit α
  place : Nat
  op : α
  answer : Option (Replacement α)

/-- Such a replacer, as long as its state and the record of its offers satisfy a condition, which it keeps, and the operation
another. -/
def ConfinedAlong (I : σ → List (Offer α) → Prop) (P : α → Prop) (w : StatefulReplacer σ α) : Prop :=
  ∀ s log c i op, I s log → P op → Legal c → StandsAt c.moments i op →
    ∃ answer s', w s c i op = .ok (answer,s') ∧ I s' (log ++ [⟨c,i,op,answer⟩]) ∧ ∀ r ∈ answer, Fits c i op r
lemma Confined.along (hw : Confined w) : ConfinedAlong (fun _ _ => True) (fun _ => True) w := by
  intro s _ c i op _ _ hc hop
  obtain ⟨answer,s',ha,hf⟩ := hw s c i op hc hop
  exact ⟨answer,s',ha,trivial,hf⟩
def logged (w : StatefulReplacer σ α) : StatefulReplacer (σ × List (Offer α)) α := fun s c i op => do
  let (answer,s') ← w s.1 c i op
  .ok (answer,s',s.2 ++ [⟨c,i,op,answer⟩])
namespace Offer
variable (o : Offer α)
def cleared : List α := match o.answer with
  | none => []
  | some r => (opsOf ((o.circuit.moments.drop o.place).take r.span)).filter (touches r.qubits)

/-- Those of them that have not been offered: they stand in later moments. -/
def passed : List α := match o.answer with
  | none => []
  | some r => (opsOf ((o.circuit.moments.drop (o.place+1)).take (r.span-1))).filter (touches r.qubits)
def kept : List α := match o.answer with
  | none => [o.op]
  | some r => [o.op].filter fun op => !touches r.qubits op
def inserted : List α := match o.answer with
  | none => []
  | some r => r.ops
def before : List α := o.kept ++ o.cleared
def after : List α := o.kept ++ o.inserted
end Offer
open Offer
section
def unlog (e : Circuit.Edit α (Frontier × σ × List (Offer α))) : Circuit.Edit α (Frontier × σ) :=
  (e.1,e.2.map fun x => (x.1,x.2.1))
lemma visit_unlog (w i) (e : Circuit.Edit α (Frontier × σ × List (Offer α))) (op) :
    visit w i (unlog e) op = unlog (visit (logged w) i e op) := by
  obtain ⟨c,_ | ⟨f,s,log⟩⟩ := e
  · rfl
  · simp only [visit,logged,unlog,Except.map]
    split
    case isFalse => rfl
    case isTrue =>
      rcases w s c i op with _ | ⟨_ | r,s'⟩
      · rfl
      · rfl
      · simp only [bind,Except.bind]
        rcases (c.clear r.qubits (Circuit.places i r.span)).insertAtFrontier r.ops i f with ⟨d,_ | g⟩ <;> rfl

/-- The record does not change what happens to the circuit. -/
lemma sweep_logged (w c f) (s : σ) (log : List (Offer α)) (i) :
    sweep w c f s i = ((sweep (logged w) c f (s,log) i).1,(sweep (logged w) c f (s,log) i).2.map Prod.fst) := by
  have hf : (c.moments.getD i .empty).ops.foldl (visit w i) (c,.ok (f,s)) =
      unlog ((c.moments.getD i .empty).ops.foldl (visit (logged w) i) (c,.ok (f,s,log))) := by
    change foldl (visit w i) (unlog (c,.ok (f,s,log))) _ = _
    exact foldl_hom unlog fun e op => visit_unlog w i e op
  rw [sweep,sweep,hf]
  split
  case isFalse => rfl
  case isTrue =>
    rcases (c.moments.getD i .empty).ops.foldl (visit (logged w) i) (c,.ok (f,s,log)) with ⟨d,_ | ⟨g,s',log'⟩⟩
    · rfl
    · simp only [unlog,Except.map]
      split
      case isFalse => rfl
      case isTrue h => exact sweep_logged w d g s' log' (i+1)
termination_by (pending c f i,c.size-i)
decreasing_by
  rename_i h
  rcases h with h | ⟨h,h'⟩
  · exact Prod.Lex.left _ _ h
  · rw [h]; exact Prod.Lex.right _ h'
end
section
variable {c : Circuit α} {qs : Qubits} {i n : Nat} {op : α}
lemma touches_iff : touches qs op ↔ ∃ q ∈ qubits op, q ∈ qs := by simp [touches]
lemma getElem?_clear (c : Circuit α) (qs at') (j : Nat) :
    (c.clear qs at').moments[j]? = (c.moments[j]?).map fun m => if at'.contains j then m.without qs else m := by
  simp only [Circuit.clear,getElem?_map,getElem?_zipIdx]
  cases c.moments[j]? <;> simp
lemma standsAt_clear {j} : StandsAt (c.clear qs (Circuit.places i n)).moments j op ↔
    StandsAt c.moments j op ∧ (i ≤ j ∧ j < i+n → touches qs op = false) := by
  unfold StandsAt
  rw [getElem?_clear]
  cases c.moments[j]? with
  | none => simp
  | some m =>
    have hj : (j : Int) ∈ Circuit.places i n ↔ i ≤ j ∧ j < i+n := by rw [MomentSearches.mem_places]; omega
    by_cases h : i ≤ j ∧ j < i+n <;> simp [hj,h,without]
lemma moments_clear (c : Circuit α) (qs) (i n : Nat) : (c.clear qs (Circuit.places i n)).moments = c.moments.take i ++
      (((c.moments.drop i).take n).map (without · qs) ++ c.moments.drop (i+n)) := by
  have hp : ∀ {f : Moment α × Nat → Moment α} (ms : Moments α) k g, (∀ j, k ≤ j → j < k+ms.length → ∀ m, f (m,j) = g m) →
      (ms.zipIdx k).map f = ms.map g := by
    intro f ms k g hg
    rw [← zipIdx_map_fst k (ms.map g),zipIdx_map,map_map]
    refine map_congr_left fun e he => ?_
    obtain ⟨hk,hlt,-⟩ := mem_zipIdx he
    exact hg e.2 hk hlt e.1
  have hs : c.moments = c.moments.take i ++ ((c.moments.drop i).take n ++ c.moments.drop (i+n)) := by
    rw [← drop_drop,take_append_drop,take_append_drop]
  nth_rewrite 1 [Circuit.clear,hs]
  rw [zipIdx_append,zipIdx_append,map_append,map_append,hp _ _ id,hp _ _ (without · qs),hp _ _ id,map_id,map_id]
  all_goals
    simp only [length_take,length_drop,contains_iff_mem,MomentSearches.mem_places]
    intro j hj hlt m
  · exact if_neg (by omega)
  · exact if_pos (by omega)
  · exact if_neg (by omega)
variable {m : Moment α}
lemma OverlapFree.without (hm : OverlapFree m) (qs) : OverlapFree (m.without qs) := overlapFree_sublist hm filter_sublist
lemma overlapFree_clear (hc : Legal c) (qs at') : ∀ m ∈ (c.clear qs at').moments, OverlapFree m := by
  intro m hm
  obtain ⟨j,hj⟩ := mem_iff_getElem?.mp hm
  rw [getElem?_clear,Option.map_eq_some_iff] at hj
  obtain ⟨m,hget,rfl⟩ := hj
  have hold := hc m (mem_of_getElem? hget)
  split
  · exact OverlapFree.without hold qs
  · exact hold
lemma opsOf_without (ms : Moments α) (qs) :
    opsOf (ms.map (without · qs)) = (opsOf ms).filter fun op => !touches qs op := by
  rw [opsOf,opsOf,flatMap_map,filter_flatMap]
  rfl
lemma openFrom_without (f k) (ms : Moments α) (qs) :
    openFrom f k (ms.map (without · qs)) = (openFrom f k ms).filter fun op => !touches qs op := by
  rw [openFrom,openFrom,zipIdx_map,flatMap_map,filter_flatMap]
  exact flatMap_congr fun e _ => filter_comm ..
lemma filter_openFrom {f k p} (h : ∀ j o, StandsAt ms j o → p o → isOpen f (k+j) o) :
    (openFrom f k ms).filter p = (opsOf ms).filter p := by
  have hs : opsOf ms = ms.zipIdx.flatMap fun e => e.1.ops := by
    rw [opsOf,← flatMap_map Prod.fst ops,zipIdx_map_fst]
  rw [hs,openFrom,zipIdx_eq_map_add,flatMap_map,filter_flatMap,filter_flatMap]
  refine flatMap_congr fun e he => (filter_filter ..).trans (filter_congr fun o ho => ?_)
  cases hp : p o with
  | false => rfl
  | true => exact h e.2 o ⟨e.1,mem_zipIdx_iff_getElem?.mp he,ho⟩ hp
lemma touches_nil (op : α) : touches [] op = false := by simp [touches]
lemma clear_nil (c : Circuit α) (at') : c.clear [] at' = c := by
  have hn : ∀ m : Moment α, m.without [] = m := fun m => by simp [without,touches_nil]
  have hm : (c.clear [] at').moments = c.moments := by
    apply ext_getElem?
    intro j
    rw [getElem?_clear]
    cases c.moments[j]? <;> simp [hn]
  exact congrArg Circuit.mk hm
lemma filter_touches (hm : OverlapFree m) (hop : op ∈ m.ops) (hne : qubits op ≠ []) (hqs : ∀ q, q ∈ qs ↔ q ∈ qubits op) :
    m.ops.filter (touches qs) = [op] := by
  obtain ⟨us,vs,hs⟩ := append_of_mem hop
  have hp := (overlapFree_iff.mp hm).2
  rw [hs,pairwise_append,pairwise_cons] at hp
  obtain ⟨-,⟨hvs,-⟩,hus⟩ := hp
  have hn : ∀ xs : List α, (∀ x ∈ xs, (qubits op).Disjoint (qubits x)) → xs.filter (touches qs) = [] := by
    intro xs hxs
    refine filter_eq_nil_iff.mpr fun x hx ht => ?_
    obtain ⟨q,hqx,hq⟩ := touches_iff.mp ht
    exact hxs x hx ((hqs q).mp hq) hqx
  have hse : touches qs op := by
    obtain ⟨q,hq⟩ := exists_mem_of_ne_nil _ hne
    exact touches_iff.mpr ⟨q,hq,(hqs q).mpr hq⟩
  rw [hs,filter_append,filter_cons_of_pos hse,hn vs hvs,hn us fun x hx q hq hqx => hus x hx op mem_cons_self hqx hq]
  rfl
end
def rest (d : Circuit α) (f : Frontier) (i : Nat) (todo : List α) : List α :=
  todo.filter (isOpen f i) ++ openFrom f (i+1) (d.moments.drop (i+1))

/-- An operation is offered in its turn: on each of its qubits it comes next, in the first circuit after what the offers
before it have dealt with, and in the present one after what they have left there. -/
structure InTurn (w : StatefulReplacer σ α) (c : Circuit α) (earlier : List (Offer α)) (o : Offer α) : Prop where
  stands : StandsAt o.circuit.moments o.place o.op
  answered : ∃ s s', w s o.circuit o.place o.op = .ok (o.answer,s')
  before_eq : o.before = o.op :: o.passed
  next : ∃ later, SameOrder c.operations (earlier.flatMap Offer.before ++ o.op :: later) ∧
    SameOrder o.circuit.operations (earlier.flatMap Offer.after ++ o.op :: later)
structure Underway (w : StatefulReplacer σ α) (c : Circuit α) (log : List (Offer α)) (d : Circuit α) (f : Frontier) (i : Nat)
    (todo : List α) : Prop where
  overlapFree : Legal d
  divides : Divides f i d.moments
  stands : ∀ op ∈ todo, StandsAt d.moments i op
  disjoint : todo.Pairwise fun a b => (qubits a).Disjoint (qubits b)
  inTurn : ∀ earlier o later, log = earlier ++ o :: later → InTurn w c earlier o
  before : SameOrder c.operations (log.flatMap Offer.before ++ rest d f i todo)
  after : SameOrder d.operations (log.flatMap Offer.after ++ rest d f i todo)
section
variable {c d : Circuit α} {log : List (Offer α)} {f : Frontier} {i : Nat} {op : α} {todo : List α}
lemma rest_cons_open (h : isOpen f i op) : rest d f i (op :: todo) = op :: rest d f i todo := by simp [rest,h]
lemma rest_cons_closed (h : isOpen f i op = false) : rest d f i (op :: todo) = rest d f i todo := by simp [rest,h]
omit [Located α] in
lemma standsAt_of_getD (h : op ∈ (ms.getD i .empty).ops) : StandsAt ms i op := by
  cases hm : ms[i]? with
  | none => simp [hm,empty] at h
  | some m => exact ⟨m,hm,by simpa [hm] using h⟩
lemma disjoint_getD (hms : ∀ m ∈ ms, OverlapFree m) (i) :
    (ms.getD i .empty).ops.Pairwise fun a b => (qubits a).Disjoint (qubits b) := by
  rw [getD_eq_getElem?_getD]
  cases hm : ms[i]? with
  | none => exact Pairwise.nil
  | some m => exact (overlapFree_iff.mp (hms m (mem_of_getElem? hm))).2
lemma disjoint_of_standsAt (hms : ∀ m ∈ ms, OverlapFree m) {j a b} (ha : StandsAt ms j a) (hb : StandsAt ms j b) :
    a = b ∨ (qubits a).Disjoint (qubits b) := by
  obtain ⟨m,hm,ha⟩ := ha
  obtain ⟨m',hm',hb⟩ := hb
  obtain rfl : m = m' := Option.some.inj (hm.symm.trans hm')
  have hp := (overlapFree_iff.mp (hms m (mem_of_getElem? hm))).2
  by_cases hab : a = b
  · exact .inl hab
  · have hs : Std.Symm fun a b : α => (qubits a).Disjoint (qubits b) := ⟨fun _ _ h _ hq hq' => h hq' hq⟩
    exact .inr (hp.forall ha hb hab)
namespace Underway
lemma closed (h : Underway w c log d f i (op :: todo)) (hop : isOpen f i op = false) : Underway w c log d f i todo := by
  refine ⟨h.overlapFree,h.divides,(forall_mem_cons.mp h.stands).2,(pairwise_cons.mp h.disjoint).2,h.inTurn,?_,?_⟩
  · simpa only [rest_cons_closed hop] using h.before
  · simpa only [rest_cons_closed hop] using h.after
variable {answer : Option (Replacement α)}
variable (h : Underway w c log d f i (op :: todo)) (hop : isOpen f i op) (hw : ∃ s s', w s d i op = .ok (answer,s'))
include h hop hw
lemma inTurn_concat (hb : Offer.before ⟨d,i,op,answer⟩ = op :: passed ⟨d,i,op,answer⟩) :
    ∀ earlier o later, log ++ [⟨d,i,op,answer⟩] = earlier ++ o :: later → InTurn w c earlier o := by
  intro earlier o later hlog
  rcases eq_nil_or_concat later with rfl | ⟨later,o',rfl⟩
  · obtain ⟨rfl,ho⟩ := append_inj' hlog rfl
    obtain rfl := singleton_inj.mp ho
    refine ⟨h.stands op mem_cons_self,hw,hb,rest d f i todo,?_,?_⟩
    · simpa only [rest_cons_open hop] using h.before
    · simpa only [rest_cons_open hop] using h.after
  · rw [concat_eq_append,← cons_append,← append_assoc] at hlog
    exact h.inTurn earlier o later (append_inj' hlog rfl).1
lemma keep (hk : kept ⟨d,i,op,answer⟩ = [op]) (hc : cleared ⟨d,i,op,answer⟩ = [])
    (hp : passed ⟨d,i,op,answer⟩ = []) (hin : inserted ⟨d,i,op,answer⟩ = []) :
    Underway w c (log ++ [⟨d,i,op,answer⟩]) d f i todo := by
  have hb : Offer.before ⟨d,i,op,answer⟩ = [op] := by rw [Offer.before,hk,hc]; rfl
  have ha : Offer.after ⟨d,i,op,answer⟩ = [op] := by rw [Offer.after,hk,hin]; rfl
  refine ⟨h.overlapFree,h.divides,(forall_mem_cons.mp h.stands).2,(pairwise_cons.mp h.disjoint).2,
    h.inTurn_concat hop hw (by rw [hb,hp]),?_,?_⟩
  · simpa [rest_cons_open hop,hb] using h.before
  · simpa [rest_cons_open hop,ha] using h.after
end Underway
section
variable {r : Replacement α}
abbrev emptied (d : Circuit α) (i : Nat) (r : Replacement α) : Circuit α := d.clear r.qubits (Circuit.places i r.span)
omit [Located α] in
lemma exists_focus (hop : StandsAt d.moments i op) :
    ∃ m, op ∈ m.ops ∧ m ∈ d.moments ∧ d.moments.drop i = m :: d.moments.drop (i+1) := by
  obtain ⟨m,hm,hmem⟩ := hop
  obtain ⟨hlt,hget⟩ := List.getElem?_eq_some_iff.mp hm
  exact ⟨m,hmem,mem_of_getElem? hm,by rw [← hget]; exact drop_eq_getElem_cons hlt⟩
namespace Fits
lemma disjoint_of_touches {o o' : α} (ho : ∀ q ∈ qubits o, q ∈ r.qubits) (ho' : touches r.qubits o' = false) :
    (qubits o).Disjoint (qubits o') := by
  intro q hq hq'
  have ht : touches r.qubits o' := touches_iff.mpr ⟨q,hq',ho q hq⟩
  simp [ht] at ho'
variable (hr : Fits d i op r)
include hr
lemma eq_nil (h : qubits op = []) : r.qubits = [] ∧ r.ops = [] := by
  have hqs : r.qubits = [] := eq_nil_iff_forall_not_mem.mpr fun q hq => by
    simpa [h] using (hr.focus q).mp hq
  refine ⟨hqs,eq_nil_iff_forall_not_mem.mpr fun o ho => ?_⟩
  obtain ⟨hne,-,hmem⟩ := hr.new o ho
  obtain ⟨q,hq⟩ := exists_mem_of_ne_nil _ hne
  simpa [hqs] using hmem q hq
lemma kept_eq (hne : qubits op ≠ []) : kept ⟨d,i,op,some r⟩ = [] := by
  obtain ⟨q,hq⟩ := exists_mem_of_ne_nil _ hne
  have hs : touches r.qubits op := touches_iff.mpr ⟨q,hq,(hr.focus q).mpr hq⟩
  simp [kept,hs]
lemma cleared_eq (hd : Legal d) (hop : StandsAt d.moments i op)
    (hne : qubits op ≠ []) : Offer.cleared ⟨d,i,op,some r⟩ = op :: passed ⟨d,i,op,some r⟩ := by
  obtain ⟨m,hmem,hm,hdr⟩ := exists_focus hop
  obtain ⟨n,hn⟩ := Nat.exists_eq_add_of_le' hr.span
  simp only [Offer.cleared,passed,hdr,hn,take_succ_cons,opsOf_cons,filter_append,filter_touches (hd m hm) hmem hne hr.focus]
  rfl
lemma mem_of_cleared : ∀ o ∈ Offer.cleared ⟨d,i,op,some r⟩, ∀ q ∈ qubits o, q ∈ r.qubits := by
  intro o ho
  obtain ⟨ho,ht⟩ := mem_filter.mp ho
  obtain ⟨m,hm,hom⟩ := mem_opsOf.mp ho
  obtain ⟨j,hj⟩ := mem_iff_getElem?.mp hm
  obtain ⟨hlt,hs⟩ := standsAt_take.mp ⟨m,hj,hom⟩
  exact hr.cleared (i+j) o (by omega) (by omega) (standsAt_drop.mp hs) ht
lemma sameOrder_clear (hi : i ≤ d.moments.length) :
    SameOrder (opsOf (d.moments.drop i)) (Offer.cleared ⟨d,i,op,some r⟩ ++ opsOf ((emptied d i r).moments.drop i)) := by
  have hlen : (d.moments.take i).length = i := length_take_of_le hi
  have hc := hr.mem_of_cleared
  rw [moments_clear,drop_left' hlen,opsOf_append,opsOf_without,← append_assoc]
  have hs : opsOf (d.moments.drop i) = opsOf ((d.moments.drop i).take r.span) ++ opsOf (d.moments.drop (i+r.span)) := by
    rw [← drop_drop,← opsOf_append,take_append_drop]
  rw [hs]
  refine (SameOrder.partition fun o ho ht o' _ hnot => ?_).append_right _
  exact disjoint_of_touches (hc o (mem_filter.mpr ⟨ho,ht⟩)) hnot
lemma drop_succ_clear (hi : i < d.moments.length) :
    (emptied d i r).moments.drop (i+1) = ((d.moments.drop (i+1)).take (r.span-1)).map (without · r.qubits) ++
        (d.moments.drop (i+1)).drop (r.span-1) := by
  have hlen : (d.moments.take i).length = i := length_take_of_le (Nat.le_of_lt hi)
  obtain ⟨n,hn⟩ := Nat.exists_eq_add_of_le' hr.span
  rw [moments_clear,← drop_drop,drop_left' hlen,drop_eq_getElem_cons hi,hn,drop_drop,show i+1+(n+1-1) = i+(n+1) by omega]
  rfl
lemma sameOrder_rest (hd : Legal d) (hop : StandsAt d.moments i op) (hne : qubits op ≠ []) (hon : isOpen f i op) (hto : ∀ o ∈ todo, (qubits op).Disjoint (qubits o)) :
    SameOrder (rest d f i todo) (passed ⟨d,i,op,some r⟩ ++ rest (emptied d i r) f i todo) := by
  have hp : ∀ o ∈ passed ⟨d,i,op,some r⟩, ∀ q ∈ qubits o, q ∈ r.qubits := fun o ho =>
    hr.mem_of_cleared o (hr.cleared_eq hd hop hne ▸ mem_cons_of_mem _ ho)
  let block := (d.moments.drop (i+1)).take (r.span-1)
  have hf : (openFrom f (i+1) block).filter (touches r.qubits) = passed ⟨d,i,op,some r⟩ := by
    refine filter_openFrom fun j o ho ht => isOpen_iff.mpr fun q hq => ?_
    obtain ⟨m,hm,hom⟩ := ho
    have hmem : o ∈ passed ⟨d,i,op,some r⟩ := mem_filter.mpr ⟨mem_opsOf.mpr ⟨m,mem_of_getElem? hm,hom⟩,ht⟩
    have hfr := isOpen_iff.mp hon q ((hr.focus q).mp (hp o hmem q hq))
    omega
  have hb : SameOrder (openFrom f (i+1) block)
      (passed ⟨d,i,op,some r⟩ ++ openFrom f (i+1) (block.map (without · r.qubits))) := by
    rw [openFrom_without,← hf]
    refine SameOrder.partition fun o ho ht o' _ hnot => disjoint_of_touches (hp o ?_) hnot
    exact hf ▸ mem_filter.mpr ⟨ho,ht⟩
  have ha : Apart (todo.filter (isOpen f i)) (passed ⟨d,i,op,some r⟩) := fun o ho o' ho' q hq hq' =>
    hto o (mem_of_mem_filter ho) ((hr.focus q).mp (hp o' ho' q hq')) hq
  have hdr : openFrom f (i+1) (d.moments.drop (i+1)) = openFrom f (i+1) block ++
      openFrom f (i+1+block.length) ((d.moments.drop (i+1)).drop (r.span-1)) := by
    rw [← openFrom_append,take_append_drop]
  unfold rest
  rw [hr.drop_succ_clear hop.lt_length,openFrom_append,length_map,hdr]
  refine ((hb.append_right _).append_left (todo.filter (isOpen f i))).trans ?_
  simpa only [append_assoc] using (SameOrder.swap ha).append_right _
end Fits
variable (h : Underway w c log d f i (op :: todo)) (hon : isOpen f i op) (hr : Fits d i op r)
include h hon hr
/-- On the qubits in focus everything that stands after the cleared operations is still to be offered. -/
lemma Underway.onWire_rest {q} (hq : q ∈ r.qubits) :
    onWire q (opsOf ((emptied d i r).moments.drop i)) = onWire q (rest (emptied d i r) f i todo) := by
  have hop := h.stands op mem_cons_self
  have hqop := (hr.focus q).mp hq
  have hf := isOpen_iff.mp hon q hqop
  have hto : onWire q (todo.filter (isOpen f i)) = [] := by
    refine onWire_eq_nil.mpr fun o ho hqo => ?_
    exact (pairwise_cons.mp h.disjoint).1 o (mem_of_mem_filter ho) hqop hqo
  have hlt : i < (emptied d i r).moments.length := by simpa [Circuit.clear] using hop.lt_length
  have hh : onWire q ((emptied d i r).moments.get ⟨i,hlt⟩).ops = [] := by
    refine onWire_eq_nil.mpr fun o ho hqo => ?_
    have hs := standsAt_clear.mp ⟨_,getElem?_eq_getElem hlt,ho⟩
    have ht : touches r.qubits o := touches_iff.mpr ⟨q,hqo,hq⟩
    have hsp := hr.span
    exact absurd ht (Bool.eq_false_iff.mp (hs.2 ⟨Nat.le_refl i,by omega⟩))
  have hl : onWire q (openFrom f (i+1) ((emptied d i r).moments.drop (i+1))) =
      onWire q (opsOf ((emptied d i r).moments.drop (i+1))) := by
    refine filter_openFrom fun j o ho hqo => ?_
    have hs := (standsAt_clear.mp (standsAt_drop.mp ho)).1
    have hqo : q ∈ qubits o := by simpa using hqo
    rcases h.divides (i+1+j) o (by omega) hs with hall | hn
    · exact isOpen_iff.mpr hall
    · have := hn q hqo
      omega
  rw [drop_eq_getElem_cons hlt,opsOf_cons,onWire_append,rest,onWire_append,hto,hl]
  exact (congrArg (· ++ _) hh).trans (nil_append _)
lemma Underway.inserts :
    ∃ d' g, (emptied d i r).insertAtFrontier r.ops i f = (d',.ok g) ∧ Inserted (emptied d i r) d' r.ops i f g := by
  have hop := h.stands op mem_cons_self
  refine insertAtFrontier_spec ?_ (overlapFree_clear h.overlapFree _ _) (fun o ho => ⟨(hr.new o ho).1,(hr.new o ho).2.1⟩)
    ?_ ?_ ?_
  · simpa [Circuit.clear,Circuit.size] using hop.lt_length
  · exact fun o ho q hq => isOpen_iff.mp hon q ((hr.focus q).mp ((hr.new o ho).2.2 q hq))
  · intro o ho o' ho'
    have hs := hr.span
    exact Fits.disjoint_of_touches (hr.new o ho).2.2 ((standsAt_clear.mp ho').2 ⟨Nat.le_refl i,by omega⟩)
  · exact fun j o hij ho => h.divides j o hij (standsAt_clear.mp ho).1

/-- Replacing a block: it is no longer to be offered, and what has been put in its place is not either. -/
lemma Underway.replace (hne : qubits op ≠ []) (hw : ∃ s s', w s d i op = .ok (some r,s')) :
    ∃ d' g, (emptied d i r).insertAtFrontier r.ops i f = (d',.ok g) ∧ Underway w c (log ++ [⟨d,i,op,some r⟩]) d' g i todo ∧
      (rest d' g i todo).length < (rest d f i (op :: todo)).length := by
  obtain ⟨d',g,hins,hd'⟩ := h.inserts hon hr
  have hop := h.stands op mem_cons_self
  have hi := Nat.le_of_lt hop.lt_length
  obtain ⟨ht,hp⟩ := pairwise_cons.mp h.disjoint
  have hc := hr.cleared_eq h.overlapFree hop hne
  have hk := hr.kept_eq hne
  have hb : Offer.before ⟨d,i,op,some r⟩ = op :: passed ⟨d,i,op,some r⟩ := by
    rw [Offer.before,hk,hc,nil_append]
  have hst : ∀ o ∈ todo, StandsAt (emptied d i r).moments i o := by
    refine fun o ho => standsAt_clear.mpr ⟨h.stands o (mem_cons_of_mem _ ho),fun _ => Bool.eq_false_iff.mpr ?_⟩
    intro hto
    obtain ⟨q,hqo,hq⟩ := touches_iff.mp hto
    exact ht o ho ((hr.focus q).mp hq) hqo
  have hsa : rest d' g i todo = rest (emptied d i r) f i todo := by
    rw [rest,rest,hd'.later,filter_congr fun o ho => (hd'.stays o (hst o ho)).2]
  have hre : SameOrder (rest d f i (op :: todo)) (cleared ⟨d,i,op,some r⟩ ++ rest d' g i todo) := by
    rw [rest_cons_open hon,hc,hsa]
    exact (hr.sameOrder_rest h.overlapFree hop hne hon ht).append_left [op]
  refine ⟨d',g,hins,⟨hd'.overlapFree,hd'.divides,fun o ho => (hd'.stays o (hst o ho)).1,hp,h.inTurn_concat hon hw hb,?_,?_⟩,?_⟩
  · have hall := h.before.trans (hre.append_left (log.flatMap Offer.before))
    simpa [Offer.before,hk] using hall
  · have hold : SameOrder (opsOf (d.moments.take i) ++ cleared ⟨d,i,op,some r⟩ ++ opsOf ((emptied d i r).moments.drop i))
        (log.flatMap Offer.after ++ cleared ⟨d,i,op,some r⟩ ++ rest d' g i todo) := by
      have hs := (hr.sameOrder_clear hi).append_left (opsOf (d.moments.take i))
      rw [← opsOf_append,take_append_drop,← append_assoc] at hs
      rw [append_assoc (log.flatMap Offer.after)]
      exact hs.symm.trans (h.after.trans (hre.append_left _))
    have hnew := SameOrder.exchange hold hr.mem_of_cleared (fun o ho => (hr.new o ho).2.2) fun q hq =>
      (h.onWire_rest hon hr hq).trans (by rw [hsa])
    have hta : (emptied d i r).moments.take i = d.moments.take i := by
      rw [moments_clear,take_left' (length_take_of_le hi)]
    have hall := hd'.order.trans ((SameOrder.of_eq (by rw [hta])).trans hnew)
    simpa [Offer.after,inserted,hk] using hall
  · have hlen := hre.perm.length_eq
    rw [hc,length_append,length_cons] at hlen
    omega
end
def Progress (d d' : Circuit α) (f g : Frontier) (before after : List α) : Prop :=
  after.length < before.length ∨ d' = d ∧ g = f ∧ after = before
omit [Located α] in
lemma Progress.trans {f f' f'' : Frontier} {xs ys zs : List α} (h : Progress d d' f f' xs ys)
    (h' : Progress d' d'' f' f'' ys zs) : Progress d d'' f f'' xs zs := by
  rcases h with h | ⟨rfl,rfl,rfl⟩
  · rcases h' with h' | ⟨-,-,rfl⟩
    · exact .inl (h'.trans h)
    · exact .inl h
  · exact h'
namespace Underway
variable {I : σ → List (Offer α) → Prop} {P : α → Prop} {s : σ}
section
variable (hw : ConfinedAlong I P w) (hP : ∀ o ∈ c.operations, P o)
include hw hP
lemma visit (h : Underway w c log d f i (op :: todo)) (hI : I s log) :
    ∃ d' g s' log', StatefulReplacer.visit (logged w) i (d,.ok (f,s,log)) op = (d',.ok (g,s',log')) ∧
      Underway w c log' d' g i todo ∧ Progress d d' f g (rest d f i (op :: todo)) (rest d' g i todo) ∧ I s' log' := by
  cases ho : isOpen f i op with
  | false =>
    refine ⟨d,f,s,log,?_,h.closed ho,.inr ⟨rfl,rfl,(rest_cons_closed ho).symm⟩,hI⟩
    simp [StatefulReplacer.visit,ho]
  | true =>
    have hf : P op := by
      refine hP op (h.before.perm.mem_iff.mpr ?_)
      rw [rest_cons_open ho]
      exact mem_append_right _ mem_cons_self
    have hop := h.stands op mem_cons_self
    have ht : ((qubits op).all fun q => (d.moments.getD i .empty).actsOnAny [q]) := by
      obtain ⟨m,hm,hmem⟩ := hop
      rw [getD_eq_getElem?_getD,hm,all_eq_true]
      intro q hq
      simpa [actsOnAny,actsOn,Moment.qubits,allQubits] using ⟨op,hmem,hq⟩
    obtain ⟨answer,s',ha,hI',hfi⟩ := hw s log d i op hI hf h.overlapFree hop
    have hl : (rest d f i todo).length < (rest d f i (op :: todo)).length := by simp [rest_cons_open ho]
    cases answer with
    | none =>
      refine ⟨d,f,s',log ++ [⟨d,i,op,none⟩],?_,h.keep ho ⟨s,s',ha⟩ rfl rfl rfl rfl,.inl hl,hI'⟩
      simp only [StatefulReplacer.visit,ho,ht,logged,ha]
      rfl
    | some r =>
      have hr := hfi r rfl
      have hv : ∀ {d' g}, (emptied d i r).insertAtFrontier r.ops i f = (d',.ok g) →
          StatefulReplacer.visit (logged w) i (d,.ok (f,s,log)) op =
            (d',.ok (g,s',log ++ [⟨d,i,op,some r⟩])) := by
        intro d' g hins
        simp only [StatefulReplacer.visit,ho,ht,logged,ha,bind,Except.bind,Bool.and_self,if_true,hins]
      by_cases hne : qubits op = []
      · obtain ⟨hqs,hops⟩ := hr.eq_nil hne
        have hnot : ∀ o : α, touches r.qubits o = false := fun o => hqs ▸ touches_nil o
        refine ⟨d,f,s',log ++ [⟨d,i,op,some r⟩],?_,h.keep ho ⟨s,s',ha⟩ ?_ ?_ ?_ hops,.inl hl,hI'⟩
        · refine hv ?_
          rw [emptied,hqs,clear_nil,hops]
          rfl
        · simp [kept,hnot]
        · simp [cleared,hnot]
        · simp [passed,hnot]
      · obtain ⟨d',g,hins,hn,hlt⟩ := h.replace ho hr hne ⟨s,s',ha⟩
        exact ⟨d',g,s',_,hv hins,hn,.inl hlt,hI'⟩
lemma visitAll (h : Underway w c log d f i todo) (hI : I s log) :
    ∃ d' g s' log', todo.foldl (StatefulReplacer.visit (logged w) i) (d,.ok (f,s,log)) = (d',.ok (g,s',log')) ∧
      Underway w c log' d' g i [] ∧ Progress d d' f g (rest d f i todo) (rest d' g i []) ∧ I s' log' := by
  induction todo generalizing d f s log with
  | nil => exact ⟨d,f,s,log,rfl,h,.inr ⟨rfl,rfl,rfl⟩,hI⟩
  | cons op todo ih =>
    obtain ⟨d₁,f₁,s₁,log₁,hv,h₁,hp,hI₁⟩ := h.visit hw hP hI
    obtain ⟨d₂,f₂,s₂,log₂,hf,h₂,hp',hI₂⟩ := ih h₁ hI₁
    exact ⟨d₂,f₂,s₂,log₂,by rw [foldl_cons,hv,hf],h₂,hp.trans hp',hI₂⟩
end
lemma rest_moment (d : Circuit α) (f i) :
    rest d f i (d.moments.getD i .empty).ops = openFrom f i (d.moments.drop i) := by
  by_cases hi : i < d.moments.length
  · rw [drop_eq_getElem_cons hi,getD_eq_getElem?_getD,getElem?_eq_getElem hi]
    rfl
  · have hle := Nat.not_lt.mp hi
    rw [rest,drop_eq_nil_of_le hle,drop_eq_nil_of_le (hle.trans (Nat.le_succ i)),getD_eq_getElem?_getD,getElem?_eq_none hle]
    rfl
lemma next (h : Underway w c log d f i []) : Underway w c log d f (i+1) (d.moments.getD (i+1) .empty).ops := by
  have hr : rest d f i [] = rest d f (i+1) (d.moments.getD (i+1) .empty).ops := by
    rw [rest_moment]
    rfl
  exact ⟨h.overlapFree,fun j op hij => h.divides j op (by omega),fun _ => standsAt_of_getD,
    disjoint_getD h.overlapFree (i+1),h.inTurn,hr ▸ h.before,hr ▸ h.after⟩
lemma start (w : StatefulReplacer σ α) (hc : Legal c) : Underway w c [] c [] 0 (c.moments.getD 0 .empty).ops := by
  have ho : (openFrom [] 0 c.moments).filter (fun _ => true) = (opsOf c.moments).filter fun _ => true :=
    filter_openFrom fun j o _ _ => isOpen_iff.mpr fun q _ => Int.natCast_nonneg _
  rw [filter_true,filter_true] at ho
  have hall : SameOrder c.operations ([] ++ rest c [] 0 (c.moments.getD 0 .empty).ops) := by
    rw [rest_moment,drop_zero,ho]
    rfl
  exact ⟨hc,fun j op _ _ => .inl fun q _ => Int.natCast_nonneg j,fun _ => standsAt_of_getD,disjoint_getD hc 0,by simp,hall,hall⟩
end Underway
end
lemma pending_eq (d : Circuit α) (f i) : pending d f i = (openFrom f i (d.moments.drop i)).length := by
  have hb : ∀ {g : Moment α × Nat → List (Nat × α)} {p}, (∀ e, ∀ x ∈ g e, p x → i ≤ e.2) →
      ((d.moments.take i).zipIdx.flatMap g).countP p = 0 := by
    intro g p hg
    simp only [countP_eq_zero,mem_flatMap]
    rintro x ⟨e,he,hx⟩ hp
    have hlt := snd_lt_of_mem_zipIdx he
    rw [length_take] at hlt
    have hle := hg e x hx hp
    omega
  rw [pending,← countP_eq_length_filter,Circuit.placed]
  nth_rewrite 1 [← take_append_drop i d.moments]
  rw [zipIdx_append,flatMap_append,countP_append,hb,Nat.zero_add,Nat.zero_add]
  · rcases Nat.le_total i d.moments.length with hi | hi
    · rw [length_take_of_le hi,openFrom,countP_flatMap,length_flatMap]
      refine congrArg sum (map_congr_left fun e he => ?_)
      have hle := le_snd_of_mem_zipIdx he
      simp [countP_map,← countP_eq_length_filter,Function.comp_def,hle]
    · rw [drop_eq_nil_of_le hi]
      rfl
  · intro e x hx hp
    obtain ⟨op,-,rfl⟩ := mem_map.mp hx
    exact (by simpa using hp : i ≤ e.2 ∧ _).1

/-- What a sweep does: the operations of the first circuit are offered in their turn or cleared before it, and the blocks that
the offers have cleared are replaced where they stood. -/
structure Replaced (w : StatefulReplacer σ α) (c : Circuit α) (log : List (Offer α)) (d : Circuit α) : Prop where
  overlapFree : Legal d
  offered : c.operations.Perm (log.map Offer.op ++ log.flatMap Offer.passed)
  inTurn : ∀ earlier o later, log = earlier ++ o :: later → InTurn w c earlier o
  before : SameOrder c.operations (log.flatMap Offer.before)
  after : SameOrder d.operations (log.flatMap Offer.after)
variable {log : List (Offer α)}
lemma Underway.replaced {c d todo} (h : Underway w c log d f i todo) (hr : rest d f i todo = []) : Replaced w c log d := by
  have hb : SameOrder c.operations (log.flatMap Offer.before) := by simpa [hr] using h.before
  refine ⟨h.overlapFree,hb.perm.trans ?_,h.inTurn,hb,by simpa [hr] using h.after⟩
  have hof : log.flatMap Offer.before = log.flatMap fun o => [o.op] ++ o.passed := by
    refine flatMap_congr fun o ho => ?_
    obtain ⟨earlier,later,hlog⟩ := append_of_mem ho
    exact (h.inTurn earlier o later hlog).before_eq
  have hp := flatMap_append_perm log (fun o => [o.op]) passed
  rw [hof,map_eq_flatMap]
  exact hp.symm

/-- The sweep goes through: what is left to be offered becomes less, or the circuit stays and the place moves on. -/
lemma Underway.sweepAlong {I P} (hw : ConfinedAlong I P w) {c d} (hP : ∀ o ∈ c.operations, P o) {log f i}
    (h : Underway w c log d f i (d.moments.getD i .empty).ops) {s} (hI : I s log) :
    ∃ e s' log', sweep (logged w) d f (s,log) i = (e,.ok (s',log')) ∧ Replaced w c log' e ∧ I s' log' := by
  rw [sweep]
  split
  case isFalse hi =>
    refine ⟨d,s,log,rfl,h.replaced ?_,hI⟩
    rw [rest_moment,drop_eq_nil_of_le (Nat.not_lt.mp hi)]
    rfl
  case isTrue hi =>
    obtain ⟨d',g,s',log',hf,hn,hp,hI'⟩ := h.visitAll hw hP hI
    have hd : pending d' g (i+1) < pending d f i ∨
        pending d' g (i+1) = pending d f i ∧ d'.size-(i+1) < d.size-i := by
      rw [pending_eq,pending_eq,← rest_moment d f i]
      rcases hp with hl | ⟨rfl,rfl,heq⟩
      · exact .inl hl
      · exact .inr ⟨congrArg length heq,by omega⟩
    simp only [hf,if_pos hd]
    exact hn.next.sweepAlong hw hP hI'
termination_by (pending d f i,d.size-i)
decreasing_by
  rcases hd with h | ⟨h,h'⟩
  · exact Prod.Lex.left _ _ h
  · rw [h]; exact Prod.Lex.right _ h'
lemma Underway.sweep (hw : Confined w) {c d} (h : Underway w c log d f i (d.moments.getD i .empty).ops) (s) :
    ∃ e s' log', StatefulReplacer.sweep (logged w) d f (s,log) i = (e,.ok (s',log')) ∧ Replaced w c log' e := by
  obtain ⟨e,s',log',hs,hr,-⟩ := h.sweepAlong hw.along (fun _ _ => trivial) (s := s) trivial
  exact ⟨e,s',log',hs,hr⟩
section
def answers (F : σ → α → List α × σ) (s : σ) (ops : List α) : List α × σ :=
  ops.foldl (fun r op => (r.1 ++ (F r.2 op).1,(F r.2 op).2)) ([],s)

/-- The replacer answers, under a condition on the state and one on the operation, by keeping the operation or by putting
what the function gives in its place. -/
structure AnswersBy (w : StatefulReplacer σ α) (F : σ → α → List α × σ) (I : σ → Prop) (P : α → Prop) : Prop where
  answer : ∀ s c i op, I s → P op → w s c i op = .ok (none,(F s op).2) ∧ (F s op).1 = [op] ∨
    w s c i op = .ok (some ⟨1,qubits op,(F s op).1⟩,(F s op).2)
  keeps : ∀ s op, I s → P op → I (F s op).2
  focus : ∀ op, P op → qubits op ≠ []
  new : ∀ s op, I s → P op → ∀ o ∈ (F s op).1, qubits o ≠ [] ∧ (qubits o).Nodup ∧ ∀ q ∈ qubits o, q ∈ qubits op
omit [Located α] in
lemma answers_concat (s : σ) (ops) (op : α) : answers F s (ops ++ [op]) =
    ((answers F s ops).1 ++ (F (answers F s ops).2 op).1,(F (answers F s ops).2 op).2) := by
  simp [answers]
lemma AnswersBy.confinedAlong (hw : AnswersBy w F I P) (s₀) :
    ConfinedAlong (fun s log => I s ∧ log.flatMap before = log.map Offer.op ∧
      answers F s₀ (log.map Offer.op) = (log.flatMap Offer.after,s)) P w := by
  rintro s log c i op ⟨hI,hb,ha⟩ hP hc hop
  have hg : ∀ o : Offer α, o.op = op → o.before = [op] → o.after = (F s op).1 →
      (log ++ [o]).flatMap before = (log ++ [o]).map Offer.op ∧
        answers F s₀ ((log ++ [o]).map Offer.op) = ((log ++ [o]).flatMap Offer.after,(F s op).2) := by
    intro o ho hone hnew
    simp [hb,hone,answers_concat,ha,hnew,ho]
  rcases hw.answer s c i op hI hP with ⟨hn,hk⟩ | hs
  · refine ⟨none,_,hn,⟨hw.keeps s op hI hP,hg _ rfl rfl ?_⟩,by simp⟩
    simp [Offer.after,kept,inserted,hk]
  · have hf : Fits c i op ⟨1,qubits op,(F s op).1⟩ := by
      refine ⟨le_rfl,fun _ => Iff.rfl,fun j o hij hlt ho ht => ?_,hw.new s op hI hP⟩
      obtain rfl : j = i := by
        have hlt : j < i+1 := hlt
        omega
      obtain ⟨q,hqo,hq⟩ := touches_iff.mp ht
      rcases disjoint_of_standsAt hc ho hop with rfl | hd
      · exact fun _ h => h
      · exact absurd hq (hd hqo)
    have hne := hw.focus op hP
    have hk := hf.kept_eq hne
    refine ⟨_,_,hs,⟨hw.keeps s op hI hP,hg _ rfl ?_ ?_⟩,by simpa using hf⟩
    · rw [before,hk,hf.cleared_eq hc hop hne]
      simp [passed]
    · simp [Offer.after,hk,inserted]

/-- A replacer that answers in place does so for all operations in an order that respects every qubit. -/
lemma AnswersBy.run (hw : AnswersBy w F I P) {s} (hI : I s) {c} (hc : Legal c) (hP : ∀ op ∈ c.operations, P op) :
    ∃ d offered, w.run s c = (d,.ok (answers F s offered).2) ∧ Legal d ∧
      SameOrder c.operations offered ∧ SameOrder d.operations (answers F s offered).1 := by
  obtain ⟨d,s',log,hrun,hr,-,hb,ha⟩ :=
    (Underway.start w hc).sweepAlong (hw.confinedAlong s) hP (s := s) ⟨hI,rfl,rfl⟩
  refine ⟨d,log.map op,?_,hr.overlapFree,hb ▸ hr.before,?_⟩
  · rw [StatefulReplacer.run,sweep_logged w c [] s [] 0,hrun,ha]
    rfl
  · rw [ha]
    exact hr.after
end
end QuantumCircuits.Replacing
