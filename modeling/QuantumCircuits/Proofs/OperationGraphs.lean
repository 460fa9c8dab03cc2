import QuantumCircuits.Proofs.EarliestPacking

/-! # Circuits by way of graphs

The graph of a circuit joins operations that share a qubit. Its nodes are taken out one by one, none before those that
lead to it, and put together again in that order, each in the moment that the longest chain leading to it asks for. -/
namespace QuantumCircuits.OperationGraphs
open List WireOrder CircuitDag FrontierInsertion EarliestPacking
variable {g : CircuitDag α} {ops : List α} {left : List ℕ} {i j n : ℕ}

/-! ## Edges -/
lemma ofOps_spec (free : α → α → Bool) (ops) : (ofOps free ops).nodes = ops ∧
    ∀ i j, (i,j) ∈ (ofOps free ops).edges ↔ i < j ∧ ∃ a b, ops[i]? = some a ∧ ops[j]? = some b ∧ free a b = false := by
  induction ops using reverseRecOn with
  | nil => simp [ofOps,empty]
  | append_singleton ops op ih =>
    obtain ⟨hn,he⟩ := ih
    have hc : ofOps free (ops ++ [op]) = (ofOps free ops).append free op := foldl_concat ..
    refine ⟨by rw [hc,append,hn],fun i j => ?_⟩
    simp only [hc,append,mem_append,mem_map,mem_filter,Prod.exists]
    rcases lt_trichotomy j ops.length with hj | hj | hj <;> grind

/-! ## Orders -/
section
lemma mem_predecessors : i ∈ g.predecessors left j ↔ i ∈ left ∧ (i,j) ∈ g.edges := by simp [predecessors]
variable (hg : ∀ i j, (i,j) ∈ g.edges → i < j)
include hg
lemma root_spec (hj : j ∈ left) (hn : j ≤ n) : g.root left n j ∈ left ∧ ∀ i ∈ left, (i,g.root left n j) ∉ g.edges := by
  induction n generalizing j with
  | zero => exact ⟨hj,fun i _ hi => absurd (hg _ _ hi) (by rw [root]; omega)⟩
  | succ n ih =>
    unfold root
    split
    case h_1 hno => exact ⟨hj,fun i hi he => by simpa [hno] using mem_predecessors.mpr ⟨hi,he⟩⟩
    case h_2 i rest hs =>
      obtain ⟨hi,he⟩ := mem_predecessors.mp (hs ▸ mem_cons_self)
      have := hg i j he
      exact ih hi (by omega)
lemma order_spec (hl : left.Nodup) (hn : left.length = n) (hj : j ∈ left) :
    (g.order n left j).Perm left ∧ (g.order n left j).Pairwise fun i j => (j,i) ∉ g.edges := by
  induction n generalizing left j with
  | zero => simp [length_eq_zero_iff.mp hn] at hj
  | succ n ih =>
    obtain ⟨hro,hf⟩ := root_spec hg hj le_rfl
    rw [order]
    generalize g.root left j j = k at hro hf
    have hp : (k :: left.filter (· ≠ k)).Perm left := by
      have he : left.erase k = left.filter (· ≠ k) := (hl.erase_eq_filter k).trans (filter_congr fun _ _ => Bool.eq_iff_iff.mpr (by simp))
      exact he ▸ (perm_cons_erase hro).symm
    have hlen : (left.filter (· ≠ k)).length = n := by simpa [hn] using hp.length_eq
    have hc : ∀ {rest : List ℕ}, rest.Perm (left.filter (· ≠ k)) ∧ rest.Pairwise (fun i j => (j,i) ∉ g.edges) →
        (k :: rest).Perm left ∧ (k :: rest).Pairwise fun i j => (j,i) ∉ g.edges := fun hr =>
      ⟨(hr.1.cons k).trans hp,pairwise_cons.mpr ⟨fun i hi => hf i (mem_filter.mp (hr.1.mem_iff.mp hi)).1,hr.2⟩⟩
    have hne : ∀ {j}, j ∈ left.filter (· ≠ k) → _ := fun hj => hc (ih (hl.filter _) hlen hj)
    split
    case h_1 j hfi => exact hne (mem_of_find?_eq_some hfi)
    case h_2 =>
      split
      case h_1 hnil => exact hc ⟨hnil ▸ .refl _,.nil⟩
      case h_2 j rest hr => exact hne (hr ▸ mem_cons_self)
lemma orderedNodes_spec : g.orderedNodes.Perm (range g.nodes.length) ∧ g.orderedNodes.Pairwise fun i j => (j,i) ∉ g.edges := by
  unfold orderedNodes
  split
  case isTrue h => simp [isEmpty_iff.mp h]
  case isFalse h =>
    have hpos : 0 < g.nodes.length := length_pos_iff.mpr (by simpa using h)
    exact order_spec hg nodup_range length_range (mem_range.mpr hpos)
end

/-! ## Operations in order -/
section
variable [Located α]
def Linked (ops : List α) (i j : ℕ) : Prop :=
  i < j ∧ ∃ a b, ops[i]? = some a ∧ ops[j]? = some b ∧ ¬ (qubits a).Disjoint (qubits b)
lemma edges_ofCircuit (c : Circuit α) (i j) : (i,j) ∈ (ofCircuit c).edges ↔ Linked c.operations i j := by
  have hs : ∀ a b : α, areDisjoint a b = false ↔ ¬ (qubits a).Disjoint (qubits b) := by
    simp [areDisjoint,Moment.touches,List.Disjoint,and_comm]
  simp only [ofCircuit,(ofOps_spec _ _).2,hs,Linked]
lemma sameOrder_filterMap {ns : List ℕ} (hp : ns.Perm (range ops.length)) (hpa : ns.Pairwise fun i j => ¬ Linked ops j i) :
    SameOrder (ns.filterMap (ops[·]?)) ops := by
  have hall : (range ops.length).map (ops[·]?) = ops.map some := ext_getElem (by simp) (by simp)
  have hops : (range ops.length).filterMap (ops[·]?) = ops := by
    have hmap := filterMap_map (f := (ops[·]?)) (g := id) (l := range ops.length)
    rw [hall] at hmap
    simpa using hmap.symm
  refine ⟨(hp.filterMap _).trans (.of_eq hops),fun q => ?_⟩
  -- The nodes on a qubit stand in increasing order, as they do in the range.
  let on (i : ℕ) : Bool := (ops[i]?).any fun op => (qubits op).contains q
  have hw : ∀ l : List ℕ, onWire q (l.filterMap (ops[·]?)) = (l.filter on).filterMap (ops[·]?) := by
    intro l
    rw [onWire,filter_filterMap,filterMap_filter]
    refine filterMap_congr fun i _ => ?_
    cases h : ops[i]? <;> simp [on,h,Option.filter]
  have hon : ∀ {i}, i ∈ ns.filter on → ∃ a, ops[i]? = some a ∧ q ∈ qubits a := by
    intro i hi
    have hi := (mem_filter.mp hi).2
    cases h : ops[i]? with
    | none => simp [on,h] at hi
    | some a => exact ⟨a,rfl,by simpa [on,h] using hi⟩
  have hs : (ns.filter on).Pairwise (· < ·) := by
    refine ((hpa.and (hp.nodup_iff.mpr nodup_range)).filter on).imp_of_mem fun {i j} hi hj h => ?_
    obtain ⟨a,ha,hqa⟩ := hon hi
    obtain ⟨b,hb,hqb⟩ := hon hj
    exact lt_of_le_of_ne (not_lt.mp fun hlt => h.1 ⟨hlt,b,a,hb,ha,fun hd => hd hqb hqa⟩) h.2
  have hr : ((range ops.length).filter on).Pairwise (· < ·) := pairwise_lt_range.filter _
  conv_rhs => rw [← hops]
  rw [hw,hw,(hp.filter on).eq_of_pairwise (fun _ _ _ _ h h' => absurd h' (lt_asymm h)) hs hr]

/-- The number of steps to the start is greatest along the longest chain. -/
lemma isGreatest_chain {depth : ℕ → ℕ} (hr : ∀ i j, r i j → i < n ∧ depth i < depth j)
    (hb : ∀ j < n, ∀ k, depth j = k+1 → ∃ i, r i j ∧ depth i = k) (hj : j < n) :
    IsGreatest {l | ∃ chain : List ℕ, chain.IsChain r ∧ chain.getLast? = some j ∧ chain.length = l} (depth j + 1) := by
  constructor
  · generalize hk : depth j = k
    induction k generalizing j with
    | zero => exact ⟨[j],by simp⟩
    | succ k ih =>
      obtain ⟨i,hij,hi⟩ := hb j hj k hk
      obtain ⟨chain,hc,hl,hlen⟩ := ih (hr i j hij).1 hi
      exact ⟨chain ++ [j],isChain_append.mpr ⟨hc,isChain_singleton j,by simp [hl,hij]⟩,by simp,by simp [hlen]⟩
  · rintro l ⟨chain,hc,hl,rfl⟩
    induction chain using reverseRecOn generalizing j with
    | nil => simp at hl
    | append_singleton chain i ih =>
      obtain rfl : i = j := by simpa using hl
      obtain ⟨hc,-,hs⟩ := isChain_append.mp hc
      cases hp : chain.getLast? with
      | none => simp [getLast?_eq_none_iff.mp hp]
      | some k =>
        have hki := hr k i (hs k hp i rfl)
        have := ih hki.1 hc hp
        rw [length_append,length_singleton]
        omega

/-! ## Depths -/
lemma Linked.lt_length (h : Linked ops i j) : i < ops.length ∧ j < ops.length := by
  obtain ⟨-,a,b,ha,hb,-⟩ := h
  exact ⟨(List.getElem?_eq_some_iff.mp ha).1,(List.getElem?_eq_some_iff.mp hb).1⟩
lemma Linked.not_disjoint (h : Linked ops i j) (hi : i < ops.length) (hj : j < ops.length) :
    ¬ (qubits ops[i]).Disjoint (qubits ops[j]) := by
  obtain ⟨-,a,b,ha,hb,hm⟩ := h
  obtain ⟨_,rfl⟩ := List.getElem?_eq_some_iff.mp ha
  obtain ⟨_,rfl⟩ := List.getElem?_eq_some_iff.mp hb
  exact hm
def marked (ops : List α) (depth : ℕ → ℕ) (i : ℕ) : Option (α × Int) := (ops[i]?).map fun a => (a,(depth i : Int))
variable {placed : List (α × Int)} {depth : ℕ → ℕ} {ns : List ℕ}
omit [Located α] in
lemma exists_marked (hns : ns.Nodup) (hlt : ∀ i ∈ ns, i < ops.length) (hfst : placed.map Prod.fst = ns.filterMap (ops[·]?))
    (hpos : ∀ e ∈ placed, 0 ≤ e.2) : ∃ depth, placed = ns.filterMap (marked ops depth) := by
  induction ns generalizing placed with
  | nil => exact ⟨fun _ => 0,by simpa using hfst⟩
  | cons i ns ih =>
    obtain ⟨hi,hns⟩ := nodup_cons.mp hns
    obtain ⟨hlti,hlt⟩ := forall_mem_cons.mp hlt
    rw [filterMap_cons_some (getElem?_eq_getElem hlti)] at hfst
    obtain ⟨e,rest,rfl,he,hr⟩ := map_eq_cons_iff.mp hfst
    obtain ⟨hp,hpos⟩ := forall_mem_cons.mp hpos
    obtain ⟨depth,rfl⟩ := ih hns hlt hr hpos
    refine ⟨Function.update depth i e.2.toNat,?_⟩
    have hs : ns.filterMap (marked ops (Function.update depth i e.2.toNat)) = ns.filterMap (marked ops depth) :=
      filterMap_congr fun j hj => by
        have hne : j ≠ i := fun hji => hi (hji ▸ hj)
        simp [marked,hne]
    have hf : marked ops (Function.update depth i e.2.toNat) i = some e := by
      simp [marked,hlti,← he,Int.toNat_of_nonneg hp]
    rw [filterMap_cons_some hf,hs]
omit [Located α] in
lemma newAt_marked (ns : List ℕ) (k : ℕ) :
    newAt (ns.filterMap (marked ops depth)) k = (ns.filter (depth · = k)).filterMap (ops[·]?) := by
  rw [newAt,filter_filterMap,map_filterMap,filterMap_filter]
  refine filterMap_congr fun i _ => ?_
  cases h : ops[i]? <;> by_cases hk : depth i = k <;> simp [marked,h,Option.filter]

/-- Operations that each stand right after the last one that they share a qubit with stand as deep as the longest chains that
lead to them. -/
lemma isGreatest_depth (hp : ns.Perm (range ops.length)) (hpa : ns.Pairwise fun i j => ¬ Linked ops j i)
    (haf : ∀ pre e post, ns.filterMap (marked ops depth) = pre ++ e :: post →
      After pre (fun o => ¬ (qubits o).Disjoint (qubits e.1)) e.2) (hj : j < ops.length) :
    IsGreatest {l | ∃ chain : List ℕ, chain.IsChain (Linked ops) ∧ chain.getLast? = some j ∧ chain.length = l} (depth j + 1) := by
  have hs : ∀ j hj, ∃ ps ss, ns = ps ++ j :: ss ∧
      After (ps.filterMap (marked ops depth)) (fun o => ¬ (qubits o).Disjoint (qubits ops[j])) (depth j) := by
    intro j hj
    obtain ⟨ps,ss,rfl⟩ := append_of_mem (hp.mem_iff.mpr (mem_range.mpr hj))
    have hm : marked ops depth j = some (ops[j],(depth j : Int)) := by simp [marked]
    exact ⟨ps,ss,rfl,haf _ _ _ (by rw [filterMap_append,filterMap_cons_some hm])⟩
  have hb : ∀ {i j ps ss}, ns = ps ++ j :: ss → i ∈ ps → i ≠ j ∧ ¬ Linked ops j i := by
    rintro i j ps ss rfl hi
    have hc := (pairwise_append.mp (hpa.and (hp.nodup_iff.mpr nodup_range))).2.2 i hi j mem_cons_self
    exact ⟨hc.2,hc.1⟩
  refine isGreatest_chain (fun i j hij => ⟨hij.lt_length.1,?_⟩) (fun j hj k hk => ?_) hj
  · obtain ⟨hi,hj⟩ := hij.lt_length
    obtain ⟨ps,ss,hns,⟨-,hlt⟩,-⟩ := hs j hj
    have hmem : i ∈ ps := by
      have hin : i ∈ ps ++ j :: ss := hns ▸ hp.mem_iff.mpr (mem_range.mpr hi)
      rcases mem_append.mp hin with hin | hin
      · exact hin
      · rcases mem_cons.mp hin with rfl | hin
        · exact absurd hij.1 (lt_irrefl _)
        · have hc := (pairwise_cons.mp (pairwise_append.mp (hns ▸ hpa)).2.1).1 i hin
          exact absurd hij hc
    have := hlt (ops[i],depth i) (mem_filterMap.mpr ⟨i,hmem,by simp [marked]⟩) (hij.not_disjoint hi hj)
    omega
  · obtain ⟨ps,ss,hns,⟨-,hlt⟩,hle⟩ := hs j hj
    have hl : ¬ ∀ e ∈ ps.filterMap (marked ops depth), ¬ (qubits e.1).Disjoint (qubits ops[j]) → e.2 < k := fun hall => by
      have := hle ⟨by omega,hall⟩
      omega
    push Not at hl
    obtain ⟨e,he,hme,hke⟩ := hl
    have hek := hlt e he hme
    obtain ⟨i,hi,hm⟩ := mem_filterMap.mp he
    obtain ⟨a,ha,rfl⟩ := Option.map_eq_some_iff.mp hm
    obtain ⟨hne,hnot⟩ := hb hns hi
    refine ⟨i,⟨lt_of_le_of_ne (not_lt.mp fun hlt => hnot ⟨hlt,_,a,getElem?_eq_getElem hj,ha,fun h => hme h.symm⟩) hne,a,_,ha,
      getElem?_eq_getElem hj,hme⟩,by omega⟩
theorem toCircuit_ofCircuit (c : Circuit α) (hc : ∀ m ∈ c.moments, OverlapFree m) :
    (∀ i j, (i,j) ∈ (ofCircuit c).edges ↔ Linked c.operations i j) ∧
    (ofCircuit c).orderedNodes.Perm (range c.operations.length) ∧
    (ofCircuit c).orderedNodes.Pairwise (fun i j => (j,i) ∉ (ofCircuit c).edges) ∧
    ∃ (d : Circuit α) (depth : ℕ → ℕ), (ofCircuit c).toCircuit .none = .ok d ∧ SameOrder d.operations c.operations ∧
      (∀ i < c.operations.length, depth i < d.size ∧
        IsGreatest {l | ∃ chain : List ℕ, chain.IsChain (Linked c.operations) ∧ chain.getLast? = some i ∧ chain.length = l} (depth i + 1)) ∧
      ∀ k, d.moments[k]? =
        if k < d.size then some ⟨((ofCircuit c).orderedNodes.filter (depth · = k)).filterMap (c.operations[·]?)⟩ else none := by
  have hlinked := edges_ofCircuit c
  have hnodes : (ofCircuit c).nodes = c.operations := (ofOps_spec _ _).1
  have hops : (ofCircuit c).operations = (ofCircuit c).orderedNodes.filterMap (c.operations[·]?) := by rw [operations,hnodes]
  obtain ⟨hperm,hpair⟩ := orderedNodes_spec fun i j h => ((hlinked i j).mp h).1
  rw [hnodes] at hperm
  refine ⟨hlinked,hperm,hpair,?_⟩
  simp only [hlinked] at hpair
  generalize (ofCircuit c).orderedNodes = ns at *
  have hsame := sameOrder_filterMap hperm hpair
  have hnodup : ∀ op ∈ (ofCircuit c).operations, (qubits op).Nodup := by
    intro op hop
    obtain ⟨m,hm,hop⟩ := mem_flatMap.mp (hsame.perm.mem_iff.mp (hops ▸ hop))
    exact (overlapFree_iff.mp (hc m hm)).1 op hop
  obtain ⟨n,hstacked,hpacking⟩ := ofOps_stacked hnodup
  obtain ⟨d,hd,-,horder⟩ := Insertion.ofOps_order hnodup
  obtain rfl : d = _ := Except.ok.inj (hd.symm.trans hstacked)
  have hsize : (stacked (levels (fun _ => 0) (ofCircuit c).operations) n).size = n := by simp [stacked,Circuit.size]
  have hfst := (levels_fst (fun _ => 0) (ofCircuit c).operations).trans hops
  obtain ⟨depth,hmarked⟩ := exists_marked (hperm.nodup_iff.mpr nodup_range) (fun i hi => mem_range.mp (hperm.mem_iff.mp hi)) hfst hpacking.pos
  refine ⟨_,depth,hstacked,horder.trans ((SameOrder.of_eq hops).trans hsame),fun i hi => ⟨?_,?_⟩,fun k => ?_⟩
  · have hmem : (c.operations[i],(depth i : Int)) ∈ levels (fun _ => 0) (ofCircuit c).operations := by
      rw [hmarked]
      exact mem_filterMap.mpr ⟨i,hperm.mem_iff.mpr (mem_range.mpr hi),by simp [marked,hi]⟩
    have := hpacking.size.1.2 _ hmem trivial
    rw [hsize]
    exact Int.ofNat_lt.mp this
  · refine isGreatest_depth hperm hpair (fun pre e post heq => ?_) hi
    simpa using after_of_levels packing_nil hnodup (hmarked.trans heq)
  · rw [hsize,getElem?_stacked,hmarked,newAt_marked]
end
def spread : OpCircuit Number := ⟨threeGates.map fun op => ⟨[op]⟩⟩
theorem spread_packed : (∀ m ∈ spread.moments, OverlapFree m) ∧
    ∃ d, (ofCircuit spread).toCircuit .none = .ok d ∧ SameOrder d.operations threeGates := by
  have hfree : ∀ m ∈ spread.moments, OverlapFree m := by simp [spread,threeGates,OverlapFree,Moment.allQubits]
  obtain ⟨-,-,-,d,-,hd,horder,-⟩ := toCircuit_ofCircuit spread hfree
  exact ⟨hfree,d,hd,horder⟩
end QuantumCircuits.OperationGraphs
