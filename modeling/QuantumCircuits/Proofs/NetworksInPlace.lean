import QuantumCircuits.Proofs.SwapNetwork
import QuantumCircuits.Proofs.Replacing

/-! # Networks in place of opportunities

Moments of opportunities are replaced by swap networks on the groups that meet there. Each group stands together in the
order of the qubits or in the reversed one, so that there is such a network, and in it every group meets every other
qubit.
-/
namespace QuantumCircuits.NetworksInPlace
open Gate hiding ofStep
open List hiding getElem?_eq_some_iff isEmpty_iff product
open Acquaintance Network NetworkMoves SwapNetwork Courses Course WireOrder Replacing NetworkMeetings Decompositions Conversion
variable [RealScalar R] {steps : Steps Qubit} {ops : Ops R} {m : OpMoment R} {ms : List (OpMoment R)}
def effect (op : Operation R) : Course Qubit := match op.gate? with
  | some (.opportunity _) => ofStep (.acquaint op.qubits)
  | some (.permutation p _) => ofStep (.permute p op.qubits)
  | _ => 1
variable (st : NetworkStep Qubit)
abbrev stepOp (st : NetworkStep Qubit) : Operation R := operationOf SWAP st
def sites : NetworkStep Qubit → Qubits
  | .acquaint as => as
  | .permute _ qs => qs
lemma effect_stepOp : effect (stepOp st : Operation R) = ofStep st := by cases st <;> rfl
lemma product_effect_map (steps) : product effect (steps.map (stepOp (R := R))) = course steps := by
  rw [course,product,product,map_map]
  exact congrArg prod (map_congr_left fun st _ => effect_stepOp st)
section
variable {order : Qubits} {size : Nat} {st}
lemma Proper.within_sites (h : Proper order size st) : Within (sites st) (ofStep st) := by
  cases h with
  | @meet as hs hrow =>
    refine ⟨fun S hS x hx => ?_,fun _ _ => rfl⟩
    obtain rfl := Multiset.mem_singleton.mp hS
    exact mem_toFinset.mp hx
  | move hp hsub => exact hp.within
lemma Proper.sites_ok (h : Proper order size st) (hord : order.Nodup) (hs : 1 ≤ size) :
    sites st ≠ [] ∧ (sites st).Nodup ∧ ∀ q ∈ sites st, q ∈ order := by
  cases h with
  | @meet as hlen hrow =>
    refine ⟨?_,hord.sublist hrow.sublist,fun q hq => hrow.subset hq⟩
    exact length_pos_iff.mp (hlen ▸ hs)
  | move hp hsub => exact ⟨hp.nonempty,hp.nodup,fun q hq => hsub hq⟩

/-- The operation is one of a strategy, or a swap network that comes down to such; the list is what it comes down to. -/
inductive Exposed (order : Qubits) (size : Nat) : Operation R → Steps Qubit → Prop
  | kept {st : NetworkStep Qubit} (h : Proper order size st) : Exposed order size (stepOp st) [st]
  | network {lens : List Nat} {steps : Steps Qubit} (hlens : 0 < size ∧ size-1 ∈ lens)
    (hsteps : swapNetworkSteps lens (some size) order = .ok steps) (hproper : ∀ st ∈ steps, Proper order size st)
    (hlength : steps.length ≠ 1) :
    Exposed order size (.gate (.permutation (.swapNetwork lens (some size)) SWAP) order) steps
def partsOf (op : Operation R) : Ops R := match exposing ⟨[]⟩ 0 op with
  | .ok (some r) => r.ops
  | _ => [op]
lemma keep_stepOp (h : Proper order size st) :
    ((stepOp st : Operation R).acquaintedSize == 0 || (stepOp st : Operation R).isOpportunity) := by
  cases h with
  | meet => exact Bool.or_true _
  | @move p qs hp hsub =>
    have hq : (stepOp (.permute p qs) : Operation R).acquaintedSize = 0 := hp.quiet
    rw [hq]
    rfl
lemma exposing_kept (h : Proper order size st) (c : OpCircuit R) (i) : exposing c i (stepOp st) = .ok none := by
  have hk := keep_stepOp (R := R) h
  simp only [exposing,expandAll,unlessEqual,unlessKept,hk]
  rfl
lemma exposing_network {lens} (hl : 0 < size ∧ size-1 ∈ lens)
    (hsp : swapNetworkSteps lens (some size) order = .ok steps) (hp : ∀ st ∈ steps, Proper order size st)
    (hlen : steps.length ≠ 1) (c : OpCircuit R) (i) :
    exposing c i (.gate (.permutation (.swapNetwork lens (some size)) SWAP) order) = .ok (some ⟨1,order,steps.map stepOp⟩) := by
  let op : Operation R := .gate (.permutation (.swapNetwork lens (some size)) SWAP) order
  have hsi : op.acquaintedSize = size := by
    change (if 0 < size ∧ lens.contains (size-1) then size else 0) = size
    rw [if_pos ⟨hl.1,contains_iff_mem.mpr hl.2⟩]
  have hk : (op.acquaintedSize == 0 || op.isOpportunity) = false := by
    rw [beq_false_of_ne (by omega)]
    rfl
  have hs : op.decomposeOnce? = .ok (some (steps.map stepOp)) := decomposeOnce?_permute SWAP (by simp) hsp
  have he : Expander.expand { Operation.expander with keep := fun op : Operation R => op.acquaintedSize == 0 || op.isOpportunity }
      [op] = .ok (steps.map stepOp) := by
    have hkeep : ∀ b ∈ steps.map (stepOp (R := R)), (b.acquaintedSize == 0 || b.isOpportunity) :=
      forall_mem_map.mpr fun st hst => keep_stepOp (hp st hst)
    exact expand_once hk hs hkeep
  have hd : (steps.map stepOp == [op]) = false := by
    refine Bool.eq_false_iff.mpr fun h => hlen ?_
    simpa using length_eq_of_beq h
  have hs' : Operation.expander.step op = .ok (some (steps.map stepOp)) := hs
  change unlessEqual _ c i op = _
  simp only [unlessEqual,unlessKept,hk,he,hs',bind,Except.bind]
  simp [hd]
  rfl
variable {op : Operation R}
section
variable (h : Exposed order size op steps)
include h
lemma Exposed.answer (c : OpCircuit R) (i) :
    exposing c i op = .ok none ∧ steps.map stepOp = [op] ∨ exposing c i op = .ok (some ⟨1,op.qubits,steps.map stepOp⟩) := by
  cases h with
  | kept h => exact .inl ⟨exposing_kept h c i,rfl⟩
  | network hl hs hp hlen => exact .inr (exposing_network hl hs hp hlen c i)
lemma Exposed.partsOf_eq : partsOf op = steps.map stepOp := by
  rcases h.answer ⟨[]⟩ 0 with ⟨hn,hp⟩ | hs
  · rw [partsOf,hn,hp]
  · rw [partsOf,hs]
lemma Exposed.proper : ∀ st ∈ steps, Proper order size st := by
  cases h with
  | kept h => simpa using h
  | network _ _ hp _ => exact hp
end
variable [OperationText R]
lemma qubits_stepOp (st) : qubits (stepOp st : Operation R) = sites st := by cases st <;> rfl
lemma answers_stateless {α : Type} (f : α → List α) (ops : List α) :
    answers (fun _ op => (f op,())) () ops = (ops.flatMap f,()) := by
  induction ops using reverseRecOn with
  | nil => rfl
  | append_singleton ops op ih => rw [answers_concat,ih]; simp
structure Strategic (order : Qubits) (size : Nat) (c : OpCircuit R) : Prop where
  overlapFree : Legal c
  proper : ∀ op ∈ c.operations, ∃ st, Proper order size st ∧ op = stepOp st
def courseOf (c : OpCircuit R) : Course Qubit := product effect c.operations
variable {c : OpCircuit R}
lemma courseOf_eq (hc : Strategic order size c) (h : SameOrder c.operations ops) : courseOf c = product effect ops := by
  refine h.product_eq_of_mem fun a ha b hb hd => ?_
  obtain ⟨st,hst,rfl⟩ := hc.proper a ha
  obtain ⟨st',hst',rfl⟩ := hc.proper b hb
  rw [qubits_stepOp,qubits_stepOp] at hd
  rw [effect_stepOp,effect_stepOp]
  exact (Proper.within_sites hst).commute (Proper.within_sites hst') hd
section
variable (hord : order.Nodup) (hs : 1 ≤ size) (hne : order ≠ [])
include hord hs hne
lemma Exposed.qubits_ok (h : Exposed order size op steps) :
    qubits op ≠ [] ∧ ∀ st ∈ steps, ∀ q ∈ sites st, q ∈ qubits op := by
  cases h with
  | @kept st h =>
    rw [qubits_stepOp]
    refine ⟨(Proper.sites_ok h hord hs).1,fun st' hst' => ?_⟩
    obtain rfl := mem_singleton.mp hst'
    exact fun q hq => hq
  | network _ _ hp _ => exact ⟨hne,fun st hst => (Proper.sites_ok (hp st hst) hord hs).2.2⟩
lemma answersBy_exposing : AnswersBy (exposing : Replacer (Operation R)).stateless (fun _ op => (partsOf op,())) (fun _ => True)
      fun op => ∃ steps, Exposed order size op steps where
  answer := by
    rintro _ c i op - ⟨steps,h⟩
    rw [h.partsOf_eq]
    rcases h.answer c i with ⟨hn,hp⟩ | hso
    · refine .inl ⟨?_,hp⟩
      rw [Replacer.stateless,hn]
      rfl
    · right
      rw [Replacer.stateless,hso]
      rfl
  keeps := fun _ _ _ _ => trivial
  focus := by
    rintro op ⟨steps,h⟩
    exact (h.qubits_ok hord hs hne).1
  new := by
    rintro _ op - ⟨steps,h⟩ o ho
    rw [h.partsOf_eq] at ho
    obtain ⟨st,hst,rfl⟩ := mem_map.mp ho
    have hok := Proper.sites_ok (h.proper st hst) hord hs
    rw [qubits_stepOp]
    exact ⟨hok.1,hok.2.1,(h.qubits_ok hord hs hne).2 st hst⟩
lemma Exposed.within (h : Exposed order size op steps) : Within (qubits op) (product effect (partsOf op)) := by
  rw [h.partsOf_eq,product_effect_map]
  refine within_course fun st hst => ?_
  exact (Proper.within_sites (h.proper st hst)).mono ((h.qubits_ok hord hs hne).2 st hst)

/-- Exposing a strategy puts the steps of its swap networks in their places. -/
lemma exposing_run (hc : Legal c) (hops : ∀ op ∈ c.operations, ∃ steps, Exposed order size op steps) :
    ∃ d, exposing.run c = (d,.ok ()) ∧ Strategic order size d ∧
      courseOf d = product (fun op => product effect (partsOf op)) c.operations := by
  obtain ⟨d,offered,hrun,hf,hof,haf⟩ := (answersBy_exposing hord hs hne).run (s := ()) trivial hc hops
  rw [answers_stateless] at haf
  have hp : ∀ op ∈ offered.flatMap partsOf, ∃ st, Proper order size st ∧ op = stepOp (R := R) st := by
    intro o ho
    obtain ⟨op,hop,ho⟩ := mem_flatMap.mp ho
    obtain ⟨steps,h⟩ := hops op (hof.perm.mem_iff.mpr hop)
    rw [h.partsOf_eq] at ho
    obtain ⟨st,hst,rfl⟩ := mem_map.mp ho
    exact ⟨st,h.proper st hst,rfl⟩
  have hd : Strategic order size d := ⟨hf,fun op hop => hp op (haf.perm.mem_iff.mp hop)⟩
  refine ⟨d,hrun,hd,?_⟩
  rw [courseOf_eq hd haf,product_flatMap]
  refine (hof.product_eq_of_mem fun a ha b hb hdi => ?_).symm
  obtain ⟨steps,ha⟩ := hops a ha
  obtain ⟨steps',hb⟩ := hops b hb
  exact (ha.within hord hs hne).commute (hb.within hord hs hne) hdi
end
end
variable [OperationText R]
section
variable {order : Qubits}
lemma pairwise_mergeSort_key {α β : Type} [LinearOrder β] (key : α → β) (l : List α) :
    (l.mergeSort fun a b => decide (key a ≤ key b)).Pairwise fun a b => key a ≤ key b :=
  pairwise_mergeSort' (Order.Preimage key (· ≤ ·)) l
structure Row (order row : Qubits) (s : Nat) : Prop where
  nonempty : row ≠ []
  subset : row ⊆ order
  places : row.map (fun q => order.idxOf q) = List.range' s row.length
variable {row row' : Qubits} {s t : Nat}
namespace Row
variable (h : Row order row s)
include h
lemma sorted : row.Pairwise fun a b => order.idxOf a < order.idxOf b := by
  have hs : (row.map fun q => order.idxOf q).Pairwise (· < ·) := by
    rw [h.places]
    exact pairwise_lt_range'
  exact pairwise_map.mp hs
lemma mem_iff (x) : x ∈ row ↔ s ≤ order.idxOf x ∧ order.idxOf x < s+row.length := by
  rw [← mem_range'_1,← h.places,mem_map]
  constructor
  · exact fun hmem => ⟨x,hmem,rfl⟩
  · rintro ⟨y,hy,hp⟩
    rwa [← (idxOf_inj (h.subset hy)).mp hp]
lemma first : (row.map fun q => order.idxOf q).foldl min order.length = s := by
  have hmin : ∀ n s a, (range' s (n+1)).foldl min a = min a s := by
    intro n
    induction n with
    | zero => exact fun s a => rfl
    | succ n ih =>
      intro s a
      rw [range'_succ,foldl_cons,ih]
      omega
  obtain ⟨n,hn⟩ := Nat.exists_eq_add_of_le' (length_pos_iff.mpr h.nonempty)
  obtain ⟨x,hx⟩ := exists_mem_of_ne_nil _ h.nonempty
  have hlt := idxOf_lt_length_of_mem (h.subset hx)
  have hle := ((h.mem_iff x).mp hx).1
  rw [h.places,hn,hmin]
  omega

/-- Of two rows without a common qubit the one that begins first comes before the other. -/
lemma before (h' : Row order row' t) (hd : row.Disjoint row') (hst : s ≤ t) :
    ∀ x ∈ row, ∀ y ∈ row', order.idxOf x < order.idxOf y := by
  intro x hx y hy
  have hb := (h.mem_iff x).mp hx
  have hb' := (h'.mem_iff y).mp hy
  by_contra hnot
  exact hd ((h.mem_iff y).mpr ⟨by omega,by omega⟩) hy
lemma mergeSort_eq {g : Qubits} (hg : g.Perm row) : (g.mergeSort fun a b => decide (order.idxOf a ≤ order.idxOf b)) = row := by
  have hp : (g.mergeSort fun a b => decide (order.idxOf a ≤ order.idxOf b)).Perm row := (mergeSort_perm _ _).trans hg
  refine hp.eq_of_pairwise (fun a b ha _ hab hba => ?_) (pairwise_mergeSort_key order.idxOf g)
    (h.sorted.imp Nat.le_of_lt)
  exact (idxOf_inj (h.subset (hp.mem_iff.mp ha))).mp (Nat.le_antisymm hab hba)
end Row
def byFirst (order : Qubits) (pieces : List Qubits) : List Qubits :=
  pieces.mergeSort fun a b => decide ((a.map fun q => order.idxOf q).foldl min order.length ≤
    (b.map fun q => order.idxOf q).foldl min order.length)
abbrev sortedGroup (order g : List Qubit) : List Qubit := g.mergeSort fun a b => decide (order.idxOf a ≤ order.idxOf b)
def piecesOf (order : Qubits) (groups : List Qubits) : List Qubits :=
  (((Qubit.distinct order).filter fun q => !groups.any (·.contains q)).map fun q => [q]) ++ groups
variable (hord : order.Nodup)
include hord
lemma exists_row (hrow : row <:+: order) (hne : row ≠ []) : ∃ s, Row order row s := by
  have hsub := hrow.subset
  obtain ⟨us,vs,rfl⟩ := hrow
  refine ⟨us.length,hne,hsub,ext_getElem (by simp) fun i hi _ => ?_⟩
  rw [length_map] at hi
  have hp : (us ++ row ++ vs)[us.length+i]? = some row[i] := by
    rw [append_assoc,getElem?_append_right (by omega),Nat.add_sub_cancel_left,getElem?_append_left hi,getElem?_eq_getElem hi]
  obtain ⟨hlt,hget⟩ := getElem?_eq_some_iff.mp hp
  rw [getElem_map,getElem_range',← hget,hord.idxOf_getElem,Nat.one_mul]
lemma pairwise_order : order.Pairwise fun a b => order.idxOf a < order.idxOf b := by
  have hs : (order.map fun q => order.idxOf q).Pairwise (· < ·) := by
    rw [map_idxOf hord]
    exact pairwise_lt_range
  exact pairwise_map.mp hs
lemma flatten_sorted {pieces} (hr : ∀ p ∈ pieces, ∃ s, Row order p s)
    (hd : pieces.Pairwise Disjoint) (hc : ∀ q ∈ order, ∃ p ∈ pieces, q ∈ p) :
    (byFirst order pieces).flatten = order := by
  have hpe : (byFirst order pieces).Perm pieces := mergeSort_perm _ _
  have hs := pairwise_mergeSort_key (fun p : Qubits => (p.map fun q => order.idxOf q).foldl min order.length) pieces
  change (byFirst order pieces).Pairwise _ at hs
  generalize byFirst order pieces = parts at hpe hs ⊢
  have hr' : ∀ p ∈ parts, ∃ s, Row order p s := fun p hp => hr p (hpe.mem_iff.mp hp)
  have hd' : parts.Pairwise Disjoint := (hpe.pairwise_iff fun h => List.Disjoint.symm h).mpr hd
  -- the rows one after the other and the order are both sorted by the places in the order
  have hpl : parts.flatten.Pairwise fun a b => order.idxOf a < order.idxOf b := by
    refine pairwise_flatten.mpr ⟨fun p hp => ?_,?_⟩
    · obtain ⟨s,h⟩ := hr' p hp
      exact h.sorted
    · refine (hs.and hd').imp_of_mem fun {p p'} hp hp' hb => ?_
      obtain ⟨s,h⟩ := hr' p hp
      obtain ⟨t,h'⟩ := hr' p' hp'
      have hst := hb.1
      rw [h.first,h'.first] at hst
      exact h.before h' hb.2 hst
  have hall : parts.flatten.Perm order := by
    refine (perm_ext_iff_of_nodup ?_ hord).mpr fun q => ⟨fun hq => ?_,fun hq => ?_⟩
    · refine nodup_iff_pairwise_ne.mpr (hpl.imp ?_)
      intro a b hlt heq
      rw [heq] at hlt
      exact Nat.lt_irrefl _ hlt
    · obtain ⟨p,hp,hq⟩ := mem_flatten.mp hq
      obtain ⟨s,h⟩ := hr' p hp
      exact h.subset hq
    · obtain ⟨p,hp,hq⟩ := hc q hq
      exact mem_flatten.mpr ⟨p,hpe.mem_iff.mpr hp,hq⟩
  exact hall.eq_of_pairwise (fun a b _ _ hab hba => absurd hab (Nat.lt_asymm hba)) hpl (pairwise_order hord)
lemma distinct_eq : Qubit.distinct order = order := by
  rw [FrontierInsertion.distinct_eq_dedup,(nodup_reverse.mpr hord).dedup,reverse_reverse]
variable {groups : List Qubits}
lemma mem_alone {p} :
    p ∈ (((Qubit.distinct order).filter fun q => !groups.any (·.contains q)).map fun q => [q]) ↔
      ∃ q ∈ order, (∀ g ∈ groups, q ∉ g) ∧ p = [q] := by
  rw [distinct_eq hord,mem_map]
  constructor
  · rintro ⟨q,hq,rfl⟩
    obtain ⟨hq,hn⟩ := mem_filter.mp hq
    exact ⟨q,hq,by simpa using hn,rfl⟩
  · rintro ⟨q,hq,hn,rfl⟩
    exact ⟨q,mem_filter.mpr ⟨hq,by simpa using hn⟩,rfl⟩

/-- Groups that form rows without common qubits make up the order, with the other qubits on their own. -/
lemma flatten_pieces (hr : ∀ g ∈ groups, ∃ s, Row order g s) (hd : groups.Pairwise Disjoint) :
    (byFirst order (piecesOf order groups)).flatten = order := by
  refine flatten_sorted hord (fun p hp => ?_) ?_ fun q hq => ?_
  · rcases mem_append.mp hp with hp | hp
    · obtain ⟨q,hq,-,rfl⟩ := (mem_alone hord).mp hp
      exact ⟨order.idxOf q,by simp,by simpa using hq,rfl⟩
    · exact hr p hp
  · refine pairwise_append.mpr ⟨?_,hd,fun p hp g hg => ?_⟩
    · rw [distinct_eq hord]
      refine pairwise_map.mpr ((nodup_iff_pairwise_ne.mp (hord.filter _)).imp fun hne => ?_)
      exact fun x hx hx' => hne ((mem_singleton.mp hx).symm.trans (mem_singleton.mp hx'))
    · obtain ⟨q,-,hn,rfl⟩ := (mem_alone hord).mp hp
      simpa using hn g hg
  · by_cases hgr : ∃ g ∈ groups, q ∈ g
    · obtain ⟨g,hg,hqg⟩ := hgr
      exact ⟨g,mem_append_right _ hg,hqg⟩
    · refine ⟨[q],mem_append_left _ ((mem_alone hord).mpr ⟨q,hq,fun g hg hqg => hgr ⟨g,hg,hqg⟩,rfl⟩),?_⟩
      exact mem_singleton_self q
lemma partLengths_eq (hfr : OverlapFree ⟨ops⟩)
    (hr : ∀ op ∈ ops, op.qubits ≠ [] ∧ ∃ row, op.qubits.Perm row ∧ row <:+: order) :
    ∃ parts : List Qubits, partLengths order ops = .ok (parts.map length) ∧ parts.flatten = order ∧
      (∀ part ∈ parts, part.length = 1 ∨ ∃ op ∈ ops, op.qubits.Perm part) ∧
      ∀ op ∈ ops, ∃ part ∈ parts, op.qubits.Perm part := by
  have hgr : ∀ op ∈ ops, (∃ s, Row order (sortedGroup order op.qubits) s) ∧ op.qubits.Perm (sortedGroup order op.qubits) := by
    intro op hop
    obtain ⟨hne,row,hp,hrow⟩ := hr op hop
    obtain ⟨s,h⟩ := exists_row hord hrow fun hnil => hne (hnil ▸ hp).eq_nil
    have hso : sortedGroup order op.qubits = row := h.mergeSort_eq hp
    exact ⟨⟨s,hso ▸ h⟩,(mergeSort_perm _ _).symm⟩
  let groups := (ops.map (·.qubits)).map (sortedGroup order)
  have hmem : ∀ g, g ∈ groups ↔ ∃ op ∈ ops, sortedGroup order op.qubits = g := by simp [groups]
  have hf : (byFirst order (piecesOf order groups)).flatten = order := by
    refine flatten_pieces hord (fun g hg => ?_) ?_
    · obtain ⟨op,hop,rfl⟩ := (hmem g).mp hg
      exact (hgr op hop).1
    · refine pairwise_map.mpr (pairwise_map.mpr ((overlapFree_iff.mp hfr).2.imp fun h => ?_))
      exact fun q hq hq' => h (mem_mergeSort.mp hq) (mem_mergeSort.mp hq')
  have hp : (byFirst order (piecesOf order groups)).Perm (piecesOf order groups) := mergeSort_perm _ _
  have hc : ((ops.map (·.qubits)).all fun g => g.all order.contains) := by
    simp only [all_map,all_eq_true,Function.comp_apply,contains_iff_mem]
    intro op hop q hq
    obtain ⟨-,row,hp,hrow⟩ := hr op hop
    exact hrow.subset (hp.mem_iff.mp hq)
  refine ⟨_,?_,hf,fun part hpa => ?_,fun op hop => ?_⟩
  · have hs : ((byFirst order (piecesOf order groups)).flatten != order) = false := by
      rw [hf]
      exact bne_self_eq_false order
    simp only [partLengths,hc]
    change (if ((byFirst order (piecesOf order groups)).flatten != order) then _ else _) = _
    rw [if_neg (Bool.eq_false_iff.mp hs)]
    rfl
  · rcases mem_append.mp (hp.mem_iff.mp hpa) with hpa | hpa
    · obtain ⟨q,-,-,rfl⟩ := (mem_alone hord).mp hpa
      exact .inl rfl
    · obtain ⟨op,hop,rfl⟩ := (hmem part).mp hpa
      exact .inr ⟨op,hop,(hgr op hop).2⟩
  · refine ⟨sortedGroup order op.qubits,hp.mem_iff.mpr (mem_append_right _ ?_),(hgr op hop).2⟩
    exact (hmem _).mpr ⟨op,hop,rfl⟩
end
section
variable {order : Qubits}
lemma cut_lengths (parts : List (List α)) : cut (parts.map length) parts.flatten = parts := by
  induction parts with
  | nil => rfl
  | cons part parts ih => rw [map_cons,flatten_cons,cut,take_left,drop_left,ih]
structure Gathering (order : Qubits) (k : Nat) (ops : Ops R) : Prop where
  nonempty : ops ≠ []
  overlapFree : OverlapFree ⟨ops⟩
  size : ∀ op ∈ ops, op.qubits.length = k
  rows : ∀ op ∈ ops, ∃ row, op.qubits.Perm row ∧ row <:+: order
variable {qs : Qubits}
omit [RealScalar R] in
lemma on_permutation {p} (hne : qs ≠ []) (hs : p.numQubits = qs.length) (swap : Gate R) :
    (permutation p swap).on qs = .ok (.gate (.permutation p swap) qs) := by
  have he : qs.isEmpty = false := by simpa using hne
  have hc : (permutation p swap).checkQubits true qs = .ok () := by simp [checkQubits,numQubits,he,hs]
  simp only [on,hc]
  rfl
omit [RealScalar R] in
lemma on_opportunity (hne : qs ≠ []) : (opportunity qs.length : Gate R).on qs = .ok (.gate (.opportunity qs.length) qs) := by
  have he : qs.isEmpty = false := by simpa using hne
  have hc : (opportunity qs.length : Gate R).checkQubits true qs = .ok () := by simp [checkQubits,numQubits,he]
  simp only [on,hc]
  rfl
abbrev Reverses (ρ : Equiv.Perm Qubit) (order : List Qubit) : Prop := Acts ρ order fun p => order.length-1-p
lemma reversal_ne_one {τ} (hord : order.Nodup) (hla : 1 < order.length) (h : Reverses τ order) : τ ≠ 1 := by
  rintro rfl
  have hf := getElem?_eq_getElem (show 0 < order.length by omega)
  have hl : order[order.length-1-0]? = some order[0] := h.1 0 _ hf
  have hp := (getElem?_inj (by omega) hord).mp (hl.trans hf.symm)
  omega
lemma length_ne_one {S} (hm : S ∈ (course steps).meets) (hmo : (course steps).moves ≠ 1) : steps.length ≠ 1 := by
  intro hlen
  obtain ⟨st,rfl⟩ := length_eq_one_iff.mp hlen
  cases st with
  | acquaint as => exact hmo rfl
  | permute p qs => exact absurd hm (Multiset.notMem_zero S)

/-- The network on groups that meet: each of them meets every other qubit in it. -/
lemma networkOf_exposed (hord : order.Nodup) (hk : 1 ≤ k) (hla : k+1 < order.length) (h : Gathering order k ops) :
    ∃ op steps, networkOf order (some (k+1)) ops = .ok op ∧ Exposed order (k+1) op steps ∧ qubits op = order ∧
      Reverses (course steps).moves order ∧
      ∀ o ∈ ops, ∀ x ∈ order, x ∉ o.qubits → insert x o.qubits.toFinset ∈ (course steps).meets := by
  obtain ⟨parts,hpt,hf,hpr,hops⟩ := partLengths_eq hord h.overlapFree fun op hop =>
    ⟨length_pos_iff.mp (h.size op hop ▸ hk),h.rows op hop⟩
  have hlen : ∀ n ∈ parts.map length, 1 ≤ n ∧ n < k+1 := by
    intro n hn
    obtain ⟨part,hmem,rfl⟩ := mem_map.mp hn
    rcases hpr part hmem with hone | ⟨op,hop,hpe⟩
    · omega
    · have := hpe.length_eq
      have := h.size op hop
      omega
  have hsum : order.length = Permuter.total (parts.map length) := by rw [total_eq_sum,← length_flatten,hf]
  obtain ⟨steps,hst,hpp,ha,hm⟩ := swapNetworkSteps_eq (some (k+1)) hord hsum fun n hn => (hlen n hn).1
  have hcut : cut (parts.map length) order = parts := by
    conv_lhs => rw [← hf]
    exact cut_lengths parts
  have hno : parts.flatten.Nodup := hf.symm ▸ hord
  have hne : ∀ part ∈ parts, part ≠ [] := fun part hpr => length_pos_iff.mp (hlen _ (mem_map_of_mem hpr)).1
  rw [hcut,length_map] at hm
  have hall : ∀ o ∈ ops, ∀ x ∈ order, x ∉ o.qubits → insert x o.qubits.toFinset ∈ (course steps).meets := by
    intro o ho x hx hout
    obtain ⟨part,hmem,hpe⟩ := hops o ho
    have hs := hpe.length_eq
    rw [h.size o ho] at hs
    rw [← hf] at hx
    obtain ⟨part',hmem',hx⟩ := mem_flatten.mp hx
    have hc : ∀ {p}, p ∈ parts → p.toFinset.card = p.length := fun hp => toFinset_card_of_nodup ((nodup_flatten.mp hno).1 _ hp)
    rw [toFinset_eq_of_perm _ _ hpe,hm,mem_meetings_ascents (nodup_parts hno hne)]
    refine ⟨part,hmem,part',hmem',?_,Finset.mem_union_left _ (mem_extensions.mpr ⟨?_,?_,x,mem_toFinset.mpr hx,rfl⟩)⟩
    · rintro rfl
      exact hout (hpe.mem_iff.mpr hx)
    · rw [hc hmem,hs]
    · rw [hc hmem']
      exact (hlen _ (mem_map_of_mem hmem')).2
  -- one group is enough to see that there are two parts and, since it meets a qubit and is moved, more than one step
  obtain ⟨o,ho⟩ := exists_mem_of_ne_nil _ h.nonempty
  obtain ⟨part,hmem,hpe⟩ := hops o ho
  have hpa : part.length = k := by rw [← hpe.length_eq,h.size o ho]
  have hl : k ∈ parts.map length := hpa ▸ mem_map_of_mem hmem
  obtain ⟨x,hx,hout⟩ : ∃ x ∈ order, x ∉ o.qubits := by
    by_contra hnn
    have hsub : order ⊆ o.qubits := fun x hx => by_contra fun hout => hnn ⟨x,hx,hout⟩
    have hle := (hord.subperm hsub).length_le
    rw [h.size o ho] at hle
    omega
  have hma : ¬ (parts.map length).length < 2 := by
    intro hfew
    have hone : parts = [part] := by
      rw [length_map] at hfew
      have hpos := length_pos_of_mem hmem
      obtain ⟨part',rfl⟩ := length_eq_one_iff.mp (show parts.length = 1 by omega)
      rw [mem_singleton.mp hmem]
    rw [hone,flatten_singleton] at hf
    rw [hf] at hpa
    omega
  have hne : order ≠ [] := ne_nil_of_mem hx
  refine ⟨_,steps,?_,.network ⟨Nat.succ_pos k,hl⟩ hst hpp ?_,rfl,ha,hall⟩
  · rw [networkOf,hpt]
    change (if (parts.map length).length < 2 then _ else _) = _
    rw [if_neg hma]
    exact on_permutation (p := .swapNetwork (parts.map length) (some (k+1))) hne hsum.symm SWAP
  · exact length_ne_one (hall o ho x hx hout) (reversal_ne_one hord (by omega) ha)
end
section
variable {order : Qubits} {ρ : Equiv.Perm Qubit}
lemma exists_reversal (hord : order.Nodup) : ∃ ρ, Reverses ρ order := by
  by_cases hne : order = []
  · exact ⟨1,fun p x hx => by simp [hne] at hx,fun _ _ => rfl⟩
  · have hpos : ∀ n ∈ [order.length], 1 ≤ n := forall_mem_singleton.mpr (length_pos_iff.mpr hne)
    obtain ⟨steps,-,-,ha,-⟩ := swapNetworkSteps_eq none hord (by simp [Permuter.total]) hpos
    exact ⟨_,ha⟩
section
variable (hρ : Reverses ρ order)
include hρ
lemma Reverses.mul_self : ρ*ρ = 1 := by
  refine acts_unique ((hρ.mul hρ).congr fun p hp => ?_) (Acts.one order)
  simp only [Function.comp_apply,id_eq]
  omega
lemma Reverses.map_eq : order.map ρ = order.reverse := by
  refine ext_getElem (by simp) fun p hp _ => ?_
  rw [length_map] at hp
  have him := hρ.1 p _ (getElem?_eq_getElem hp)
  obtain ⟨_,him⟩ := getElem?_eq_some_iff.mp him
  rw [getElem_map,getElem_reverse,← him]
lemma lookup_reflected {q} (hq : q ∈ order) : ((order.zip order.reverse).reverse).lookup q = some (ρ q) := by
  have hzip : order.zip order.reverse = order.map fun x => (x,ρ x) := by
    rw [← hρ.map_eq]
    conv_lhs => rw [← map_id order,map_map]
    exact zip_map'
  rw [hzip,← map_reverse]
  exact lookup_graph ρ (mem_reverse.mpr hq)
end
variable {k : Nat} (hk : 1 ≤ k)
include hk
lemma withQubits_renamed {st} (hst : Proper order k st) (ρ : Equiv.Perm Qubit) :
    (stepOp st : Operation R).withQubits ((sites st).map ρ) = .ok (stepOp (renamed ρ st)) := by
  cases hst with
  | @meet as hs _ =>
    have hne : as.map ρ ≠ [] := by simpa using length_pos_iff.mp (hs ▸ hk)
    change (opportunity as.length).on (as.map ρ) = .ok (.gate (.opportunity (as.map ρ).length) (as.map ρ))
    rw [← on_opportunity hne,length_map]
  | move hp _ => exact on_permutation (hp.map ρ).nonempty (hp.map ρ).size SWAP
lemma reflectMoment_eq (hord : order.Nodup) (hρ : Reverses ρ order) (hs : ∀ st ∈ steps, Proper order k st) :
    reflectMoment order ⟨steps.map (stepOp (R := R))⟩ = .ok ⟨(steps.map (renamed ρ)).map stepOp⟩ := by
  have hop : ∀ st ∈ steps, ((qubits (stepOp st : Operation R)).mapM fun q =>
      orFail .key (((order.zip order.reverse).reverse).lookup q)) = .ok ((sites st).map ρ) := by
    intro st hst
    rw [qubits_stepOp]
    refine mapM_eq_pure fun q hq => ?_
    rw [lookup_reflected hρ ((Proper.sites_ok (hs st hst) hord hk).2.2 q hq)]
    rfl
  have hops : (steps.map (stepOp (R := R))).mapM (fun op => do
      let qs ← op.qubits.mapM fun q => orFail .key (((order.zip order.reverse).reverse).lookup q)
      op.withQubits qs) = .ok (steps.map fun st => stepOp (renamed ρ st)) := by
    rw [mapM_map]
    refine mapM_eq_pure fun st hst => ?_
    change ((qubits (stepOp st : Operation R)).mapM _ >>= fun qs => Operation.withQubits qs (stepOp st)) = _
    rw [hop st hst]
    exact withQubits_renamed hk (hs st hst) ρ
  rw [reflectMoment,hops,map_map]
  rfl
end
section
variable {order : Qubits} {k : Nat}
inductive Uniform (order : Qubits) (k : Nat) (steps : Steps Qubit) : Prop
  | meets (h : ∀ st ∈ steps, ∃ as, st = .acquaint as ∧ as.length = k ∧ as <:+: order)
  | moves (h : ∀ st ∈ steps, ∃ p qs, st = .permute p qs ∧ Moves p qs ∧ qs ⊆ order)
lemma Uniform.proper (h : Uniform order k steps) : ∀ st ∈ steps, Proper order k st := by
  intro st hst
  cases h with
  | meets h =>
    obtain ⟨as,rfl,hs,hrow⟩ := h st hst
    exact .meet hs.symm hrow
  | moves h =>
    obtain ⟨p,qs,rfl,hp,hsub⟩ := h st hst
    exact .move hp hsub
structure Rectified (order : Qubits) (k : Nat) (m : OpMoment R) : Prop where
  overlapFree : OverlapFree m
  uniform : ∃ steps : Steps Qubit, m.ops = steps.map stepOp ∧ steps ≠ [] ∧ Uniform order k steps
omit [OperationText R] in
lemma exists_steps {P : NetworkStep Qubit → Prop} (h : ∀ op ∈ ops, ∃ st, P st ∧ op = stepOp st) :
    ∃ steps : Steps Qubit, ops = steps.map stepOp ∧ ∀ st ∈ steps, P st := by
  induction ops with
  | nil => exact ⟨[],rfl,by simp⟩
  | cons op ops ih =>
    obtain ⟨⟨st,hst,rfl⟩,hops⟩ := forall_mem_cons.mp h
    obtain ⟨steps,rfl,hs⟩ := ih hops
    exact ⟨st :: steps,rfl,forall_mem_cons.mpr ⟨hst,hs⟩⟩
lemma rectified_of_kind (hf : OverlapFree ⟨ops⟩) (hne : ops ≠ []) {b}
    (hpr : ∀ op ∈ ops, ∃ st, Proper order k st ∧ op = stepOp st) (hki : ∀ op ∈ ops, op.isOpportunity = b) :
    Rectified order k ⟨ops⟩ := by
  obtain ⟨steps,rfl,hs⟩ := exists_steps hpr
  have hk : ∀ st ∈ steps, (stepOp st).isOpportunity = b := fun st hst => hki _ (mem_map_of_mem hst)
  refine ⟨hf,steps,rfl,by simpa using hne,?_⟩
  cases b with
  | true =>
    refine .meets fun st hst => ?_
    cases hs st hst with
    | meet hsi hrow => exact ⟨_,rfl,hsi.symm,hrow⟩
    | move hp hsub => exact absurd (hk _ hst) Bool.false_ne_true
  | false =>
    refine .moves fun st hst => ?_
    cases hs st hst with
    | meet hsi hrow => exact absurd (hk _ hst).symm Bool.false_ne_true
    | move hp hsub => exact ⟨_,_,rfl,hp,hsub⟩
variable (first : Bool)
lemma rectifyMoments_cons (ms) (hm : OverlapFree m) (hp : ∀ op ∈ m.ops, ∃ st, Proper order k st ∧ op = stepOp st) :
    ∃ pieces next, rectifyMoments first (m :: ms) = pieces ++ rectifyMoments next ms ∧
      (∀ p ∈ pieces, Rectified order k p) ∧ SameOrder m.ops (opsOf pieces) := by
  have hpa : ∀ p b, (∀ op, p op → op.isOpportunity = b) → m.ops.filter p ≠ [] →
      Rectified order k ⟨m.ops.filter p⟩ := by
    intro p b hk hne
    exact rectified_of_kind (overlapFree_sublist hm filter_sublist) hne
      (fun op hop => hp op (mem_of_mem_filter hop)) fun op hop => hk op (mem_filter.mp hop).2
  have hme := hpa (·.isOpportunity) true fun op h => h
  have hmo := hpa (!·.isOpportunity) false fun op h => by simpa using h
  have hs : SameOrder m.ops (m.ops.filter (·.isOpportunity) ++ m.ops.filter (!·.isOpportunity)) :=
    sameOrder_of_overlapFree hm (filter_append_perm _ _).symm
  have hs' : SameOrder m.ops (m.ops.filter (!·.isOpportunity) ++ m.ops.filter (·.isOpportunity)) :=
    sameOrder_of_overlapFree hm ((filter_append_perm _ _).symm.trans perm_append_comm)
  by_cases he : m.ops = []
  · exact ⟨[],first,by simp [rectifyMoments,he],by simp,.of_eq he⟩
  by_cases hone : m.ops.filter (·.isOpportunity) = [] ∨ m.ops.filter (!·.isOpportunity) = []
  · have hm' : Rectified order k m := by
      rcases hone with hn | hn
      · exact rectified_of_kind hm he hp fun op hop => Bool.eq_false_iff.mpr (filter_eq_nil_iff.mp hn op hop)
      · exact rectified_of_kind hm he hp fun op hop => by simpa using filter_eq_nil_iff.mp hn op hop
    refine ⟨[m],first,?_,by simpa using hm',.of_eq (append_nil m.ops).symm⟩
    rw [rectifyMoments,if_neg (by simpa using he),if_pos (by simpa only [Bool.or_eq_true,List.isEmpty_iff] using hone)]
    rfl
  · obtain ⟨hmt,hmv⟩ := not_or.mp hone
    have hb : ¬((m.ops.filter (·.isOpportunity)).isEmpty || (m.ops.filter (!·.isOpportunity)).isEmpty) := by
      simpa only [Bool.or_eq_true,List.isEmpty_iff] using hone
    rw [rectifyMoments,if_neg (by simpa using he),if_neg hb]
    cases first with
    | true => exact ⟨[_,_],false,rfl,by simpa using ⟨hme hmt,hmo hmv⟩,by simpa using hs⟩
    | false => exact ⟨[_,_],true,rfl,by simpa using ⟨hmo hmv,hme hmt⟩,by simpa using hs'⟩

/-- Rectifying leaves the order of the operations on each qubit as it is. -/
lemma rectifyMoments_sameOrder (hf : ∀ m ∈ ms, OverlapFree m)
    (hpr : ∀ m ∈ ms, ∀ op ∈ m.ops, ∃ st, Proper order k st ∧ op = stepOp st) :
    (∀ m ∈ rectifyMoments first ms, Rectified order k m) ∧ SameOrder (opsOf ms) (opsOf (rectifyMoments first ms)) := by
  induction ms generalizing first with
  | nil => exact ⟨by simp [rectifyMoments],.refl _⟩
  | cons m ms ih =>
    obtain ⟨hm,hms⟩ := forall_mem_cons.mp hf
    obtain ⟨hops,hre⟩ := forall_mem_cons.mp hpr
    obtain ⟨pieces,next,heq,hp,hs⟩ := rectifyMoments_cons first ms hm hops
    obtain ⟨hr,hs'⟩ := ih next hms hre
    rw [heq,opsOf_append]
    exact ⟨fun n hn => (mem_append.mp hn).elim (hp n) (hr n),hs.append hs'⟩
end
section
variable {order : Qubits} {ρ : Equiv.Perm Qubit} {f g h : Bool}
def flipIf (ρ : Equiv.Perm Qubit) (f : Bool) : Equiv.Perm Qubit := if f then ρ else 1

/-- In the second course, with the qubits in reverse order before it and after it as the flags say, every group that meets in
the first one meets every other qubit. -/
structure Extends (order : Qubits) (ρ : Equiv.Perm Qubit) (f g : Bool) (c d : Course Qubit) : Prop where
  moves : d.moves = flipIf ρ g * c.moves*(flipIf ρ f)⁻¹
  meets : ∀ S ∈ c.meets, ∀ x ∈ order, x ∉ S → (insert x S).image (flipIf ρ f) ∈ d.meets
namespace Extends
variable {a b : Course Qubit}
lemma one (order ρ f) : Extends order ρ f f 1 1 := ⟨by simp,by simp⟩
lemma mul (hac : Extends order ρ f g a c) (hbd : Extends order ρ g h b d) (ha : Within order a) :
    Extends order ρ f h (a*b) (c*d) := by
  constructor
  · rw [mul_moves,hac.moves,hbd.moves]
    simp [mul_assoc]
  · intro S hS x hx hnot
    rw [mem_mul] at hS ⊢
    rcases hS with hS | hS
    · exact .inl (hac.meets S hS x hx hnot)
    · right
      have hnot' : a.moves x ∉ S.image a.moves := by simpa using hnot
      have hm := hbd.meets _ hS _ (image_mem_of_fixes ha.fixes hx) hnot'
      rw [← Finset.image_insert,← image_mul] at hm
      rwa [← image_mul,hac.moves,inv_mul_cancel_right]
end Extends
lemma flipIf_not (hρ : Reverses ρ order) (f) : ρ = flipIf ρ (!f) * (flipIf ρ f)⁻¹ := by
  cases f with
  | false => simp [flipIf]
  | true => simpa [flipIf] using eq_inv_of_mul_eq_one_left hρ.mul_self
lemma flipIf_mem (hρ : Reverses ρ order) (f) {q} (hq : q ∈ order) : flipIf ρ f q ∈ order := by
  cases f with
  | false => exact hq
  | true => exact image_mem_of_fixes hρ.2 hq
lemma extends_moves (h : ∀ st ∈ steps, ∃ p qs, st = .permute p qs ∧ Moves p qs ∧ qs ⊆ order) (f) :
    Extends order ρ f f (course steps) (course (steps.map (renamed (flipIf ρ f)))) := by
  induction steps with
  | nil => exact .one order ρ f
  | cons st steps ih =>
    obtain ⟨⟨p,qs,rfl,hp,hsub⟩,hs⟩ := forall_mem_cons.mp h
    exact Extends.mul ⟨hp.renamed_moves _,by simp [ofStep]⟩ (ih hs) (hp.within.mono hsub)

/-- In place of opportunities there is a network in which every group meets every other qubit. -/
lemma extends_network (hρ : Reverses ρ order) (h : Opportunities steps) (f) {d} (hmo : Reverses d.moves order)
    (hm : ∀ as, .acquaint as ∈ steps.map (renamed (flipIf ρ f)) → ∀ x ∈ order, x ∉ as → insert x as.toFinset ∈ d.meets) :
    Extends order ρ f (!f) (course steps) d := by
  constructor
  · rw [course_moves_opportunities h,mul_one,← flipIf_not hρ,acts_unique hmo hρ]
  · intro S hS x hx hnot
    obtain ⟨xs,as,ys,rfl,him⟩ := exists_of_mem_course hS
    rw [course_moves_opportunities fun st hst => h st (mem_append_left _ hst),Equiv.Perm.coe_one,Finset.image_id]
      at him
    subst him
    rw [Finset.image_insert,← toFinset_map]
    refine hm (as.map (flipIf ρ f)) ?_ _ (flipIf_mem hρ f hx) ?_
    · exact mem_map.mpr ⟨.acquaint as,by simp,rfl⟩
    · simpa using hnot
end
section
variable {order : Qubits} {ρ : Equiv.Perm Qubit} {k : Nat}
lemma sites_renamed (ρ st) : sites (renamed ρ st) = (sites st).map ρ := by cases st <;> rfl
lemma renamed_one : renamed (1 : Equiv.Perm Qubit) st = st := by
  cases st with
  | acquaint as => exact congrArg _ (map_id as)
  | permute p qs => exact congrArg _ (map_id qs)
lemma overlapFree_steps : OverlapFree ⟨steps.map (stepOp (R := R))⟩ ↔
    (∀ st ∈ steps, (sites st).Nodup) ∧ steps.Pairwise fun a b => (sites a).Disjoint (sites b) := by
  rw [overlapFree_iff,forall_mem_map,pairwise_map]
  simp only [qubits_stepOp]
lemma overlapFree_renamed (h : OverlapFree ⟨steps.map (stepOp (R := R))⟩) (ρ : Equiv.Perm Qubit) :
    OverlapFree ⟨(steps.map (renamed ρ)).map (stepOp (R := R))⟩ := by
  obtain ⟨he,hp⟩ := overlapFree_steps.mp h
  refine overlapFree_steps.mpr ⟨forall_mem_map.mpr fun st hst => ?_,pairwise_map.mpr (hp.imp fun hd => ?_)⟩
  · rw [sites_renamed]
    exact (he st hst).map ρ.injective
  · rw [sites_renamed,sites_renamed]
    exact disjoint_map ρ.injective hd
lemma flipIf_moment (hord : order.Nodup) (hk : 1 ≤ k) (hρ : Reverses ρ order) (hs : ∀ st ∈ steps, Proper order k st) (f : Bool) :
    (if f then reflectMoment order ⟨steps.map stepOp⟩ else .ok ⟨steps.map (stepOp (R := R))⟩) =
      .ok ⟨(steps.map (renamed (flipIf ρ f))).map stepOp⟩ := by
  cases f with
  | false =>
    have hsa : steps.map (renamed (flipIf ρ false)) = steps := by
      refine (map_congr_left fun st _ => ?_).trans (map_id steps)
      exact renamed_one st
    rw [hsa]
    rfl
  | true => exact reflectMoment_eq hk hord hρ hs
omit [OperationText R] in
lemma product_kept {size : Nat} (h : ∀ st ∈ steps, Proper order size st) :
    product (fun op => product effect (partsOf op)) (steps.map (stepOp (R := R))) = course steps := by
  rw [product,map_map]
  refine congrArg prod (map_congr_left fun st hst => ?_)
  change product effect (partsOf (stepOp st)) = ofStep st
  rw [(Exposed.kept (h st hst)).partsOf_eq,product_effect_map,course_singleton]
lemma perm_row_flipIf (hρ : Reverses ρ order) (f) {as} (hrow : as <:+: order) :
    ∃ row, (as.map (flipIf ρ f)).Perm row ∧ row <:+: order := by
  cases f with
  | false => exact ⟨as,.of_eq (map_id as),hrow⟩
  | true =>
    refine ⟨(as.map ρ).reverse,(reverse_perm _).symm,?_⟩
    have hmap := hrow.map ρ
    rw [hρ.map_eq] at hmap
    rwa [← reverse_infix,reverse_reverse]
variable {n : OpMoment R} {size : Option Nat} {f : Bool}
lemma replaceMoments_cons {n' g} (hn : (if f then reflectMoment order m else .ok m) = .ok n)
    (hs : (if n.ops.all (·.isOpportunity) then do .ok (⟨[← networkOf order size n.ops]⟩,!f) else .ok (n,f)) = Except.ok (n',g))
    (done ms) :
    replaceMoments order size f done (m :: ms) = replaceMoments order size g (done ++ [n']) ms := by
  simp only [bind,Except.bind] at hs
  cases f with
  | false =>
    obtain rfl : m = n := Except.ok.inj hn
    simp only [replaceMoments,bind,Except.bind,Bool.false_eq_true,if_false,hs]
  | true =>
    have hn : reflectMoment order m = .ok n := hn
    simp only [replaceMoments,bind,Except.bind,hn,if_true,hs]
structure Replaces (order : Qubits) (ρ : Equiv.Perm Qubit) (k : Nat) (f g : Bool) (ms ns : List (OpMoment R)) :
    Prop where
  run : ∀ done more, replaceMoments order (some (k+1)) f done (ms ++ more) =
    replaceMoments order (some (k+1)) g (done ++ ns) more
  overlapFree : ∀ n ∈ ns, OverlapFree n
  exposed : ∀ op ∈ opsOf ns, ∃ steps, Exposed order (k+1) op steps
  course : Extends order ρ f g (product effect (opsOf ms)) (product (fun op => product effect (partsOf op)) (opsOf ns))
lemma Rectified.within (hm : Rectified order k m) : Within order (product effect m.ops) := by
  obtain ⟨-,steps,hops,-,hu⟩ := hm
  rw [hops,product_effect_map]
  exact within_course fun st hst => (hu.proper st hst).within
section
variable (hord : order.Nodup) (hk : 1 ≤ k) (hρ : Reverses ρ order)
include hord hk hρ
lemma replaces_moves (hne : steps ≠ []) (hf : OverlapFree ⟨steps.map (stepOp (R := R))⟩)
    (h : ∀ st ∈ steps, ∃ p qs, st = .permute p qs ∧ Moves p qs ∧ qs ⊆ order) (f) :
    Replaces (R := R) order ρ k f f [⟨steps.map stepOp⟩] [⟨(steps.map (renamed (flipIf ρ f))).map stepOp⟩] := by
  have hpr : ∀ st ∈ steps.map (renamed (flipIf ρ f)), Proper order (some (k+1)) st := by
    refine forall_mem_map.mpr fun st hst => ?_
    obtain ⟨p,qs,rfl,hp,hsub⟩ := h st hst
    refine .move (hp.map _) fun x hx => ?_
    obtain ⟨y,hy,rfl⟩ := mem_map.mp hx
    exact flipIf_mem hρ f (hsub hy)
  have hki : (((steps.map (renamed (flipIf ρ f))).map (stepOp (R := R))).all (·.isOpportunity)) = false := by
    refine Bool.eq_false_iff.mpr fun hall => ?_
    obtain ⟨st,hst⟩ := exists_mem_of_ne_nil _ hne
    have hst' := all_eq_true.mp hall _ (mem_map_of_mem (mem_map_of_mem hst))
    obtain ⟨p,qs,rfl,-⟩ := h st hst
    exact Bool.false_ne_true hst'
  refine ⟨replaceMoments_cons (flipIf_moment hord hk hρ (Uniform.moves h).proper f) (if_neg (Bool.eq_false_iff.mp hki)),
    forall_mem_singleton.mpr (overlapFree_renamed hf _),fun op hop => ?_,?_⟩
  · rw [opsOf_cons,opsOf_nil,append_nil] at hop
    obtain ⟨st,hst,rfl⟩ := mem_map.mp hop
    exact ⟨_,.kept (hpr st hst)⟩
  · simp only [opsOf_cons,opsOf_nil,append_nil,product_effect_map,product_kept hpr]
    exact extends_moves h f
variable (hl : k+1 < order.length)
include hl
lemma replaces_meets (hne : steps ≠ []) (hf : OverlapFree ⟨steps.map (stepOp (R := R))⟩)
    (h : ∀ st ∈ steps, ∃ as, st = .acquaint as ∧ as.length = k ∧ as <:+: order) (f) :
    ∃ op, Replaces (R := R) order ρ k f (!f) [⟨steps.map stepOp⟩] [⟨[op]⟩] := by
  have hki : (((steps.map (renamed (flipIf ρ f))).map (stepOp (R := R))).all (·.isOpportunity)) := by
    refine all_eq_true.mpr (forall_mem_map.mpr (forall_mem_map.mpr fun st hst => ?_))
    obtain ⟨as,rfl,-⟩ := h st hst
    rfl
  have hg : Gathering order k ((steps.map (renamed (flipIf ρ f))).map (stepOp (R := R))) := by
    refine ⟨by simpa using hne,overlapFree_renamed hf _,forall_mem_map.mpr (forall_mem_map.mpr fun st hst => ?_),
      forall_mem_map.mpr (forall_mem_map.mpr fun st hst => ?_)⟩
    · obtain ⟨as,rfl,hs,-⟩ := h st hst
      exact (length_map _).trans hs
    · obtain ⟨as,rfl,-,hrow⟩ := h st hst
      exact perm_row_flipIf hρ f hrow
  obtain ⟨op,net,hop,he,hq,ha,hm⟩ := networkOf_exposed hord hk hl hg
  refine ⟨op,replaceMoments_cons (flipIf_moment hord hk hρ (Uniform.meets h).proper f) (by rw [hki,hop]; rfl),
    forall_mem_singleton.mpr (overlapFree_singleton.mpr (hq ▸ hord)),fun o ho => ?_,?_⟩
  · obtain rfl : o = op := by simpa using ho
    exact ⟨net,he⟩
  · have hc : product (fun op => product effect (partsOf op)) [op] = course net := by
      rw [product,map_singleton,prod_singleton,he.partsOf_eq,product_effect_map]
    simp only [opsOf_cons,opsOf_nil,append_nil,product_effect_map,hc]
    refine extends_network hρ (fun st hst => ?_) f ha fun as has x hx hnot => ?_
    · obtain ⟨as,rfl,-⟩ := h st hst
      exact ⟨as,rfl⟩
    · exact hm _ (mem_map_of_mem has) x hx hnot
lemma replaces_moment (hm : Rectified order k m) (f) : ∃ n g, Replaces order ρ k f g [m] [n] := by
  obtain ⟨hf,steps,hops,hne,hu⟩ := hm
  obtain rfl : m = ⟨steps.map stepOp⟩ := congrArg Moment.mk hops
  cases hu with
  | moves h => exact ⟨_,f,replaces_moves hord hk hρ hne hf h f⟩
  | meets h =>
    obtain ⟨op,hr⟩ := replaces_meets hord hk hρ hl hne hf h f
    exact ⟨_,!f,hr⟩

/-- Replacing all moments of opportunities by networks succeeds, and every group that meets before meets all other qubits
after it. -/
lemma replaces_moments (hms : ∀ m ∈ ms, Rectified order k m) (f) : ∃ ns g, Replaces order ρ k f g ms ns := by
  induction ms generalizing f with
  | nil => exact ⟨[],f,by simp,by simp,by simp,.one order ρ f⟩
  | cons m ms ih =>
    obtain ⟨hm,hms⟩ := forall_mem_cons.mp hms
    obtain ⟨n,g,hf⟩ := replaces_moment hord hk hρ hl hm f
    obtain ⟨ns,h,hr⟩ := ih hms g
    refine ⟨n :: ns,h,fun done more => ?_,?_,fun op hop => ?_,?_⟩
    · refine (hf.run done (ms ++ more)).trans ((hr.run _ more).trans ?_)
      rw [append_assoc,singleton_append]
    · exact forall_mem_cons.mpr ⟨hf.overlapFree n (mem_singleton_self n),hr.overlapFree⟩
    · rcases mem_append.mp hop with hop | hop
      · exact hf.exposed op (mem_append_left _ hop)
      · exact hr.exposed op hop
    · have hc := hf.course
      simp only [opsOf_cons,opsOf_nil,append_nil] at hc
      rw [opsOf_cons,opsOf_cons,product_append,product_append]
      exact hc.mul hr.course hm.within
end
end
end QuantumCircuits.NetworksInPlace
