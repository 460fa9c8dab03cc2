import QuantumCircuits.Proofs.FrontierInsertion
import QuantumCircuits.Proofs.Insertion

/-! # Packing operations as early as possible

Operations put into an empty circuit, each into the earliest moment that is free, come to stand where a frontier that
is advanced operation by operation would put them. -/
namespace QuantumCircuits.EarliestPacking
open List WireOrder Circuit Insertion FrontierInsertion
variable {α : Type} {placed : List (α × Int)}
/-- The first place after those of all operations with a property. -/
def After (placed : List (α × Int)) (P : α → Prop) (k : Int) : Prop := IsLeast {k | 0 ≤ k ∧ ∀ e ∈ placed, P e.1 → e.2 < k} k
lemma After.concat {P k p} (h : After placed P k) (op) (hp : 0 ≤ p) [Decidable (P op)] :
    After (placed ++ [(op,p)]) P (if P op then max k (p+1) else k) := by
  obtain ⟨⟨hk,hlt⟩,hle⟩ := h
  simp only [After,forall_mem_append,forall_mem_singleton]
  split
  · next hop =>
    refine ⟨⟨by omega,fun e he hP => (hlt e he hP).trans_le (le_max_left ..),fun _ => by omega⟩,fun l hl => ?_⟩
    exact max_le (hle ⟨hl.1,hl.2.1⟩) (hl.2.2 hop)
  · next hop => exact ⟨⟨hk,hlt,fun h => absurd h hop⟩,fun l hl => hle ⟨hl.1,hl.2.1⟩⟩
lemma newAt_concat (placed) (op : α) (p : Int) (j) :
    newAt (placed ++ [(op,p)]) j = newAt placed j ++ if p = j then [op] else [] := by
  by_cases h : p = j <;> simp [newAt,h]
def stacked (placed : List (α × Int)) (n : ℕ) : Circuit α := ⟨filled (replicate n .empty) (newAt placed)⟩
lemma getElem?_stacked (placed : List (α × Int)) (n j) :
    (stacked placed n).moments[j]? = if j < n then some ⟨newAt placed j⟩ else none := by
  simp only [stacked,filled,getElem?_mapIdx,getElem?_replicate]
  split <;> simp [Moment.empty]
variable [Located α] {op : α} {ops xs : List α} {f : Qubit → Int} {n : ℕ}

/-! ## Frontiers -/
def level (f : Qubit → Int) (op : α) : Int := (qubits op).foldl (fun m q => max m (f q)) 0
def advance (f : Qubit → Int) (op : α) (q : Qubit) : Int := if q ∈ qubits op then level f op + 1 else f q
def levels : (Qubit → Int) → List α → List (α × Int)
  | _, [] => []
  | f, op :: ops => (op,level f op) :: levels (advance f op) ops
lemma isLeast_level (f) (op : α) : IsLeast {k | 0 ≤ k ∧ ∀ q ∈ qubits op, f q ≤ k} (level f op) :=
  ⟨le_foldl_max f (qubits op) 0,fun _ => foldl_max_le_iff.mpr⟩
lemma level_congr (h : ∀ q ∈ qubits op, f q = g q) : level f op = level g op := by
  have hset : {k | 0 ≤ k ∧ ∀ q ∈ qubits op, f q ≤ k} = {k | 0 ≤ k ∧ ∀ q ∈ qubits op, g q ≤ k} := by
    ext k
    exact and_congr_right fun _ => forall₂_congr fun q hq => by rw [h q hq]
  exact (isLeast_level f op).unique (hset ▸ isLeast_level g op)
lemma advance_comm {a b : α} (h : (qubits a).Disjoint (qubits b)) (f) : advance (advance f a) b = advance (advance f b) a := by
  have ho : ∀ {c d : α}, (qubits c).Disjoint (qubits d) → level (advance f c) d = level f d := fun hcd =>
    level_congr fun q hq => if_neg fun hc => hcd hc hq
  funext q
  simp only [advance,ho h,ho h.symm]
  by_cases ha : q ∈ qubits a <;> by_cases hb : q ∈ qubits b <;> simp [ha,hb]
  exact absurd hb (h ha)
lemma foldl_advance_of_notMem (h : ∀ op ∈ ops, q ∉ qubits op) : ops.foldl advance f q = f q :=
  foldlRecOn (motive := fun g : Qubit → Int => g q = f q) ops _ rfl fun _ hg op hop => (if_neg (h op hop)).trans hg
lemma foldl_advance_swap (h : Apart [op] xs) (f) : xs.foldl advance (advance f op) = advance (xs.foldl advance f) op := by
  induction xs generalizing f with
  | nil => rfl
  | cons x xs ih =>
    have hx : (qubits op).Disjoint (qubits x) := h op (mem_singleton_self op) x mem_cons_self
    rw [foldl_cons,advance_comm hx,ih fun o ho y hy => h o ho y (mem_cons_of_mem _ hy)]
    rfl
lemma foldl_advance_sameOrder (h : SameOrder xs ys) (f) : xs.foldl advance f = ys.foldl advance f := by
  induction xs generalizing ys f with
  | nil => rw [nil_perm.mp h.perm]
  | cons x xs ih =>
    obtain ⟨us,vs,rfl,ha,hr⟩ := h.exists_of_cons
    rw [foldl_cons,ih hr,foldl_append,foldl_append,foldl_advance_swap ha,foldl_cons]
lemma foldl_advance_moment {k} (hf : ∀ q, f q ≤ k) (hk : 0 ≤ k) (hops : OverlapFree ⟨ops⟩) (q) : ops.foldl advance f q ≤ k+1 := by
  induction ops with
  | nil => exact (hf q).trans (by omega)
  | cons op ops ih =>
    obtain ⟨hop,hp⟩ := pairwise_cons.mp (overlapFree_iff.mp hops).2
    have ha : Apart [op] ops := fun o ho x hx => mem_singleton.mp ho ▸ hop x hx
    rw [foldl_cons,foldl_advance_swap ha,advance]
    split
    · have hl : level (ops.foldl advance f) op = level f op := level_congr fun r hr =>
        foldl_advance_of_notMem fun o ho hro => hop o ho hr hro
      have := (isLeast_level f op).2 ⟨hk,fun r _ => hf r⟩
      omega
    · exact ih (overlapFree_sublist hops (sublist_cons_self op ops))
lemma foldl_advance_le {ms : Moments α} (hms : ∀ m ∈ ms, OverlapFree m) {k : Int} (hf : ∀ q, f q ≤ k) (hk : 0 ≤ k) (q) :
    (opsOf ms).foldl advance f q ≤ k+ms.length := by
  induction ms generalizing f k with
  | nil => simpa using hf q
  | cons m ms ih =>
    obtain ⟨hm,hms⟩ := forall_mem_cons.mp hms
    rw [opsOf_cons,foldl_append]
    have := ih hms (foldl_advance_moment hf hk hm) (by omega)
    simp only [length_cons]
    omega

/-! ## Places -/
structure Packing (placed : List (α × Int)) (f : Qubit → Int) (n : ℕ) : Prop where
  frontier : ∀ q, After placed (q ∈ qubits ·) (f q)
  size : After placed (fun _ => True) n
  pos : ∀ e ∈ placed, 0 ≤ e.2
  free : ∀ j, OverlapFree ⟨newAt placed j⟩
lemma packing_nil : Packing ([] : List (α × Int)) (fun _ => 0) 0 where
  frontier q := ⟨by simp,fun k hk => hk.1⟩
  size := ⟨by simp,fun k hk => hk.1⟩
  pos := by simp
  free j := overlapFree_empty
namespace Packing
variable (h : Packing placed f n)
include h
lemma le_size (q) : f q ≤ n :=
  (h.frontier q).2 ⟨by omega,fun e he _ => h.size.1.2 e he trivial⟩
lemma after (op : α) : After placed (fun o => ¬ (qubits o).Disjoint (qubits op)) (level f op) := by
  obtain ⟨⟨hpos,hle⟩,hl⟩ := isLeast_level f op
  refine ⟨⟨hpos,fun e he hm => ?_⟩,fun k hk => hl ⟨hk.1,fun q hq => ?_⟩⟩
  · obtain ⟨q,hqe,hq⟩ : ∃ q ∈ qubits e.1, q ∈ qubits op := by simpa [List.Disjoint] using hm
    exact ((h.frontier q).1.2 e he hqe).trans_le (hle q hq)
  · exact (h.frontier q).2 ⟨hk.1,fun e he hqe => hk.2 e he fun hd => hd hqe hq⟩
lemma apart {j : ℕ} (hj : level f op ≤ j) : Apart [op] (newAt placed j) := by
  intro o ho x hx q hqo hqx
  obtain rfl := mem_singleton.mp ho
  have := (h.after o).1.2 _ (mem_newAt.mp hx) fun hd => hd hqx hqo
  omega
lemma concat (hop : (qubits op).Nodup) :
    Packing (placed ++ [(op,level f op)]) (advance f op) (max n ((level f op).toNat+1)) := by
  obtain ⟨⟨hpos,hle⟩,-⟩ := isLeast_level f op
  refine ⟨fun q => ?_,?_,forall_mem_append.mpr ⟨h.pos,forall_mem_singleton.mpr hpos⟩,fun j => ?_⟩
  · convert (h.frontier q).concat op hpos using 1
    unfold advance
    split
    · next hq => have := hle q hq; omega
    · rfl
  · convert h.size.concat op hpos using 1
    rw [if_pos trivial]
    omega
  · rw [newAt_concat]
    split
    · next hj => exact overlapFree_concat (h.free j) hop (h.apart hj.le)
    · simpa using h.free j
lemma exists_top (hne : ∀ e ∈ placed, qubits e.1 ≠ []) (hn : 0 < n) :
    ∃ e ∈ placed, ∃ q ∈ qubits e.1, f q = n := by
  have hl : ¬ ∀ e ∈ placed, True → e.2 < n-1 := fun hall => by
    have := h.size.2 ⟨by omega,hall⟩
    omega
  push Not at hl
  obtain ⟨e,he,-,hla⟩ := hl
  obtain ⟨q,hq⟩ := exists_mem_of_ne_nil _ (hne e he)
  refine ⟨e,he,q,hq,le_antisymm (h.le_size q) ?_⟩
  have := (h.frontier q).1.2 e he hq
  omega
end Packing
/-! ## Insertion -/
section
variable (h : Packing placed f n)
include h
lemma earliestFrom_stacked {k : ℕ} (hk : level f op ≤ k) (hkn : k ≤ n) :
    earliestFrom .none (stacked placed n) op k k = .ok (level f op).toNat := by
  obtain ⟨⟨hpos,hlt⟩,hl⟩ := h.after op
  induction k with
  | zero =>
    have hz : (level f op).toNat = 0 := by omega
    rw [earliestFrom,hz]
  | succ k ih =>
    have hget : (stacked placed n).moments[k]? = some ⟨newAt placed k⟩ := by rw [getElem?_stacked,if_pos (by omega)]
    have ha : (stacked placed n).actsAt (qubits op) k = Moment.actsOnAny ⟨newAt placed k⟩ (qubits op) := by
      rw [actsAt_nat,hget,Option.any_some]
    cases hf : Moment.actsOnAny ⟨newAt placed k⟩ (qubits op) with
    | false =>
      -- The moment is free, so the level is not right after it.
      have hle : level f op ≤ k := by
        refine hl ⟨by omega,fun e he hm => ?_⟩
        have hle := hlt e he hm
        by_contra hge
        have hp : (e.1,(k : Int)) = e := Prod.ext rfl (by omega)
        exact hm (actsOnAny_eq_false.mp hf op (mem_singleton_self op) e.1 (mem_newAt.mpr (hp ▸ he))).symm
      simpa [earliestFrom,ha,hf,canAddAt_none,hget,bind,Except.bind] using ih hle (by omega)
    | true =>
      have hnot : ¬ level f op ≤ k := by
        intro hle
        have hno : Moment.actsOnAny ⟨newAt placed k⟩ (qubits op) = false := actsOnAny_eq_false.mpr (h.apart hle)
        simp [hno] at hf
      have hn : (level f op).toNat = k+1 := by omega
      simp only [earliestFrom,ha,hf,if_true,hn]
lemma Packing.padTo (m) : (stacked placed n).padTo m = stacked placed (max n m) := by
  have hs : (stacked placed n).size = n := by simp [stacked,Circuit.size]
  have hmax : max n m = n+(m-n) := by omega
  have hr : ∀ j, newAt placed ((replicate n .empty : Moments α).length+j) = [] := by
    intro j
    refine eq_nil_iff_forall_not_mem.mpr fun o ho => ?_
    have := h.size.1.2 _ (mem_newAt.mp ho) trivial
    simp only [length_replicate] at this
    omega
  rw [Circuit.padTo,hs,hmax,stacked,stacked,replicate_add,filled_append,filled_of_nil fun j _ => hr j]
lemma putAt_stacked (hop : (qubits op).Nodup) : (stacked placed n).putAt .none (level f op).toNat op =
    (stacked (placed ++ [(op,level f op)]) (max n ((level f op).toNat+1)),.ok ()) := by
  have hpos := (isLeast_level f op).1.1
  generalize hp : (level f op).toNat = p
  have hpl : level f op = p := by omega
  have hlt : p < max n (p+1) := by omega
  have hget : (stacked placed (max n (p+1))).moments.getD p .empty = ⟨newAt placed p⟩ := by simp [getElem?_stacked]
  have hw : Moment.withOp ⟨newAt placed p⟩ op = .ok ⟨newAt placed p ++ [op]⟩ :=
    ofList_eq_ok (overlapFree_concat (h.free p) hop (h.apart hpl.le))
  have hset : (filled (replicate (max n (p+1)) .empty) (newAt placed)).set p ⟨newAt placed p ++ [op]⟩ = _ :=
    set_filled (getElem?_replicate_of_lt (a := Moment.empty) hlt) (newAt placed p ++ [op])
  simp only [putAt,h.padTo,hget,hw]
  refine Prod.ext (congrArg mk (hset.trans (congrArg (filled _) (funext fun j => ?_)))) rfl
  rw [newAt_concat,hpl]
  by_cases hj : j = p
  · simp [hj]
  · have hj' : p ≠ j := by omega
    simp [hj,hj']
lemma insertItems_earliest (hop : (qubits op).Nodup) (rest) :
    insertItems .none (.inl op :: rest) .earliest (stacked placed n) n =
      insertItems .none rest .earliest (stacked (placed ++ [(op,level f op)]) (max n ((level f op).toNat+1)))
        (max n ((level f op).toNat+1)) := by
  have hle : level f op ≤ n := (h.after op).2 ⟨by omega,fun e he _ => h.size.1.2 e he trivial⟩
  have hp : (stacked placed n).pickMoment .none n op .earliest = .ok (stacked placed n,(level f op).toNat) := by
    simp [pickMoment,canAddAt_none,getElem?_stacked,earliestFrom_stacked h hle le_rfl,bind,Except.bind]
  simp [insertItems,hp,putAt_stacked h hop,Strategy.afterFirst]
lemma append_earliest (hops : ∀ op ∈ ops, (qubits op).Nodup) :
    ∃ m, insertItems .none (ops.map .inl) .earliest (stacked placed n) n = (stacked (placed ++ levels f ops) m,.ok m) ∧
      Packing (placed ++ levels f ops) (ops.foldl advance f) m := by
  induction ops generalizing placed f n with
  | nil => exact ⟨n,by simp [insertItems,levels],by simpa [levels] using h⟩
  | cons op ops ih =>
    obtain ⟨hop,hops⟩ := forall_mem_cons.mp hops
    obtain ⟨m,hrun,hm⟩ := ih (h.concat hop) hops
    rw [append_assoc] at hrun hm
    exact ⟨m,(insertItems_earliest h hop _).trans hrun,hm⟩
end
lemma ofOps_stacked (hops : ∀ op ∈ ops, (qubits op).Nodup) : ∃ n, ofOps ops = .ok (stacked (levels (fun _ => 0) ops) n) ∧
    Packing (levels (fun _ => 0) ops) (ops.foldl advance fun _ => 0) n := by
  obtain ⟨n,hrun,hp⟩ := append_earliest packing_nil hops
  exact ⟨n,ofOps_of_insertItems hrun,hp⟩

/-! ## Insertion at a frontier -/
lemma assignPlaces_levels {F} (hF : ∀ q, F.get q = f q) (hops : ∀ op ∈ ops, qubits op ≠ []) :
    ∃ G, assignPlaces 0 ops F = .ok (levels f ops,G) ∧ ∀ q, G.get q = ops.foldl advance f q := by
  induction ops generalizing F f with
  | nil => exact ⟨F,rfl,hF⟩
  | cons op ops ih =>
    obtain ⟨hop,hops⟩ := forall_mem_cons.mp hops
    have hl : (qubits op).foldl (fun m q => max m (F.get q)) 0 = level f op := by simp only [hF,level]
    obtain ⟨G,hG,hget⟩ := ih (F := (qubits op).foldl (fun F q => F.set q (max (F.get q) (level f op + 1))) F)
      (f := advance f op) (fun q => by
        rw [get_advance,hF,advance]
        split
        · next hq => have := (isLeast_level f op).1.2 q hq; omega
        · rfl) hops
    refine ⟨G,?_,hget⟩
    unfold assignPlaces
    split
    · next hnil => exact absurd hnil hop
    · simp only [hl,hG]
      rfl
lemma levels_fst (f) (ops : List α) : (levels f ops).map Prod.fst = ops := by
  induction ops generalizing f with
  | nil => rfl
  | cons op ops ih => rw [levels,map_cons,ih]
lemma insertAtFrontier_stacked (hops : ∀ op ∈ ops, qubits op ≠ [] ∧ (qubits op).Nodup)
    (h : Packing (levels (fun _ => 0) ops) (ops.foldl advance fun _ => 0) n) :
    ∃ g, (empty : Circuit α).insertAtFrontier ops 0 [] = (stacked (levels (fun _ => 0) ops) n,.ok g) := by
  have hsize : (levels (fun _ => 0) ops).foldl (fun (m : Int) e => max m (e.2+1)) 0 = n := by
    obtain ⟨h0,hle⟩ := le_foldl_max (fun e : α × Int => e.2+1) (levels (fun _ => 0) ops) 0
    exact le_antisymm (foldl_max_le_iff.mpr ⟨h.size.1.1,fun e he => h.size.1.2 e he trivial⟩) (h.size.2 ⟨h0,fun e he _ => hle e he⟩)
  by_cases hnil : ops = []
  · subst hnil
    obtain rfl : n = 0 := by simpa [levels] using hsize.symm
    exact ⟨[],rfl⟩
  · obtain ⟨G,hG,hget⟩ := assignPlaces_levels (F := []) (f := fun _ => 0) (fun _ => rfl) fun op hop => (hops op hop).1
    obtain ⟨placed,early,late,qs,a,m,k,-,-,ha,-,hk,-,hr,hon,hrun,-⟩ := insertAtFrontier_run (c := empty) (i := 0) (b := 0) (f := [])
      hnil (by simp [Legal,empty]) hops (fun _ _ _ _ => le_rfl) (Nat.zero_le _) (Nat.zero_le _) fun _ _ q _ => by
        rcases (nextOn_spec (empty : Circuit α) 0 q).2 with h | ⟨j,-,-,-,-,h⟩ <;> omega
    obtain ⟨rfl,rfl⟩ : levels (fun _ => 0) ops = placed ∧ G = early := by simpa using hG.symm.trans ha
    obtain rfl : a = 0 := by simpa [empty] using hon.inside
    have hw : widened (empty : Circuit α).moments 0 m = replicate m .empty := by simp [widened,empty]
    have hm : m ≤ n := (hr.enough n).mpr fun q hq => by
      have := hget q ▸ h.le_size q
      have := hr.before_next q hq
      omega
    rw [hw,hsize,length_replicate] at hk
    refine ⟨late,hrun.trans ?_⟩
    rw [stacked,hw,← replicate_add]
    congr 4
    omega
lemma after_of_levels (h : Packing placed f n) (hops : ∀ op ∈ ops, (qubits op).Nodup) {pre post e}
    (heq : levels f ops = pre ++ e :: post) : After (placed ++ pre) (fun o => ¬ (qubits o).Disjoint (qubits e.1)) e.2 := by
  induction ops generalizing placed f n pre with
  | nil => simp [levels] at heq
  | cons op ops ih =>
    obtain ⟨hop,hops⟩ := forall_mem_cons.mp hops
    cases pre with
    | nil =>
      obtain ⟨rfl,-⟩ := cons.inj heq
      simpa using h.after op
    | cons d pre =>
      obtain ⟨rfl,hr⟩ := cons.inj heq
      simpa using ih (h.concat hop) hops hr

/-- Operations appended one after the other stand in the first moment after those of all earlier operations that share a qubit
with them. Insertion at a frontier gives the same circuit, and no circuit without overlap that has the same order on every qubit
is shorter. -/
theorem ofOps_packs (ops : List α) (hops : ∀ op ∈ ops, qubits op ≠ [] ∧ (qubits op).Nodup) :
    ∃ (c : Circuit α) (placed : List (α × Int)), ofOps ops = .ok c ∧ (∃ g, empty.insertAtFrontier ops 0 [] = (c,.ok g)) ∧
      placed.map Prod.fst = ops ∧ (∀ e ∈ placed, e.2 < c.size) ∧
      (∀ pre e post, placed = pre ++ e :: post → After pre (fun o => ¬ (qubits o).Disjoint (qubits e.1)) e.2) ∧
      (∀ k, c.moments[k]? = if k < c.size then some ⟨newAt placed k⟩ else none) ∧
      ∀ d : Circuit α, (∀ m ∈ d.moments, OverlapFree m) → SameOrder d.operations ops → c.size ≤ d.size := by
  obtain ⟨n,hrun,hpacking⟩ := ofOps_stacked fun op hop => (hops op hop).2
  have hsize : (stacked (levels (fun _ => 0) ops) n).size = n := by simp [stacked,Circuit.size]
  refine ⟨_,levels (fun _ => 0) ops,hrun,insertAtFrontier_stacked hops hpacking,levels_fst _ ops,?_,?_,?_,?_⟩
  · rw [hsize]
    exact fun e he => hpacking.size.1.2 e he trivial
  · exact fun pre e post heq => by simpa using after_of_levels packing_nil (fun op hop => (hops op hop).2) heq
  · rw [hsize]
    exact getElem?_stacked _ n
  · intro d hd horder
    rw [hsize]
    rcases Nat.eq_zero_or_pos n with rfl | hn
    · exact Nat.zero_le _
    · obtain ⟨e,-,q,-,htop⟩ := hpacking.exists_top
        (fun e he => (hops e.1 (levels_fst (fun _ => 0) ops ▸ mem_map_of_mem he)).1) hn
      have hbound : d.operations.foldl advance (fun _ => 0) q ≤ 0 + d.size := foldl_advance_le hd (fun _ => le_rfl) le_rfl q
      rw [foldl_advance_sameOrder horder,htop,zero_add] at hbound
      exact Int.ofNat_le.mp hbound
def threeGates : Ops Number := [lineGate .x 0,lineGate .z 1,lineGate .y 0]
theorem threeGates_packed : (∀ op ∈ threeGates, qubits op ≠ [] ∧ (qubits op).Nodup) ∧
    ∃ c g, ofOps threeGates = .ok c ∧ empty.insertAtFrontier threeGates 0 [] = (c,.ok g) ∧ c.size ≤ 2 := by
  have hops : ∀ op ∈ threeGates, qubits op ≠ [] ∧ (qubits op).Nodup := by simp [threeGates]
  obtain ⟨c,-,hc,⟨g,hg⟩,-,-,-,-,hleast⟩ := ofOps_packs threeGates hops
  refine ⟨hops,c,g,hc,hg,hleast ⟨[⟨[lineGate .x 0,lineGate .z 1]⟩,⟨[lineGate .y 0]⟩]⟩ ?_ (.refl threeGates)⟩
  simp [OverlapFree,Moment.allQubits]
end QuantumCircuits.EarliestPacking
