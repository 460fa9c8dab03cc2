import QuantumCircuits.Proofs.SeparatedPhases

/-! # Phases put back into a circuit

Phases in front of a circuit go into it one after the other, each from the end of the graph of those that are left.
Such a phase commutes with all that stay behind it, and is carried past operations that turn its string, commute with
it or act on other qubits. -/
namespace QuantumCircuits.PlacedPhases
open WireOrder Insertion GateActions HalfTurns StringPhases SeparatedPhases PauliPhase List Phasor Graph
open CarriedTurns (evolution evolution_append evolution_cons evolution_sameOrder evolution_upToPhase)
open PauliPassing (stringOperator)
open PauliOperators (phased semiconj_phased)

/-! ## Operations that a phase is carried past -/
section
/-- A phase changes places with operations on other qubits and with phases that it commutes with. -/
def Skips (p : Phasor ℝ) (op : Operation ℝ) : Prop :=
  op.qubits.Disjoint p.string.support ∨ ∃ o, Phasor.of? op = some o ∧ o.string.commutesWith p.string = true

/-- A phase before operations is the second one after them. -/
inductive Passes : Ops ℝ → Phasor ℝ → Phasor ℝ → Prop
  | done (p) : Passes [] p p
  | skipping {op ops p p'} (h : Skips p op) (rest : Passes ops p p') : Passes (op :: ops) p p'
  | turning {op ops p p'} (h : Plain op) (rest : Passes ops (moved true [op] p) p') : Passes (op :: ops) p p'
variable {op : Operation ℝ} {ops : Ops ℝ} {p p' : Phasor ℝ}
lemma Passes.fit (h : Passes ops p p') (hp : Fit p) : Fit p' ∧ p'.halfTurns = p.halfTurns := by
  induction h with
  | done => exact ⟨hp,rfl⟩
  | skipping _ _ ih => exact ih hp
  | turning hop _ ih => exact ih (fit_moved hp (by simpa using hop) true)
lemma plain_of_canCross (h : Standing op) (hc : canCross op) : Plain op := by
  rcases h with (h | ⟨h,-⟩) | h
  · exact h
  · simp [h] at hc
  · obtain ⟨p,hp,rfl⟩ := h.fit
    simp [toOp,hp.phasorOf,canCross] at hc

/-- What is left of a passage when the phases on the way are left out. -/
lemma Passes.filter (h : Passes ops p p') : Passes (ops.filter fun op => !isPhasor op) p p' := by
  induction h with
  | done p => exact .done p
  | skipping h _ ih =>
    rw [filter_cons]
    split
    case isTrue hop => exact .skipping h ih
    case isFalse => exact ih
  | turning hop _ ih => simpa [isPhasor,Regular.of?_eq_none (.inl hop)] using Passes.turning hop ih
variable (u : Matrices)
lemma meant_toOp (h : Fit p) : meant u p.toOp = phased (stringOperator p.string) (turned p.halfTurns.value) := by
  rw [toOp,h.phasorOf]
  rfl
lemma commute_toOp {r} (hr : Fit r) (h : p.string.commutesWith r.string) : Commute (meant u p.toOp) (meant u r.toOp) := by
  rw [meant_toOp u hr]
  have hs := semiconj_phased (commute_of_commutesWith hr.signed.nodup h) (turned r.halfTurns.value)
  exact (semiconj_phased hs.symm _).symm
lemma Skips.commute (h : Skips p op) (hp : Fit p) (hop : Standing op) : Commute (meant u op) (meant u p.toOp) := by
  rcases h with h | ⟨o,ho,h⟩
  · refine meant_apart u _ _ ?_
    rwa [toOp,hp.phasorOf]
  · obtain ⟨hfit,rfl⟩ := hop.fit ho
    exact commute_toOp u hp h
lemma Passes.semiconj (h : Passes ops p p') (hp : Fit p) (hops : ∀ op ∈ ops, Standing op) :
    SemiconjBy (evolution (meant u) ops) (meant u p.toOp) (meant u p'.toOp) := by
  induction h with
  | done => exact SemiconjBy.one_left _
  | skipping h _ ih =>
    rw [evolution_cons]
    exact (ih hp (forall_mem_cons.mp hops).2).mul_left (h.commute u hp (hops _ mem_cons_self))
  | @turning op ops p p' hop _ ih =>
    have hpl : ∀ o ∈ [op], Plain o := by simpa using hop
    have hm := fit_moved hp hpl true
    have hs := PauliPassing.operator_mul_step hop.isClifford hp.signed.nodup
    rw [overlookedCount_plain true p.string hpl,pow_zero,one_smul] at hs
    have hf : SemiconjBy (meant u op) (meant u p.toOp) (meant u (moved true [op] p).toOp) := by
      rw [hop.meant_eq,meant_toOp u hp,meant_toOp u hm]
      exact semiconj_phased hs _
    rw [evolution_cons]
    exact (ih hm (forall_mem_cons.mp hops).2).mul_left hf

/-- A phase put where it can be carried to acts as it did in front. -/
lemma evolution_insert {ls rs} (h : Passes ls p p') (hp : Fit p) (hops : ∀ op ∈ ls ++ rs, Standing op) :
    evolution (meant u) (ls ++ p'.toOp :: rs) = evolution (meant u) (ls ++ rs) * meant u p.toOp := by
  have hpa := h.semiconj u hp fun op hop => hops op (mem_append_left _ hop)
  rw [evolution_append,evolution_cons,evolution_append,mul_assoc,← hpa.eq,mul_assoc]
end

/-! ## The graph of the phases that are left -/
section
structure Ordered (g : Graph ℝ) : Prop where
  increasing : g.numbers.Pairwise (· < ·)
  forth : ∀ e ∈ g.edges, e.1 < e.2 ∧ e.2 ∈ g.numbers
  joined : g.nodes.Pairwise fun a b => a.2.string.commutesWith b.2.string = true ∨ (a.1,b.1) ∈ g.edges
def phases (g : Graph ℝ) : List (Phasor ℝ) := g.nodes.map (·.2)
variable {g : Graph ℝ} {n : ℕ} {p : Phasor ℝ}
lemma ordered_append (h : Ordered g) (hn : g.numbers = range g.nodes.length) (p) :
    Ordered (g.append p) ∧ (g.append p).numbers = range (g.append p).nodes.length := by
  have hnew : (g.append p).numbers = range (g.append p).nodes.length := by
    simpa [append,numbers,range_succ] using hn
  have hno : ∀ a ∈ g.nodes, a.1 < g.nodes.length := fun a ha => mem_range.mp (hn ▸ mem_map_of_mem (f := Prod.fst) ha)
  refine ⟨⟨hnew ▸ pairwise_lt_range,fun e he => ?_,?_⟩,hnew⟩
  · rcases mem_append.mp he with he | he
    · obtain ⟨hlt,hmem⟩ := h.forth e he
      rw [numbers,append,map_append]
      exact ⟨hlt,mem_append_left _ hmem⟩
    · obtain ⟨a,ha,rfl⟩ := mem_map.mp he
      exact ⟨hno a (mem_filter.mp ha).1,by simp [append,numbers]⟩
  · refine pairwise_append.mpr ⟨h.joined.imp fun hab => hab.imp_right (mem_append_left _),pairwise_singleton _ _,fun a ha b hb => ?_⟩
    obtain rfl := mem_singleton.mp hb
    refine or_iff_not_imp_left.mpr fun hab => mem_append_right _ (mem_map.mpr ⟨a,mem_filter.mpr ⟨ha,?_⟩,rfl⟩)
    simpa using hab
lemma ordered_ofPhasors (ps) : Ordered (.ofPhasors ps) ∧ phases (.ofPhasors ps) = ps := by
  have hrun : ∀ g, Ordered g → g.numbers = range g.nodes.length →
      Ordered (ps.foldl append g) ∧ phases (ps.foldl append g) = phases g ++ ps := by
    induction ps with
    | nil => exact fun g h _ => ⟨h,by simp⟩
    | cons p ps ih =>
      intro g h hn
      obtain ⟨ha,hr⟩ := ordered_append h hn p
      obtain ⟨ho,hp⟩ := ih _ ha hr
      exact ⟨ho,hp.trans (by simp [phases,append])⟩
  exact hrun ⟨[],[]⟩ ⟨Pairwise.nil,by simp,Pairwise.nil⟩ rfl
lemma Ordered.remove (h : Ordered g) (n) : Ordered (g.remove n) := by
  have hnu : (g.remove n).numbers = g.numbers.filter (· ≠ n) := by
    simp [numbers,Graph.remove,filter_map,Function.comp_def]
  refine ⟨hnu ▸ h.increasing.filter _,fun e he => ?_,?_⟩
  · obtain ⟨he,hn⟩ := mem_filter.mp he
    rw [hnu]
    exact ⟨(h.forth e he).1,mem_filter.mpr ⟨(h.forth e he).2,by simp_all⟩⟩
  · refine (h.joined.filter _).imp_of_mem fun {a b} ha hb hab => hab.imp_right fun he => mem_filter.mpr ⟨he,?_⟩
    have ha := (mem_filter.mp ha).2
    have hb := (mem_filter.mp hb).2
    simp_all
lemma Ordered.split (h : Ordered g) (hn : g.get? n = some p) :
    ∃ xs ys, g.nodes = xs ++ (n,p) :: ys ∧ (g.remove n).nodes = xs ++ ys := by
  obtain ⟨xs,ys,hno,-⟩ := lookup_eq_some_iff.mp hn
  refine ⟨xs,ys,hno,?_⟩
  have hnd : g.numbers.Nodup := h.increasing.imp Nat.ne_of_lt
  have ho : ∀ e ∈ xs ++ ys, e.1 ≠ n := by
    rw [numbers,hno,map_append] at hnd
    grind
  rw [Graph.remove,hno,filter_append,filter_cons_of_neg (by simp),← filter_append,filter_eq_self]
  simpa using ho
lemma Ordered.last_ne_nil (h : Ordered g) (hne : g.nodes ≠ []) : g.last ≠ [] := by
  obtain ⟨xs,e,hxs⟩ := (eq_nil_or_concat g.nodes).resolve_left hne
  have hn : g.numbers = xs.map (·.1) ++ [e.1] := by simp [numbers,hxs]
  have hmem : e.1 ∈ g.last := by
    simp only [last,mem_filter,hn,mem_append,mem_singleton,or_true,true_and,Bool.not_eq_true',any_eq_false,beq_iff_eq]
    intro f hf hfe
    obtain ⟨hlt,hf⟩ := h.forth f hf
    have hin := h.increasing
    rw [hn,pairwise_append] at hin
    rcases mem_append.mp (hn ▸ hf) with hf | hf
    · exact absurd (hin.2.2 _ hf _ mem_cons_self) (hfe ▸ hlt).not_gt
    · exact hlt.ne (hfe.trans (mem_singleton.mp hf).symm)
  exact ne_nil_of_mem hmem
lemma exists_get? (hn : n ∈ g.numbers) : ∃ p, g.get? n = some p := by
  obtain ⟨e,he,rfl⟩ := mem_map.mp hn
  rw [← Option.isSome_iff_exists,get?,lookup_isSome_iff]
  exact ⟨e,he,beq_self_eq_true _⟩
lemma fit_of_get? (hfit : ∀ p ∈ phases g, Fit p) (hn : g.get? n = some p) : Fit p := by
  obtain ⟨xs,ys,hno,-⟩ := lookup_eq_some_iff.mp hn
  exact hfit p (by simp [phases,hno])
variable (u : Matrices)
/-- A phase that nothing in the graph comes after is carried out last. -/
lemma Ordered.evolution_last (h : Ordered g) (hfit : ∀ p ∈ phases g, Fit p) (hl : n ∈ g.last) (hn : g.get? n = some p) :
    evolution (meant u) ((phases g).map toOp) = meant u p.toOp * evolution (meant u) ((phases (g.remove n)).map toOp) := by
  obtain ⟨xs,ys,hno,hr⟩ := h.split hn
  have he : ∀ b, (n,b) ∉ g.edges := by
    intro b hb
    have hnn := (mem_filter.mp hl).2
    simp only [Bool.not_eq_true',any_eq_false,beq_iff_eq] at hnn
    exact hnn _ hb rfl
  have hj := h.joined
  simp only [phases,hno,forall_mem_map,forall_mem_append,forall_mem_cons] at hfit
  rw [hno,pairwise_append,pairwise_cons] at hj
  have hc : Commute (meant u p.toOp) (evolution (meant u) ((ys.map (·.2)).map toOp)) := by
    refine Commute.list_prod_right _ _ fun x hx => ?_
    simp only [mem_map,mem_reverse] at hx
    obtain ⟨-,⟨-,⟨b,hb,rfl⟩,rfl⟩,rfl⟩ := hx
    refine commute_toOp u (hfit.2.2 b hb) ?_
    exact (hj.2.1.1 b hb).resolve_right (he b.1)
  simp only [phases,hno,hr,map_append,map_cons,evolution_append,evolution_cons]
  rw [← hc.eq,mul_assoc]
end

/-! ## The phases placed one after the other -/
section
def slots : Ops ℝ → List (ℕ × Phasor ℝ)
  | [] => []
  | op :: ops => match Phasor.of? op with
    | some p => (0,p) :: slots ops
    | none => (slots ops).map fun e => (e.1+1,e.2)
variable {g : Graph ℝ} {ops ls rs : Ops ℝ} {n i : ℕ} {p : Phasor ℝ}
lemma slots_eq_nil (h : ∀ op ∈ ops, isPhasor op = false) : slots ops = [] := by
  induction ops with
  | nil => rfl
  | cons op ops ih =>
    obtain ⟨hop,hr⟩ := forall_mem_cons.mp h
    have hn : of? op = none := by simpa [isPhasor] using hop
    simp [slots,hn,ih hr]
lemma slots_insertIdx (hp : Fit p) (ls rs) : (slots (ls ++ p.toOp :: rs)).Perm
    (((ls.filter fun op => !isPhasor op).length,p) :: slots (ls ++ rs)) := by
  induction ls with
  | nil => simp [slots,hp.of?_toOp]
  | cons op ls ih =>
    cases ho : of? op with
    | none => simpa [slots,isPhasor,ho] using ih.map fun e => (e.1+1,e.2)
    | some o => simpa [slots,isPhasor,ho] using (ih.cons (0,o)).trans (.swap ..)
lemma best?_spec {found : List (Placement ℝ)} (h : found ≠ []) : ∃ b ∈ found, Placement.best? found = some b := by
  cases found with
  | nil => exact absurd rfl h
  | cons b found =>
    refine ⟨_,?_,rfl⟩
    have hf : ∀ c ∈ b :: found, found.foldl (fun b p => if p.better b then p else b) c ∈ b :: found := by
      refine fun c hc => foldlRecOn found _ hc fun a ha p hp => ?_
      split
      · exact mem_cons_of_mem _ hp
      · exact ha
    exact hf b mem_cons_self

/-- Operations with phases put among them: the others stay in their order, each phase is one of those in front carried past
the others before it, and acts as it did in front. -/
structure Placed (ps : List (Phasor ℝ)) (ops placed : Ops ℝ) : Prop where
  standing : ∀ op ∈ placed, Standing op
  regular : (placed.filter fun op => !isPhasor op) = ops.filter fun op => !isPhasor op
  carried : ∃ es : List (Phasor ℝ × ℕ × Phasor ℝ), (es.map (·.1)).Perm ps ∧ (slots placed).Perm (es.map (·.2) ++ slots ops) ∧
    ∀ e ∈ es, e.2.2.halfTurns = e.1.halfTurns ∧ Passes ((ops.filter fun op => !isPhasor op).take e.2.1) e.1 e.2.2
  evolution_eq : ∀ u, evolution (meant u) placed = evolution (meant u) ops * evolution (meant u) (ps.map Phasor.toOp)
lemma placed_one (h : Passes ls p p') (hp : Fit p) (hops : ∀ op ∈ ls ++ rs, Standing op) :
    Placed [p] (ls ++ rs) (ls ++ p'.toOp :: rs) := by
  obtain ⟨hfit,ht⟩ := h.fit hp
  refine ⟨?_,?_,⟨[(p,_,p')],.refl _,slots_insertIdx hfit ls rs,?_⟩,fun u => ?_⟩
  · simp only [forall_mem_append,forall_mem_cons] at hops ⊢
    exact ⟨hops.1,.inr hfit.phasing,hops.2⟩
  · simp [isPhasor,hfit.of?_toOp]
  · simpa [ht] using h.filter
  · rw [evolution_insert u h hp hops]
    simp
lemma Placed.trans {ps qs : List (Phasor ℝ)} {mid placed : Ops ℝ} (h : Placed qs ops mid)
    (h' : Placed ps mid placed) : Placed (ps ++ qs) ops placed := by
  obtain ⟨es,hes,hs,hp⟩ := h.carried
  obtain ⟨es',hes',hs',hp'⟩ := h'.carried
  rw [h.regular] at hp'
  refine ⟨h'.standing,h'.regular.trans h.regular,⟨es' ++ es,?_,?_,forall_mem_append.mpr ⟨hp',hp⟩⟩,fun u => ?_⟩
  · simpa using hes'.append hes
  · simpa using hs'.trans (hs.append_left _)
  · rw [h'.evolution_eq,h.evolution_eq,map_append,evolution_append,mul_assoc]
variable [OperationText ℝ]
lemma placementsFrom_skip (h : Skips p op) : placementsFrom n (op :: ops) i p = placementsFrom n ops (i+1) p := by
  refine if_pos ?_
  rcases h with h | ⟨o,ho,h⟩
  · have hf : (op.qubits.all fun q => !p.string.support.contains q) := by simpa using fun q hq => h hq
    rw [hf,Bool.true_or]
  · simp [ho,h]
lemma placementsFrom_stay (h : ¬ Skips p op) : placementsFrom n (op :: ops) i p = if canCross op then do
      let p ← p.pass true [op]
      let (rest,last) ← placementsFrom n ops (i+1) p
      .ok (⟨p,i+1,n⟩ :: rest,last)
    else .ok ([],p) := by
  refine if_neg fun hs => h ?_
  rcases Bool.or_eq_true _ _ ▸ hs with hf | hc
  · exact .inl fun q hq hmem => by simpa [hmem] using all_eq_true.mp hf q hq
  · cases ho : of? op with
    | none => simp [ho] at hc
    | some o => exact .inr ⟨o,ho,by simpa [ho] using hc⟩
lemma pass_plain (hop : Plain op) (p : Phasor ℝ) : p.pass true [op] = .ok (moved true [op] p) := by
  have hp := PauliPassing.passOperations_eq true p.string (forall_mem_singleton.mpr hop.isClifford)
  simp only [Phasor.pass,hp]
  rfl
lemma placementsFrom_spec (hp : Fit p) (hops : ∀ op ∈ ops, Standing op) :
    ∃ found last, placementsFrom n ops i p = .ok (found,last) ∧
      ∀ b ∈ found, b.node = n ∧ ∃ ls rs, ops = ls ++ rs ∧ b.index = i+ls.length ∧ Passes ls p b.phasor := by
  induction ops generalizing i p with
  | nil => exact ⟨[],p,rfl,by simp⟩
  | cons op ops ih =>
    have hr : ∀ o ∈ ops, Standing o := (forall_mem_cons.mp hops).2
    by_cases hs : Skips p op
    · obtain ⟨found,last,heq,hf⟩ := ih (i := i+1) hp hr
      refine ⟨found,last,(placementsFrom_skip hs).trans heq,fun b hb => ?_⟩
      obtain ⟨hn,ls,rs,rfl,hi,hpa⟩ := hf b hb
      exact ⟨hn,op :: ls,rs,rfl,by simp [hi,add_assoc,add_comm 1],.skipping hs hpa⟩
    · rw [placementsFrom_stay hs]
      split
      case isFalse => exact ⟨[],p,rfl,by simp⟩
      case isTrue hc =>
        have hop := plain_of_canCross (hops op mem_cons_self) hc
        have hm : Fit (moved true [op] p) := fit_moved hp (by simpa using hop) true
        obtain ⟨found,last,heq,hf⟩ := ih (i := i+1) hm hr
        refine ⟨⟨moved true [op] p,i+1,n⟩ :: found,last,by rw [pass_plain hop]; simp [bind,Except.bind,heq],?_⟩
        refine forall_mem_cons.mpr ⟨⟨rfl,[op],ops,rfl,rfl,.turning hop (.done _)⟩,fun b hb => ?_⟩
        obtain ⟨hn,ls,rs,rfl,hi,hpa⟩ := hf b hb
        exact ⟨hn,op :: ls,rs,rfl,by simp [hi,add_assoc,add_comm 1],.turning hop hpa⟩
def Fits (g : Graph ℝ) (ops : Ops ℝ) (b : Placement ℝ) : Prop :=
  ∃ p ls rs, g.get? b.node = some p ∧ ops = ls ++ rs ∧ b.index = ls.length ∧ Passes ls p b.phasor
lemma placements_spec (hfit : ∀ p ∈ phases g, Fit p) (hops : ∀ op ∈ ops, Standing op) {ns} (hns : ns ⊆ g.numbers) :
    ∃ found, placements g ops ns = .ok found ∧ (ns ≠ [] → found ≠ []) ∧ ∀ b ∈ found, b.node ∈ ns ∧ Fits g ops b := by
  induction ns with
  | nil => exact ⟨[],rfl,by simp,by simp⟩
  | cons n ns ih =>
    obtain ⟨hn,hns⟩ := cons_subset.mp hns
    obtain ⟨p,hp⟩ := exists_get? hn
    obtain ⟨found,last,heq,hfo⟩ := placementsFrom_spec (n := n) (i := 0) (fit_of_get? hfit hp) hops
    obtain ⟨more,hmo,-,hm⟩ := ih hns
    have hf : ∀ b ∈ ⟨p,0,n⟩ :: found, b.node ∈ n :: ns ∧ Fits g ops b := by
      refine forall_mem_cons.mpr ⟨⟨mem_cons_self,p,[],ops,hp,rfl,rfl,.done p⟩,fun b hb => ?_⟩
      obtain ⟨rfl,ls,rs,hs,hi,hpa⟩ := hfo b hb
      exact ⟨mem_cons_self,p,ls,rs,hp,hs,by simpa using hi,hpa⟩
    have heqs : placements g ops (n :: ns) = if last.string.size == 1 then .ok (⟨p,0,n⟩ :: found) else .ok (⟨p,0,n⟩ :: found ++ more) := by
      rw [placements,hp]
      simp only [heq,hmo]
      rfl
    rw [heqs]
    split
    · exact ⟨_,rfl,by simp,hf⟩
    · exact ⟨_,rfl,by simp,forall_mem_append.mpr ⟨hf,fun b hb => (hm b hb).imp_left (mem_cons_of_mem _)⟩⟩
lemma place_spec {arrange} (ha : ∀ l, (arrange l).Perm l) (k) (hk : g.nodes.length = k) (h : Ordered g)
    (hfit : ∀ p ∈ phases g, Fit p) (hops : ∀ op ∈ ops, Standing op) :
    ∃ rest placed, place arrange k g ops = .ok (rest,placed) ∧ rest.nodes = [] ∧ Placed (phases g) ops placed := by
  induction k generalizing g ops with
  | zero =>
    have hnil : g.nodes = [] := length_eq_zero_iff.mp hk
    refine ⟨g,ops,rfl,hnil,hops,rfl,⟨[],by simp [phases,hnil]⟩,fun u => by simp [phases,hnil]⟩
  | succ k ih =>
    have hl : arrange g.last ≠ [] := by
      intro hnil
      refine h.last_ne_nil (fun h0 => by simp [h0] at hk) ?_
      simpa [hnil] using ha g.last
    have hs : arrange g.last ⊆ g.numbers := fun n hn => (mem_filter.mp ((ha _).mem_iff.mp hn)).1
    obtain ⟨found,heq,hne,hf⟩ := placements_spec hfit hops hs
    obtain ⟨b,hb,hbe⟩ := best?_spec (hne hl)
    obtain ⟨hnd,p,ls,rs,hp,rfl,hidx,hpa⟩ := hf b hb
    obtain ⟨xs,ys,hno,hre⟩ := h.split hp
    have hone := placed_one hpa (fit_of_get? hfit hp) hops
    have hk' : (g.remove b.node).nodes.length = k := by simpa [hno,hre,← add_assoc] using hk
    have hfit' : ∀ p ∈ phases (g.remove b.node), Fit p := by
      intro r hr
      refine hfit r ?_
      simp only [phases] at hr ⊢
      grind
    obtain ⟨rest,placed,hrun,hrs,hpl⟩ := ih hk' (h.remove _) hfit' hone.standing
    have hall := hone.trans hpl
    have hpe : (phases (g.remove b.node) ++ [p]).Perm (phases g) := by
      simpa [phases,hno,hre] using (perm_append_singleton p _).append_left _
    obtain ⟨es,hes,hsl⟩ := hall.carried
    refine ⟨rest,placed,?_,hrs,hall.standing,hall.regular,⟨es,hes.trans hpe,hsl⟩,fun u => ?_⟩
    · have hst : place arrange (k+1) g (ls ++ rs) = place arrange k (g.remove b.node) ((ls ++ rs).insertIdx b.index b.phasor.toOp) := by
        rw [place,heq]
        simp only [bind,Except.bind,hbe]
      rw [hst,hidx,insertIdx_length,hrun]
    · rw [hall.evolution_eq,h.evolution_last u hfit ((ha _).mem_iff.mp hnd) hp,map_append,evolution_append _ (map _ [p])]
      simp

/-- Phases in front of a circuit of rotations, controlled phases and operations that nothing is moved across all find their
places. Each keeps its half turns and skips or is turned by the operations before its place, and the result has the effect of
the phases followed by the circuit. -/
theorem recombine_keeps_effect (arrange : List ℕ → List ℕ) (harrange : ∀ l, (arrange l).Perm l) (left right : Circuit (Operation ℝ))
    (hleft : ∀ op ∈ left.operations, Phasing op) (hright : ∀ op ∈ right.operations, Regular op ∧ op.qubits.Nodup) :
    ∃ d placed, recombine arrange (.ofPhasors (left.operations.filterMap Phasor.of?)) right = .ok d ∧
      SameOrder d.operations placed ∧ (placed.filter fun op => !isPhasor op) = right.operations ∧
      (∃ es : List (Phasor ℝ × ℕ × Phasor ℝ), (es.map (·.1)).Perm (left.operations.filterMap Phasor.of?) ∧
        (slots placed).Perm (es.map (·.2)) ∧
        ∀ e ∈ es, e.2.2.halfTurns = e.1.halfTurns ∧ Passes (right.operations.take e.2.1) e.1 e.2.2) ∧
      ∀ u, UpToPhase (evolution (effect u) d.operations) (evolution (effect u) (left.operations ++ right.operations)) := by
  obtain ⟨hordered,hphases⟩ := ordered_ofPhasors (left.operations.filterMap Phasor.of?)
  have hfit : ∀ p ∈ left.operations.filterMap Phasor.of?, Fit p := by
    intro p hp
    obtain ⟨op,hop,hof⟩ := mem_filterMap.mp hp
    exact (Standing.fit (Or.inr (hleft op hop)) hof).1
  have hops : ∀ op ∈ right.operations, Standing op := fun op hop => Or.inl (hright op hop).1
  obtain ⟨rest,placed,hplace,hnil,hplaced⟩ := place_spec harrange _ rfl hordered (hphases.symm ▸ hfit) hops
  have hnot : ∀ op ∈ right.operations, isPhasor op = false := fun op hop => by simp [isPhasor,(hright op hop).1.of?_eq_none]
  have hregular : (right.operations.filter fun op => !isPhasor op) = right.operations :=
    filter_eq_self.mpr fun op hop => by rw [hnot op hop]; rfl
  have hslots : slots right.operations = [] := slots_eq_nil hnot
  have hkept := hplaced.regular.trans hregular
  have hnodup : ∀ op ∈ placed, op.qubits.Nodup := by
    intro op hop
    cases ho : Phasor.of? op with
    | none => exact (hright op (hkept ▸ mem_filter.mpr ⟨hop,by simp [isPhasor,ho]⟩)).2
    | some o =>
      obtain ⟨hfit,rfl⟩ := (hplaced.standing op hop).fit ho
      rw [Phasor.toOp,hfit.phasorOf]
      exact hfit.signed.nodup
  obtain ⟨d,hd,-,horder⟩ := ofOps_order hnodup
  refine ⟨d,placed,?_,horder,hkept,?_,fun u => ?_⟩
  · rw [recombine,hplace]
    simpa [bind,Except.bind,hnil] using hd
  · simpa [hslots,hregular,hphases] using hplaced.carried
  · have hleft' : left.operations = (left.operations.filterMap Phasor.of?).map Phasor.toOp := by
      rw [← filter_isPhasor fun op hop => Or.inr (hleft op hop),filter_eq_self.mpr fun op hop => ?_]
      obtain ⟨p,hp,rfl⟩ := (hleft op hop).fit
      rw [isPhasor,hp.of?_toOp,Option.isSome_some]
    have hall : ∀ op ∈ left.operations ++ right.operations, UpToPhase (effect u op) (meant u op) :=
      forall_mem_append.mpr ⟨fun op hop => (hleft op hop).effect_upToPhase u,fun op hop => (hops op hop).effect_upToPhase u⟩
    calc UpToPhase (evolution (effect u) d.operations) (evolution (meant u) d.operations) :=
          evolution_upToPhase fun op hop => (hplaced.standing op (horder.perm.mem_iff.mp hop)).effect_upToPhase u
      UpToPhase _ (evolution (meant u) (left.operations ++ right.operations)) := by
          rw [evolution_sameOrder (meant_apart u) horder,hplaced.evolution_eq,hphases,← hleft',evolution_append]
      UpToPhase _ (evolution (effect u) (left.operations ++ right.operations)) := (evolution_upToPhase hall).symm
end
noncomputable def acrossTwo : OpCircuit ℝ := ⟨[⟨[.phasorOf ⟨[(.line 0,.x),(.line 1,.z)],1⟩ (.num (RealScalar.ratio 1 3))]⟩]⟩
def joinedReading : OpCircuit ℝ where
  moments := [⟨[.gate (.clifford .hadamard) [.line 0]]⟩,⟨[.gate (.power .cz (.num 1) 0 false) [.line 0,.line 1]]⟩,
    ⟨[.gate (.measurement 2 "m" []) [.line 0,.line 1]]⟩]
theorem acrossTwo_recombined :
    letI : OperationText ℝ := ⟨fun _ => "",fun _ => "",fun _ => ""⟩
    (∀ op ∈ acrossTwo.operations, Phasing op) ∧ (∀ op ∈ joinedReading.operations, Regular op ∧ op.qubits.Nodup) ∧
      ∃ d, recombine id (.ofPhasors (acrossTwo.operations.filterMap Phasor.of?)) joinedReading = .ok d ∧
        ∀ u, UpToPhase (evolution (effect u) d.operations) (evolution (effect u) (acrossTwo.operations ++ joinedReading.operations)) := by
  let _ := Exact.silentText
  have hleft : ∀ op ∈ acrossTwo.operations, Phasing op := by
    simp only [acrossTwo,Circuit.operations,flatMap_cons,flatMap_nil,append_nil,forall_mem_singleton]
    exact .mk ⟨by decide,Or.inl rfl⟩ _
  have hright : ∀ op ∈ joinedReading.operations, Regular op ∧ op.qubits.Nodup := by
    simp only [joinedReading,Circuit.operations,flatMap_cons,flatMap_nil,append_nil,cons_append,
      nil_append,forall_mem_cons]
    exact ⟨⟨Or.inl (.rotation (by decide) _),by decide⟩,⟨Or.inl (.phase (by decide) _ _),by decide⟩,
      ⟨Or.inr ⟨rfl,rfl⟩,by decide⟩,by simp⟩
  obtain ⟨d,-,hd,-,-,-,heffect⟩ := recombine_keeps_effect id (fun _ => .refl _) acrossTwo joinedReading hleft hright
  exact ⟨hleft,hright,d,hd,heffect⟩
end QuantumCircuits.PlacedPhases
