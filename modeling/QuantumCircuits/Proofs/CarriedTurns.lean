import QuantumCircuits.Proofs.CircuitEdits
import QuantumCircuits.Proofs.HalfTurns

/-! # Half turns on their way to the end

The pass that moves half turns to the end holds at most one for each qubit. What becomes of an operation that they
cross is a change of the circuit. A power at any whole exponent is taken for a half turn, though, and at the even ones
this is wrong. -/
namespace QuantumCircuits.CarriedTurns
noncomputable section
open List hiding product
open Exact WireOperators PauliOperators GateActions WireOrder CircuitEdits HalfTurns Gate Param Change Operation Prod Turning
open PauliPassing (operator operator_gate)
variable {op : Operation ℝ} {s : EjectPauli.State ℝ} {q : Qubit} {ws : Ops ℝ}

/-! ## What is held -/
section
open EjectPauli
structure Fit (held : List (Qubit × Param ℝ)) : Prop where
  nodup : (held.map Prod.fst).Nodup
  numbers : ∀ e ∈ held, ∃ a, e.2 = .num a
def turnAt (q : Qubit) : Option (Param ℝ) → Operator Qubit
  | some a => wire q (equator a.value)
  | none => 1
lemma turnAt_num (q a) : turnAt q (some (.num a)) = wire q (equator a) := rfl
def heldTurns (held : List (Qubit × Param ℝ)) : Operator Qubit := (held.map fun e => wire e.1 (equator e.2.value)).prod
variable {s : State ℝ}
lemma held?_eq_none : s.held? q = none ↔ ∀ e ∈ s.held, e.1 ≠ q := by simp [State.held?]
lemma held?_release (s : State ℝ) (q r) : (s.release q).held? r = if r = q then none else s.held? r := by
  by_cases h : r = q
  · simp [State.held?,State.release,h]
  · have hkey : ∀ e : Qubit × Param ℝ, e.1 ≠ q ∧ e.1 = r ↔ e.1 = r := fun e => and_iff_right_of_imp (· ▸ h)
    simp [State.held?,State.release,hkey,if_neg h]
lemma held?_hold (s : State ℝ) (q r p) : (s.hold q p).held? r = if r = q then some p else s.held? r := by
  have hs : (s.hold q p).held? r = ((s.release q).held? r).or (if q = r then some p else none) := by
    simp only [State.held?,State.hold,find?_append]
    cases (s.release q).held.find? fun e => decide (e.1 = r) <;> simp
  rw [hs,held?_release]
  by_cases h : r = q
  · simp [h]
  · simp [h,Ne.symm h]
lemma Fit.release (h : Fit s.held) (q) : Fit (s.release q).held where
  nodup := h.nodup.sublist (filter_sublist.map _)
  numbers e he := h.numbers e (mem_filter.mp he).1
lemma Fit.hold (h : Fit s.held) (q) (a : ℝ) : Fit (s.hold q (.num a)).held where
  nodup := by
    have hnew : ∀ e ∈ (s.release q).held, e.1 ≠ q := fun e he => by simpa using (mem_filter.mp he).2
    simp only [State.hold,map_append]
    refine nodup_append.mpr ⟨(h.release q).nodup,nodup_singleton q,?_⟩
    intro r hr r' hr'
    obtain ⟨e,he,rfl⟩ := mem_map.mp hr
    rw [mem_singleton.mp hr']
    exact hnew e he
  numbers e he := by
    rcases mem_append.mp he with he | he
    · exact (h.release q).numbers e he
    · rw [mem_singleton.mp he]
      exact ⟨a,rfl⟩
lemma Fit.exists_num (h : Fit s.held) {p} (hp : s.held? q = some p) : ∃ a, p = .num a := by
  obtain ⟨e,he,rfl⟩ := Option.map_eq_some_iff.mp hp
  exact h.numbers e (mem_of_find?_eq_some he)
lemma commute_heldTurns {a} (h : ∀ e ∈ held, ∀ m, Commute a (wire e.1 m)) : Commute a (heldTurns held) := by
  refine .list_prod_right _ _ fun x hx => ?_
  obtain ⟨e,he,rfl⟩ := mem_map.mp hx
  exact h e he _
lemma wire_commute_release (s : State ℝ) (q m) :
    Commute (wire q m) (heldTurns (s.release q).held) := by
  refine commute_heldTurns fun e he m' => wire_commute ?_ m m'
  have hne : e.1 ≠ q := by simpa using (mem_filter.mp he).2
  exact hne.symm
lemma heldTurns_eq (h : Fit s.held) (q) : heldTurns s.held = turnAt q (s.held? q) * heldTurns (s.release q).held := by
  have ht : turnAt q (s.held? q) = (s.held.find? fun e => e.1 = q).elim 1 fun e => wire q (equator e.2.value) := by
    unfold State.held?
    cases s.held.find? fun e => decide (e.1 = q) <;> rfl
  rw [ht]
  exact PauliPassing.prod_wires (fun p : Param ℝ => equator p.value) h.nodup q
lemma heldTurns_hold (s : State ℝ) (q a) :
    heldTurns (s.hold q (.num a)).held = wire q (equator a) * heldTurns (s.release q).held := by
  have ha : heldTurns (s.hold q (.num a)).held = heldTurns (s.release q).held * wire q (equator a) := by
    simp [heldTurns,State.hold,value,value?]
  rw [ha,(wire_commute_release s q _).eq]
end

/-! ## One operation after the other -/
section
abbrev Reading := Operation ℝ → Operator Qubit
/-- The operator of operations one after the other, the last one on the left. -/
def evolution (effect : Reading) (ops : Ops ℝ) : Operator Qubit :=
  (ops.reverse.map effect).prod
@[simp] lemma evolution_nil : evolution effect [] = 1 := rfl
@[simp] lemma evolution_singleton (op) : evolution effect [op] = effect op := by simp [evolution]
lemma evolution_append (xs ys) : evolution effect (xs ++ ys) = evolution effect ys * evolution effect xs := by
  simp [evolution]
lemma evolution_cons (op) (ops : Ops ℝ) : evolution effect (op :: ops) = evolution effect ops * effect op := by
  simp [evolution]
lemma evolution_sameOrder [OperationText ℝ]
    (hc : ∀ a b : Operation ℝ, a.qubits.Disjoint b.qubits → Commute (effect a) (effect b)) {xs ys} (h : SameOrder xs ys) :
    evolution effect xs = evolution effect ys := by
  have hop : ∀ ops, evolution effect ops = (product (fun op => MulOpposite.op (effect op)) ops).unop := fun ops => by
    simp [evolution,product,MulOpposite.unop_list_prod,Function.comp_def]
  rw [hop,hop,h.product_eq fun a b hab => (hc a b hab).op]
structure OnQubits (effect : Reading) : Prop where
  exists_act : ∀ op : Operation ℝ, ∃ m, effect op = act op.qubits.get m
namespace OnQubits
variable (h : OnQubits effect)
include h
lemma commute (op) {q} (m) (hq : q ∉ op.qubits) : Commute (effect op) (wire q m) := by
  obtain ⟨m',hm'⟩ := h.exists_act op
  rw [hm']
  exact act_commute_wire hq _ _
lemma apart (a b) (hab : a.qubits.Disjoint b.qubits) : Commute (effect a) (effect b) := by
  obtain ⟨m,hm⟩ := h.exists_act a
  obtain ⟨m',hm'⟩ := h.exists_act b
  rw [hm,hm']
  exact act_commute_act hab _ _
end OnQubits
structure Reads (effect : Reading) : Prop extends OnQubits effect where
  turning : ∀ {op}, Turning op → effect op = operator op
def IsWhole (op : Operation ℝ) : Prop := ∃ (n : ℤ) (p : ℝ) (q : Qubit), turnOf? op = some ((n : ℝ),p,q)
open Classical in
/-- Turns at whole exponents read as half turns. -/
def asHalfTurns (effect : Reading) (op : Operation ℝ) : Operator Qubit :=
  match turnOf? op with
  | some (_,p,q) => if IsWhole op then wire q (equator p) else effect op
  | none => effect op
lemma asHalfTurns_of_not_isWhole (h : ¬ IsWhole op) : asHalfTurns effect op = effect op := by
  unfold asHalfTurns
  cases turnOf? op with
  | none => rfl
  | some t => exact if_neg h
lemma asHalfTurns_of_isWhole {e p} (h : turnOf? op = some (e,p,q)) (hw : IsWhole op) :
    asHalfTurns effect op = wire q (equator p) := by
  unfold asHalfTurns
  rw [h]
  exact if_pos hw
lemma isWhole_iff {e p} (h : turnOf? op = some (e,p,q)) : IsWhole op ↔ ∃ n : ℤ, e = n := by
  constructor
  · rintro ⟨n,p',q',h'⟩
    rw [h,Option.some.injEq,Prod.mk.injEq] at h'
    exact ⟨n,h'.1⟩
  · rintro ⟨n,rfl⟩
    exact ⟨n,p,q,h⟩
open Classical in
/-- Where a half turn is carried after an operation: turns at whole exponents take one up or meet the one that is there,
and operations other than turns stop it. -/
def carry (h : Qubit → Bool) (op : Operation ℝ) : Qubit → Bool := fun q =>
  if q ∈ op.qubits then (if IsWhole op then !h q else if Turning op then h q else false) else h q
def takenIn (h : Qubit → Bool) (op : Operation ℝ) : Ops ℝ :=
  if op.isMeasurement then (op.qubits.filter h).map fun q => .gate .X [q] else []

/-- Operations with the flips that measurements take in put after these. -/
def restored : (Qubit → Bool) → Ops ℝ → Ops ℝ
  | _, [] => []
  | h, op :: ops => op :: (takenIn h op ++ restored (carry h op) ops)
lemma carry_of_isWhole (hw : IsWhole op) (h : Qubit → Bool) (q) : carry h op q = if q ∈ op.qubits then !h q else h q := by
  simp only [carry,if_pos hw]
lemma carry_of_turning (ht : Turning op) (hw : ¬ IsWhole op) (h : Qubit → Bool) : carry h op = h := by
  funext q
  simp only [carry,if_neg hw,if_pos ht,ite_self]
lemma carry_of_not_turning (ht : ¬ Turning op) (h : Qubit → Bool) (q) : carry h op q = if q ∈ op.qubits then false else h q := by
  have hw : ¬ IsWhole op := fun ⟨_,_,_,h⟩ => ht (.equator h)
  simp only [carry,if_neg hw,if_neg ht]
lemma takenIn_of_not_isMeasurement (h : op.isMeasurement = false) (held : Qubit → Bool) : takenIn held op = [] := by
  rw [takenIn,h]
  rfl
lemma evolution_read (hm : op.isMeasurement = false) (hw : ¬ IsWhole op) (held : Qubit → Bool) :
    evolution (asHalfTurns effect) (op :: takenIn held op) = effect op := by
  rw [takenIn_of_not_isMeasurement hm,evolution_singleton,asHalfTurns_of_not_isWhole hw]
lemma evolution_read_whole {e p} (h : turnOf? op = some (e,p,q)) (hw : IsWhole op) (held : Qubit → Bool) :
    evolution (asHalfTurns effect) (op :: takenIn held op) = wire q (equator p) := by
  rw [takenIn_of_not_isMeasurement (equator h).isMeasurement,evolution_singleton,asHalfTurns_of_isWhole h hw]
end

/-! ## Putting half turns back -/
section
open EjectPauli
variable {effect : Reading}
lemma turning_phasedXOf (p e s q) : Turning (.gate (.phasedXOf (.num p) (.num e) s) [q]) := by
  obtain ⟨e',p',ht,-⟩ := turnOf?_phasedXOf p e s q
  exact .equator ht
lemma Reads.phasedXOf (hreads : Reads effect) (p e s q) :
    UpToPhase (effect (.gate (.phasedXOf (.num p) (.num e) s) [q])) (wire q (phased (equator p) (turned e))) := by
  rw [hreads.turning (turning_phasedXOf p e s q)]
  exact operator_phasedXOf p e s q
def putBack (i : ℕ) (s : State ℝ) (q : Qubit) : State ℝ := match s.held? q with
  | some p => (s.edit (·.insert i (.gate (.phasedXOf p (.num one) nought) [q]))).release q
  | none => s
lemma dump_eq (i qs s) : s.dump i qs = (Qubit.sort qs).foldl (putBack i) s := by
  refine congrArg (fun f => foldl f s (Qubit.sort qs)) (funext fun s => funext fun q => ?_)
  unfold putBack
  cases s.held? q <;> rfl
lemma mem_sort {qs} : q ∈ Qubit.sort qs ↔ q ∈ qs := (mergeSort_perm qs Qubit.le).mem_iff
variable [OperationText ℝ]
structure PutBack (effect : Reading) (i : ℕ) (qs : Qubits) (s s' : State ℝ) (ws : Ops ℝ) :
    Prop where
  edits : s'.edits = { s.edits with inserted := s.edits.inserted ++ ws.map fun w => ((i : Int),w) }
  held : ∀ r, s'.held? r = if r ∈ qs then none else s.held? r
  fit : Fit s'.held
  turns : UpToPhase (heldTurns s.held) (heldTurns s'.held * evolution effect ws)
  turning : ∀ w ∈ ws, Turning w
  on_qubit : ∀ w ∈ ws, ∃ q ∈ qs, (s.held? q).isSome ∧ w.qubits = [q]
  free : OverlapFree ⟨ws⟩
lemma putBack_step (hreads : Reads effect) (i q) (hfit : Fit s.held) : ∃ ws, PutBack effect i [q] s (putBack i s q) ws := by
  cases hq : s.held? q with
  | none =>
    have hs : putBack i s q = s := by rw [putBack,hq]
    rw [hs]
    refine ⟨[],by simp,fun r => ?_,hfit,?_,by simp,by simp,overlapFree_empty⟩
    · by_cases hr : r = q <;> simp [hr,hq]
    · rw [evolution_nil,mul_one]
  | some p =>
    obtain ⟨a,rfl⟩ := hfit.exists_num hq
    have hs : putBack i s q =
        (s.edit (·.insert i (.gate (.phasedXOf (.num a) (.num one) nought) [q]))).release q := by
      rw [putBack,hq]
    have he := hreads.phasedXOf a one nought q
    have hone : turned one = -1 := by simpa [one] using turned_one
    rw [hone,phased_neg_one] at he
    have ht : heldTurns s.held = heldTurns (s.release q).held * wire q (equator a) := by
      rw [heldTurns_eq hfit q,hq,← (wire_commute_release s q _).eq]
      rfl
    rw [hs]
    refine ⟨[_],rfl,fun r => ?_,hfit.release q,?_,?_,?_,overlapFree_singleton.mpr (nodup_singleton q)⟩
    · simp only [mem_singleton]
      exact held?_release s q r
    · rw [ht]
      exact he.symm.mul_left _
    · exact forall_mem_singleton.mpr (turning_phasedXOf a one _ q)
    · exact forall_mem_singleton.mpr ⟨q,mem_singleton_self q,by simp [hq],rfl⟩
lemma PutBack.append {s' s'' : State ℝ} {vs : Ops ℝ} (h : PutBack effect i qs s s' ws)
    (h' : PutBack effect i rs s' s'' vs) : PutBack effect i (qs ++ rs) s s'' (ws ++ vs) := by
  -- What was put back first is no longer held, so the two groups are on different qubits.
  have hl : ∀ v ∈ vs, ∃ r ∈ rs, r ∉ qs ∧ (s.held? r).isSome ∧ v.qubits = [r] := by
    intro v hv
    obtain ⟨r,hr,hh,hqu⟩ := h'.on_qubit v hv
    rw [h.held] at hh
    by_cases hrq : r ∈ qs
    · simp [hrq] at hh
    · rw [if_neg hrq] at hh
      exact ⟨r,hr,hrq,hh,hqu⟩
  refine ⟨?_,fun r => ?_,h'.fit,?_,forall_mem_append.mpr ⟨h.turning,h'.turning⟩,fun w hw => ?_,overlapFree_append h.free h'.free ?_⟩
  · rw [h'.edits,h.edits]
    simp
  · rw [h'.held,h.held]
    by_cases hr : r ∈ qs <;> simp [hr]
  · rw [evolution_append]
    exact h.turns.trans (h'.turns.mul_right _)
  · rcases mem_append.mp hw with hw | hw
    · obtain ⟨q,hq,hh⟩ := h.on_qubit w hw
      exact ⟨q,mem_append_left _ hq,hh⟩
    · obtain ⟨r,hr,-,hh⟩ := hl w hw
      exact ⟨r,mem_append_right _ hr,hh⟩
  · intro x hx y hy r hrx hry
    obtain ⟨q,hq,-,hqu⟩ := h.on_qubit x hx
    obtain ⟨r',-,hnot,-,hqu'⟩ := hl y hy
    have hrq : r ∈ x.qubits := hrx
    have hrr : r ∈ y.qubits := hry
    rw [hqu,mem_singleton] at hrq
    rw [hqu',mem_singleton] at hrr
    exact hnot (hrr ▸ hrq ▸ hq)
variable (hreads : Reads effect) (i : ℕ) (qs : Qubits) (hfit : Fit s.held)
include hreads hfit
lemma putBack_run : ∃ ws, PutBack effect i qs s (qs.foldl (putBack i) s) ws := by
  induction qs generalizing s with
  | nil =>
    refine ⟨[],by simp,fun r => by simp,hfit,?_,by simp,by simp,overlapFree_empty⟩
    rw [evolution_nil,mul_one,foldl_nil]
  | cons q qs ih =>
    obtain ⟨ws,hws⟩ := putBack_step hreads i q hfit
    obtain ⟨vs,hvs⟩ := ih hws.fit
    exact ⟨ws ++ vs,hws.append hvs⟩
lemma dump_putBack : ∃ ws, PutBack effect i qs s (s.dump i qs) ws := by
  obtain ⟨ws,hws⟩ := putBack_run hreads i (Qubit.sort qs) hfit
  rw [← dump_eq] at hws
  refine ⟨ws,hws.edits,fun r => ?_,hws.fit,hws.turns,hws.turning,fun w hw => ?_,hws.free⟩
  · rw [hws.held]
    simp only [mem_sort]
  · obtain ⟨q,hq,hh⟩ := hws.on_qubit w hw
    exact ⟨q,mem_sort.mp hq,hh⟩
end

/-! ## One operation -/
section
open EjectPauli
variable {effect : Reading} {s : State ℝ} {i : ℕ} {a b e p t : ℝ}
def followed (e : Edits ℝ) (ts : List (Change (Operation ℝ))) : Edits ℝ where
  removed := e.removed ++ noted Change.taken ts
  added := e.added ++ noted Change.put ts
  inserted := e.inserted ++ noted Change.before ts
lemma followed_keep (e i op ws) :
    followed e [⟨i,op,ws,none⟩] = { e with inserted := e.inserted ++ ws.map fun w => ((i : Int),w) } := by
  simp [followed,noted,taken,put]
lemma followed_instead (e i op) (ws new : Ops ℝ) :
    followed e [⟨i,op,ws,some new⟩] = ⟨e.removed ++ [((i : Int),op)],e.added ++ new.map fun o => ((i : Int),o),
      e.inserted ++ ws.map fun w => ((i : Int),w)⟩ := by
  simp [followed,noted,taken,put]
lemma followed_append (e ts us) : followed e (ts ++ us) = followed (followed e ts) us := by
  simp [followed,noted_append]

/-- Steps through operations, each of which notes what becomes of one: together they note what becomes of all, and a relation
that can be prolonged by every step holds along all of them. -/
lemma foldlM_noted [OperationText ℝ] {σ : Type} {edits : σ → Edits ℝ} {I : σ → Prop} {step : σ → ℕ × Operation ℝ → Outcome σ}
    {M : ℕ → Operation ℝ → σ → σ → Change (Operation ℝ) → Prop} {C : Ops ℝ → σ → σ → List (Ops ℝ) → Prop}
    (hM : ∀ {i op s s' t}, M i op s s' t → t.index = i ∧ t.op = op ∧ t.Sound ∧ edits s' = followed (edits s) [t] ∧ I s')
    (hnil : ∀ s, C [] s s [])
    (hcons : ∀ {i op s s' s'' t ops oss}, M i op s s' t → C ops s' s'' oss → C (op :: ops) s s'' ((t.before ++ t.now) :: oss))
    {es} (hp : ∀ e ∈ es, ∀ s, I s → ∃ s' t, step s e = .ok s' ∧ M e.1 e.2 s s' t) {s} (h : I s) :
    ∃ s' ts, es.foldlM step s = .ok s' ∧ I s' ∧ ts.map (fun t => (t.index,t.op)) = es ∧ (∀ t ∈ ts, t.Sound) ∧
      edits s' = followed (edits s) ts ∧ C (es.map snd) s s' (ts.map fun t => t.before ++ t.now) := by
  induction es generalizing s with
  | nil => exact ⟨s,[],rfl,h,rfl,forall_mem_nil _,by simp [followed,noted],hnil s⟩
  | cons e es ih =>
    obtain ⟨s',t,hs,hm⟩ := hp e mem_cons_self s h
    obtain ⟨hi,ho,ht,he,h'⟩ := hM hm
    obtain ⟨s'',ts,hrun,h'',hcovers,hts,hes,hc⟩ := ih (forall_mem_cons.mp hp).2 h'
    refine ⟨s'',t :: ts,?_,h'',?_,forall_mem_cons.mpr ⟨ht,hts⟩,?_,hcons hm hc⟩
    · rw [foldlM_cons,hs]
      exact hrun
    · rw [map_cons,hcovers,hi,ho]
    · rw [hes,he,← followed_append]
      rfl
def holds (s : State ℝ) (q : Qubit) : Bool := (s.held? q).isSome
lemma Reads.commute_unheld (hreads : Reads effect) (hn : ∀ q ∈ op.qubits, s.held? q = none) :
    Commute (effect op) (heldTurns s.held) := by
  refine commute_heldTurns fun e he m => hreads.commute op m fun hmem => ?_
  exact held?_eq_none.mp (hn e.1 hmem) e he rfl
@[simp] lemma neg_num (a) : (-num a : Param ℝ) = .num (-a) := rfl
lemma Reads.zPower (hreads : Reads effect) (t q) :
    UpToPhase (effect (.zPower (.num t) q)) (wire q (phased (sigma .z) (turned t))) := by
  have hone : one*t = t := by simp [one]
  have hop : (.zPower (.num t) q : Operation ℝ) = .gate (.power .z (.num (one*t)) nought true) [q] := rfl
  rw [hop,hone,hreads.turning (.phase t _ _ q)]
  exact operator_phase t _ _ q

/-- A turn is read with its exponent and its phase up to whole turns, and taken for a half turn at whole exponents. -/
lemma step_equator (h : turnOf? op = some (e,p,q)) (s i) :
    ∃ e' b : ℝ, turned e' = turned e ∧ equator b = equator p ∧ (IsWhole op → step 0 s (i,op) = crossWhole 0 i op (.num b) s) ∧
      (¬ IsWhole op → step 0 s (i,op) = .ok (crossPartial i op (.num e') (.num b) s)) := by
  obtain ⟨m,n,ht⟩ := equatorTurns?_eq h
  obtain ⟨w,hw,hwh⟩ := isNegligibleTurn_num (-1+(e+2*m))
  have hadd : (num (e+2*m)).add (.num (RealScalar.ofInt (-1))) = .num (-1+(e+2*m)) := by
    simp [add,addReal]
  have hiff : w ↔ IsWhole op := by
    rw [hwh,isWhole_iff h]
    constructor
    · rintro ⟨k,hk⟩
      exact ⟨k+1-2*m,by push_cast; linarith⟩
    · rintro ⟨k,rfl⟩
      exact ⟨-1+(k+2*m),by push_cast; ring⟩
  have hs : step 0 s (i,op) = if w then crossWhole 0 i op (.num (p+2*n)) s
      else .ok (crossPartial i op (.num (e+2*m)) (.num (p+2*n)) s) := by
    simp only [step,ht,hadd,hw]
    rfl
  refine ⟨e+2*m,p+2*n,?_,equator_add_two_mul p n,fun hyes => ?_,fun hno => ?_⟩
  · rw [turned_add,turned_two_mul_int,mul_one]
  · rw [hs,if_pos (hiff.mpr hyes)]
  · rw [hs,if_neg (mt hiff.mp hno)]
lemma crossWhole_held (hqs : op.qubits = [q]) (hq : s.held? q = some (.num a)) (i b) :
    ∃ new, crossWhole 0 i op (.num b) s = .ok ⟨(s.release q).held,followed s.edits [⟨i,op,[],some new⟩]⟩ ∧
      (new = [] ∧ phased (sigma .z) (turned (2*(b-a))) = 1 ∨ new = [.zPower (.num (2*(b-a))) q]) := by
  have hd : ((num b).add (-.num a)).mul (.num (RealScalar.ofInt 2)) = .num (2*(b-a)) := by
    simp only [neg_num,add,addReal,mul,ofInt_eq]
    ring_nf
  have hh : (num (2*(b-a))).halved = .num (b-a) := by
    simp only [halved,two_eq]
    ring_nf
  obtain ⟨w,hw,hwh⟩ := isNegligibleTurn_num (b-a)
  have hc : crossWhole 0 i op (.num b) s = if w then .ok ((s.edit (·.remove i op)).release q)
      else .ok (((s.edit (·.remove i op)).release q).edit (·.add i (.zPower (.num (2*(b-a))) q))) := by
    have hq' : (s.edit (·.remove i op)).held? q = some (.num a) := hq
    simp only [crossWhole,hqs,headD_cons,hq',hd,hh,hw]
    rfl
  by_cases hyes : w
  · obtain ⟨n,hn⟩ := hwh.mp hyes
    refine ⟨[],?_,.inl ⟨rfl,?_⟩⟩
    · rw [hc,if_pos hyes,followed_instead]
      simp [State.edit,State.release,Edits.remove]
    · rw [hn,turned_two_mul_int,phased_one]
  · refine ⟨_,?_,.inr rfl⟩
    rw [hc,if_neg hyes,followed_instead]
    simp [State.edit,State.release,Edits.remove,Edits.add]
lemma Reads.coupling (hreads : Reads effect) {u v r} (huv : u ≠ v) (hqr : q = u ∧ r = v ∨ q = v ∧ r = u) (t shift)
    (axis) : UpToPhase (effect (.gate (.power .cz (.num t) shift axis) [u,v])) (coupled q r (turned t)) := by
  rw [hreads.turning (.coupling t shift axis huv)]
  rcases hqr with ⟨rfl,rfl⟩ | ⟨rfl,rfl⟩
  · exact operator_coupling t shift axis huv
  · rw [coupled_swap]
    exact operator_coupling t shift axis huv
lemma not_isWhole (h : turnOf? op = none) : ¬ IsWhole op := by simp [IsWhole,h]
lemma turn_num (hq : s.held? q = some (.num a)) (t) : s.turn q (num t).halved = s.hold q (.num (a+t/2)) := by
  have hadd : (num a).add (num t).halved = .num (a+t/2) := by
    simp only [halved,add,addReal,two_eq]
    ring_nf
  rw [State.turn,hq]
  exact congrArg (s.hold q) hadd
def Foreign : Operation ℝ → Prop
  | .gate (.power k _ _ _) _ => k ≠ .x ∧ k ≠ .y ∧ k ≠ .z ∧ k ≠ .cz
  | .gate (.phasedX ..) _ | .gate (.measurement ..) _ => False
  | _ => True
structure Unread (op : Operation ℝ) : Prop where
  equator : op.equatorTurns? = none
  phase : op.knownExponent? .z = none
  coupling : op.knownExponent? .cz = none
  not_turning : ¬ Turning op
lemma Unread.not_isWhole (h : Unread op) : ¬ IsWhole op := fun ⟨_,_,_,ht⟩ => h.not_turning (.equator ht)
lemma Foreign.not_turning (h : Foreign op) : ¬ Turning op := by
  intro ht
  cases ht with
  | equator htu =>
    rcases turnOf?_cases htu with ⟨_,_,rfl,-⟩ | ⟨_,_,rfl,-⟩ | ⟨_,rfl⟩
    · exact h.1 rfl
    · exact h.2.1 rfl
    · exact h
  | phase => exact h.2.2.1 rfl
  | coupling => exact h.2.2.2 rfl
lemma Foreign.unread (h : Foreign op) : Unread op ∧ op.isMeasurement = false := by
  have hnot := h.not_turning
  cases op with
  | gate g qs =>
    cases g with
    | power k e shift axis =>
      obtain ⟨hx,hy,hz,hcz⟩ := h
      have he : (gate (.power k e shift axis) qs).equatorTurns? = none := by
        unfold equatorTurns?
        split
        · rfl
        · cases k <;> first | rfl | contradiction
      refine ⟨⟨he,?_,?_,hnot⟩,rfl⟩
      · simp [knownExponent?,hz]
      · simp [knownExponent?,hcz]
    | phasedX | measurement => exact h.elim
    | _ => exact ⟨⟨ite_self _,rfl,rfl,hnot⟩,rfl⟩
  | _ => exact ⟨⟨ite_self _,rfl,rfl,hnot⟩,rfl⟩
lemma step_unread (h : Unread op) (hh : ∃ q ∈ op.qubits, holds s q) (i) :
    step 0 s (i,op) = .ok ((if op.isMeasurement then intoMeasurement i op s else s).dump i op.qubits) := by
  have haff : (op.qubits.filter fun q => (s.held? q).isSome).isEmpty = false := by
    obtain ⟨q,hq,hs⟩ := hh
    exact isEmpty_eq_false_iff.mpr (ne_nil_of_mem (mem_filter.mpr ⟨hq,hs⟩))
  simp only [step,h.equator,haff,h.phase,h.coupling]
  rfl
lemma step_unheld (h : op.equatorTurns? = none) (hn : ∀ q ∈ op.qubits, s.held? q = none) (i) : step 0 s (i,op) = .ok s := by
  have haff : (op.qubits.filter fun q => (s.held? q).isSome) = [] := filter_eq_nil_iff.mpr fun q hq => by simp [hn q hq]
  simp [step,h,haff]
lemma carry_unread (hu : Unread op) {s'} (h : ∀ r, s'.held? r = if r ∈ op.qubits then none else s.held? r) (r) :
    holds s' r = carry (holds s) op r := by
  rw [carry_of_not_turning hu.not_turning,holds,h]
  by_cases hr : r ∈ op.qubits <;> simp [hr,holds]
variable [OperationText ℝ]
def Remade (op op' : Operation ℝ) : Prop := ∃ n key invert invert' qs,
  op = .gate (.measurement n key invert) qs ∧ op' = .gate (.measurement n key invert') qs

/-- What operations become: turns become turns, and others stay, behind turns. -/
inductive Becomes (op : Operation ℝ) : Ops ℝ → Prop
  | turns {os : Ops ℝ} (hop : Turning op) (hos : ∀ o ∈ os, Turning o) : Becomes op os
  | stays {ws : Ops ℝ} {op' : Operation ℝ} (hws : ∀ w ∈ ws, Turning w) (hop' : op' = op ∨ Remade op op') :
    Becomes op (ws ++ [op'])

/-- A step in which the half turns cross an operation: what becomes of it is noted. -/
structure Moves (effect : Reading) (i : ℕ) (op : Operation ℝ) (s s' : State ℝ) (t : Change (Operation ℝ)) :
    Prop where
  index : t.index = i
  op_eq : t.op = op
  sound : t.Sound
  edits : s'.edits = followed s.edits [t]
  fit : Fit s'.held
  carried : ∀ r, holds s' r = carry (holds s) op r
  becomes : Becomes op (t.before ++ t.now)
  crosses : UpToPhase (evolution (asHalfTurns effect) (op :: takenIn (holds s) op) * heldTurns s.held)
    (heldTurns s'.held * evolution effect (t.before ++ t.now))
def Passes (effect : Reading) (op : Operation ℝ) : Prop :=
  ∀ (i : ℕ) (s : State ℝ), Fit s.held → ∃ s' t, step 0 s (i,op) = .ok s' ∧ Moves effect i op s s' t
lemma sound_keep (i) (hn : op.qubits.Nodup) (hon : ∀ w ∈ ws, ∃ q ∈ op.qubits, w.qubits = [q])
    (hf : OverlapFree ⟨ws⟩) : (⟨i,op,ws,none⟩ : Change (Operation ℝ)).Sound where
  within o ho := by
    rcases mem_append.mp ho with ho | ho
    · obtain ⟨q,hq,hqu⟩ := hon o ho
      intro r hr
      have hr' : r ∈ o.qubits := hr
      rw [hqu,mem_singleton] at hr'
      exact hr' ▸ hq
    · exact mem_singleton.mp ho ▸ fun _ hr => hr
  before_free := hf
  now_free := overlapFree_singleton.mpr hn
  held o ho ha := by
    obtain ⟨q,hq,hqu⟩ := hon o ho
    have hqo : q ∈ o.qubits := by rw [hqu]; exact mem_singleton_self q
    exact ha o (mem_singleton_self o) op (mem_singleton_self op) hqo hq
  found x hx := by simp [taken] at hx
variable {new : Ops ℝ}
lemma sound_instead (i) (ht : Told op) (hw : ∀ o ∈ ws ++ new, o.qubits ⊆ op.qubits)
    (hws : OverlapFree ⟨ws⟩) (hnew : OverlapFree ⟨new⟩) (hh : ∀ w ∈ ws, ¬ Apart [w] new) :
    (⟨i,op,ws,some new⟩ : Change (Operation ℝ)).Sound where
  within := hw
  before_free := hws
  now_free := hnew
  held := hh
  found x hx := by
    have heq : x = op := by simpa [taken] using hx
    exact heq ▸ ht
variable (hreads : Reads effect)
section
variable (h : turnOf? op = some (e,p,q)) (hb : equator b = equator p) (hfit : Fit s.held)
include h hb hfit
lemma moves_hold (hw : IsWhole op) (hq : s.held? q = none) :
    Moves effect i op s ((s.edit (·.remove i op)).hold q (.num b)) ⟨i,op,[],some []⟩ where
  index := rfl
  op_eq := rfl
  sound := sound_instead i (equator h).told (by simp) overlapFree_empty overlapFree_empty (by simp)
  edits := by
    rw [followed_instead]
    simp [State.hold,State.edit,Edits.remove]
  fit := Fit.hold (s := s.edit (·.remove i op)) hfit q b
  carried r := by
    have hh : ((s.edit (·.remove i op)).hold q (.num b)).held? r = if r = q then some (.num b) else s.held? r :=
      held?_hold (s.edit (·.remove i op)) q r _
    rw [carry_of_isWhole hw,qubits_of_turnOf? h,holds,hh]
    by_cases hr : r = q <;> simp [hr,holds,hq]
  becomes := .turns (.equator h) (forall_mem_nil _)
  crosses := by
    have ht : heldTurns ((s.edit (·.remove i op)).hold q (.num b)).held = wire q (equator b) * heldTurns (s.release q).held :=
      heldTurns_hold (s.edit (·.remove i op)) q b
    rw [evolution_read_whole h hw,ht,hb,heldTurns_eq hfit q,hq]
    rfl
include hreads
lemma moves_join (hw : IsWhole op) (hq : s.held? q = some (.num a))
    (hnew : new = [] ∧ phased (sigma .z) (turned (2*(b-a))) = 1 ∨ new = [.zPower (.num (2*(b-a))) q]) :
    Moves effect i op s ⟨(s.release q).held,followed s.edits [⟨i,op,[],some new⟩]⟩ ⟨i,op,[],some new⟩ where
  index := rfl
  op_eq := rfl
  sound := by
    have hqs := qubits_of_turnOf? h
    refine sound_instead i (equator h).told ?_ overlapFree_empty ?_ (by simp)
    · rcases hnew with ⟨rfl,-⟩ | rfl
      · simp
      · simp [hqs,Operation.zPower,Operation.qubits]
    · rcases hnew with ⟨rfl,-⟩ | rfl
      · exact overlapFree_empty
      · exact overlapFree_singleton.mpr (nodup_singleton q)
  edits := rfl
  fit := hfit.release q
  carried r := by
    have hh : State.held? ⟨(s.release q).held,followed s.edits [⟨i,op,[],some new⟩]⟩ r = if r = q then none else s.held? r :=
      held?_release s q r
    rw [carry_of_isWhole hw,qubits_of_turnOf? h,holds,hh]
    by_cases hr : r = q <;> simp [hr,holds,hq]
  becomes := by
    refine .turns (.equator h) ?_
    rcases hnew with ⟨rfl,-⟩ | rfl
    · exact forall_mem_nil _
    · exact forall_mem_singleton.mpr (.phase _ _ _ q)
  crosses := by
    have hp : UpToPhase (evolution effect new) (wire q (phased (sigma .z) (turned (2*(b-a))))) := by
      rcases hnew with ⟨rfl,hone⟩ | rfl
      · rw [hone,map_one,evolution_nil]
      · exact hreads.zPower _ q
    rw [evolution_read_whole h hw]
    calc UpToPhase (wire q (equator p) * heldTurns s.held)
          (wire q (phased (sigma .z) (turned (2*(b-a)))) * heldTurns (s.release q).held) := by
          rw [heldTurns_eq hfit q,hq,turnAt_num,← mul_assoc,← map_mul,← hb,equator_mul_equator,map_smul]
          exact (UpToPhase.smul _ (norm_turned _)).mul_right _
      UpToPhase _ (heldTurns (s.release q).held * evolution effect new) := by
          rw [(wire_commute_release s q _).eq]
          exact hp.symm.mul_left _
lemma moves_reflect {e'} (hw : ¬ IsWhole op) (he : turned e' = turned e) (hq : s.held? q = some (.num a)) :
    Moves effect i op s (crossPartial i op (.num e') (.num b) s)
      ⟨i,op,[],some [.gate (.phasedXOf (.num (2*a-b)) (.num e') nought) [q]]⟩ := by
  have hr : ((num a).mul (.num (RealScalar.ofInt 2))).add (-.num b) = .num (2*a-b) := by
    simp only [neg_num,add,addReal,mul,ofInt_eq]
    ring_nf
  have hs : crossPartial i op (.num e') (.num b) s =
      s.edit (·.replace i op (.gate (.phasedXOf (.num (2*a-b)) (.num e') nought) [q])) := by
    simp only [crossPartial,qubits_of_turnOf? h,headD_cons,hq,hr]
  rw [hs]
  refine ⟨rfl,rfl,?_,?_,hfit,fun r => ?_,.turns (.equator h) (forall_mem_singleton.mpr (turning_phasedXOf _ _ _ q)),?_⟩
  · refine sound_instead i (equator h).told ?_ overlapFree_empty ?_ (by simp)
    · simp [qubits_of_turnOf? h,Operation.qubits]
    · exact overlapFree_singleton.mpr (nodup_singleton q)
  · rw [followed_instead]
    simp [State.edit,Edits.replace,Edits.remove,Edits.add]
  · rw [carry_of_turning (.equator h) hw]
    rfl
  · have hc : wire q (phased (equator p) (turned e)) * heldTurns s.held =
        heldTurns s.held * wire q (phased (equator (2*a-b)) (turned e')) := by
      rw [heldTurns_eq hfit q,hq,turnAt_num,mul_assoc,← (wire_commute_release s q _).eq,← mul_assoc,← mul_assoc,← map_mul,
        ← map_mul,← hb,he,phased_equator_mul_equator]
    rw [evolution_read (equator h).isMeasurement hw,hreads.turning (.equator h)]
    refine ((operator_equator h).mul_right _).trans ?_
    rw [hc]
    exact (hreads.phasedXOf _ _ _ q).symm.mul_left _
end
include hreads
lemma moves_apart (hno : op.qubits.Nodup) (hw : ¬ IsWhole op) (hfit : Fit s.held)
    (hn : ∀ q ∈ op.qubits, s.held? q = none) : Moves effect i op s s ⟨i,op,[],none⟩ where
  index := rfl
  op_eq := rfl
  sound := sound_keep i hno (by simp) overlapFree_empty
  edits := by rw [followed_keep,map_nil,append_nil]
  fit := hfit
  carried r := by
    by_cases hr : r ∈ op.qubits
    · simp [carry,hw,holds,hn r hr]
    · simp [carry,hr]
  becomes := .stays (forall_mem_nil _) (.inl rfl)
  crosses := by
    have ht : takenIn (holds s) op = [] := by
      have hf : op.qubits.filter (holds s) = [] :=
        filter_eq_nil_iff.mpr fun q hq => by simp [holds,hn q hq]
      rw [takenIn,hf,map_nil,ite_self]
    rw [ht,evolution_singleton,asHalfTurns_of_not_isWhole hw,(hreads.commute_unheld hn).eq]
    rw [now_keep,nil_append,evolution_singleton]
lemma passes_equator (h : turnOf? op = some (e,p,q)) : Passes effect op := by
  intro i s hfit
  obtain ⟨e',b,he,hb,hyes,hno⟩ := step_equator h s i
  have hqs := qubits_of_turnOf? h
  by_cases hw : IsWhole op
  · rw [hyes hw]
    cases hq : s.held? q with
    | none =>
      have hc : crossWhole 0 i op (.num b) s = .ok ((s.edit (·.remove i op)).hold q (.num b)) := by
        have hq' : (s.edit (·.remove i op)).held? q = none := hq
        simp [crossWhole,hqs,hq']
      exact ⟨_,_,hc,moves_hold h hb hfit hw hq⟩
    | some x =>
      obtain ⟨a,rfl⟩ := hfit.exists_num hq
      obtain ⟨new,hc,hnew⟩ := crossWhole_held hqs hq i b
      exact ⟨_,_,hc,moves_join hreads h hb hfit hw hq hnew⟩
  · rw [hno hw]
    cases hq : s.held? q with
    | none =>
      have hc : crossPartial i op (.num e') (.num b) s = s := by simp [crossPartial,hqs,hq]
      rw [hc]
      refine ⟨s,_,rfl,moves_apart hreads (equator h).nodup hw hfit ?_⟩
      rw [hqs]
      exact forall_mem_singleton.mpr hq
    | some x =>
      obtain ⟨a,rfl⟩ := hfit.exists_num hq
      exact ⟨_,_,rfl,moves_reflect hreads h hb hfit hw he hq⟩

/-! ### Phases -/
lemma passes_phase (t shift axis q) : Passes effect (.gate (.power .z (.num t) shift axis) [q]) := by
  intro i s hfit
  set op : Operation ℝ := .gate (.power .z (.num t) shift axis) [q] with hop
  have ht : Turning op := .phase t shift axis q
  have hw : ¬ IsWhole op := not_isWhole rfl
  have he : op.equatorTurns? = none := rfl
  cases hq : s.held? q with
  | none =>
    have hn : ∀ r ∈ op.qubits, s.held? r = none := forall_mem_singleton.mpr hq
    exact ⟨s,_,step_unheld he hn i,moves_apart hreads ht.nodup hw hfit hn⟩
  | some x =>
    obtain ⟨a,rfl⟩ := hfit.exists_num hq
    have haff : op.qubits.filter (fun q => (s.held? q).isSome) = [q] := by simp [hop,Operation.qubits,hq]
    have hs : step 0 s (i,op) = .ok ((s.hold q (.num (a+t/2))).edit (·.remove i op)) := by
      rw [← turn_num hq t]
      simp only [step,haff]
      rfl
    refine ⟨_,⟨i,op,[],some []⟩,hs,rfl,rfl,?_,?_,hfit.hold q _,fun r => ?_,.turns ht ?_,?_⟩
    · exact sound_instead i ht.told (by simp) overlapFree_empty overlapFree_empty (by simp)
    · rw [followed_instead]
      simp [State.edit,State.hold,Edits.remove]
    · have hh : ((s.hold q (.num (a+t/2))).edit (·.remove i op)).held? r =
          if r = q then some (.num (a+t/2)) else s.held? r := held?_hold s q r _
      rw [carry_of_turning ht hw,holds,hh]
      by_cases hr : r = q <;> simp [hr,holds,hq]
    · exact forall_mem_nil _
    · have hnow : heldTurns ((s.hold q (.num (a+t/2))).edit (·.remove i op)).held =
        wire q (equator (a+t/2)) * heldTurns (s.release q).held := heldTurns_hold s q _
      have hc : UpToPhase (wire q (phased (sigma .z) (turned t)) * heldTurns s.held)
          (wire q (equator (a+t/2)) * heldTurns (s.release q).held) := by
        rw [heldTurns_eq hfit q,hq,turnAt_num,← mul_assoc,← map_mul,phased_z_mul_equator,map_smul]
        exact (UpToPhase.smul _ (norm_turned _)).mul_right _
      rw [evolution_read ht.isMeasurement hw,hreads.turning ht,hnow]
      exact ((operator_phase t shift axis q).mul_right _).trans hc

/-! ### Phases of two qubits -/
section
variable {u v r : Qubit} {shift : ℝ} {axis : Bool} (hop : op = .gate (.power .cz (.num t) shift axis) [u,v]) (huv : u ≠ v)
include hop huv

/-- A half turn on one of the two qubits inverts the phase and leaves another one on the other qubit. -/
lemma moves_kick (hqr : q = u ∧ r = v ∨ q = v ∧ r = u) (hfit : Fit s.held) (hq : s.held? q = some (.num a))
    (hr : s.held? r = none) : Moves effect i op s (crossOne i op (.num t) q s)
      ⟨i,op,[.zPower (.num t) r],some [.gate (.power .cz (.num (-t)) nought false) [u,v]]⟩ := by
  have ht : Turning op := hop ▸ .coupling t shift axis huv
  have hw : ¬ IsWhole op := hop ▸ not_isWhole rfl
  have hne : q ≠ r := by
    rcases hqr with ⟨rfl,rfl⟩ | ⟨rfl,rfl⟩
    · exact huv
    · exact huv.symm
  have hmem : r ∈ [u,v] := by rcases hqr with ⟨-,rfl⟩ | ⟨-,rfl⟩ <;> simp
  have ho : (if q = v then u else v) = r := by
    rcases hqr with ⟨rfl,rfl⟩ | ⟨rfl,rfl⟩
    · exact if_neg huv
    · exact if_pos rfl
  have hin : mul (.num one) (-.num t) = .num (-t) := by simp [mul,one]
  set new : Operation ℝ := .gate (.power .cz (.num (-t)) nought false) [u,v] with hnew
  have hs : crossOne i op (.num t) q s = s.edit fun e => (e.replace i op new).insert i (.zPower (.num t) r) := by
    have hqu : op.qubits = [u,v] := hop ▸ rfl
    simp only [crossOne,hqu,ho,hin]
    rfl
  subst hop
  rw [hs]
  refine ⟨rfl,rfl,?_,?_,hfit,fun x => ?_,.turns ht (forall_mem_cons.mpr ⟨.phase _ _ _ r,
    forall_mem_singleton.mpr (.coupling _ _ _ huv)⟩),?_⟩
  · refine sound_instead i ht.told ?_ ?_ ?_ ?_
    · refine forall_mem_cons.mpr ⟨fun x hx => mem_singleton.mp hx ▸ hmem,?_⟩
      exact forall_mem_singleton.mpr fun _ hx => hx
    · exact overlapFree_singleton.mpr (nodup_singleton r)
    · exact overlapFree_singleton.mpr ht.nodup
    · refine forall_mem_singleton.mpr fun ha => ?_
      exact ha _ (mem_singleton_self _) new (mem_singleton_self _) (mem_singleton_self r) hmem
  · rw [followed_instead]
    simp [State.edit,Edits.replace,Edits.remove,Edits.add,Edits.insert]
  · rw [carry_of_turning ht hw]
    rfl
  · have hf : ∀ x ∈ [u,v], (s.release q).held? x = none := by
      intro x hx
      rw [held?_release]
      split
      case isTrue => rfl
      case isFalse hxq =>
        have hxr : x = r := by
          rcases hqr with ⟨rfl,rfl⟩ | ⟨rfl,rfl⟩
          · simpa [hxq] using hx
          · simpa [hxq] using hx
        rw [hxr,hr]
    have hp : Commute (effect new * effect (.zPower (.num t) r)) (heldTurns (s.release q).held) := by
      refine Commute.mul_left (hreads.commute_unheld hf) (hreads.commute_unheld ?_)
      exact forall_mem_singleton.mpr (hf r hmem)
    have hk : UpToPhase (coupled q r (turned (-t)) * wire r (phased (sigma .z) (turned t)))
        (effect new * effect (.zPower (.num t) r)) :=
      (hreads.coupling huv hqr (-t) nought false).symm.mul (hreads.zPower t r).symm
    calc UpToPhase (effect _ * heldTurns s.held) (coupled q r (turned t) * heldTurns s.held) :=
          (hreads.coupling huv hqr t shift axis).mul_right _
      UpToPhase _ (wire q (equator a) * (effect new * effect (.zPower (.num t) r)) * heldTurns (s.release q).held) := by
          rw [heldTurns_eq hfit q,hq,turnAt_num,← mul_assoc,coupled_mul_equator hne]
          exact (hk.mul_left _).mul_right _
      UpToPhase _ (heldTurns s.held * evolution effect ([.zPower (.num t) r] ++ [new])) := by
          rw [evolution_append,evolution_singleton,evolution_singleton,heldTurns_eq hfit q,hq,turnAt_num,mul_assoc,hp.eq,mul_assoc]
lemma moves_both (hfit : Fit s.held) (hu : s.held? u = some (.num a)) (hv : s.held? v = some (.num b)) :
    Moves effect i op s ((s.hold u (.num (a+t/2))).hold v (.num (b+t/2))) ⟨i,op,[],none⟩ := by
  have ht : Turning op := hop ▸ .coupling t shift axis huv
  have hw : ¬ IsWhole op := hop ▸ not_isWhole rfl
  refine ⟨rfl,rfl,sound_keep i ht.nodup (by simp) overlapFree_empty,?_,(hfit.hold u _).hold v _,fun x => ?_,
    .stays (forall_mem_nil _) (.inl rfl),?_⟩
  · rw [followed_keep,map_nil,append_nil]
    rfl
  · rw [carry_of_turning ht hw,holds,held?_hold,held?_hold]
    by_cases hxv : x = v <;> by_cases hxu : x = u <;> simp [hxv,hxu,huv,holds,hu,hv]
  · have hf : heldTurns s.held = wire u (equator a) * wire v (equator b) * heldTurns ((s.release u).release v).held := by
      have hv' : (s.release u).held? v = some (.num b) := by rw [held?_release,if_neg huv.symm,hv]
      rw [heldTurns_eq hfit u,heldTurns_eq (hfit.release u) v,hu,hv']
      rfl
    have hre : (((s.hold u (.num (a+t/2))).release v).release u).held = ((s.release u).release v).held := by
      have hc : ∀ e : Qubit × Param ℝ, (decide (e.1 ≠ u) && (decide (e.1 ≠ v) && decide (e.1 ≠ u))) =
          (decide (e.1 ≠ v) && decide (e.1 ≠ u)) := by
        intro e
        cases decide (e.1 ≠ u) <;> cases decide (e.1 ≠ v) <;> rfl
      simp only [State.release,State.hold,filter_append,filter_filter,hc]
      simp
    have hs : heldTurns ((s.hold u (.num (a+t/2))).hold v (.num (b+t/2))).held =
        wire u (equator (a+t/2)) * wire v (equator (b+t/2)) * heldTurns ((s.release u).release v).held := by
      have hu' : ((s.hold u (.num (a+t/2))).release v).held? u = some (.num (a+t/2)) := by
        rw [held?_release,if_neg huv,held?_hold,if_pos rfl]
      rw [heldTurns_hold,heldTurns_eq ((hfit.hold u _).release v) u,hu',hre,← mul_assoc,turnAt_num,(wire_commute huv.symm _ _).eq]
    have hfr : ∀ x ∈ op.qubits, ((s.release u).release v).held? x = none := by simp [hop,Operation.qubits,held?_release]
    have hp : Commute (effect op) (heldTurns ((s.release u).release v).held) := hreads.commute_unheld hfr
    have hr := hreads.coupling huv (.inl ⟨rfl,rfl⟩) t shift axis
    rw [← hop] at hr
    rw [evolution_read ht.isMeasurement hw,now_keep,nil_append,evolution_singleton,hs,mul_assoc _ _ (effect _),← hp.eq,← mul_assoc,hf,
      ← mul_assoc]
    refine UpToPhase.mul_right ((hr.mul_right _).trans ?_) _
    rw [coupled_mul_equators huv]
    exact hr.symm.mul_left _
lemma passes_coupling : Passes effect op := by
  intro i s hfit
  have hw : ¬ IsWhole op := hop ▸ not_isWhole rfl
  have he : op.equatorTurns? = none := hop ▸ rfl
  have hz : op.knownExponent? .z = none := hop ▸ rfl
  have hcz : op.knownExponent? .cz = some (.num t) := hop ▸ rfl
  have hq : op.qubits = [u,v] := hop ▸ rfl
  have hone : ∀ w, op.qubits.filter (fun q => (s.held? q).isSome) = [w] → step 0 s (i,op) = .ok (crossOne i op (.num t) w s) := by
    intro w haff
    simp only [step,he,haff,hz,hcz]
    rfl
  cases hu : s.held? u with
  | none =>
    cases hv : s.held? v with
    | none =>
      have hn : ∀ x ∈ op.qubits, s.held? x = none := by simp [hq,hu,hv]
      have ht : Turning op := hop ▸ .coupling t shift axis huv
      exact ⟨s,_,step_unheld he hn i,moves_apart hreads ht.nodup hw hfit hn⟩
    | some y =>
      obtain ⟨b,rfl⟩ := hfit.exists_num hv
      exact ⟨_,_,hone v (by simp [hq,hu,hv]),moves_kick hreads hop huv (.inr ⟨rfl,rfl⟩) hfit hv hu⟩
  | some x =>
    obtain ⟨a,rfl⟩ := hfit.exists_num hu
    cases hv : s.held? v with
    | none =>
      exact ⟨_,_,hone u (by simp [hq,hu,hv]),moves_kick hreads hop huv (.inl ⟨rfl,rfl⟩) hfit hu hv⟩
    | some y =>
      obtain ⟨b,rfl⟩ := hfit.exists_num hv
      have haff : op.qubits.filter (fun q => (s.held? q).isSome) = [u,v] := by simp [hq,hu,hv]
      have hv' : (s.hold u (.num (a+t/2))).held? v = some (.num b) := by rw [held?_hold,if_neg huv.symm,hv]
      have hs : step 0 s (i,op) = .ok ((s.hold u (.num (a+t/2))).hold v (.num (b+t/2))) := by
        rw [← turn_num hv' t,← turn_num hu t]
        simp only [step,he,haff,hz,hcz]
        rw [hq]
        rfl
      exact ⟨_,_,hs,moves_both hreads hop huv hfit hu hv⟩
end
lemma passes_turning (h : Turning op) : Passes effect op := by
  cases h with
  | equator h => exact passes_equator hreads h
  | phase t shift axis q => exact passes_phase hreads t shift axis q
  | coupling t shift axis huv => exact passes_coupling hreads rfl huv

/-! ### Other operations -/
lemma passes_unread (hu : Unread op) (hno : op.qubits.Nodup)
    (h : ∀ i s, Fit s.held → (∃ q ∈ op.qubits, holds s q) →
      ∃ s' t, step 0 s (i,op) = .ok s' ∧ Moves effect i op s s' t) : Passes effect op := by
  intro i s hfit
  by_cases hh : ∃ q ∈ op.qubits, holds s q
  · exact h i s hfit hh
  · have hn : ∀ q ∈ op.qubits, s.held? q = none := by
      intro q hq
      have hnot : ¬ holds s q := fun hs => hh ⟨q,hq,hs⟩
      simpa [holds] using hnot
    exact ⟨s,_,step_unheld hu.equator hn i,moves_apart hreads hno hu.not_isWhole hfit hn⟩
lemma passes_foreign (h : Foreign op) (hn : op.qubits.Nodup) : Passes effect op := by
  obtain ⟨hu,hm⟩ := h.unread
  refine passes_unread hreads hu hn fun i s hfit hh => ?_
  obtain ⟨ws,hws⟩ := dump_putBack hreads i op.qubits hfit
  have hs := step_unread hu hh i
  rw [hm] at hs
  refine ⟨_,⟨i,op,ws,none⟩,hs,rfl,rfl,?_,?_,hws.fit,carry_unread hu hws.held,.stays hws.turning (.inl rfl),?_⟩
  · refine sound_keep i hn (fun w hw => ?_) hws.free
    obtain ⟨q,hq,-,hqu⟩ := hws.on_qubit w hw
    exact ⟨q,hq,hqu⟩
  · rw [followed_keep]
    exact hws.edits
  · have hp : Commute (effect op) (heldTurns (s.dump i op.qubits).held) :=
      hreads.commute_unheld fun q hq => by rw [hws.held,if_pos hq]
    have hnow : evolution effect (ws ++ [op]) = effect op * evolution effect ws := by
      rw [evolution_append,evolution_singleton]
    rw [evolution_read hm hu.not_isWhole]
    calc UpToPhase (effect op * heldTurns s.held)
          (effect op * (heldTurns (s.dump i op.qubits).held * evolution effect ws)) := hws.turns.mul_left _
      UpToPhase _ (heldTurns (s.dump i op.qubits).held * evolution effect (ws ++ [op])) := by
          rw [hnow,← mul_assoc,hp.eq,mul_assoc]
end

/-! ## The whole pass -/
section
open EjectPauli
variable {effect : Reading} [OperationText ℝ]
def Crosses (effect : Reading) (ops : Ops ℝ) (s s' : State ℝ) (oss : List (Ops ℝ)) : Prop :=
  Forall₂ Becomes ops oss ∧ UpToPhase (evolution (asHalfTurns effect) (restored (holds s) ops) * heldTurns s.held)
    (heldTurns s'.held * evolution effect oss.flatten)
lemma Moves.crosses_cons {t ops oss} (h : Moves effect i op s s' t) (h' : Crosses effect ops s' s'' oss) :
    Crosses effect (op :: ops) s s'' ((t.before ++ t.now) :: oss) := by
  have hh : carry (holds s) op = holds s' := (funext h.carried).symm
  refine ⟨.cons h.becomes h'.1,?_⟩
  rw [restored,hh,← cons_append,evolution_append,flatten_cons,evolution_append]
  exact (h.crosses.mul_left _).trans (h'.2.mul_right _)
lemma held_dump {i} (h : PutBack effect i (s.held.map fst) s (s.dump i (s.held.map fst)) ws) :
    (s.dump i (s.held.map fst)).held = [] := by
  have hn : ∀ q, (s.dump i (s.held.map fst)).held? q = none := by
    intro q
    rw [h.held]
    split
    case isTrue => rfl
    case isFalse hq => exact held?_eq_none.mpr fun e he heq => hq (heq ▸ mem_map_of_mem he)
  exact eq_nil_iff_forall_not_mem.mpr fun e he => held?_eq_none.mp (hn e.1) e he rfl

/-- The pass succeeds, and what it leaves is the circuit with its turns at whole exponents read as half turns, and with the
flips that measurements take in put after these. -/
lemma run_order (hreads : Reads effect) {c} (hc : Legal c) (hp : ∀ op ∈ c.operations, Passes effect op) :
    ∃ d oss ws, run 0 .none c = (d,.ok ()) ∧ Legal d ∧
      Forall₂ Becomes c.operations oss ∧ (∀ w ∈ ws, Turning w) ∧ SameOrder d.operations (oss.flatten ++ ws) ∧
      UpToPhase (evolution effect d.operations) (evolution (asHalfTurns effect) (restored (fun _ => false) c.operations)) := by
  have hfit : Fit ({} : State ℝ).held := ⟨nodup_nil,by simp⟩
  have hp' : ∀ e ∈ c.placed, ∀ s, Fit s.held → ∃ s' t, step 0 s e = .ok s' ∧ Moves effect e.1 e.2 s s' t :=
    fun e he => hp e.2 (map_placed c ▸ mem_map_of_mem he) e.1
  obtain ⟨s,ts,hf,hfit,hcovers,hsound,hes,hbecomes,hcr⟩ := foldlM_noted (I := fun s => Fit s.held) (C := Crosses effect)
    (fun h => ⟨h.index,h.op_eq,h.sound,h.edits,h.fit⟩) (fun s => ⟨.nil,by rfl⟩) Moves.crosses_cons hp' hfit
  obtain ⟨ws,hws⟩ := dump_putBack hreads c.size (s.held.map fst) hfit
  have hed : edits 0 c = .ok (editsOf ts c.size ws) := by
    have hl : (s.dump c.size (s.held.map fst)).edits = editsOf ts c.size ws := by
      rw [hws.edits,hes]
      simp [followed,editsOf,insertions]
    rw [edits,hf]
    exact congrArg Except.ok hl
  obtain ⟨d,ha,hfr,hord⟩ := apply_order hc hcovers hsound hws.free
  rw [map_placed] at hbecomes hcr
  refine ⟨d,_,ws,?_,hfr,hbecomes,hws.turning,hord,?_⟩
  · rw [run,hed]
    exact ha
  · have hem : heldTurns (s.dump c.size (s.held.map fst)).held = 1 := by rw [held_dump hws]; rfl
    rw [evolution_sameOrder hreads.apart hord,evolution_append]
    refine .symm (hcr.trans (.mul_right ?_ _))
    simpa only [hem,one_mul] using hws.turns
end

/-! ## Circuits without measurements -/
section
open EjectPauli
variable {effect : Reading}
def IsEven (op : Operation ℝ) : Prop := ∃ (n : ℤ) (p : ℝ) (q : Qubit), turnOf? op = some (2*(n : ℝ),p,q)
lemma IsEven.isWhole (h : IsEven op) : IsWhole op := by
  obtain ⟨n,p,q,ht⟩ := h
  exact ⟨2*n,p,q,by rw [ht]; push_cast; rfl⟩
lemma turned_odd (n : ℤ) : turned (2*n+1) = -1 := by rw [turned_add,turned_two_mul_int,one_mul,turned_one]

/-- Only at even exponents a turn differs from what it is taken for. -/
lemma asHalfTurns_upToPhase (hreads : Reads effect) (he : ¬ IsEven op) : UpToPhase (asHalfTurns effect op) (effect op) := by
  by_cases hw : IsWhole op
  · obtain ⟨k,p,q,ht⟩ := id hw
    obtain ⟨n,rfl | rfl⟩ := Int.even_or_odd' k
    · exact absurd ⟨n,p,q,by rw [ht]; push_cast; rfl⟩ he
    · have hodd : turned (2*n+1 : ℤ) = -1 := by
        push_cast
        exact turned_odd n
      have hr := operator_equator ht
      rw [hodd,phased_neg_one] at hr
      rw [asHalfTurns_of_isWhole ht hw,hreads.turning (.equator ht)]
      exact hr.symm
  · rw [asHalfTurns_of_not_isWhole hw]
lemma evolution_upToPhase {f g} (h : ∀ op ∈ ops, UpToPhase (f op) (g op)) : UpToPhase (evolution f ops) (evolution g ops) := by
  induction ops with
  | nil => rfl
  | cons op ops ih =>
    rw [evolution_cons,evolution_cons]
    exact (ih (forall_mem_cons.mp h).2).mul (h op mem_cons_self)
lemma restored_of_not_isMeasurement (h : ∀ op ∈ ops, op.isMeasurement = false) (held : Qubit → Bool) : restored held ops = ops := by
  induction ops generalizing held with
  | nil => rfl
  | cons op ops ih =>
    rw [restored,takenIn_of_not_isMeasurement (h op mem_cons_self),nil_append,ih (forall_mem_cons.mp h).2]

/-- A half turn is not the identity, so not a turn at an even exponent either. -/
lemma not_upToPhase_of_isEven (hreads : Reads effect) (h : IsEven op) : ¬ UpToPhase (asHalfTurns effect op) (effect op) := by
  obtain ⟨n,p,q,ht⟩ := id h
  have hr := operator_equator ht
  rw [asHalfTurns_of_isWhole ht h.isWhole,hreads.turning (.equator ht)]
  intro hp
  obtain ⟨z,hz,heq⟩ := hp.trans hr
  classical
  -- At the state with all bits zero the half turn leaves nothing.
  have hze := congrFun (congrArg (fun a : Operator Qubit => a (Pi.single 0 1)) heq) 0
  have hf : flipped q 0 ≠ 0 := by
    intro h0
    have := congrFun h0 q
    simp at this
  simp only [wire_equator_apply,Pi.single_eq_of_ne hf] at hze
  have hz0 : z = 0 := by simpa using hze.symm
  simp [hz0] at hz
variable (u : (op : Operation ℝ) → Matrix.unitaryGroup (Fin op.qubits.length → Fin 2) ℂ)
open Classical in
def reading (op : Operation ℝ) : Operator Qubit := if Turning op then operator op else act op.qubits.get (u op)
lemma exists_act_operator (op) : ∃ m, operator op = act op.qubits.get m := by
  unfold operator
  split
  · exact ⟨_,rfl⟩
  · refine ⟨0,?_⟩
    have hz := act_smul op.qubits.get 0 0
    rw [zero_smul,zero_smul] at hz
    exact hz.symm
lemma reads_reading : Reads (reading u) where
  exists_act op := by
    unfold reading
    split
    · exact exists_act_operator op
    · exact ⟨_,rfl⟩
  turning h := if_pos h
lemma isUnit_coupled (q r : Qubit) (t) : IsUnit (coupled q r (turned t)) := by
  have hone : ∀ a b, turned a * turned b = 1 → coupled q r (turned a) * coupled q r (turned b) = 1 := by
    intro a b hab
    ext φ x
    rw [coupled,coupled,diagonal_mul,diagonal_apply,Operator.one_apply]
    by_cases hx : x q = 1 ∧ x r = 1
    · rw [if_pos hx,if_pos hx,hab,one_mul]
    · rw [if_neg hx,if_neg hx,one_mul,one_mul]
  exact ⟨⟨_,_,hone t (-t) (turned_mul_neg t),hone (-t) t (by rw [mul_comm,turned_mul_neg])⟩,rfl⟩
lemma isUnit_operator (h : Turning op) : IsUnit (operator op) := by
  have hne : ∀ t, turned t ≠ 0 := fun t h0 => by simpa [h0] using norm_turned t
  cases h with
  | equator ht => exact (operator_equator ht).isUnit ((isUnit_phased (equator_mul_self _) (hne _)).map _)
  | phase t shift axis q => exact (operator_phase t shift axis q).isUnit ((isUnit_phased (sigma_mul_self .z) (hne t)).map _)
  | coupling t shift axis hqr => exact (operator_coupling t shift axis hqr).isUnit (isUnit_coupled _ _ t)
lemma isUnit_reading (hn : op.qubits.Nodup) : IsUnit (reading u op) := by
  unfold reading
  split
  case isTrue h => exact isUnit_operator h
  case isFalse =>
    have hinj := nodup_iff_injective_get.mp hn
    have hmul : act op.qubits.get (u op).1 * act op.qubits.get (star (u op).1) = 1 := by
      rw [← act_mul hinj,Matrix.mem_unitaryGroup_iff.mp (u op).2,act_one hinj]
    have hmul' : act op.qubits.get (star (u op).1) * act op.qubits.get (u op).1 = 1 := by
      rw [← act_mul hinj,Matrix.mem_unitaryGroup_iff'.mp (u op).2,act_one hinj]
    exact ⟨⟨_,_,hmul,hmul'⟩,rfl⟩
lemma isUnit_evolution (h : ∀ op ∈ ops, IsUnit (effect op)) : IsUnit (evolution effect ops) :=
  prod_isUnit (by simpa using h)

/-- A circuit without measurements is left equal up to a global phase to the one in which all turns at whole exponents are half
turns. So it is left equal to itself if no exponent is even, and it is not if just one is. -/
theorem run_upToPhase [OperationText ℝ] {c : Circuit (Operation ℝ)} (hc : ∀ m ∈ c.moments, OverlapFree m)
    (hops : ∀ op ∈ c.operations, Turning op ∨ Foreign op) :
    ∃ d, run 0 .none c = (d, .ok ()) ∧ (∀ m ∈ d.moments, OverlapFree m) ∧
      UpToPhase (evolution (reading u) d.operations) (evolution (asHalfTurns (reading u)) c.operations) ∧
      ((∀ op ∈ c.operations, ¬ IsEven op) →
        UpToPhase (evolution (reading u) d.operations) (evolution (reading u) c.operations)) ∧
      ∀ xs op ys, c.operations = xs ++ op :: ys → IsEven op → (∀ o ∈ xs ++ ys, ¬ IsEven o) →
        ¬ UpToPhase (evolution (reading u) d.operations) (evolution (reading u) c.operations) := by
  have hreads := reads_reading u
  have hnodup : ∀ op ∈ c.operations, op.qubits.Nodup := by
    intro op hop
    obtain ⟨m, hm, hop⟩ := List.mem_flatMap.mp hop
    exact (overlapFree_iff.mp (hc m hm)).1 op hop
  have hpasses : ∀ op ∈ c.operations, Passes (reading u) op := by
    intro op hop
    rcases hops op hop with hturning | hforeign
    · exact passes_turning hreads hturning
    · exact passes_foreign hreads hforeign (hnodup op hop)
  have hmeasurement : ∀ op ∈ c.operations, op.isMeasurement = false := by
    intro op hop
    rcases hops op hop with hturning | hforeign
    · exact hturning.isMeasurement
    · exact hforeign.unread.2
  obtain ⟨d, oss, ws, hrun, hfree, -, -, -, hphase⟩ := run_order hreads hc hpasses
  rw [restored_of_not_isMeasurement hmeasurement] at hphase
  refine ⟨d, hrun, hfree, hphase, fun hnone => ?_, fun xs op ys hsplit heven hothers hkept => ?_⟩
  · exact hphase.trans (evolution_upToPhase fun op hop => asHalfTurns_upToPhase hreads (hnone op hop))
  · have hunit : ∀ o ∈ c.operations, IsUnit (reading u o) := fun o ho => isUnit_reading u (hnodup o ho)
    have hkeep : ∀ {os : List (Operation ℝ)}, (∀ o ∈ os, o ∈ xs ++ ys) →
        UpToPhase (evolution (reading u) os) (evolution (asHalfTurns (reading u)) os) := fun hsub =>
      (evolution_upToPhase fun o ho => asHalfTurns_upToPhase hreads (hothers o (hsub o ho))).symm
    have hxs := hkeep fun o ho => List.mem_append_left ys ho
    have hys := hkeep fun o ho => List.mem_append_right xs ho
    have hunitxs : IsUnit (evolution (reading u) xs) :=
      isUnit_evolution fun o ho => hunit o (hsplit ▸ List.mem_append_left _ ho)
    have hunitys : IsUnit (evolution (reading u) ys) :=
      isUnit_evolution fun o ho => hunit o (hsplit ▸ List.mem_append_right _ (List.mem_cons_of_mem _ ho))
    -- Both circuits are the same around the one operation that differs.
    have hsame : UpToPhase (evolution (reading u) ys * asHalfTurns (reading u) op * evolution (reading u) xs)
        (evolution (reading u) ys * reading u op * evolution (reading u) xs) := by
      have hends : ∀ f : Operation ℝ → Operator Qubit,
          evolution f (xs ++ op :: ys) = evolution f ys * f op * evolution f xs := fun f => by
        rw [evolution_append, evolution_cons]
      refine (((hys.mul_right _).mul hxs).trans ?_).trans (hphase.symm.trans (hkept.trans ?_))
      · rw [hsplit, hends]
      · rw [hsplit, hends]
    exact not_upToPhase_of_isEven hreads heven ((UpToPhase.mul_iff hunitys hunitxs).mp hsame)
def squaredFlip : OpCircuit ℝ where
  moments := [⟨[.gate (.power .x (.num 2) 0 true) [.line 0]]⟩,⟨[.gate .H [.line 0]]⟩]

/-- The flip at exponent two is the identity, and is left as a flip. -/
theorem squaredFlip_not_upToPhase :
    letI : OperationText ℝ := ⟨fun _ => "", fun _ => "", fun _ => ""⟩
    (∀ m ∈ squaredFlip.moments, OverlapFree m) ∧ (∀ op ∈ squaredFlip.operations, Turning op ∨ Foreign op) ∧
      ∃ d, run 0 .none squaredFlip = (d, .ok ()) ∧
        ¬ UpToPhase (evolution (reading fun _ => 1) d.operations) (evolution (reading fun _ => 1) squaredFlip.operations) := by
  let _ := silentText
  have hturn : turnOf? (.gate (.power .x (.num 2) 0 true) [.line 0]) = some (2, 0, .line 0) := rfl
  have hforeign : Foreign (.gate .H [.line 0]) := ⟨by decide, by decide, by decide, by decide⟩
  have hc : ∀ m ∈ squaredFlip.moments, OverlapFree m := by
    intro m hm
    rcases List.mem_cons.mp hm with rfl | hm
    · exact overlapFree_singleton.mpr (List.nodup_singleton _)
    · rw [List.mem_singleton.mp hm]
      exact overlapFree_singleton.mpr (List.nodup_singleton _)
  have hops : ∀ op ∈ squaredFlip.operations, Turning op ∨ Foreign op := by
    intro op hop
    rcases List.mem_cons.mp hop with rfl | hop
    · exact Or.inl (.equator hturn)
    · rw [List.mem_singleton.mp hop]
      exact Or.inr hforeign
  have heven : IsEven (.gate (.power .x (.num 2) 0 true) [.line 0]) := ⟨1, 0, .line 0, by rw [hturn]; norm_num⟩
  have hother : ∀ o ∈ ([] ++ [.gate .H [.line 0]] : List (Operation ℝ)), ¬ IsEven o := by
    intro o ho hev
    rw [List.mem_singleton.mp ho] at hev
    exact hforeign.unread.1.not_isWhole hev.isWhole
  obtain ⟨d, hrun, -, -, -, hfails⟩ := run_upToPhase (fun _ => 1) hc hops
  exact ⟨hc, hops, d, hrun, hfails [] _ [.gate .H [.line 0]] rfl heven hother⟩
end
end
end QuantumCircuits.CarriedTurns
