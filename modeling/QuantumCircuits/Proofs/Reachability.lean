import QuantumCircuits.Proofs.FrontierInsertion

/-! # How far a frontier reaches

A place on a qubit can be passed if all places from its start up to it can be passed and no operation there holds the
qubit up. An operation lets its qubits pass only together. A search moment by moment leaves open exactly the places
that this rule makes passable.
-/
namespace QuantumCircuits.Reachability
open WireOrder FrontierInsertion List Circuit
variable [Located α] {reached : Frontier} {op : α}
/-- The places that can be passed from a frontier on: the least relation closed under the two rules. -/
inductive Passable (c : Circuit α) (start : Frontier) (blocks : α → Bool) : Qubit → Int → Prop
  | idle {q : Qubit} {s i : Int} (hstart : start.get? q = some s) (hle : s ≤ i)
      (before : ∀ j, s ≤ j → j < i → Passable c start blocks q j) (hop : c.opAt? q i = none) :
      Passable c start blocks q i
  | through {q : Qubit} {s i : Int} {op : α} (hstart : start.get? q = some s) (hle : s ≤ i)
      (before : ∀ j, s ≤ j → j < i → Passable c start blocks q j) (hop : c.opAt? q i = some op)
      (hblocks : blocks op = false) (started : ∀ r ∈ qubits op, ∃ t, start.get? r = some t ∧ t ≤ i)
      (together : ∀ r ∈ qubits op, ∀ t, start.get? r = some t → ∀ j, t ≤ j → j < i → Passable c start blocks r j) :
      Passable c start blocks q i
variable {c : Circuit α} {start : Frontier} {blocks : α → Bool}
section
variable {q : Qubit}
def arrived (start : Frontier) (i : Nat) (reached : Frontier) (op : α) : Qubits :=
  (qubits op).filter fun q => (reached.get? q).isNone && (match start.get? q with
    | some s => s ≤ i
    | none => false)
lemma mem_arrived : q ∈ arrived start i reached op ↔
      q ∈ qubits op ∧ reached.get? q = none ∧ ∃ s, start.get? q = some s ∧ s ≤ i := by
  cases hq : start.get? q <;> simp [arrived,hq]
def AllArrived (start : Frontier) (i : Nat) (reached : Frontier) (op : α) : Prop :=
  ∀ r ∈ qubits op, reached.get? r = none ∧ ∃ t, start.get? r = some t ∧ t ≤ i
lemma length_arrived : (arrived start i reached op).length = (qubits op).length ↔ AllArrived start i reached op := by
  rw [arrived,length_filter_eq_length_iff]
  refine forall₂_congr fun r hr => ?_
  have hmem : r ∈ arrived start i reached op ↔ _ := mem_arrived
  rw [arrived] at hmem
  simpa [hr] using hmem
instance (start : Frontier) (i : Nat) (reached : Frontier) (op : α) : Decidable (AllArrived start i reached op) :=
  decidable_of_iff _ length_arrived
lemma get?_sets (qs : Qubits) (p) (f : Frontier) (q) :
    (qs.foldl (fun f r => f.set r p) f).get? q = if q ∈ qs then some p else f.get? q := by
  induction qs generalizing f with
  | nil => simp
  | cons r qs ih =>
    rw [foldl_cons,ih,get?_set]
    by_cases hq : q = r <;> by_cases hqs : q ∈ qs <;> simp [hq]

/-- An operation stops the qubits that arrive at it unless all of them do and it does not block. -/
lemma get?_reachOp (reached op q) : (reachOp start blocks i reached op).get? q =
      if q ∈ arrived start i reached op ∧ ¬ (AllArrived start i reached op ∧ blocks op = false) then some (i : Int)
      else reached.get? q := by
  have hu : reachOp start blocks i reached op =
      if (arrived start i reached op).isEmpty then reached
      else if (arrived start i reached op).length == (qubits op).length && !blocks op then reached
      else (arrived start i reached op).foldl (fun f q => f.set q i) reached := rfl
  rw [hu]
  split
  case isTrue he =>
    rw [List.isEmpty_iff] at he
    simp [he]
  case isFalse =>
    split
    case isTrue hp =>
      simp only [Bool.and_eq_true,beq_iff_eq,Bool.not_eq_true',length_arrived] at hp
      rw [if_neg fun h => h.2 hp]
    case isFalse hs =>
      simp only [Bool.and_eq_true,beq_iff_eq,Bool.not_eq_true',length_arrived] at hs
      rw [get?_sets]
      simp [hs]
lemma get?_reachOp_of_notMem (hq : q ∉ qubits op) : (reachOp start blocks i reached op).get? q = reached.get? q := by
  rw [get?_reachOp,if_neg fun h => hq (mem_arrived.mp h.1).1]
lemma get?_reachOp_congr {f g} (hfg : ∀ r ∈ qubits op, f.get? r = g.get? r) (hq : q ∈ qubits op) :
    (reachOp start blocks i f op).get? q = (reachOp start blocks i g op).get? q := by
  have hall : AllArrived start i f op ↔ AllArrived start i g op := forall₂_congr fun r hr => by rw [hfg r hr]
  have hmem : q ∈ arrived start i f op ↔ q ∈ arrived start i g op := by rw [mem_arrived,mem_arrived,hfg q hq]
  rw [get?_reachOp,get?_reachOp]
  exact if_congr (and_congr hmem (not_congr (and_congr hall Iff.rfl))) rfl (hfg q hq)
lemma get?_foldl_reachOp {ops} (hfr : OverlapFree ⟨ops⟩) (f q) : (ops.foldl (reachOp start blocks i) f).get? q =
      match ops.find? fun op => (qubits op).contains q with
      | some op => (reachOp start blocks i f op).get? q
      | none => f.get? q := by
  induction ops generalizing f with
  | nil => rfl
  | cons op ops ih =>
    obtain ⟨he,hp⟩ := overlapFree_iff.mp hfr
    obtain ⟨hop,hp⟩ := pairwise_cons.mp hp
    have hre := ih (overlapFree_iff.mpr ⟨(forall_mem_cons.mp he).2,hp⟩)
      (reachOp start blocks i f op)
    rw [foldl_cons,hre,find?_cons]
    by_cases hq : q ∈ qubits op
    · have hn : ops.find? (fun o => (qubits o).contains q) = none :=
        find?_eq_none.mpr fun o ho hqo => hop o ho hq (by simpa using hqo)
      simp only [hn,contains_iff_mem.mpr hq]
    · cases hf : ops.find? fun o => (qubits o).contains q with
      | none => simp [hq,get?_reachOp_of_notMem hq]
      | some o =>
        have ho : o ∈ ops := mem_of_find?_eq_some hf
        have hqo : q ∈ qubits o := by simpa using find?_some hf
        have hs : ∀ r ∈ qubits o, (reachOp start blocks i f op).get? r = f.get? r :=
          fun r hr => get?_reachOp_of_notMem fun hrop => hop o ho hrop hr
        simp [hq,get?_reachOp_congr hs hqo]
end
/-- What the search knows before it looks at the moment at a place: a stopped qubit stands at its first place that cannot
be passed, and every other qubit has passed all places so far. -/
structure SearchedTo (c : Circuit α) (start : Frontier) (blocks : α → Bool) (k : Nat) (reached : Frontier) : Prop where
  stopped : ∀ {q p}, reached.get? q = some p → ∃ s, start.get? q = some s ∧ s ≤ p ∧ p < k ∧
    ¬ Passable c start blocks q p ∧ ∀ j, s ≤ j → j < p → Passable c start blocks q j
  passing : ∀ {q s}, reached.get? q = none → start.get? q = some s → ∀ j, s ≤ j → j < k → Passable c start blocks q j
variable {k : Nat} {q : Qubit} {s : Int}
namespace SearchedTo
variable (h : SearchedTo c start blocks k reached)
include h
lemma none_of_passable (hs : start.get? q = some s)
    (hp : ∀ j, s ≤ j → j < k → Passable c start blocks q j) : reached.get? q = none := by
  cases hq : reached.get? q with
  | none => rfl
  | some p =>
    obtain ⟨t,ht,htp,hpk,hnot,-⟩ := h.stopped hq
    rw [Option.some.inj (hs.symm.trans ht)] at hp
    exact absurd (hp p htp hpk) hnot

/-- At an operation the rule asks for exactly what the search looks at. -/
lemma passable_iff (hop : c.opAt? q k = some op) (hq : q ∈ qubits op) :
    Passable c start blocks q k ↔ AllArrived start k reached op ∧ blocks op = false := by
  constructor
  · intro hp
    cases hp with
    | idle _ _ _ hn => simp [hop] at hn
    | through _ _ _ hop' hb started together =>
      obtain rfl := Option.some.inj (hop.symm.trans hop')
      refine ⟨fun r hr => ?_,hb⟩
      obtain ⟨t,ht,htk⟩ := started r hr
      exact ⟨h.none_of_passable ht (together r hr t ht),t,ht,htk⟩
  · rintro ⟨hall,hb⟩
    obtain ⟨hn,s,hs,hsk⟩ := hall q hq
    refine .through hs hsk (h.passing hn hs) hop hb (fun r hr => (hall r hr).2) fun r hr t ht => ?_
    exact h.passing (hall r hr).1 ht
lemma moment {m} (hm : c.moments[k]? = some m) (hf : OverlapFree m) :
    SearchedTo c start blocks (k+1) (m.ops.foldl (reachOp start blocks k) reached) := by
  have hat : ∀ q, c.opAt? q k = m.ops.find? fun op => (qubits op).contains q := by
    simp [opAt?,momentAt?,hm,Moment.opAt?,show ¬ (k : Int) < 0 by omega]
  have he : ∀ {q s}, reached.get? q = none → start.get? q = some s → (s ≤ k → Passable c start blocks q k) →
      ∀ j, s ≤ j → j < (k+1) → Passable c start blocks q j := by
    intro q s hn hs hk j hsj hjk
    by_cases hj : j < k
    · exact h.passing hn hs j hsj hj
    · obtain rfl : j = k := by omega
      exact hk hsj
  -- A qubit is looked at once, at its operation in the moment if there is one.
  have hget : ∀ q, (m.ops.foldl (reachOp start blocks k) reached).get? q = match c.opAt? q k with
      | some op => (reachOp start blocks k reached op).get? q
      | none => reached.get? q := by
    intro q
    rw [hat q]
    exact get?_foldl_reachOp hf reached q
  constructor
  · intro q p hp
    cases hop : c.opAt? q k with
    | none =>
      rw [hget,hop] at hp
      obtain ⟨s,hs,hsp,hpk,hr⟩ := h.stopped hp
      exact ⟨s,hs,hsp,by omega,hr⟩
    | some op =>
      have hq : q ∈ qubits op := by simpa using find?_some ((hat q).symm.trans hop)
      rw [hget,hop] at hp
      simp only [get?_reachOp] at hp
      split at hp
      case isFalse =>
        obtain ⟨s,hs,hsp,hpk,hr⟩ := h.stopped hp
        exact ⟨s,hs,hsp,by omega,hr⟩
      case isTrue hst =>
        obtain rfl : k = p := Option.some.inj hp
        obtain ⟨-,hn,s,hs,hsk⟩ := mem_arrived.mp hst.1
        exact ⟨s,hs,hsk,by omega,fun hpa => hst.2 ((h.passable_iff hop hq).mp hpa),h.passing hn hs⟩
  · intro q s hn hs
    cases hop : c.opAt? q k with
    | none =>
      rw [hget,hop] at hn
      exact he hn hs fun hsk => .idle hs hsk (h.passing hn hs) hop
    | some op =>
      have hq : q ∈ qubits op := by simpa using find?_some ((hat q).symm.trans hop)
      rw [hget,hop] at hn
      simp only [get?_reachOp] at hn
      split at hn
      case isTrue => simp at hn
      case isFalse hpa =>
        refine he hn hs fun hsk => (h.passable_iff hop hq).mpr ?_
        have hmem : q ∈ arrived start k reached op := mem_arrived.mpr ⟨hq,hn,s,hs,hsk⟩
        exact Classical.not_not.mp fun hnot => hpa ⟨hmem,hnot⟩
lemma moments {ms} (hms : c.moments.drop k = ms)
    (hf : ∀ m ∈ ms, OverlapFree m) : SearchedTo c start blocks (k+ms.length)
      ((ms.zipIdx k).foldl (fun f e => e.1.ops.foldl (reachOp start blocks e.2) f) reached) := by
  induction ms generalizing k reached with
  | nil => exact h
  | cons m ms ih =>
    have hm : c.moments[k]? = some m := by rw [← head?_drop,hms,head?_cons]
    have hr : c.moments.drop (k+1) = ms := by rw [← drop_drop,hms,drop_one,tail_cons]
    have hne := ih (h.moment hm (hf m mem_cons_self)) hr (forall_mem_cons.mp hf).2
    simpa [Nat.add_assoc,Nat.add_comm] using hne
end SearchedTo
def joined : OpCircuit Number := ⟨[⟨[.gate .CZ [.line 0,.line 1]]⟩,⟨[lineGate .h 0]⟩]⟩

end QuantumCircuits.Reachability
