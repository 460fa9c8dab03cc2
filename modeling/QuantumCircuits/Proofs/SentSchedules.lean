import QuantumCircuits.Proofs.HalfTurns
import QuantumCircuits.Wire

/-! # Schedules that are sent

A schedule goes out as messages, each with the delay from the start of the operation before it. Read back, axes and
exponents are as they were, and masks filled up. -/
namespace QuantumCircuits.SentSchedules
open RealScalar Exact HalfTurns Schedule List Gate WireOp WireValue WireStep Param

/-! ## What can be sent -/
inductive Plain : Param ℝ → Prop
  | number (x : ℝ) : Plain (.num x)
  | symbol {name : String} (hname : name ≠ "") : Plain (.expr (.symbol name))

/-- Operations of a superconducting device, without shifts. -/
inductive Sendable : Operation ℝ → Prop
  | turn {k : PowerKind} (hk : k ∈ [.x,.y,.z]) {t : Param ℝ} (ht : Plain t) (axis : Bool) (a : Site) :
    Sendable (.gate (.power k t 0 axis) [a.toQubit])
  | phasedTurn {p t : Param ℝ} (hp : Plain p) (ht : Plain t) (a : Site) : Sendable (.gate (.phasedXOf p t 0) [a.toQubit])
  | coupling {t : Param ℝ} (ht : Plain t) (axis : Bool) (a b : Site) : Sendable (.gate (.power .cz t 0 axis) [a.toQubit,b.toQubit])
  | measurement {sites : List Site} (hsites : sites ≠ []) (key : String) {invert : List Bool} (hmask : invert.length ≤ sites.length) :
    Sendable (.gate (.measurement sites.length key invert) (sites.map Site.toQubit))

/-- Operations on the same qubits with the same axis and exponent, or with the same key and the mask of the first filled up. -/
inductive Alike : Operation ℝ → Operation ℝ → Prop
  | turn (k : PowerKind) (t : Param ℝ) (axis axis' : Bool) (qs : Qubits) :
    Alike (.gate (.power k t 0 axis) qs) (.gate (.power k t 0 axis') qs)
  | phasedTurn (p t : Param ℝ) (qs : Qubits) : Alike (.gate (.phasedX p t 0) qs) (.gate (.phasedX p t 0) qs)
  | measurement (n : ℕ) (key : String) (invert : List Bool) (qs : Qubits) :
    Alike (.gate (.measurement n key invert) qs) (.gate (.measurement n key (fullMask n invert)) qs)
def Legible : WireValue R → Prop
  | .raw _ => True
  | .parameter name => name ≠ ""
def LegibleOp : WireOp R → Prop
  | .expW _ axis t => Legible axis ∧ Legible t
  | .expZ _ t | .exp11 _ _ t => Legible t
  | .measurement targets _ invert => invert.length ≤ targets.length

/-! ## Single operations -/
section
variable {p t : Param ℝ} {op : Operation ℝ}
lemma Plain.exists_value (h : Plain t) : ∃ v, ofParam t = .ok v ∧ Legible v ∧ v.toParam = t := by
  cases h with
  | number x => exact ⟨.raw x,rfl,trivial,rfl⟩
  | @symbol name hn =>
    refine ⟨.parameter name,?_,hn,rfl⟩
    have hn' : (Expression.symbol name : Expression ℝ).symbolName? = some name := by
      simp [Expression.symbolName?,Expression.symbol,Coefficient.isOne,Coefficient.one]
    simp [ofParam,hn']
lemma Plain.canonicalHalfTurns (h : Plain t) : Plain t.canonicalHalfTurns := by
  cases h with
  | number x =>
    obtain ⟨n,hn,-⟩ := canonicalHalfTurns_num x
    exact hn ▸ .number _
  | symbol hna => exact .symbol hna
lemma Plain.neg (h : Plain t) (hs : t.isSymbol = false) : Plain (-t) := by
  cases h with
  | number x => exact .number (-x)
  | @symbol name => simp [isSymbol,Expression.isSymbol,Expression.symbol,Coefficient.isOne,Coefficient.one] at hs
lemma canonicalHalfTurns_canonicalHalfTurns (p : Param ℝ) : p.canonicalHalfTurns.canonicalHalfTurns = p.canonicalHalfTurns := by
  cases p with
  | num x =>
    obtain ⟨n,hn,hlow,hh⟩ := canonicalHalfTurns_num x
    rw [hn,canonicalHalfTurns_fixed hlow hh]
  | expr e => rfl
  | residue e m => rfl
lemma phasedXOf_canonical (p t s) : (.phasedXOf p.canonicalHalfTurns t s : Gate ℝ) = .phasedXOf p t s := by
  unfold phasedXOf
  rw [canonicalHalfTurns_canonicalHalfTurns]
lemma phasedXOf_cases (p t s) :
    (∃ k ∈ [PowerKind.x,.y], ∃ t', (t' = t ∨ t.isSymbol = false ∧ t' = -t) ∧ (.phasedXOf p t s : Gate ℝ) = .power k t' s false) ∨
      (.phasedXOf p t s : Gate ℝ) = .phasedX p.canonicalHalfTurns t s := by
  unfold phasedXOf
  dsimp only
  split
  · exact .inl ⟨.x,by simp,t,.inl rfl,rfl⟩
  · split
    · exact .inl ⟨.y,by simp,t,.inl rfl,rfl⟩
    · split
      case isTrue h => exact .inl ⟨.x,by simp,-t,.inr ⟨by simpa using (Bool.and_eq_true_iff.mp h).2,rfl⟩,rfl⟩
      · split
        case isTrue h => exact .inl ⟨.y,by simp,-t,.inr ⟨by simpa using (Bool.and_eq_true_iff.mp h).2,rfl⟩,rfl⟩
        · exact .inr rfl
lemma phasedXOf_zero (t s) : (.phasedXOf (.num 0) t s : Gate ℝ) = .power .x t s false := by
  have hz : (num (0 : ℝ)).canonicalHalfTurns = .num 0 := canonicalHalfTurns_fixed (by norm_num) (by norm_num)
  simp [phasedXOf,hz,isInt,isNum]
lemma phasedXOf_half (t s) : (.phasedXOf (.num (1/2)) t s : Gate ℝ) = .power .y t s false := by
  have hh : (num (1/2 : ℝ)).canonicalHalfTurns = .num (1/2) := canonicalHalfTurns_fixed (by norm_num) (by norm_num)
  unfold phasedXOf
  rw [hh]
  norm_num [isInt,isNum]
lemma ofQubit_toQubit (a) : Site.ofQubit a.toQubit = .ok a := rfl
lemma mapM_map {α β : Type} {f : α → β} {g : β → Outcome α} (h : ∀ a, g (f a) = .ok a) (as : List α) :
    (as.map f).mapM g = .ok as := by
  rw [List.mapM_map]
  exact (WireOrder.mapM_eq_pure fun a _ => h a).trans (congrArg _ (map_id _))
lemma length_fullMask {n} (h : invert.length ≤ n) : fullMask n invert = [] ∨ (fullMask n invert).length = n := by
  unfold fullMask
  split
  · exact .inl rfl
  · simp only [length_append,length_replicate]
    omega
variable [OperationText ℝ] {qs : Qubits}
lemma on_eq {g : Gate ℝ} (hqs : qs ≠ []) (hl : qs.length = g.numQubits)
    (hg : (∃ k t s axis, g = .power k t s axis) ∨ (∃ p t s, g = .phasedX p t s) ∨ ∃ n key invert, g = .measurement n key invert) :
    g.on qs = .ok (.gate g qs) := by
  have he : qs.isEmpty = false := by simpa using hqs
  rcases hg with ⟨k,t,s,axis,rfl⟩ | ⟨p,t,s,rfl⟩ | ⟨n,key,invert,rfl⟩ <;>
  · simp only [on,checkQubits,he,hl,ne_eq]
    rfl
lemma toOperation_expW (a) (p t : WireValue ℝ) :
    (expW a p t).toOperation = .ok (.gate (.phasedXOf p.toParam t.toParam 0) [a.toQubit]) := by
  have hz : (ratio 0 1 : ℝ) = 0 := by simp
  rw [toOperation,hz]
  rcases phasedXOf_cases p.toParam t.toParam 0 with ⟨k,hk,t',-,h⟩ | h
  · rw [h]
    rcases mem_pair.mp hk with rfl | rfl <;> rfl
  · rw [h]
    exact on_eq (by simp) rfl (.inr (.inl ⟨_,_,_,rfl⟩))

/-- One whole turn to a power is the turn at that exponent. -/
lemma powered_eq (ht : Plain t) (k axis) (hqs : qs ≠ []) (hl : qs.length = k.numQubits) :
    powered (.power k (.num one) nought axis) qs t = .ok (.gate (.power k t 0 axis) qs) := by
  have hmul : (num 1).mul t = t := by
    cases ht with
    | number x => simp [mul]
    | symbol hna => simp [mul]
  have hpow : (Operation.gate (.power k (.num 1) 0 axis) qs).pow? t =
      .ok (some (.ofGate ((power k (.num 1) 0 axis).withExponent ((num 1).mul t)) qs)) := rfl
  have he : (power k (.num 1) 0 axis).withExponent t = .power k t 0 axis := by
    simp [withExponent,nought_eq]
  rw [powered,one_eq,nought_eq,on_eq (g := .power k (.num 1) 0 axis) hqs hl (.inl ⟨_,_,_,_,rfl⟩)]
  simp only [bind,Except.bind,hpow,hmul,he]
  rfl
def Sent (op : Operation ℝ) : Prop := ∃ w op', ofOperation op = .ok w ∧ LegibleOp w ∧ w.toOperation = .ok op' ∧ Alike op op'
lemma ofOperation_gate (g : Gate ℝ) (qs) : ofOperation (.gate g qs) = ofGate g qs := rfl
lemma sent_turn {k} (hk : k ∈ [.x,.y,.z]) (ht : Plain t) (axis) (a : Site) :
    Sent (.gate (.power k t 0 axis) [a.toQubit]) := by
  obtain ⟨v,hv,hl,rfl⟩ := ht.exists_value
  simp only [mem_cons,not_mem_nil,or_false] at hk
  rcases hk with rfl | rfl | rfl
  · refine ⟨.expW a (.raw (ratio 0 1)) v,_,?_,⟨trivial,hl⟩,toOperation_expW a _ v,?_⟩
    · simp only [ofOperation_gate,ofGate,single,ofQubit_toQubit,hv,bind,Except.bind]
    · have hz : (ratio 0 1 : ℝ) = 0 := by simp
      rw [toParam,hz,phasedXOf_zero]
      exact .turn ..
  · refine ⟨.expW a (.raw (ratio 1 2)) v,_,?_,⟨trivial,hl⟩,toOperation_expW a _ v,?_⟩
    · simp only [ofOperation_gate,ofGate,single,ofQubit_toQubit,hv,bind,Except.bind]
    · have hh : (ratio 1 2 : ℝ) = 1/2 := by simp
      rw [toParam,hh,phasedXOf_half]
      exact .turn ..
  · refine ⟨.expZ a v,_,?_,hl,powered_eq ht .z true (by simp) rfl,.turn ..⟩
    simp only [ofOperation_gate,ofGate,single,ofQubit_toQubit,hv,bind,Except.bind]
lemma sent_phasedTurn (hp : Plain p) (ht : Plain t) (a : Site) : Sent (.gate (.phasedXOf p t 0) [a.toQubit]) := by
  rcases phasedXOf_cases p t 0 with ⟨k,hk,t',ht',h⟩ | h
  · rw [h]
    refine sent_turn (mem_append_left [.z] hk) ?_ false a
    rcases ht' with rfl | ⟨hs,rfl⟩
    · exact ht
    · exact ht.neg hs
  · have ha := (phasedXOf_canonical p t 0).trans h
    obtain ⟨v,hv,hl,rfl⟩ := ht.exists_value
    obtain ⟨w,hw,hl',hp'⟩ := hp.canonicalHalfTurns.exists_value
    rw [← hp'] at h hw ha
    rw [h]
    refine ⟨.expW a w v,_,?_,⟨hl',hl⟩,toOperation_expW a w v,?_⟩
    · simp only [ofOperation_gate,ofGate,single,ofQubit_toQubit,hv,hw,bind,Except.bind]
    · rw [ha]
      exact .phasedTurn ..
lemma sent_coupling (ht : Plain t) (axis) (a b : Site) : Sent (.gate (.power .cz t 0 axis) [a.toQubit,b.toQubit]) := by
  obtain ⟨v,hv,hl,rfl⟩ := ht.exists_value
  refine ⟨.exp11 a b v,_,?_,hl,powered_eq ht .cz false (by simp) rfl,.turn ..⟩
  simp only [ofOperation_gate,ofGate,ofQubit_toQubit,hv,bind,Except.bind]
lemma sent_measurement {sites} (hs : sites ≠ []) (key) (hm : invert.length ≤ sites.length) :
    Sent (.gate (.measurement sites.length key invert) (sites.map Site.toQubit)) := by
  have hl := length_fullMask hm
  have hqs : sites.map Site.toQubit ≠ [] := by simpa using hs
  have hf : (fullMask sites.length invert).length ≤ sites.length := by
    rcases hl with h | h
    · simp [h]
    · exact h.le
  refine ⟨.measurement sites key (fullMask sites.length invert),_,?_,hf,?_,.measurement ..⟩
  · have hw : (!(fullMask sites.length invert).isEmpty &&
        decide ((fullMask sites.length invert).length ≠ (sites.map Site.toQubit).length)) = false := by
      rcases hl with h | h <;> simp [h]
    simp only [ofOperation_gate,ofGate,mapM_map ofQubit_toQubit,isEmpty_eq_false_iff.mpr hqs,hw]
    rfl
  · rw [toOperation,measurementOf,if_neg (by omega)]
    exact on_eq hqs (by simp [numQubits]) (.inr (.inr ⟨_,_,_,rfl⟩))
lemma Sendable.sent (h : Sendable op) : Sent op := by
  cases h with
  | turn hk ht axis a => exact sent_turn hk ht axis a
  | phasedTurn hp ht a => exact sent_phasedTurn hp ht a
  | coupling ht axis a b => exact sent_coupling ht axis a b
  | measurement hs key hm => exact sent_measurement hs key hm
lemma Alike.duration (h : Alike op op') {d : XmonDevice ℝ} {u : Duration ℝ} (hd : d.duration op = .ok u) :
    d.duration op' = .ok u := by
  cases h with
  | turn k t axis axis' qs => cases k <;> first | exact hd | cases hd
  | phasedTurn | measurement => exact hd
end

/-! ## Whole schedules -/
section
variable {d : XmonDevice ℝ} {xs ys : List (Scheduled ℝ)}
end

/-! ## Messages as documents -/
section
end
end QuantumCircuits.SentSchedules
