import Mathlib
import QuantumCircuits.Value

/-! # Which vectors a linear combination admits

A combination refuses vectors by the rule that it is built with. Operations in place keep the rule, and those that work
on a copy lose it. -/
namespace QuantumCircuits.AdmittedVectors
open LinearDict List Prod
variable {K : Type} {f : K → K → K} {d : LinearDict V K} {ts ps : List (V × K)} {p t : V × K} {v : V} {c : K} {valid : V → Bool} {o : Bool}

/-! ## What a combination is governed by -/
section
variable [Zero K]
structure Neat (ts : List (V × K)) : Prop where
  nodup : (ts.map Prod.fst).Nodup
  nonzero : ∀ t ∈ ts, t.2 ≠ 0
def rule (valid : V → Bool) : Admission V K := fun _ v => valid v

/-- The rule by which a combination refuses vectors is lost on copies, and its terms follow the rule that it has. -/
structure Governed (valid : V → Bool) (original : Bool) (d : LinearDict V K) : Prop where
  admits : d.admits = rule fun v => valid v || !original
  copyAdmits : d.copyAdmits = anything
  neat : Neat d.terms
  within : ∀ t ∈ d.terms, (valid t.1 || !original) = true
def Sound (valid : V → Bool) (original : Bool) : Except V (LinearDict V K) → Prop
  | .ok d => Governed valid original d
  | .error v => valid v = false
lemma Sound.bind {o' x} {g : LinearDict V K → Except V (LinearDict V K)} (hx : Sound valid o x)
    (hg : ∀ d, Governed valid o d → Sound valid o' (g d)) : Sound valid o' (x >>= g) := by
  cases x with
  | error v => exact hx
  | ok d => exact hg d hx
namespace Governed
lemma of_nil {admits : Admission V K} (h : admits = rule fun v => valid v || !o) : Governed valid o ⟨admits,anything,[]⟩ :=
  ⟨h,rfl,⟨nodup_nil,by simp⟩,by simp⟩
lemma blank : Governed valid false (⟨anything,anything,[]⟩ : LinearDict V K) :=
  of_nil (by funext ts v; simp [rule,anything])
lemma copied (h : Governed valid o d) : Governed valid false ⟨anything,anything,d.terms⟩ :=
  ⟨blank.admits,rfl,h.neat,by simp⟩
end Governed
end
variable [DecidableEq V]
lemma put_eq_append (h : v ∉ ts.map fst) : put v c ts = ts ++ [(v,c)] := by
  induction ts with
  | nil => rfl
  | cons t ts ih =>
    obtain ⟨hne,hts⟩ := not_or.mp (mt mem_cons.mpr h)
    rw [put,if_neg (by simpa using Ne.symm hne),ih hts,cons_append]
lemma keys_put (h : v ∈ ts.map fst) : (put v c ts).map fst = ts.map fst := by
  induction ts with
  | nil => cases h
  | cons t ts ih =>
    rw [put]
    split
    case isTrue => rfl
    case isFalse hne =>
      have hts : v ∈ ts.map fst := (mem_cons.mp h).resolve_left fun he => hne (beq_iff_eq.mpr he.symm)
      simp only [map_cons,ih hts]
lemma nodup_put (h : (ts.map fst).Nodup) : ((put v c ts).map fst).Nodup := by
  by_cases hv : v ∈ ts.map fst
  · rwa [keys_put hv]
  · rw [put_eq_append hv,map_append]
    exact h.append (nodup_singleton _) (by simpa using hv)
lemma mem_put (h : t ∈ put v c ts) : t ∈ ts ∨ t = (v,c) := by
  induction ts with
  | nil => exact .inr (mem_singleton.mp h)
  | cons u ts ih =>
    rw [put] at h
    split at h
    case isTrue he =>
      rcases mem_cons.mp h with rfl | h
      · exact .inr (by rw [beq_iff_eq.mp he])
      · exact .inl (mem_cons_of_mem _ h)
    case isFalse =>
      rcases mem_cons.mp h with rfl | h
      · exact .inl mem_cons_self
      · exact (ih h).imp_left (mem_cons_of_mem _)
variable [DecidableEq K] [Zero K]
/-! ## Coefficients taken in one after the other -/
def take (f : K → K → K) (ts : List (V × K)) (p : V × K) : List (V × K) :=
  if f ((find? p.1 ts).getD 0) p.2 == 0 then erase p.1 ts else put p.1 (f ((find? p.1 ts).getD 0) p.2) ts
lemma mem_take (h : t ∈ take f ts p) : t ∈ ts ∨ t.1 = p.1 ∧ t.2 ≠ 0 := by
  unfold take at h
  split at h
  case isTrue => exact .inl (mem_of_mem_filter h)
  case isFalse hne =>
    rcases mem_put h with h | rfl
    · exact .inl h
    · exact .inr ⟨rfl,by simpa using hne⟩
lemma Neat.take (h : Neat ts) (p) : Neat (take f ts p) := by
  refine ⟨?_,fun t ht => (mem_take ht).elim (h.nonzero t) And.right⟩
  unfold AdmittedVectors.take
  split
  case isTrue => exact (filter_sublist.map fst).nodup h.nodup
  case isFalse => exact nodup_put h.nodup
lemma Neat.foldl_take (h : Neat ts) : Neat (ps.foldl (AdmittedVectors.take f) ts) :=
  foldlRecOn ps _ h fun _ hts p _ => hts.take p
lemma mem_foldl_take (h : t ∈ ps.foldl (take f) ts) : t ∈ ts ∨ ∃ p ∈ ps, p.1 = t.1 := by
  refine foldlRecOn (motive := fun us => t ∈ us → _) ps _ .inl (fun us ih p hp h => ?_) h
  rcases mem_take h with h | he
  · exact ih h
  · exact .inr ⟨p,hp,he.1.symm⟩
lemma foldl_take_eq_append (h : Neat (ts ++ ps)) : ps.foldl (take fun _ c => c) ts = ts ++ ps := by
  induction ps generalizing ts with
  | nil => simp
  | cons p ps ih =>
    have hp : p.1 ∉ ts.map fst := by
      have hn := h.nodup
      rw [map_append] at hn
      exact fun hmem => disjoint_of_nodup_append hn hmem mem_cons_self
    have ht : take (fun _ c => c) ts p = ts ++ [p] := by
      rw [take,if_neg (by simpa using h.nonzero p (by simp)),put_eq_append hp]
    rw [foldl_cons,ht,ih (by simpa using h),append_assoc,singleton_append]
lemma gather_eq (h : Neat ps) : gather ps = ps := by
  have hput : ps.foldl (fun acc p => put p.1 p.2 acc) [] = ps.foldl (take fun _ c => c) [] :=
    foldl_ext _ _ _ fun acc p hp => by simp [take,h.nonzero p hp]
  exact hput.trans (foldl_take_eq_append h)
omit [DecidableEq V] in
lemma clean_eq (h : Neat ts) : clean ts = ts := filter_eq_self.mpr fun t ht => by simpa using h.nonzero t ht
omit [DecidableEq K] in
lemma Neat.find?_iff (h : Neat ts) : (find? v ts).getD 0 ≠ 0 ↔ v ∈ ts.map fst := by
  induction ts with
  | nil => simp [LinearDict.find?]
  | cons t ts ih =>
    have hts : Neat ts := ⟨(nodup_cons.mp h.nodup).2,(forall_mem_cons.mp h.nonzero).2⟩
    rw [LinearDict.find?,map_cons,mem_cons]
    split
    case isTrue he => simpa [beq_iff_eq.mp he] using h.nonzero t mem_cons_self
    case isFalse hne => rw [ih hts,or_iff_right fun he => hne (beq_iff_eq.mpr he.symm)]
section
variable (hd : d.admits = rule valid)
include hd
lemma set_eq (hp : valid p.1) :
    d.set p.1 (f (d.get p.1) p.2) = ({ d with terms := take f d.terms p },none) := by
  rw [LinearDict.set,hd,if_pos (by exact hp)]
  rfl
lemma combine_admitted (h : ∀ p ∈ ps, valid p.1) :
    d.combine f ps = ({ d with terms := clean (ps.foldl (take f) d.terms) },none) := by
  induction ps generalizing d with
  | nil => rfl
  | cons p ps ih =>
    obtain ⟨hp,hps⟩ := forall_mem_cons.mp h
    rw [combine,set_eq hd hp]
    exact ih hd hps
lemma combine_refused (h : ¬ ∀ p ∈ ps, valid p.1) :
    ∃ d' w, d.combine f ps = (d',some w) ∧ valid w = false := by
  induction ps generalizing d with
  | nil => exact absurd (by simp) h
  | cons p ps ih =>
    cases hp : valid p.1 with
    | false => exact ⟨d,p.1,by simp [combine,LinearDict.set,hd,rule,hp],hp⟩
    | true =>
      rw [combine,set_eq hd hp]
      exact ih hd fun hps => h (forall_mem_cons.mpr ⟨hp,hps⟩)
def answer : LinearDict.Step V K → Except V (LinearDict V K)
  | (d,none) => .ok d
  | (_,some v) => .error v
lemma combined {e} (h : answer (d.combine f ps) = .ok e) :
    (∀ p ∈ ps, valid p.1) ∧ e = { d with terms := clean (ps.foldl (take f) d.terms) } := by
  by_cases hps : ∀ p ∈ ps, valid p.1
  · rw [combine_admitted hd hps] at h
    cases h
    exact ⟨hps,rfl⟩
  · obtain ⟨d',w,hd',-⟩ := combine_refused (f := f) hd hps
    rw [hd'] at h
    cases h
end
lemma combine_anything (hd : d.admits = anything) : d.combine f ps = ({ d with terms := clean (ps.foldl (take f) d.terms) },none) :=
  combine_admitted (hd.trans rfl) fun _ _ => rfl
lemma setAll_eq_combine : d.setAll ps = d.combine (fun _ c => c) ps := by
  induction ps generalizing d with
  | nil => rfl
  | cons p ps ih => simp only [setAll,combine,ih]
lemma copy_eq (hc : d.copyAdmits = anything) (h : Neat d.terms) : d.copy = (⟨anything,anything,d.terms⟩,none) := by
  have ht : clean (d.terms.foldl (take fun _ c => c) []) = d.terms := by
    have hf : d.terms.foldl (take fun _ c => c) [] = d.terms := foldl_take_eq_append h
    rw [hf,clean_eq h]
  rw [copy,hc,build,update,setAll_eq_combine,gather_eq h,combine_anything rfl,ht]

/-! ## What operations keep -/
namespace Governed
variable (h : Governed valid o d)
include h
lemma foldl (hps : ∀ p ∈ ps, (valid p.1 || !o)) : Governed valid o { d with terms := clean (ps.foldl (take f) d.terms) } := by
  have hn : Neat (ps.foldl (take f) d.terms) := h.neat.foldl_take
  rw [clean_eq hn]
  refine ⟨h.admits,h.copyAdmits,hn,fun t ht => ?_⟩
  rcases mem_foldl_take ht with ht | ⟨p,hp,he⟩
  · exact h.within t ht
  · exact he ▸ hps p hp
lemma combine (f ps) : Sound valid o (answer (d.combine f ps)) := by
  by_cases hps : ∀ p ∈ ps, (valid p.1 || !o)
  · rw [combine_admitted h.admits hps]
    exact h.foldl hps
  · obtain ⟨e,w,he,hw⟩ := combine_refused h.admits hps
    rw [he]
    exact (Bool.or_eq_false_iff.mp hw).1
lemma update (ps) : Sound valid o (answer (d.update ps)) := by
  rw [LinearDict.update,setAll_eq_combine]
  exact h.combine _ _
lemma set (v c) : Sound valid o (answer (d.set v c)) := by
  by_cases hv : (valid v || !o)
  · rw [set_eq (f := fun _ c => c) (p := (v,c)) h.admits hv]
    have hg : Governed valid o { d with terms := clean ([(v,c)].foldl (take fun _ c => c) d.terms) } :=
      h.foldl (by simpa using hv)
    rwa [clean_eq h.neat.foldl_take] at hg
  · rw [LinearDict.set,h.admits,if_neg (by exact hv)]
    exact (Bool.or_eq_false_iff.mp (Bool.eq_false_iff.mpr hv)).1
lemma onCopy (g) (hg : ∀ e, Governed valid false e → Sound valid false (answer (g e))) :
    Sound valid false (answer (d.onCopy g)) := by
  rw [LinearDict.onCopy,copy_eq h.copyAdmits h.neat]
  exact hg _ h.copied
omit [DecidableEq V] in
lemma scaleInPlace [Mul K] (c) : Governed valid o (d.scaleInPlace c) := by
  have hk : ((d.terms.map fun t => (t.1,t.2*c)).map fst) = d.terms.map fst := by simp
  refine ⟨h.admits,h.copyAdmits,⟨?_,fun t ht => by simpa using (mem_filter.mp ht).2⟩,fun t ht => ?_⟩
  · exact (filter_sublist.map fst).nodup (hk ▸ h.neat.nodup)
  · obtain ⟨u,hu,rfl⟩ := mem_map.mp (mem_of_mem_filter ht)
    exact h.within u hu
end Governed

/-! ## Expressions -/

/-- What can be done with combinations built with one rule. A quotient is the product with the inverse. -/
inductive Expr (V K : Type) where
  | new (ps : List (V × K))
  | set (a : Expr V K) (v : V) (c : K)
  | update (a : Expr V K) (ps : List (V × K))
  | copy (a : Expr V K)
  | add (a b : Expr V K)
  | sub (a b : Expr V K)
  | neg (a : Expr V K)
  | scale (a : Expr V K) (c : K)
  | addInPlace (a b : Expr V K)
  | subInPlace (a b : Expr V K)
  | scaleInPlace (a : Expr V K) (c : K)
variable [Add K] [Sub K] [Mul K] [Neg K]
namespace Expr
/-- The combination that an expression stands for, or the vector that was refused on the way. -/
def eval (valid : V → Bool) : Expr V K → Except V (LinearDict V K)
  | new ps => answer (build (rule valid) anything ps)
  | set a v c => do answer ((← a.eval valid).set v c)
  | update a ps => do answer ((← a.eval valid).update ps)
  | copy a => do answer (← a.eval valid).copy
  | add a b => do answer ((← a.eval valid).add (← b.eval valid))
  | sub a b => do answer ((← a.eval valid).sub (← b.eval valid))
  | neg a => do answer (← a.eval valid).negate
  | scale a c => do answer ((← a.eval valid).scale c)
  | addInPlace a b => do answer ((← a.eval valid).addInPlace (← b.eval valid))
  | subInPlace a b => do answer ((← a.eval valid).subInPlace (← b.eval valid))
  | scaleInPlace a c => do .ok ((← a.eval valid).scaleInPlace c)

/-- Whether an expression stands for the combination that was built, and not for one made from a copy. -/
def isOriginal : Expr V K → Bool
  | new _ => true
  | set a _ _ | update a _ | addInPlace a _ | subInPlace a _ | scaleInPlace a _ => a.isOriginal
  | copy _ | add .. | sub .. | neg _ | scale .. => false
end Expr
lemma eval_sound (valid) (a : Expr V K) : Sound valid a.isOriginal (a.eval valid) := by
  induction a with
  | new ps => exact (Governed.of_nil (by simp [Expr.isOriginal])).update ps
  | set a v c iha => exact iha.bind fun d h => h.set v c
  | update a ps iha => exact iha.bind fun d h => h.update ps
  | copy a iha =>
    refine iha.bind fun d h => ?_
    rw [copy_eq h.copyAdmits h.neat]
    exact h.copied
  | add a b iha ihb | sub a b iha ihb => exact iha.bind fun d h => ihb.bind fun e _ => h.onCopy _ fun d' h' => h'.combine _ _
  | neg a iha =>
    refine iha.bind fun d h => ?_
    rw [negate,h.copyAdmits]
    exact Governed.blank.update _
  | scale a c iha => exact iha.bind fun d h => h.onCopy _ fun d' h' => h'.scaleInPlace c
  | addInPlace a b iha ihb | subInPlace a b iha ihb => exact iha.bind fun d h => ihb.bind fun e _ => h.combine _ _
  | scaleInPlace a c iha => exact iha.bind fun d h => h.scaleInPlace c

/-- Only what the rule refuses is an error. The combination that was built keeps to its rule; a sum is never refused, and it is
what adding in place gives whenever that is not refused either. -/
theorem eval_follows_rule (valid : V → Bool) (a : Expr V K) :
    (∀ v, a.eval valid = .error v → valid v = false) ∧ ∀ d, a.eval valid = .ok d →
      d.admits = rule (fun v => valid v || !a.isOriginal) ∧ (a.isOriginal = true → ∀ v, d.get v ≠ 0 → valid v = true) ∧
      ∀ b e, b.eval valid = .ok e → ∃ s, (a.add b).eval valid = .ok s ∧
        ((∃ t, (a.addInPlace b).eval valid = .ok t) ↔ (a.isOriginal = true → ∀ v, e.get v ≠ 0 → valid v = true)) ∧
        ∀ t, (a.addInPlace b).eval valid = .ok t → t.terms = s.terms := by
  have hsound := eval_sound valid a
  refine ⟨fun v hv => by rwa [hv] at hsound,fun d hd => ?_⟩
  rw [hd] at hsound
  have h : Governed valid a.isOriginal d := hsound
  refine ⟨h.admits,fun ho v hv => ?_,fun b e he => ?_⟩
  · obtain ⟨t,ht,rfl⟩ := mem_map.mp (h.neat.find?_iff.mp hv)
    simpa [ho] using h.within t ht
  have hb : Governed valid b.isOriginal e := by
    have hsound := eval_sound valid b
    rwa [he] at hsound
  have hitems : e.items = e.terms := clean_eq hb.neat
  have hsum : (a.add b).eval valid = .ok ⟨anything,anything,clean (e.terms.foldl (take (· + ·)) d.terms)⟩ := by
    simp only [Expr.eval,hd,he]
    change answer (d.onCopy _) = _
    rw [onCopy,copy_eq h.copyAdmits h.neat]
    change answer (LinearDict.combine _ _ e.items) = _
    rw [hitems,combine_anything rfl]
    rfl
  have hplace : (a.addInPlace b).eval valid = answer (d.combine (· + ·) e.terms) := by
    simp only [Expr.eval,hd,he]
    change answer (d.combine _ e.items) = _
    rw [hitems]
  have hiff : (∀ t ∈ e.terms, (valid t.1 || !a.isOriginal) = true) ↔
      (a.isOriginal = true → ∀ v, e.get v ≠ 0 → valid v = true) := by
    simp only [LinearDict.get,hb.neat.find?_iff]
    cases a.isOriginal <;> simp
  refine ⟨_,hsum,?_,fun t ht => ?_⟩
  · rw [hplace,← hiff]
    constructor
    · rintro ⟨t,ht⟩
      exact (combined h.admits ht).1
    · intro hps
      rw [combine_admitted h.admits hps]
      exact ⟨_,rfl⟩
  · rw [hplace] at ht
    rw [(combined h.admits ht).2]
def foreignSum : Expr String Int × Expr String Int := (.new [("a",1)],.set (.copy (.new [("a",1)])) "b" 1)

/-- A sum admits a vector that adding in place refuses. -/
theorem foreignSum_admitted : ∃ s, (foreignSum.1.add foreignSum.2).eval (· == "a") = .ok s ∧ s.get "b" = 1 ∧
    ¬ ∃ t, (foreignSum.1.addInPlace foreignSum.2).eval (· == "a") = .ok t := by
  obtain ⟨-,-,h⟩ := (eval_follows_rule (· == "a") foreignSum.1).2 _ rfl
  obtain ⟨s,hs,hiff,-⟩ := h foreignSum.2 _ rfl
  refine ⟨s,hs,?_,?_⟩
  · cases hs
    rfl
  · rw [hiff]
    intro hvalid
    exact absurd (hvalid rfl "b" (by decide)) (by decide)
end QuantumCircuits.AdmittedVectors
