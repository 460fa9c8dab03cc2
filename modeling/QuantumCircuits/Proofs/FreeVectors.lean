import QuantumCircuits.Proofs.AdmittedVectors

/-! # Linear combinations as finitely supported functions

Combinations are objects: operations in place change one of them, and the others make a new one. A store of objects is
followed through a program, and each object stands for a function from vectors to scalars that is zero almost
everywhere.
-/
namespace QuantumCircuits.FreeVectors
open LinearDict AdmittedVectors Prod
open List hiding find? take get erase getD contains isEmpty
variable {V K : Type} [DecidableEq V] {ts ps : List (V × K)} {v w : V}

/-! ## Coefficients in a list of terms -/
section
lemma find?_put : find? w (put v c ts) = if v = w then some c else find? w ts := by
  induction ts with
  | nil => simp [put,find?]
  | cons t ts ih => grind [put,find?]
lemma find?_erase : find? w (erase v ts) = if v = w then none else find? w ts := by
  induction ts with
  | nil => simp [erase,find?]
  | cons t ts ih => grind [erase,find?]
lemma find?_map (g : K → K) : find? v (ts.map fun t => (t.1,g t.2)) = (find? v ts).map g := by
  induction ts with
  | nil => rfl
  | cons t ts ih => by_cases ht : t.1 = v <;> simp [find?,ht,ih]
lemma find?_eq_none (h : v ∉ ts.map fst) : find? v ts = none := by
  induction ts with
  | nil => rfl
  | cons t ts ih =>
    obtain ⟨hne,hts⟩ := not_or.mp (mt mem_cons.mpr h)
    rw [find?,if_neg (by simpa using Ne.symm hne),ih hts]
lemma mem_terms (h : (ts.map Prod.fst).Nodup) : (v,c) ∈ ts ↔ find? v ts = some c := by
  induction ts with
  | nil => simp [find?]
  | cons t ts ih =>
    obtain ⟨ht,hts⟩ := nodup_cons.mp h
    by_cases hv : t.1 = v
    · have hn : (v,c) ∉ ts := fun hm => ht (hv ▸ mem_map_of_mem hm)
      simp [find?,hv,hn,Prod.ext_iff,eq_comm]
    · simp [find?,hv,ih hts,Prod.ext_iff,Ne.symm hv]
noncomputable def assigned [Zero K] (f : V →₀ K) (ps : List (V × K)) : V →₀ K := ps.foldl (fun f p => f.update p.1 p.2) f
lemma find?_gather [Zero K] (f v) : (find? v (gather ps)).getD (f v) = assigned f ps v := by
  have h : ∀ acc g, (∀ v, (find? v acc).getD (f v) = g v) →
      (find? v (ps.foldl (fun acc p => put p.1 p.2 acc) acc)).getD (f v) = assigned g ps v := by
    induction ps with
    | nil => exact fun acc g hg => hg v
    | cons p ps ih =>
      refine fun acc g hg => ih _ _ fun w => ?_
      by_cases hw : p.1 = w
      · simp [find?_put,hw]
      · simp [find?_put,hw,Ne.symm hw,hg]
  exact h [] f fun _ => rfl
lemma nodup_gather : ((gather ps).map fst).Nodup :=
  foldlRecOn (motive := fun acc : List (V × K) => (acc.map fst).Nodup) ps _ nodup_nil fun _ h _ _ => nodup_put h
omit [DecidableEq V] in
lemma neat_map [Zero K] {g : K → K} (h : Neat ts) (hg : ∀ b, b ≠ 0 → g b ≠ 0) : Neat (ts.map fun t => (t.1,g t.2)) := by
  have hk : (ts.map fun t => (t.1,g t.2)).map fst = ts.map fst := by simp
  exact ⟨hk ▸ h.nodup,forall_mem_map.mpr fun t ht => hg _ (h.nonzero t ht)⟩
variable [DecidableEq K] [Zero K] (f : K → K → K)
lemma find?_take : (find? w (take f ts p)).getD 0 =
    if p.1 = w then f ((find? w ts).getD 0) p.2 else (find? w ts).getD 0 := by
  unfold take
  split
  case isTrue h =>
    by_cases hw : p.1 = w
    · simpa [find?_erase,hw] using (beq_iff_eq.mp (hw ▸ h)).symm
    · simp [find?_erase,hw]
  case isFalse =>
    by_cases hw : p.1 = w <;> simp [find?_put,hw]
lemma find?_foldl_take (h : (ps.map fst).Nodup) (v) : (find? v (ps.foldl (take f) ts)).getD 0 =
    ((find? v ps).map (f ((find? v ts).getD 0))).getD ((find? v ts).getD 0) := by
  induction ps generalizing ts with
  | nil => rfl
  | cons p ps ih =>
    obtain ⟨hp,hps⟩ := nodup_cons.mp h
    rw [foldl_cons,ih hps,find?_take]
    by_cases hv : p.1 = v
    · simp [find?,hv,find?_eq_none (hv ▸ hp)]
    · simp [find?,hv]
end

/-! ## What a combination stands for -/
section
variable [Zero K] {d e : LinearDict V K}
noncomputable def denote (d : LinearDict V K) : V →₀ K := .onFinset (d.terms.map Prod.fst).toFinset d.get fun v hv => by
  refine mem_toFinset.mpr (not_not.mp fun h => hv ?_)
  rw [LinearDict.get,find?_eq_none h]
  rfl
def blank : LinearDict V K := ⟨anything,anything,[]⟩
lemma denote_blank : denote (blank : LinearDict V K) = 0 := Finsupp.ext fun _ => rfl
variable [DecidableEq K]
/-- What is stored and what can be asked is what the function says. -/
structure Faithful (d : LinearDict V K) : Prop where
  stored : ∀ t ∈ d.terms, t.2 ≠ 0
  items : ∀ v c, (v,c) ∈ d.items ↔ denote d v = c ∧ c ≠ 0
  keys : d.keys.Nodup ∧ d.keys.toFinset = (denote d).support
  size : d.size = (denote d).support.card
  get : ∀ v, d.get v = denote d v
  getD : ∀ v c, d.getD v c = if denote d v = 0 then c else denote d v
  contains : ∀ v, d.contains v = true ↔ v ∈ (denote d).support
  isEmpty : d.isEmpty = true ↔ denote d = 0
abbrev Free (d : LinearDict V K) : Prop := Governed (fun _ => true) false d
lemma faithful (h : Free d) : Faithful d := by
  have hi : d.items = d.terms := clean_eq h.neat
  have hf : ∀ v, denote d v = (find? v d.terms).getD 0 := fun _ => rfl
  have hn : d.keys.Nodup := by
    rw [LinearDict.keys,hi]
    exact h.neat.nodup
  have hk : d.keys.toFinset = (denote d).support := by
    ext v
    rw [mem_toFinset,Finsupp.mem_support_iff,hf,h.neat.find?_iff,LinearDict.keys,hi]
  refine ⟨h.neat.nonzero,fun v c => ?_,⟨hn,hk⟩,?_,fun _ => rfl,fun v c => ?_,fun v => ?_,?_⟩
  · have hm := fun c => mem_terms (v := v) (c := c) h.neat.nodup
    rw [hi,hm,hf]
    cases hc : find? v d.terms with
    | none => grind
    | some b => have := h.neat.nonzero _ ((hm b).mpr hc); grind
  · rw [← hk,toFinset_card_of_nodup hn]
    exact (length_map _).symm
  · rw [getD,hf]
    cases find? v d.terms <;> simp
  · rw [contains,Finsupp.mem_support_iff,hf]
    cases find? v d.terms <;> simp
  · rw [← Finsupp.support_eq_empty,← hk,toFinset_eq_empty_iff,LinearDict.keys,hi,map_eq_nil_iff]
    refine ⟨fun ha => eq_nil_iff_forall_not_mem.mpr fun t ht => h.neat.nonzero t ht ?_,fun ht => by simp [isEmpty,ht]⟩
    simpa using all_eq_true.mp ha t ht
lemma beq_iff (hd : Free d) (he : Free e) : d.beq e ↔ denote d = denote e := by
  rw [beq,all_eq_true]
  refine ⟨fun h => Finsupp.ext fun v => ?_,fun h v _ => beq_iff_eq.mpr (DFunLike.congr_fun h v)⟩
  by_cases hv : v ∈ d.keys ++ e.keys
  · exact beq_iff_eq.mp (h v hv)
  · have hz : ∀ {d : LinearDict V K}, Free d → v ∉ d.keys → denote d v = 0 := fun hd hv =>
      Finsupp.notMem_support_iff.mp fun hs => hv (mem_toFinset.mp ((faithful hd).keys.2 ▸ hs))
    obtain ⟨hvd,hve⟩ := not_or.mp (mt mem_append.mpr hv)
    rw [hz hd hvd,hz he hve]

/-- A step comes to an end with a combination that stands for a function. -/
def Gives (r : Step V K) (f : V →₀ K) : Prop := ∃ e, answer r = .ok e ∧ Free e ∧ denote e = f
lemma gives_combine (h : Free d) (hps : (ps.map fst).Nodup) {f : K → K → K} {g : V →₀ K}
    (hg : ∀ v, ((find? v ps).map (f (denote d v))).getD (denote d v) = g v) : Gives (d.combine f ps) g := by
  have hc : d.combine f ps = _ := combine_anything h.admits
  rw [hc]
  refine ⟨_,rfl,h.foldl fun _ _ => rfl,Finsupp.ext fun v => ?_⟩
  change (find? v (clean _)).getD 0 = _
  rw [clean_eq h.neat.foldl_take,find?_foldl_take f hps v]
  exact hg v
lemma gives_set (h : Free d) (v c) : Gives (d.set v c) ((denote d).update v c) := by
  have hs : d.set v c = _ := set_eq (f := fun _ c => c) (p := (v,c)) h.admits rfl
  have hg := h.set v c
  rw [hs] at hg ⊢
  refine ⟨_,rfl,hg,Finsupp.ext fun w => ?_⟩
  change (find? w (take (fun _ c => c) d.terms (v,c))).getD 0 = _
  rw [find?_take,Finsupp.coe_update,Function.update_apply]
  simp only [eq_comm]
  rfl
lemma gives_remove (h : Free d) (v) : Gives (d.remove v,none) ((denote d).erase v) := by
  have hs : d.set v 0 = (d.remove v,none) := by simp [LinearDict.set,h.admits,rule,remove]
  rw [← hs,Finsupp.erase_eq_update_zero]
  exact gives_set h v 0
lemma gives_update (h : Free d) (ps) : Gives (d.update ps) (assigned (denote d) ps) := by
  rw [update,setAll_eq_combine]
  refine gives_combine h nodup_gather fun v => ?_
  rw [← find?_gather]
  cases find? v (gather ps) <;> rfl
lemma gives_merge (hd : Free d) (he : Free e) {f : K → K → K} (hf : ∀ a, f a 0 = a) {g : V →₀ K} (hg : ∀ v, f (denote d v) (denote e v) = g v) :
    Gives (d.combine f e.items) g := by
  have hi : e.items = e.terms := clean_eq he.neat
  rw [hi]
  refine gives_combine hd he.neat.nodup fun v => ?_
  rw [← hg]
  change _ = f _ ((find? v e.terms).getD 0)
  cases find? v e.terms with
  | none => exact (hf _).symm
  | some c => rfl
lemma gives_onCopy (h : Free d) {g : LinearDict V K → Step V K} {f} (hg : ∀ {e}, Free e → denote e = denote d → Gives (g e) f) :
    Gives (d.onCopy g) f := by
  rw [onCopy,copy_eq h.copyAdmits h.neat]
  exact hg h.copied rfl
end

/-! ## Programs -/
variable [Field K] [DecidableEq K] {d : LinearDict V K}
lemma gives_negate (h : Free d) : Gives d.negate (-denote d) := by
  have hi : d.items = d.terms := clean_eq h.neat
  have hn := neat_map h.neat fun _ => neg_ne_zero.mpr
  have ha : assigned (denote blank) (d.terms.map fun t => (t.1,-t.2)) = -denote d := by
    ext v
    rw [← find?_gather,gather_eq hn,find?_map]
    change _ = -(find? v d.terms).getD 0
    cases find? v d.terms with
    | none => exact neg_zero.symm
    | some c => rfl
  rw [negate,h.copyAdmits,hi,← ha]
  exact gives_update .blank _
lemma gives_scaleInPlace (h : Free d) (c) : Gives (d.scaleInPlace c,none) (c • denote d) := by
  refine ⟨_,rfl,h.scaleInPlace c,Finsupp.ext fun v => ?_⟩
  change (find? v (clean (d.terms.map fun t => (t.1,t.2*c)))).getD 0 = c*(find? v d.terms).getD 0
  rcases eq_or_ne c 0 with rfl | hc
  · simp [clean,filter_map,Function.comp_def,find?]
  rw [clean_eq (neat_map h.neat fun _ hb => mul_ne_zero hb hc),find?_map (· * c)]
  cases find? v d.terms with
  | none => exact (mul_zero c).symm
  | some b => exact mul_comm b c
lemma gives_scale (h : Free d) (c) : Gives (d.scale c) (c • denote d) :=
  gives_onCopy h fun he hd => hd ▸ gives_scaleInPlace he c

/-- What can be done with the combinations of a store. What is made comes to its end. -/
inductive Act (V K : Type) [Zero K] where
  | make (ps : List (V × K))
  | assign (x : Nat) (v : V) (c : K)
  | remove (x : Nat) (v : V)
  | update (x : Nat) (ps : List (V × K))
  | add (x y : Nat)
  | sub (x y : Nat)
  | neg (x : Nat)
  | scale (x : Nat) (c : K)
  | divide (x : Nat) (c : K) (hc : c ≠ 0)
  | addTo (x y : Nat)
  | subFrom (x y : Nat)
  | scaleBy (x : Nat) (c : K)
namespace Act
/-- The place that is changed, for an act in place. -/
def place : Act V K → Option Nat
  | assign x _ _ | remove x _ | update x _ | addTo x _ | subFrom x _ | scaleBy x _ => some x
  | make _ | add .. | sub .. | neg _ | scale .. | divide .. => none
def store {α} (a : Act V K) (s : List α) (d : α) : List α :=
  match a.place with
  | some x => s.set x d
  | none => s ++ [d]
def result (d : Nat → LinearDict V K) : Act V K → Step V K
  | make ps => build anything anything ps
  | assign x v c => (d x).set v c
  | remove x v => ((d x).remove v,none)
  | update x ps => (d x).update ps
  | add x y => (d x).add (d y)
  | sub x y => (d x).sub (d y)
  | neg x => (d x).negate
  | scale x c => (d x).scale c
  | divide x c _ => (d x).scale (1/c)
  | addTo x y => (d x).addInPlace (d y)
  | subFrom x y => (d x).subInPlace (d y)
  | scaleBy x c => ((d x).scaleInPlace c,none)
def perform (s : List (LinearDict V K)) (a : Act V K) : Except V (List (LinearDict V K)) :=
  (answer (a.result (s.getD · blank))).map (a.store s)

/-- What an act means for functions. -/
noncomputable def value (f : Nat → V →₀ K) : Act V K → V →₀ K
  | make ps => assigned 0 ps
  | assign x v c => (f x).update v c
  | remove x v => (f x).erase v
  | update x ps => assigned (f x) ps
  | add x y | addTo x y => f x + f y
  | sub x y | subFrom x y => f x - f y
  | neg x => -f x
  | scale x c | scaleBy x c => c • f x
  | divide x c _ => (1/c) • f x
noncomputable def meaning (s : List (V →₀ K)) (a : Act V K) : List (V →₀ K) := a.store s (a.value (s.getD · 0))
end Act
lemma gives_result {d : Nat → LinearDict V K} (h : ∀ x, Free (d x)) (a : Act V K) : Gives (a.result d) (a.value fun x => denote (d x)) := by
  cases a with
  | make ps =>
    have hg : Gives _ (assigned (denote blank) ps) := gives_update .blank ps
    rwa [denote_blank] at hg
  | assign x v c => exact gives_set (h x) v c
  | remove x v => exact gives_remove (h x) v
  | update x ps => exact gives_update (h x) ps
  | add x y => exact gives_onCopy (h x) fun he hd => gives_merge he (h y) add_zero fun v => by rw [hd]; rfl
  | sub x y => exact gives_onCopy (h x) fun he hd => gives_merge he (h y) sub_zero fun v => by rw [hd]; rfl
  | neg x => exact gives_negate (h x)
  | scale x c => exact gives_scale (h x) c
  | divide x c hc => exact gives_scale (h x) (1/c)
  | addTo x y => exact gives_merge (h x) (h y) add_zero fun v => rfl
  | subFrom x y => exact gives_merge (h x) (h y) sub_zero fun v => rfl
  | scaleBy x c => exact gives_scaleInPlace (h x) c
lemma gives_perform (hs : ∀ d ∈ s, Free d) (a : Act V K) :
    ∃ d, a.perform s = .ok (a.store s d) ∧ (∀ e ∈ a.store s d, Free e) ∧ (a.store s d).map denote = a.meaning (s.map denote) := by
  have hfree : ∀ x, Free (s.getD x blank) := fun x => by
    rw [getD_eq_getElem?_getD]
    cases hx : s[x]? with
    | none => exact .blank
    | some d => exact hs d (mem_of_getElem? hx)
  obtain ⟨d,hr,hd,hv⟩ := gives_result hfree a
  refine ⟨d,by rw [Act.perform,hr]; rfl,?_⟩
  have hget : ∀ x, denote (s.getD x blank) = (s.map denote).getD x 0 := fun x => by
    rw [← denote_blank,getD_map]
  simp only [hget] at hv
  rw [Act.meaning,← hv]
  cases hp : a.place with
  | none => simpa [Act.store,hp,or_imp,forall_and] using ⟨hs,hd⟩
  | some x =>
    simp only [Act.store,hp,map_set,and_true]
    intro e he
    rcases mem_or_eq_of_mem_set he with he | rfl
    · exact hs e he
    · exact hd

/-- The combinations are the free vector space: after every program each of them stands for the function that the program
means, and every question about them is answered as for that function. What is not done in place changes none of them. -/
theorem programs_denote (acts : List (Act V K)) : ∃ s, acts.foldlM Act.perform [] = .ok s ∧ s.map denote = acts.foldl Act.meaning [] ∧
    (∀ d ∈ s, Faithful d ∧ ∀ e ∈ s, (d.beq e = true ↔ denote d = denote e)) ∧
    ∀ a : Act V K, a.place = none → ∃ d, a.perform s = .ok (s ++ [d]) := by
  -- All objects stay free along the program, from any store of free ones.
  have hrun : ∀ {s₀ : List (LinearDict V K)}, (∀ d ∈ s₀, Free d) → ∃ s, acts.foldlM Act.perform s₀ = .ok s ∧
      (∀ d ∈ s, Free d) ∧ s.map denote = acts.foldl Act.meaning (s₀.map denote) := by
    induction acts with
    | nil => exact fun h => ⟨_,rfl,h,rfl⟩
    | cons a acts ih =>
      intro s₀ h
      obtain ⟨d,hd,hf,hm⟩ := gives_perform h a
      rw [foldlM_cons,hd,foldl_cons,← hm]
      exact ih hf
  obtain ⟨s,hs,hf,hm⟩ := hrun (forall_mem_nil _)
  refine ⟨s,hs,hm,fun d hd => ⟨faithful (hf d hd),fun e he => beq_iff (hf d hd) (hf e he)⟩,fun a ha => ?_⟩
  obtain ⟨d,hd,-⟩ := gives_perform hf a
  simp only [Act.store,ha] at hd
  exact ⟨d,hd⟩
end QuantumCircuits.FreeVectors
