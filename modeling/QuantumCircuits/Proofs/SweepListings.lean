import Mathlib
import QuantumCircuits.Study

/-! # What a sweep lists

A sweep knows its length and its names without listing its assignments. A product without factors counts as empty but
lists one assignment. A document written for a sweep is read as a different sweep, which lists the same.
-/
namespace QuantumCircuits.Sweep
open List
@[elab_as_elim]
lemma induct {P : Sweep R → Prop} (unit : P unit) (points : ∀ k vs, P (points k vs))
    (linspace : ∀ k a b n, P (linspace k a b n)) (zip : ∀ ss, (∀ s ∈ ss, P s) → P (zip ss))
    (product : ∀ ss, (∀ s ∈ ss, P s) → P (product ss)) (s) : P s := by
  refine @rec R P (fun ss => ∀ s ∈ ss, P s) unit points linspace zip product (by simp) ?_ s
  exact fun _ _ hs hss => forall_mem_cons.mpr ⟨hs,hss⟩

/-- Sweeps made by the constructors and the two operators. -/
inductive Made : Sweep R → Prop
  | unit : Made unit
  | points (k : String) (vs : List R) : Made (points k vs)
  | linspace (k : String) (a b : R) (n : Nat) : Made (linspace k a b n)
  | zip {ss t} (hss : ∀ s ∈ ss, Made s) (h : zipOf ss = .ok t) : Made t
  | product {ss t} (hss : ∀ s ∈ ss, Made s) (h : productOf ss = .ok t) : Made t
  | mul {s t u} (hs : Made s) (ht : Made t) (h : s.mul t = .ok u) : Made u
  | add {s t u} (hs : Made s) (ht : Made t) (h : s.add t = .ok u) : Made u

/-- Somewhere in the sweep stands a product without factors. -/
inductive Hollow : Sweep R → Prop
  | here : Hollow (product [])
  | zip {s ss} (hs : s ∈ ss) (h : Hollow s) : Hollow (zip ss)
  | product {s ss} (hs : s ∈ ss) (h : Hollow s) : Hollow (product ss)

/-! ## Names -/
variable {s t : Sweep R} {ss ts : List (Sweep R)}
lemma keysOf_eq (ss : List (Sweep R)) : keysOf ss = ss.flatMap keys := by
  induction ss with
  | nil => rfl
  | cons s ss ih => rw [keysOf,ih,flatMap_cons]
@[simp] lemma keysOf_append : keysOf (ss ++ ts) = keysOf ss ++ keysOf ts := by simp [keysOf_eq]
@[simp] lemma keysOf_factors (s : Sweep R) : keysOf s.factors = s.keys := by cases s <;> simp [factors,keys,keysOf]
@[simp] lemma keysOf_parts (s : Sweep R) : keysOf s.parts = s.keys := by cases s <;> simp [parts,keys,keysOf]
lemma keys_of_mem (h : (keysOf ss).Nodup) : ∀ s ∈ ss, s.keys.Nodup := by
  rw [keysOf_eq] at h
  exact (nodup_flatMap.mp h).1
lemma checkKeys_iff (hss : ∀ s ∈ ss, s.keys.Nodup) : checkKeys ss = .ok () ↔ (keysOf ss).Nodup := by
  have hse : ∀ seen, seen.Nodup → (((ss.foldlM (fun seen s => if s.keys.any seen.contains then
      .error (.value "duplicate keys") else .ok (seen ++ s.keys)) seen : Outcome _).map fun _ => ()) = .ok () ↔
        (seen ++ keysOf ss).Nodup) := by
    induction ss with
    | nil => exact fun seen hse => ⟨fun _ => by simpa [keysOf] using hse,fun _ => rfl⟩
    | cons s ss ih =>
      intro seen hse
      obtain ⟨hs,hss⟩ := forall_mem_cons.mp hss
      rw [foldlM_cons,keysOf,← append_assoc]
      by_cases hany : s.keys.any seen.contains
      · rw [if_pos hany]
        obtain ⟨k,hk,hks⟩ := any_eq_true.mp hany
        refine ⟨nofun,fun h => ?_⟩
        exact absurd hk (disjoint_of_nodup_append (nodup_append'.mp h).1 (by simpa using hks))
      · rw [if_neg hany]
        refine ih hss (seen ++ s.keys) (nodup_append'.mpr ⟨hse,hs,fun k hks hk => ?_⟩)
        exact hany (any_eq_true.mpr ⟨k,hk,by simpa using hks⟩)
  exact hse [] nodup_nil

/-- A combination of sweeps is refused just if a name occurs twice. -/
lemma combined (hss : ∀ s ∈ ss, s.keys.Nodup) (h : zipOf ss = .ok t ∨ productOf ss = .ok t) : t.keys.Nodup := by
  have hk := checkKeys_iff hss
  rcases h with h | h
  all_goals
    obtain ⟨_,hc,h⟩ := of_bind_eq_ok h
    cases h
    exact hk.mp hc
lemma zipOf_eq (h : (keysOf ss).Nodup) : zipOf ss = .ok (zip ss) := by
  rw [zipOf,(checkKeys_iff (keys_of_mem h)).mpr h]
  rfl
lemma productOf_eq (h : (keysOf ss).Nodup) : productOf ss = .ok (product ss) := by
  rw [productOf,(checkKeys_iff (keys_of_mem h)).mpr h]
  rfl
lemma mul_eq (h : (s.keys ++ t.keys).Nodup) : s.mul t = .ok (product (s.factors ++ t.factors)) := productOf_eq (by simpa using h)
lemma add_eq (h : (s.keys ++ t.keys).Nodup) : s.add t = .ok (zip (s.parts ++ t.parts)) := zipOf_eq (by simpa using h)
lemma Made.nodup (h : Made s) : s.keys.Nodup := by
  have hb : ∀ {xs ys : List (Sweep R)}, (keysOf xs).Nodup → (keysOf ys).Nodup → ∀ s ∈ xs ++ ys, s.keys.Nodup :=
    fun hxs hys => forall_mem_append.mpr ⟨keys_of_mem hxs,keys_of_mem hys⟩
  induction h with
  | unit => exact nodup_nil
  | points | linspace => exact nodup_singleton _
  | zip _ h ih => exact combined ih (.inl h)
  | product _ h ih => exact combined ih (.inr h)
  | mul _ _ h hs ht => exact combined (hb (by rwa [keysOf_factors]) (by rwa [keysOf_factors])) (.inr h)
  | add _ _ h hs ht => exact combined (hb (by rwa [keysOf_parts]) (by rwa [keysOf_parts])) (.inl h)

/-! ## Lengths -/
lemma sizeLeast_le (n) (ss : List (Sweep R)) : sizeLeast n ss ≤ n ∧ ∀ s ∈ ss, sizeLeast n ss ≤ s.size := by
  induction ss generalizing n with
  | nil => simp [sizeLeast]
  | cons s ss ih =>
    obtain ⟨hle,hss⟩ := ih (min n s.size)
    rw [sizeLeast]
    exact ⟨by omega,forall_mem_cons.mpr ⟨by omega,hss⟩⟩
lemma sizeTimes_eq (ss : List (Sweep R)) : sizeTimes ss = (ss.map size).prod := by
  induction ss with
  | nil => rfl
  | cons s ss ih => rw [sizeTimes,ih,map_cons,prod_cons]
lemma Hollow.size_eq (h : Hollow s) : s.size = 0 := by
  induction h with
  | here => rfl
  | @zip s ss hs _ ih =>
    cases ss with
    | nil => rfl
    | cons f fs =>
      obtain ⟨hf,hr⟩ := sizeLeast_le f.size fs
      rw [size]
      rcases mem_cons.mp hs with rfl | hs
      · omega
      · have hle := hr s hs
        omega
  | @product s ss hs _ ih =>
    cases ss with
    | nil => rfl
    | cons f fs =>
      have hz : ((f :: fs).map size).prod = 0 := prod_eq_zero (mem_map.mpr ⟨s,hs,ih⟩)
      rwa [map_cons,prod_cons,← sizeTimes_eq] at hz

/-! ## Assignments -/
section
variable [RealScalar R]
lemma keys_beside (hacc : ∀ a ∈ acc, a.map Prod.fst = ks)
    (hss : ∀ s ∈ ss, ∀ a ∈ s.assignments, a.map Prod.fst = s.keys) :
    ∀ a ∈ beside acc ss, a.map Prod.fst = ks ++ keysOf ss := by
  induction ss generalizing acc ks with
  | nil => simpa [beside,keysOf] using hacc
  | cons s ss ih =>
    obtain ⟨hs,hss⟩ := forall_mem_cons.mp hss
    rw [keysOf,← append_assoc]
    refine ih (fun a ha => ?_) hss
    rw [← map_uncurry_zip_eq_zipWith] at ha
    obtain ⟨⟨b,c⟩,hbc,rfl⟩ := mem_map.mp ha
    obtain ⟨hb,hc⟩ := of_mem_zip hbc
    simp [hacc b hb,hs c hc]
lemma keys_crossed (hss : ∀ s ∈ ss, ∀ a ∈ s.assignments, a.map Prod.fst = s.keys) :
    ∀ a ∈ crossed ss, a.map Prod.fst = keysOf ss := by
  induction ss with
  | nil => simp [crossed,keysOf]
  | cons s ss ih =>
    obtain ⟨hs,hss⟩ := forall_mem_cons.mp hss
    intro a ha
    obtain ⟨b,hb,c,hc,rfl⟩ : ∃ b ∈ s.assignments, ∃ c ∈ crossed ss, b ++ c = a := by simpa [crossed] using ha
    rw [map_append,hs b hb,ih hss c hc,keysOf]
lemma keys_assigned (s : Sweep R) : ∀ a ∈ s.assignments, a.map Prod.fst = s.keys := by
  induction s using induct with
  | unit | points | linspace => simp [assignments,keys]
  | zip ss ih =>
    cases ss with
    | nil => simp [assignments]
    | cons s ss =>
      obtain ⟨hs,hss⟩ := forall_mem_cons.mp ih
      exact keys_beside hs hss
  | product ss ih =>
    exact keys_crossed ih
lemma length_beside (acc) (hss : ∀ s ∈ ss, s.size = s.assignments.length) :
    (beside acc ss).length = sizeLeast acc.length ss := by
  induction ss generalizing acc with
  | nil => rfl
  | cons s ss ih =>
    obtain ⟨hs,hss⟩ := forall_mem_cons.mp hss
    rw [beside,ih _ hss,length_zipWith,sizeLeast,hs]
lemma length_crossed (hss : ∀ s ∈ ss, s.size = s.assignments.length) : (crossed ss).length = sizeTimes ss := by
  induction ss with
  | nil => rfl
  | cons s ss ih =>
    obtain ⟨hs,hss⟩ := forall_mem_cons.mp hss
    simp [crossed,sizeTimes,ih hss,hs]
lemma size_of_not_hollow (h : ¬ Hollow s) : s.size = s.assignments.length := by
  induction s using induct with
  | unit => rfl
  | points | linspace => simp [size,assignments]
  | zip ss ih =>
    cases ss with
    | nil => rfl
    | cons f fs =>
      obtain ⟨hf,hfs⟩ := forall_mem_cons.mp fun s hs => ih s hs fun ho => h (.zip hs ho)
      rw [size,assignments,length_beside _ hfs,hf]
  | product ss ih =>
    have hss := fun s hs => ih s hs fun ho => h (.product hs ho)
    cases ss with
    | nil => exact absurd .here h
    | cons f fs => rw [size,assignments,length_crossed hss,sizeTimes]
lemma crossed_append : crossed (ss ++ ts) = (crossed ss).flatMap fun a => (crossed ts).map (a ++ ·) := by
  induction ss with
  | nil => simp [crossed]
  | cons s ss ih => simp [crossed,ih,flatMap_assoc,map_flatMap,flatMap_map,Function.comp_def]
lemma crossed_singleton (s : Sweep R) : crossed [s] = s.assignments := by simp [crossed]
lemma crossed_factors (s : Sweep R) : crossed s.factors = s.assignments := by
  cases s with
  | product => rw [factors,assignments]
  | _ => exact crossed_singleton _

/-- The names of a sweep are those that each of its assignments has, each once, and its length is their number unless a product
without factors stands in it. Both ways to combine sweeps are associative, and the sweep without names is neutral for products. -/
theorem made_lists (hs : Made s) : (∀ a ∈ s.assignments, a.map Prod.fst = s.keys) ∧ s.keys.Nodup ∧
    (Hollow s → s.size = 0) ∧ (¬ Hollow s → s.size = s.assignments.length) ∧
    (∀ t u : Sweep R, Made t → Made u → (s.keys ++ (t.keys ++ u.keys)).Nodup →
      (∃ l r w, s.mul t = .ok l ∧ l.mul u = .ok w ∧ t.mul u = .ok r ∧ s.mul r = .ok w) ∧
      ∃ l r w, s.add t = .ok l ∧ l.add u = .ok w ∧ t.add u = .ok r ∧ s.add r = .ok w) ∧
    ∃ l r, unit.mul s = .ok l ∧ l.assignments = s.assignments ∧ s.mul unit = .ok r ∧ r.assignments = s.assignments := by
  refine ⟨keys_assigned s,hs.nodup,Hollow.size_eq,size_of_not_hollow,fun t u _ _ hkeys => ?_,?_⟩
  · obtain ⟨-,htu,-⟩ := nodup_append'.mp hkeys
    have hst : (s.keys ++ t.keys).Nodup := (nodup_append'.mp (append_assoc .. ▸ hkeys)).1
    constructor
    · refine ⟨_,_,_,mul_eq hst,mul_eq (by simpa [keys] using hkeys),mul_eq htu,?_⟩
      rw [mul_eq (by simpa [keys] using hkeys),factors,factors,append_assoc]
    · refine ⟨_,_,_,add_eq hst,add_eq (by simpa [keys] using hkeys),add_eq htu,?_⟩
      rw [add_eq (by simpa [keys] using hkeys),parts,parts,append_assoc]
  · refine ⟨_,_,mul_eq (by simpa [keys] using hs.nodup),?_,mul_eq (by simpa [keys] using hs.nodup),?_⟩ <;>
      simp [assignments,crossed_append,crossed_factors]
theorem noFactors_counted : Made (product [] : Sweep Number) ∧ (product [] : Sweep Number).size = 0 ∧
    (product [] : Sweep Number).assignments.length = 1 := by
  have hmade : Made (product [] : Sweep Number) := .product (forall_mem_nil _) (productOf_eq nodup_nil)
  obtain ⟨-,-,hsize,-⟩ := made_lists hmade
  exact ⟨hmade,hsize .here,rfl⟩
end

/-! ## Documents -/
section
variable {s : Sweep Number}
def Simple (f : Sweep Number) : Prop := f.isSingle = true ∨ ∃ z, f = zip z ∧ ∀ x ∈ z, x.isSingle = true
lemma simple_iff : Simple f ↔ ∀ x ∈ f.parts, x.isSingle := by cases f <;> simp [Simple,parts,isSingle]
lemma zipFactors_eq (h : ∀ f ∈ s.factors, Simple f) : s.zipFactors = .ok (s.factors.map parts) := by
  have hall : (s.factors.map parts).all (fun z => z.all isSingle) := by simpa [simple_iff] using h
  rw [zipFactors,if_pos hall]
lemma simple_of_zipFactors {zs} (h : s.zipFactors = .ok zs) : ∀ f ∈ s.factors, Simple f := by
  rw [zipFactors] at h
  split_ifs at h with hall
  simpa [simple_iff] using hall
lemma singleOfDocument_singleDocument (h : s.isSingle) : singleOfDocument s.singleDocument = .ok s := by
  cases s with
  | points k vs =>
    have hn : (vs.map Json.num).map Json.number = vs := by simp [Function.comp_def,Json.number,Json.number?]
    change Except.ok (points k ((vs.map Json.num).map Json.number)) = _
    rw [hn]
  | linspace k a b n => rfl
  | _ => cases h
lemma zipOfDocument_eq (h : ∀ x ∈ z, x.isSingle) :
    zipOfDocument (.obj [("sweeps",.arr (z.map singleDocument))]) = zipOf z := by
  have hr : (z.map singleDocument).mapM singleOfDocument = .ok z := by
    induction z with
    | nil => rfl
    | cons x z ih =>
      obtain ⟨hx,hz⟩ := forall_mem_cons.mp h
      rw [map_cons,mapM_cons,singleOfDocument_singleDocument hx,ih hz]
      rfl
  change (do zipOf (← (z.map singleDocument).mapM singleOfDocument)) = _
  rw [hr]
  rfl
def readBack (fs : List (Sweep Number)) : List (Sweep Number) := fs.map fun f => zip f.parts
lemma zip_parts (f : Sweep Number) : (zip f.parts).keys = f.keys ∧ (zip f.parts).size = f.size ∧
    (zip f.parts).assignments = f.assignments := by
  cases f <;> simp [parts,keys,keysOf,size,sizeLeast,assignments,beside]
lemma keysOf_readBack (fs) : keysOf (readBack fs) = keysOf fs := by
  simp [keysOf_eq,readBack,flatMap_map,(zip_parts _).1]
lemma crossed_readBack (fs) : crossed (readBack fs) = crossed fs := by
  induction fs with
  | nil => rfl
  | cons f fs ih =>
    rw [readBack] at ih ⊢
    rw [map_cons,crossed,ih,(zip_parts f).2.2,crossed]
lemma size_readBack (s : Sweep Number) : (product (readBack s.factors)).size = s.size := by
  have ht : ∀ fs, sizeTimes (readBack fs) = sizeTimes fs := by
    simp [sizeTimes_eq,readBack,Function.comp_def,(zip_parts _).2.1]
  cases s with
  | product fs =>
    cases fs with
    | nil => rfl
    | cons f fs => exact congrArg₂ _ (zip_parts f).2.1 (ht fs)
  | _ => exact (Nat.mul_one _).trans (zip_parts _).2.1
lemma ofDocument_eq (hfs : ∀ f ∈ fs, Simple f) (hk : (keysOf fs).Nodup) {rest} :
    ofDocument (.obj (("sweep",.obj [("factors",.arr ((fs.map parts).map fun z =>
      .obj [("sweeps",.arr (z.map singleDocument))]))]) :: rest)) = .ok (product (readBack fs)) := by
  have hr : ((fs.map parts).map fun z => Json.obj [("sweeps",.arr (z.map singleDocument))]).mapM zipOfDocument =
      .ok (readBack fs) := by
    induction fs with
    | nil => rfl
    | cons f fs ih =>
      obtain ⟨hf,hfs⟩ := forall_mem_cons.mp hfs
      obtain ⟨hkf,hkfs,-⟩ := nodup_append'.mp hk
      have hzip : zipOf f.parts = .ok (zip f.parts) := zipOf_eq (by rwa [keysOf_parts])
      rw [map_cons,map_cons,mapM_cons,zipOfDocument_eq (simple_iff.mp hf),hzip,ih hfs hkfs]
      rfl
  change (do productOf (← ((fs.map parts).map _).mapM zipOfDocument)) = _
  rw [hr]
  exact productOf_eq (by rwa [keysOf_readBack])

/-- Just the products of simple sweeps side by side have documents, beside the sweep without names, and what is read from the
document lists the same assignments in the same order. -/
theorem document_lists (hs : Made s) (reps : Int) :
    ((∃ j, s.toDocument reps = .ok j) ↔ s = unit ∨ ∀ f ∈ s.factors, Simple f) ∧
    ∀ j, s.toDocument reps = .ok j → ∃ t, ofDocument j = .ok t ∧ t.assignments = s.assignments ∧ t.size = s.size := by
  by_cases hunit : s = unit
  · subst hunit
    refine ⟨⟨fun _ => .inl rfl,fun _ => ⟨_,rfl⟩⟩,fun j hj => ⟨unit,?_,rfl,rfl⟩⟩
    cases hj
    rfl
  have hbeq : (s == unit) = false := by cases s <;> first | rfl | exact absurd rfl hunit
  simp only [toDocument,hbeq,hunit,false_or]
  constructor
  · constructor
    · rintro ⟨j,hj⟩
      obtain ⟨zs,hzs,-⟩ := of_bind_eq_ok hj
      exact simple_of_zipFactors hzs
    · intro h
      rw [zipFactors_eq h]
      exact ⟨_,rfl⟩
  · intro j hj
    obtain ⟨zs,hzs,hj⟩ := of_bind_eq_ok hj
    have hsimple := simple_of_zipFactors hzs
    obtain rfl := Except.ok.inj ((zipFactors_eq hsimple).symm.trans hzs)
    cases hj
    refine ⟨_,ofDocument_eq hsimple (by simpa using hs.nodup),?_,size_readBack s⟩
    rw [assignments,crossed_readBack,crossed_factors]
def besides : Sweep Number := product [points "a" [0,1],zip [linspace "b" 0 1 3,points "c" [1,0]]]
theorem besides_documented : Made besides ∧ ∃ j t, besides.toDocument 1 = .ok j ∧ ofDocument j = .ok t ∧
    t.assignments = besides.assignments ∧ t.size = 4 := by
  have hmade : Made besides := by
    refine .product (forall_mem_cons.mpr ⟨.points _ _,forall_mem_singleton.mpr ?_⟩) (productOf_eq (by simp [keysOf,keys]))
    refine .zip (forall_mem_cons.mpr ⟨.linspace ..,forall_mem_singleton.mpr (.points _ _)⟩) (zipOf_eq (by simp [keysOf,keys]))
  obtain ⟨hsome,hread⟩ := document_lists hmade 1
  obtain ⟨j,hj⟩ := hsome.mpr (.inr (by simp [besides,factors,Simple,isSingle]))
  obtain ⟨t,ht,hlists,hsize⟩ := hread j hj
  exact ⟨hmade,j,t,hj,ht,hlists,hsize⟩
end
end QuantumCircuits.Sweep
