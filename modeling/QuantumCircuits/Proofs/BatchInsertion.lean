import QuantumCircuits.Proofs.Insertion

/-! # Batches of insertions

A batch is carried out group by group in the order of the indices, each group in reverse. The shift that makes up for
added moments also grows when an operation goes into the moment after its place, and then later groups are inserted too
late.
-/
namespace QuantumCircuits.BatchInsertion
open WireOrder Circuit Insertion List Turn Prod
variable {shift last : Int} {j n : Nat} {p : Nat}
section
variable {β γ : Type} (xs : List (Int × β))
def gather (e : Int × β) (groups : List (Int × List β)) : List (Int × List β) :=
  match groups with
  | (j,bs) :: rest => if e.1 = j then (j,e.2 :: bs) :: rest else (e.1,[e.2]) :: groups
  | [] => [(e.1,[e.2])]
def ungroup (g : Int × List β) : List (Int × β) := g.2.map fun b => (g.1,b)
lemma grouped_eq : grouped xs = (xs.mergeSort fun a b => a.1 ≤ b.1).foldr gather [] := rfl
lemma gather_spec {ys : List (Int × β)} (hys : ys.Pairwise fun a b => a.1 ≤ b.1) :
    (ys.foldr gather []).flatMap ungroup = ys ∧ (ys.foldr gather []).Pairwise (fun g h => g.1 < h.1) ∧
      ∀ g ∈ ys.foldr gather [], g.2 ≠ [] := by
  induction ys with
  | nil => simp
  | cons e ys ih =>
    obtain ⟨hle,hr⟩ := pairwise_cons.mp hys
    obtain ⟨hf,hlt,hne⟩ := ih hr
    rw [foldr_cons]
    cases hgs : ys.foldr gather [] with
    | nil =>
      rw [hgs] at hf
      simp [gather,ungroup,← hf]
    | cons g gs =>
      obtain ⟨j,bs⟩ := g
      rw [hgs] at hf hlt hne
      have hbs : bs ≠ [] := hne _ mem_cons_self
      by_cases hj : e.1 = j
      · subst hj
        refine ⟨?_,?_,?_⟩
        · simpa [gather,ungroup] using hf
        · simpa [gather] using hlt
        · simpa [gather] using fun i cs h => hne (i,cs) (mem_cons_of_mem _ h)
      · obtain ⟨b,hb⟩ := exists_mem_of_ne_nil _ hbs
        have hmem : (j,b) ∈ ys := by
          rw [← hf]
          exact mem_flatMap.mpr ⟨(j,bs),mem_cons_self,mem_map.mpr ⟨b,hb,rfl⟩⟩
        have hlt' : e.1 < j := by
          have := hle _ hmem
          omega
        simp only [gather,if_neg hj]
        refine ⟨?_,pairwise_cons.mpr ⟨forall_mem_cons.mpr ⟨hlt',fun g hg => ?_⟩,hlt⟩,forall_mem_cons.mpr ⟨by simp,hne⟩⟩
        · simpa [ungroup] using hf
        · exact Int.lt_trans hlt' ((pairwise_cons.mp hlt).1 g hg)
lemma byIndex_trans (a b c : Int × β) (hab : decide (a.1 ≤ b.1)) (hbc : decide (b.1 ≤ c.1)) :
    decide (a.1 ≤ c.1) := by
  simp only [decide_eq_true_eq] at *
  omega
lemma byIndex_total (a b : Int × β) : (decide (a.1 ≤ b.1) || decide (b.1 ≤ a.1)) := by
  simp only [Bool.or_eq_true,decide_eq_true_eq]
  omega
lemma filter_mergeSort (i) : (xs.mergeSort fun a b => a.1 ≤ b.1).filter (fun e => e.1 = i) = xs.filter fun e => e.1 = i := by
  have hsub : (xs.filter fun e => e.1 = i).Sublist (xs.mergeSort fun a b => a.1 ≤ b.1) := by
    refine sublist_mergeSort byIndex_trans byIndex_total ?_ filter_sublist
    refine pairwise_iff_forall_sublist.mpr fun {a b} h => ?_
    have ha : a ∈ xs.filter fun e => e.1 = i := h.subset (by simp)
    have hb : b ∈ xs.filter fun e => e.1 = i := h.subset (by simp)
    simp only [mem_filter,decide_eq_true_eq] at ha hb
    simp [ha.2,hb.2]
  have hsub' := hsub.filter fun e => e.1 = i
  rw [filter_filter] at hsub'
  simp only [Bool.and_self] at hsub'
  exact (hsub'.eq_of_length ((mergeSort_perm xs _).filter _).length_eq.symm).symm
lemma filter_ungroup (gs : List (Int × List β)) (i) :
    (gs.flatMap ungroup).filter (fun e => e.1 = i) = (gs.filter fun g => g.1 = i).flatMap ungroup := by
  induction gs with
  | nil => rfl
  | cons g gs ih =>
    rw [flatMap_cons,filter_append,ih]
    by_cases h : g.1 = i <;> simp [ungroup,h]
lemma grouped_flat : (grouped xs).flatMap ungroup = (xs.mergeSort fun a b => a.1 ≤ b.1) ∧
      (grouped xs).Pairwise (fun g h => g.1 < h.1) ∧ ∀ g ∈ grouped xs, g.2 ≠ [] := by
  have hs : (xs.mergeSort fun a b => a.1 ≤ b.1).Pairwise fun a b => a.1 ≤ b.1 := by
    simpa using pairwise_mergeSort byIndex_trans byIndex_total xs
  exact gather_spec hs
lemma mem_of_mem_grouped {xs g} (hg : g ∈ grouped xs) {b : β} (hb : b ∈ g.2) : (g.1,b) ∈ xs := by
  have hmem : (g.1,b) ∈ (grouped xs).flatMap ungroup := mem_flatMap.mpr ⟨g,hg,mem_map_of_mem hb⟩
  rwa [(grouped_flat xs).1,mem_mergeSort] at hmem

/-- There is one group for each index, with what the list has at the index. -/
lemma reverse_grouped (i) : ((grouped xs).filter fun g => g.1 = i).flatMap (fun g => g.2.reverse) =
    ((xs.filter fun e => e.1 = i).map snd).reverse := by
  obtain ⟨hf,hlt,-⟩ := grouped_flat xs
  have hp := hlt.filter fun g => g.1 = i
  have hin : ∀ g ∈ (grouped xs).filter fun g => g.1 = i, g.1 = i := fun g hg => of_decide_eq_true (mem_filter.mp hg).2
  rw [← filter_mergeSort xs,← hf,filter_ungroup]
  generalize (grouped xs).filter (fun g => g.1 = i) = gs at hp hin
  match gs with
  | [] => rfl
  | [g] => simp [ungroup]
  | g :: h :: gs =>
    have hgh : g.1 < h.1 := rel_of_pairwise_cons hp mem_cons_self
    rw [hin g (by simp),hin h (by simp)] at hgh
    exact absurd hgh (Int.lt_irrefl i)
lemma flatMap_grouped_perm : ((grouped xs).flatMap fun g => g.2.reverse).Perm (xs.map snd) := by
  have hf : (grouped xs).flatMap snd = (xs.mergeSort fun a b => a.1 ≤ b.1).map snd := by
    rw [← (grouped_flat xs).1,map_flatMap]
    simp [ungroup]
  calc ((grouped xs).flatMap fun g => g.2.reverse).Perm ((grouped xs).flatMap snd) :=
        Perm.flatMap_left _ fun g _ => reverse_perm g.2
    _ = (xs.mergeSort fun a b => a.1 ≤ b.1).map snd := hf
    Perm _ (xs.map snd) := (mergeSort_perm xs _).map _
def mapGroup (f : β → γ) (g : Int × List β) : Int × List γ := (g.1,g.2.map f)
variable (f : β → γ)
lemma gather_map (e gs) :
    gather (e.1,f e.2) (gs.map (mapGroup f)) = (gather e gs).map (mapGroup f) := by
  cases gs with
  | nil => rfl
  | cons g gs =>
    by_cases h : e.1 = g.1 <;> simp [gather,mapGroup,h]
lemma grouped_map (xs) : grouped (xs.map fun e => (e.1,f e.2)) = (grouped xs).map (mapGroup f) := by
  have hs : (xs.map fun e => (e.1,f e.2)).mergeSort (fun a b => a.1 ≤ b.1) =
      (xs.mergeSort fun a b => a.1 ≤ b.1).map fun e => (e.1,f e.2) := by
    symm
    exact map_mergeSort fun a _ b _ => rfl
  rw [grouped_eq,grouped_eq,hs]
  induction xs.mergeSort (fun a b => a.1 ≤ b.1) with
  | nil => rfl
  | cons e ys ih => rw [map_cons,foldr_cons,foldr_cons,ih,gather_map]
end
variable {α : Type} [Located α] {old : Moments α} {ins : List (Int × α)}
def groupItems (xs : List α) : List (OpTree.Item α) := xs.reverse.map .inl
def runGroups (state : Circuit α × Int) (groups : List (Int × List α)) : Outcome (Circuit α × Int) :=
  (groups.map (mapGroup .leaf)).foldlM (batchStep .none) state
variable (d : Circuit α)
lemma batchStep_eq (shift i) (xs : List α) : batchStep .none (d,shift) (mapGroup .leaf (i,xs)) =
      match insertItems .none (groupItems xs) .earliest d (d.clamp (i+shift)) with
      | (_,.error f) => .error f
      | (d',.ok k) => .ok (d',shift + max 0 (k-(i+shift))) := by
  have hit : (OpTree.node (mapGroup OpTree.leaf (i,xs)).2.reverse).items = .ok (groupItems xs) := by
    rw [mapGroup,← map_reverse]
    exact itemsAll_leaves xs.reverse
  have hin := insert_eq_insertItems hit d (i+shift) .earliest
  simp only [batchStep,mapGroup] at hin ⊢
  rw [hin]
  rcases insertItems .none (groupItems xs) .earliest d (d.clamp (i+shift)) with ⟨d',f | k⟩ <;> rfl

/-- Between two groups the moments from `j` on are still as they were, and the shift makes up at least for the moments
that have been added before them. -/
structure Ready (old : Moments α) (last : Int) (d : Circuit α) (shift : Int) (ls : Moments α) (j : Nat) :
    Prop where
  moments : d.moments = ls ++ old.drop j
  le_length : j ≤ old.length
  overlapFree : Legal d
  place_le : (ls.length : Int) ≤ last+shift
  added_le : (ls.length : Int) ≤ j+shift
omit [Located α] in
lemma clamp_of_nonneg {x} (hx : 0 ≤ x) : d.clamp x = min x d.size := by
  unfold clamp
  omega
variable {d} {ls : Moments α} {i : Nat}
lemma Ready.size_eq (h : Ready old last d shift ls j) : d.size = ls.length+(old.length-j) := by
  rw [size,h.moments,length_append,length_drop]

/-- The place of the next group is at or after its index, by as much as the shift is too large. -/
lemma Ready.place (h : Ready old last d shift ls j) (hl : last ≤ i) (hi : i ≤ old.length) :
    ∃ ks j', d.moments = ks ++ old.drop j' ∧ d.clamp (i+shift) = ks.length ∧ j ≤ j' ∧ j' ≤ old.length ∧ i ≤ j' ∧
      opsOf ks = opsOf ls ++ stretch old j j' ∧ j' = min (old.length : Int) (i+(shift+j-ls.length)) := by
  have hp := h.place_le
  have ha := h.added_le
  have hj := h.le_length
  have hs := h.size_eq
  have hc := clamp_of_nonneg d (show 0 ≤ i+shift by omega)
  refine ⟨ls ++ (old.drop j).take (d.clamp (i+shift) - ls.length),j+(d.clamp (i+shift) - ls.length),?_,?_,
    by omega,by omega,by omega,?_,by omega⟩
  · rw [h.moments,append_assoc,← drop_drop,take_append_drop]
  · rw [length_append,length_take,length_drop]
    omega
  · rw [opsOf_append,stretch,drop_take]
    congr 3
    omega
variable {xs : List α}
lemma overlapFree_groupItems (hxs : ∀ x ∈ xs, (qubits x).Nodup) : ∀ y ∈ groupItems xs, OverlapFree ⟨itemOps y⟩ := by
  intro y hy
  obtain ⟨x,hx,rfl⟩ := mem_map.mp hy
  exact overlapFree_singleton.mpr (hxs x (mem_reverse.mp hx))
def excess (shift : Int) (ls : Moments α) (j : Nat) : Int := shift+j-ls.length
def Held (old : Moments α) (i : Nat) (xs : List α) : Prop := ∀ x ∈ xs, ∀ m ∈ old[i]?, ¬ Apart [x] m.ops
structure GroupStep (old : Moments α) (i : Nat) (xs : List α) (d : Circuit α) (shift : Int) (ls : Moments α)
    (j : Nat) (d' : Circuit α) (shift' : Int) (ls' : Moments α) (j' : Nat) : Prop where
  step : batchStep .none (d,shift) (mapGroup .leaf (i,xs)) = .ok (d',shift')
  ready : Ready old i d' shift' ls' j'
  start : (placeAfter old.length .earliest d (d.clamp (i+shift)) [] : Int) =
    min (old.length : Int) (i+(shift+j-ls.length))
  finish : placeAfter old.length .earliest d (d.clamp (i+shift)) (groupItems xs) = j'
  start_le : placeAfter old.length .earliest d (d.clamp (i+shift)) [] ≤ j'
  shift_eq : shift' = shift + max 0 (ls'.length-(i+shift))
  at_end : ls'.length < i+shift → j' = old.length
  held : Held old i xs → excess shift ls j = 0 → excess shift' ls' j' = 0 ∧
    ∀ t ∈ turns old.length i .earliest d (d.clamp (i+shift)) (groupItems xs), t.reached = i
  order : ∀ ts : List (Turn α), Advancing i j' ts →
    Advancing i j (turns old.length i .earliest d (d.clamp (i+shift)) (groupItems xs) ++ ts) ∧
    SameOrder (opsOf ls' ++ weave old reached j' ts)
      (opsOf ls ++ weave old reached j (turns old.length i .earliest d (d.clamp (i+shift)) (groupItems xs) ++ ts))
lemma Ready.group (h : Ready old last d shift ls j) (hl : last ≤ i) (hi : i ≤ old.length) (hxs : ∀ x ∈ xs, (qubits x).Nodup) :
    ∃ d' shift' ls' j', GroupStep old i xs d shift ls j d' shift' ls' j' := by
  obtain ⟨ks,j₁,hmo,hc,hjj₁,hj₁,hij₁,hops,hv⟩ := h.place hl hi
  have hd : d = ⟨ks ++ old.drop j₁⟩ := congrArg Circuit.mk hmo
  have hf : ∀ m ∈ ks ++ old.drop j₁, OverlapFree m := hmo ▸ h.overlapFree
  have hkn : Known .earliest := by simp [Known]
  obtain ⟨ls',j',hrun,hlen,hle,hj',hke,hf',hts⟩ := insertItems_run i (overlapFree_groupItems hxs) hkn hj₁ hij₁ hf
  have hs := placeAfter_nil ks hj₁ .earliest
  rw [← hd,← hc] at hrun hts hs hke
  have hst : batchStep .none (d,shift) (mapGroup .leaf (i,xs)) =
      .ok (⟨ls' ++ old.drop j'⟩,shift + max 0 (ls'.length-(i+shift))) := by
    rw [batchStep_eq,hrun]
  have hsi : d.size = ks.length+(old.length-j₁) := by rw [size,hmo,length_append,length_drop]
  have hk := clamp_of_nonneg d (show 0 ≤ i+shift by have := h.place_le; omega)
  refine ⟨_,_,ls',j',hst,⟨rfl,hj',hf',by omega,by omega⟩,hs ▸ hv,placeAfter_of_run hj' hrun,
    hs ▸ hle,rfl,by omega,fun hh hz => ?_,fun ts hadv => ?_⟩
  · have hsi' := h.size_eq
    unfold excess at hz ⊢
    obtain rfl : j₁ = i := by omega
    obtain ⟨rfl,hr⟩ := hke (.inr fun y hy m hm => by
      obtain ⟨x,hx,rfl⟩ := mem_map.mp hy
      rw [head?_drop] at hm
      exact hh x (mem_reverse.mp hx) m hm)
    exact ⟨by omega,hr⟩
  · obtain ⟨hadv',hord⟩ := hts ts hadv
    refine ⟨hadv'.mono le_rfl hjj₁,hord.trans (.of_eq ?_)⟩
    rw [weave_skip old reached hjj₁ hadv'.head_reached,hops,append_assoc]

/-- A property of each group and the state in which its turn comes. -/
def AtEach (P : Circuit α × Int → Int × List α → Prop) (state : Circuit α × Int) (groups : List (Int × List α)) : Prop :=
  ∀ before g after, groups = before ++ g :: after → ∀ state', runGroups state before = .ok state' → P state' g
variable {state state' : Circuit α × Int} {g : Int × List α}
lemma runGroups_cons (h : batchStep .none state (mapGroup .leaf g) = .ok state') (gs) :
    runGroups state (g :: gs) = runGroups state' gs := by
  rw [runGroups,map_cons,foldlM_cons,h]
  rfl
lemma atEach_nil (P : Circuit α × Int → Int × List α → Prop) (state) : AtEach P state [] := by
  intro before g after h
  simp at h
lemma atEach_cons {P} (h : batchStep .none state (mapGroup .leaf g) = .ok state') {gs} :
    AtEach P state (g :: gs) ↔ P state g ∧ AtEach P state' gs := by
  constructor
  · intro hall
    refine ⟨hall [] g gs rfl state rfl,fun before g' after heq state'' hrun => ?_⟩
    refine hall (g :: before) g' after (by rw [heq,cons_append]) state'' ?_
    rw [runGroups_cons h,hrun]
  · rintro ⟨hf,hr⟩ before g' after heq state'' hrun
    cases before with
    | nil =>
      obtain ⟨rfl,-⟩ := cons.inj heq
      obtain rfl := Except.ok.inj hrun
      exact hf
    | cons g'' before =>
      obtain ⟨rfl,heq'⟩ := cons.inj heq
      rw [runGroups_cons h] at hrun
      exact hr before g' after heq' state'' hrun

/-- When the turn of an operation comes, no moment that was passed since its index acts on its qubits. -/
def KeepsPlaces (old : Moments α) : Circuit α × Int → List (Int × List α) → Prop :=
  AtEach fun (d,shift) (i,xs) => ∀ before x after, groupItems xs = before ++ x :: after →
    Apart (stretch old i.toNat (placeAfter old.length .earliest d (d.clamp (i+shift)) before)) (itemOps x)
def Steady (old : Moments α) : Circuit α × Int → List (Int × List α) → Prop :=
  AtEach fun (d,shift) (i,xs) => placeAfter old.length .earliest d (d.clamp (i+shift)) (groupItems xs) =
    placeAfter old.length .earliest d (d.clamp (i+shift)) []
section
variable {β γ : Type} (key : β → Nat) (into : β → List γ) (between : Nat → List γ)
def keyed (xs : List β) (p n : Nat) : List γ :=
  (List.range' p n).flatMap fun i => (xs.filter fun x => key x = i).flatMap into ++ between i
variable {key into between} {x : β} {xs : List β}
lemma keyed_nil (p n) : keyed key into between [] p n = (range' p n).flatMap between := by simp [keyed]
lemma keyed_cons (hp : p ≤ key x) (hn : key x < p+n) (hl : ∀ y ∈ xs, key x ≤ key y) :
    keyed key into between (x :: xs) p n = (range' p (key x - p)).flatMap between ++
      (into x ++ keyed key into between xs (key x) (p+n - key x)) := by
  obtain ⟨m,rfl⟩ : ∃ m, n = key x - p+(m+1) := ⟨p+n - key x - 1,by omega⟩
  have hs : p+(key x - p) = key x := by omega
  have hr : p+(key x - p+(m+1)) - key x = m+1 := by omega
  have hno : ∀ i ∈ range' p (key x - p), ((x :: xs).filter fun y => key y = i).flatMap into ++ between i = between i := by
    intro i hi
    have hlt := (mem_range'_1.mp hi).2
    have hnil : (x :: xs).filter (fun y => key y = i) = [] := by
      refine filter_eq_nil_iff.mpr (forall_mem_cons.mpr ⟨by simp; omega,fun y hy => ?_⟩)
      have := hl y hy
      simp
      omega
    rw [hnil,flatMap_nil,nil_append]
  have hsa : ∀ i ∈ range' (key x + 1) m, ((x :: xs).filter fun y => key y = i).flatMap into ++ between i =
      (xs.filter fun y => key y = i).flatMap into ++ between i := by
    intro i hi
    have hlt := (mem_range'_1.mp hi).1
    rw [filter_cons_of_neg (by simp; omega)]
  rw [keyed,keyed,hr,← range'_append_1,flatMap_append,flatMap_congr hno,hs,range'_succ,flatMap_cons,flatMap_congr hsa]
  simp
end
def laidOut (ms : Moments α) (groups : List (Int × List α)) (p : Nat) : List α :=
  keyed (fun g => g.1.toNat) (fun g => g.2.reverse) (fun i => (ms.getD i .empty).ops) groups p (ms.length+1-p)
section
omit [Located α]
variable (ms : Moments α)
lemma stretch_one (p) : stretch ms p (p+1) = (ms.getD p .empty).ops := by
  by_cases hp : p < ms.length
  · rw [stretch_succ le_rfl (getElem?_eq_getElem hp)]
    simp [hp]
  · have hget : ms[p]? = none := getElem?_eq_none (Nat.le_of_not_lt hp)
    have hd : (ms.take (p+1)).drop p = [] := drop_eq_nil_of_le ((length_take_le' _ _).trans (Nat.le_of_not_lt hp))
    rw [stretch,hd,getD_eq_getElem?_getD,hget]
    rfl
lemma stretch_eq (p k) : stretch ms p (p+k) = (range' p k).flatMap fun i => (ms.getD i .empty).ops := by
  induction k with
  | zero => simp
  | succ k ih =>
    rw [← Nat.add_assoc,← stretch_append ms (Nat.le_add_right p k) (Nat.le_succ _),ih,stretch_one,range'_1_concat,flatMap_append,
      flatMap_singleton]
lemma laidOut_nil (p) : laidOut ms [] p = opsOf (ms.drop p) := by
  rw [laidOut,keyed_nil,← stretch_eq,stretch,take_of_length_le (by omega)]
lemma laidOut_cons {groups} (hp : p ≤ i) (hi : i ≤ ms.length) (hl : ∀ g ∈ groups, (i : Int) ≤ g.1) :
    laidOut ms ((i,xs) :: groups) p = stretch ms p i ++ (xs.reverse ++ laidOut ms groups i) := by
  have hr : p+(ms.length+1-p)-i = ms.length+1-i := by omega
  have hs := stretch_eq ms p (i-p)
  rw [Nat.add_sub_cancel' hp] at hs
  rw [laidOut,keyed_cons (by simpa using hp) (by simp; omega) fun g hg => by have := hl g hg; simp; omega]
  simp only [Int.toNat_natCast,hr,← hs]
  rfl
end
structure Coming (n p : Nat) (groups : List (Int × List α)) : Prop where
  increasing : groups.Pairwise fun g h => g.1 < h.1
  each : ∀ g ∈ groups, (p : Int) ≤ g.1 ∧ g.1 ≤ n ∧ ∀ x ∈ g.2, (qubits x).Nodup
lemma Coming.cons (h : Coming n p (g :: groups)) :
    ∃ (i : Nat) (xs : List α), g = ((i : Int),xs) ∧ p ≤ i ∧ i ≤ n ∧ (∀ x ∈ xs, (qubits x).Nodup) ∧ Coming n i groups := by
  obtain ⟨hlt,hinc⟩ := pairwise_cons.mp h.increasing
  obtain ⟨⟨hle,hn,hno⟩,hr⟩ := forall_mem_cons.mp h.each
  refine ⟨g.1.toNat,g.2,Prod.ext (by omega) rfl,by omega,by omega,hno,hinc,fun g' hg' => ⟨?_,(hr g' hg').2⟩⟩
  have := hlt g' hg'
  omega

/-- As long as places before the end are asked for, the shift becomes too large as soon as a moment is passed, and stays
so. -/
lemma GroupStep.excess_eq_zero {d' shift' ls'} {j'} (h : GroupStep old i xs d shift ls j d' shift' ls' j')
    (hr : Ready old last d shift ls j) (hi : i < old.length) :
    excess shift' ls' j' = 0 ↔ excess shift ls j = 0 ∧ placeAfter old.length .earliest d (d.clamp (i+shift)) (groupItems xs) =
        placeAfter old.length .earliest d (d.clamp (i+shift)) [] := by
  have hst := h.start
  have hstart_le := h.start_le
  have hs := h.shift_eq
  have hend := h.at_end
  have ha := hr.added_le
  rw [h.finish]
  unfold excess
  omega

/-- A batch ends, and everything then stands in the order in which the turns came. -/
lemma Ready.run (h : Ready old p d shift ls j) (hgp : Coming old.length p groups) :
    ∃ d' shift' ts, runGroups (d,shift) groups = .ok (d',shift') ∧ Legal d' ∧
      Advancing p j ts ∧ SameOrder (opsOf d'.moments) (opsOf ls ++ weave old reached j ts) ∧
      weave old asked p ts = laidOut old groups p ∧ ts.flatMap ops = groups.flatMap (fun g => g.2.reverse) ∧
      (KeepsPlaces old (d,shift) groups ↔ ∀ t ∈ ts, Apart (stretch old t.asked t.reached) t.ops) ∧
      ((∀ g ∈ groups, Held old g.1.toNat g.2) → excess shift ls j = 0 → ∀ t ∈ ts, Apart (stretch old t.asked t.reached) t.ops) ∧
      ((∀ g ∈ groups, g.1 < old.length) →
        (shift' = d'.size-old.length ↔ excess shift ls j = 0 ∧ Steady old (d,shift) groups)) := by
  induction groups generalizing p d shift ls j with
  | nil =>
    have hj := h.le_length
    have hsi := h.size_eq
    refine ⟨d,shift,[],rfl,h.overlapFree,trivial,.of_eq ?_,(laidOut_nil old p).symm,rfl,?_,by simp,fun _ => ?_⟩
    · rw [h.moments,opsOf_append,weave]
    · simp [KeepsPlaces,atEach_nil]
    · simp only [Steady,atEach_nil,and_true,excess]
      omega
  | cons g groups ih =>
    obtain ⟨i,xs,rfl,hl,hi,hn,hc⟩ := hgp.cons
    obtain ⟨d₁,shift₁,ls₁,j₁,hs⟩ := h.group (Int.ofNat_le.mpr hl) hi hn
    obtain ⟨d',shift',ts,hrun,hfr,hadv,hord,ha,hops,hk,hh,hiff⟩ := ih hs.ready hc
    obtain ⟨hadv₁,horder₁⟩ := hs.order ts hadv
    set us := turns old.length i .earliest d (d.clamp (i+shift)) (groupItems xs) with hus
    have hp : ∀ t ∈ us, t.asked = i := fun _ => asked_of_mem_turns
    have hgr : us.flatMap ops = xs.reverse := by
      rw [hus,turns_ops,groupItems,flatMap_map]
      simp [itemOps]
    refine ⟨d',shift',us ++ ts,(runGroups_cons hs.step groups).trans hrun,hfr,hadv₁.mono hl le_rfl,hord.trans horder₁,?_,?_,?_,
      fun hall hz => ?_,fun hlt => ?_⟩
    · rw [weave_const old asked hl hp hadv.head_asked,ha,hgr,laidOut_cons old hl hi fun g hg => (hc.each g hg).1]
    · rw [flatMap_append,hgr,hops,flatMap_cons]
    · rw [KeepsPlaces,atEach_cons hs.step,forall_mem_append,hus,forall_mem_turns]
      exact and_congr .rfl hk
    · obtain ⟨hf,hre⟩ := forall_mem_cons.mp hall
      obtain ⟨hz',hr⟩ := hs.held (by simpa using hf) hz
      refine forall_mem_append.mpr ⟨fun t ht => ?_,hh hre hz'⟩
      rw [hp t ht,hr t ht,stretch_self]
      exact apart_nil_left _
    · obtain ⟨hg,hre⟩ := forall_mem_cons.mp hlt
      rw [hiff hre,hs.excess_eq_zero h (Int.ofNat_lt.mp hg),Steady,atEach_cons hs.step,and_assoc]
lemma Ready.run_shift (h : Ready old p d shift ls j) (hgr : Coming old.length p groups) (hlt : ∀ g ∈ groups, g.1 < old.length) :
    ∃ d' shift', runGroups (d,shift) groups = .ok (d',shift') ∧
      (shift' = d'.size-old.length ↔ excess shift ls j = 0 ∧ Steady old (d,shift) groups) := by
  obtain ⟨d',shift',-,hrun,-,-,-,-,-,-,-,hiff⟩ := h.run hgr
  exact ⟨d',shift',hrun,hiff hlt⟩
def insertedAt (ins : List (Int × α)) (i : Int) : List α := ((ins.filter fun e => e.1 = i).map Prod.snd).reverse

/-- The operations of a circuit with, before each moment and at the end, what a batch puts in there. -/
def requested (c : Circuit α) (ins : List (Int × α)) : List α :=
  (List.range (c.size+1)).flatMap fun (i : Nat) => insertedAt ins i ++ (c.moments.getD i .empty).ops

/-- Each operation of a batch is to stand, on every qubit, before the moment of its index and after the moments before
it; of operations with one index the later ones of the batch come first. -/
def RequestedOrder (c d : Circuit α) (ins : List (Int × α)) : Prop := ∀ q, d.onQubit q = onWire q (requested c ins)
variable {c : Circuit α}
lemma ready_start (hc : Legal c) : Ready c.moments (0 : Nat) c 0 [] 0 :=
  ⟨rfl,Nat.zero_le _,hc,by simp,by simp⟩
omit [Located α] in
lemma laidOut_grouped (hins : ∀ e ∈ ins, 0 ≤ e.1 ∧ e.1 ≤ c.size) : laidOut c.moments (grouped ins) 0 = requested c ins := by
  have hin : ∀ i, ((grouped ins).filter fun g => g.1.toNat = i) = (grouped ins).filter fun g => g.1 = (i : Int) := by
    refine fun i => filter_congr fun g hg => ?_
    obtain ⟨b,hb⟩ := exists_mem_of_ne_nil _ ((grouped_flat ins).2.2 g hg)
    have := hins _ (mem_of_mem_grouped hg hb)
    simp only [decide_eq_decide]
    omega
  rw [laidOut,keyed,requested,range_eq_range']
  simp only [hin,reverse_grouped]
  rfl
lemma coming_grouped (hins : ∀ e ∈ ins, 0 ≤ e.1 ∧ e.1 ≤ n) (hn : ∀ e ∈ ins, (qubits e.2).Nodup) : Coming n 0 (grouped ins) := by
  obtain ⟨-,hlt,hne⟩ := grouped_flat ins
  refine ⟨hlt,fun g hg => ?_⟩
  obtain ⟨b,hb⟩ := exists_mem_of_ne_nil _ (hne g hg)
  obtain ⟨hpos,hle⟩ := hins _ (mem_of_mem_grouped hg hb)
  exact ⟨hpos,hle,fun x hx => hn _ (mem_of_mem_grouped hg hx)⟩
lemma Coming.left {before after} (h : Coming n p (before ++ g :: after)) : Coming n p before ∧ ∀ g' ∈ before, g'.1 < n := by
  obtain ⟨hb,-,hlt⟩ := pairwise_append.mp h.increasing
  obtain ⟨hf,hr⟩ := forall_mem_append.mp h.each
  refine ⟨⟨hb,hf⟩,fun g' hg' => ?_⟩
  have hg := hlt g' hg' g mem_cons_self
  have hle := (hr g mem_cons_self).2.1
  omega
lemma batchInsert_eq {d} (h : runGroups (c,0) (grouped ins) = .ok (d,shift)) :
    c.batchInsert .none (ins.map fun e => (e.1,.leaf e.2)) = .ok d := by
  have hf : (grouped (ins.map fun e => (e.1,OpTree.leaf e.2))).foldlM (batchStep .none) (c,0) = .ok (d,shift) := by
    rw [grouped_map]
    exact h
  rw [batchInsert,hf]
  rfl

/-- A batch always succeeds, keeps every operation and leaves no overlap. The operations stand where they were requested if
every one keeps its place, and, where they can be told from the old ones, only then. The shift is the number of moments added so
far exactly if no earlier group has passed a moment. -/
theorem batchInsert_requested_order_iff {c : Circuit α} (hc : ∀ m ∈ c.moments, OverlapFree m) {ins : List (Int × α)}
    (hins : ∀ e ∈ ins, 0 ≤ e.1 ∧ e.1 ≤ c.size) (hnodup : ∀ e ∈ ins, (qubits e.2).Nodup) :
    ∃ d, c.batchInsert .none (ins.map fun e => (e.1, .leaf e.2)) = .ok d ∧ (∀ m ∈ d.moments, OverlapFree m) ∧
      d.operations.Perm (c.operations ++ ins.map Prod.snd) ∧
      (KeepsPlaces c.moments (c, 0) (grouped ins) → RequestedOrder c d ins) ∧
      ((∀ e ∈ ins, e.2 ∉ c.operations) → RequestedOrder c d ins → KeepsPlaces c.moments (c, 0) (grouped ins)) ∧
      ∀ before g after, grouped ins = before ++ g :: after → ∃ d' shift, runGroups (c, 0) before = .ok (d', shift) ∧
        (shift = d'.size - c.size ↔ Steady c.moments (c, 0) before) := by
  have hcoming := coming_grouped hins hnodup
  obtain ⟨d, shift, ts, hrun, hfree, hadv, horder, hasked, hops, hkeeps, -⟩ := (ready_start hc).run hcoming
  have hrequested : weave c.moments Turn.asked 0 ts = requested c ins := hasked.trans (laidOut_grouped hins)
  have hperm : (ts.flatMap Turn.ops).Perm (ins.map Prod.snd) := hops ▸ flatMap_grouped_perm ins
  refine ⟨d, batchInsert_eq hrun, hfree, ?_, fun hplaces q => ?_, fun hfresh hreq => hkeeps.mpr ?_, ?_⟩
  · exact (horder.perm.trans (weave_perm c.moments hadv)).trans (hperm.append_left _)
  · have hsame := weave_sameOrder le_rfl hadv (hkeeps.mp hplaces)
    rw [stretch_self, List.nil_append, hrequested] at hsame
    exact (horder.wire q).trans (hsame.wire q).symm
  · refine apart_of_weave_eq hadv ?_ fun q => ?_
    · intro t ht x hx
      have hmem : x ∈ ins.map Prod.snd := hperm.mem_iff.mp (List.mem_flatMap.mpr ⟨t, ht, hx⟩)
      obtain ⟨e, he, rfl⟩ := List.mem_map.mp hmem
      exact hfresh e he
    · rw [hrequested]
      exact (hreq q).symm.trans (horder.wire q)
  · intro before g after heq
    obtain ⟨hbefore, hlt⟩ := (heq ▸ hcoming).left
    obtain ⟨d', shift', hrun', hiff⟩ := (ready_start hc).run_shift hbefore hlt
    refine ⟨d', shift', hrun', hiff.trans ?_⟩
    simp [excess]

/-- An operation at index 0 goes into the first moment, the shift grows though no moment is added, and the operation at
index 1 comes to stand after the second moment instead of before it. -/
theorem batchInsert_shifted_too_far :
    ∃ d, (⟨[⟨[lineGate .x 0]⟩, ⟨[lineGate .y 0]⟩]⟩ : Circuit (Operation Number)).batchInsert .none
        [(0, .leaf (lineGate .z 1)), (1, .leaf (lineGate .h 0))] = .ok d ∧
      ¬ RequestedOrder ⟨[⟨[lineGate .x 0]⟩, ⟨[lineGate .y 0]⟩]⟩ d [(0, lineGate .z 1), (1, lineGate .h 0)] := by
  have hc : ∀ m ∈ (⟨[⟨[lineGate .x 0]⟩, ⟨[lineGate .y 0]⟩]⟩ : Circuit (Operation Number)).moments, OverlapFree m := by
    simp [overlapFree_singleton]
  have hins : ∀ e ∈ [((0 : Int), lineGate .z 1), (1, lineGate .h 0)], 0 ≤ e.1 ∧ e.1 ≤ (2 : Nat) := by simp
  have hnodup : ∀ e ∈ [((0 : Int), lineGate .z 1), (1, lineGate .h 0)], (qubits e.2).Nodup := by
    simp
  obtain ⟨d, hrun, -, -, -, honly, -⟩ := batchInsert_requested_order_iff hc hins hnodup
  refine ⟨d, hrun, fun hreq => ?_⟩
  have hfresh : ∀ e ∈ [((0 : Int), lineGate .z 1), (1, lineGate .h 0)],
      e.2 ∉ (⟨[⟨[lineGate .x 0]⟩, ⟨[lineGate .y 0]⟩]⟩ : Circuit (Operation Number)).operations := by
    simp [operations, lineGate]
  have hgroups : grouped [((0 : Int), lineGate .z 1), (1, lineGate .h 0)] = [(0, [lineGate .z 1]), (1, [lineGate .h 0])] := by
    rw [grouped_eq, List.mergeSort_of_pairwise (by simp)]
    rfl
  have hfirst : runGroups (⟨[⟨[lineGate .x 0]⟩, ⟨[lineGate .y 0]⟩]⟩, 0) [(0, [lineGate .z 1])] =
    .ok (⟨[⟨[lineGate .x 0, lineGate .z 1]⟩, ⟨[lineGate .y 0]⟩]⟩, 1) := rfl
  have hkeeps := honly hfresh hreq _ _ [] hgroups _ hfirst [] (.inl (lineGate .h 0)) [] rfl
  have hmem : lineGate .y 0 ∈ stretch [⟨[lineGate .x 0]⟩, ⟨[lineGate .y 0]⟩] (1 : Int).toNat
    (placeAfter 2 .earliest ⟨[⟨[lineGate .x 0, lineGate .z 1]⟩, ⟨[lineGate .y 0]⟩]⟩ 2 []) := List.mem_singleton_self _
  exact hkeeps _ hmem _ (List.mem_singleton_self _) (List.mem_singleton_self (Qubit.line 0)) (List.mem_singleton_self _)
end QuantumCircuits.BatchInsertion
