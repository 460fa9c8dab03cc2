import Mathlib
import QuantumCircuits.Acquaintance.Permutation

/-! # Networks of neighbour exchanges

Exchanges of neighbouring places move the content of each place to another one. Three networks are followed through all
their layers: the diamond that exchanges two blocks, the triangle that turns a block round, and the wall of bricks that
turns a whole row round.
-/
namespace QuantumCircuits.Exchanges
open Network List Nat
variable {n k t p i : Nat} {e : Nat × Nat}
def swapPlace (k p : Nat) : Nat := if p = k then k+1 else if p = k+1 then k else p
lemma swapPlace_lt (hi : i+1 < n) (hp : p < n) : swapPlace i p < n := by
  unfold swapPlace
  split_ifs <;> omega
lemma exists_neighbours {α : Type} {l : List α} (hk : k+1 < l.length) : ∃ us a b vs, l = us ++ a :: b :: vs ∧ us.length = k := by
  refine ⟨l.take k,l[k],l[k+1],l.drop (k+2),?_,length_take_of_le (by omega)⟩
  rw [← drop_eq_getElem_cons hk,← drop_eq_getElem_cons (by omega),take_append_drop]
lemma getElem?_beside_neighbours {α : Type} {us vs : List α} {a b x : α} (a' b') (ha : p ≠ us.length)
    (hb : p ≠ us.length+1) (hx : (us ++ a :: b :: vs)[p]? = some x) : x ∈ us ++ vs ∧ (us ++ a' :: b' :: vs)[p]? = some x := by
  rcases lt_or_ge p us.length with hlt | hge
  · rw [getElem?_append_left hlt] at hx ⊢
    exact ⟨mem_append_left _ (mem_of_getElem? hx),hx⟩
  · obtain ⟨i,rfl⟩ : ∃ i, p = us.length+(i+2) := ⟨p-us.length-2,by omega⟩
    rw [getElem?_append_right (by omega),Nat.add_sub_cancel_left] at hx ⊢
    exact ⟨mem_append_right _ (mem_of_getElem? hx),hx⟩
def destination : List Nat → Nat → Nat
  | [], p => p
  | k :: ks, p => destination ks (swapPlace k p)
@[simp] lemma destination_nil (p) : destination [] p = p := rfl
variable (ks : List Nat)
lemma destination_append (ls p) : destination (ks ++ ls) p = destination ls (destination ks p) := by
  induction ks generalizing p with
  | nil => rfl
  | cons k ks ih => exact ih (swapPlace k p)
lemma swapPlace_swapPlace (k p) : swapPlace k (swapPlace k p) = p := by
  unfold swapPlace
  split_ifs <;> omega
lemma eq_of_swapPlace_lt (h : i < j) (h' : swapPlace k j < swapPlace k i) : i = k ∧ j = k+1 := by
  unfold swapPlace at h'
  split_ifs at h' <;> omega
def origin (ks : List Nat) (p : Nat) : Nat := ks.foldr swapPlace p
lemma origin_concat (k p) : origin (ks ++ [k]) p = origin ks (swapPlace k p) := by simp [origin]
lemma origin_destination (p) : origin ks (destination ks p) = p := by
  induction ks generalizing p with
  | nil => rfl
  | cons k ks ih => exact (congrArg (swapPlace k) (ih (swapPlace k p))).trans (swapPlace_swapPlace k p)
lemma origin_eq {ks} (h : destination ks i = j) : origin ks j = i := h ▸ origin_destination ks i

/-- The contents that are exchanged with each other, by their first places. -/
def crossings : List Nat → List (Nat × Nat)
  | [] => []
  | k :: ks => (k,k+1) :: (crossings ks).map (Prod.map (swapPlace k) (swapPlace k))
lemma crossings_concat (k) : crossings (ks ++ [k]) = crossings ks ++ [(origin ks k,origin ks (k+1))] := by
  induction ks with
  | nil => rfl
  | cons i ks ih =>
    rw [cons_append,crossings,ih,map_append]
    rfl
lemma length_crossings : (crossings ks).length = ks.length := by
  induction ks with
  | nil => rfl
  | cons k ks ih => rw [crossings,length_cons,length_map,ih,length_cons]

/-- Contents that have changed their order have been exchanged with each other. -/
lemma mem_crossings {ks} (hij : i < j) (h : destination ks j < destination ks i) : (i,j) ∈ crossings ks := by
  induction ks generalizing i j with
  | nil => exact absurd h (lt_asymm hij)
  | cons k ks ih =>
    by_cases hnow : swapPlace k j < swapPlace k i
    · obtain ⟨rfl,rfl⟩ := eq_of_swapPlace_lt hij hnow
      exact mem_cons_self
    · have hl : swapPlace k i < swapPlace k j := by
        unfold swapPlace at hnow ⊢
        split_ifs at hnow ⊢ <;> omega
      refine mem_cons_of_mem _ (mem_map.mpr ⟨_,ih hl h,?_⟩)
      simp [swapPlace_swapPlace]

/-- With no more exchanges than pairs that change their order, every such pair is exchanged once and no other one. -/
lemma crossings_perm {ks pairs} (hn : pairs.Nodup)
    (hp : ∀ e ∈ pairs, e.1 < e.2 ∧ destination ks e.2 < destination ks e.1) (hlen : ks.length = pairs.length) :
    (crossings ks).Perm pairs := by
  have hsub := hn.subperm fun e he => mem_crossings (hp e he).1 (hp e he).2
  exact (hsub.perm_of_length_le (by rw [length_crossings,hlen])).symm
lemma everySecond_of_lt (h : i < j) : everySecond i j = i :: everySecond (i+2) j := by
  have hc : (j-i+1)/2 = (j-(i+2)+1)/2+1 := by omega
  rw [everySecond,hc,range_succ_eq_map,map_cons,map_map]
  refine congrArg _ (map_congr_left fun k _ => ?_)
  simp only [Function.comp_apply]
  omega
lemma everySecond_of_le (h : j ≤ i) : everySecond i j = [] := by
  have hc : (j-i+1)/2 = 0 := by omega
  rw [everySecond,hc]
  rfl
lemma mem_everySecond : k ∈ everySecond i j ↔ i ≤ k ∧ k < j ∧ (k-i) % 2 = 0 := by
  simp only [everySecond,mem_map,mem_range]
  constructor
  · omega
  · intro h
    exact ⟨(k-i)/2,by omega,by omega⟩
lemma length_everySecond (i j) : (everySecond i j).length = (j-i+1)/2 := by simp [everySecond]
def across (i j p : Nat) : Nat :=
  if i ≤ p ∧ p < j ∧ (p-i) % 2 = 0 then p+1 else if i < p ∧ p ≤ j ∧ (p-i) % 2 = 1 then p-1 else p
lemma across_up (h : i ≤ p ∧ p < j ∧ (p-i) % 2 = 0) : across i j p = p+1 := if_pos h
lemma across_down (h : i ≤ p ∧ p < j ∧ (p-i) % 2 = 0) : across i j (p+1) = p := by
  rw [across,if_neg (by omega),if_pos (by omega),Nat.add_sub_cancel]
lemma across_stay (h : p < i ∨ j < p ∨ p = j ∧ (p-i) % 2 = 0) : across i j p = p := by
  rw [across,if_neg (by omega),if_neg (by omega)]
lemma destination_everySecond (i j p) : destination (everySecond i j) p = across i j p := by
  by_cases h : i < j
  · rw [everySecond_of_lt h,destination,destination_everySecond (i+2) j]
    unfold swapPlace across
    split_ifs <;> omega
  · rw [everySecond_of_le (not_lt.mp h),destination_nil]
    unfold across
    split_ifs <;> omega
termination_by j - i
def layered (layers : List (Nat × Nat)) : List Nat := layers.flatMap fun e => everySecond e.1 e.2
lemma layered_run {P : Nat → List Nat → Prop} (hst : P 0 [])
    (hs : ∀ t e ks, layers[t]? = some e → P t ks → P (t+1) (ks ++ everySecond e.1 e.2)) :
    P layers.length (layered layers) := by
  induction layers using reverseRecOn with
  | nil => exact hst
  | append_singleton layers e ih =>
    have hp := ih fun t e ks he => hs t e ks ((getElem?_append_left (List.getElem?_eq_some_iff.mp he).1).trans he)
    rw [layered,flatMap_append,flatMap_singleton,length_append]
    exact hs _ e _ (by simp) hp
lemma destination_layered (place : Nat → Nat) (hs : place 0 = p)
    (hst : ∀ t e, layers[t]? = some e → across e.1 e.2 (place t) = place (t+1)) :
    destination (layered layers) p = place layers.length := by
  refine layered_run (P := fun t ks => destination ks p = place t) hs.symm fun t e ks he hks => ?_
  rw [destination_append,hks,destination_everySecond,hst t e he]
section
lemma length_diagonals (hl : 1 ≤ l) : (diagonals l r).length+1 = l+r := by
  simp [diagonals]
  omega
lemma diagonals_getElem? (hl : 1 ≤ l) (h : (diagonals l r)[t]? = some e) : t+1 < l+r ∧ (t < l ∧ e.1+t+1 = l ∨ l ≤ t ∧ e.1+l = t+1) ∧
      (t < r ∧ e.2 = l+t ∨ r ≤ t ∧ e.2+t+1 = l+2*r) := by
  obtain ⟨hmin,hmax⟩ := getElem?_zip_eq_some.mp h
  rw [getElem?_append] at hmin hmax
  simp only [length_reverse,length_drop,length_range] at hmin hmax
  refine ⟨?_,?_,?_⟩
  · have hlt := (List.getElem?_eq_some_iff.mp h).1
    have hlen := length_diagonals (r := r) hl
    omega
  · split at hmin
    case isTrue ht =>
      rw [getElem?_reverse (by simpa using ht),getElem?_drop,getElem?_eq_some_iff] at hmin
      simp only [length_drop,length_range,getElem_range] at hmin
      omega
    case isFalse ht =>
      obtain ⟨_,hmin⟩ := List.getElem?_eq_some_iff.mp hmin
      rw [getElem_range] at hmin
      omega
  · split at hmax
    case isTrue ht =>
      rw [getElem?_drop] at hmax
      obtain ⟨_,hmax⟩ := List.getElem?_eq_some_iff.mp hmax
      rw [getElem_range] at hmax
      omega
    case isFalse ht =>
      obtain ⟨hlt,-⟩ := List.getElem?_eq_some_iff.mp hmax
      simp only [length_reverse,length_drop,length_range] at hlt
      rw [getElem?_reverse (by simpa using hlt),getElem?_drop,getElem?_eq_some_iff] at hmax
      simp only [length_drop,length_range,getElem_range] at hmax
      omega
lemma layered_diagonals_zero (r) : layered (diagonals 0 r) = [] := by
  refine flatMap_eq_nil_iff.mpr fun e he => everySecond_of_le ?_
  have hs : diagonals 0 r = (range r).zip (range r) := by simp [diagonals,drop_eq_nil_of_le]
  obtain ⟨t,ht⟩ := mem_iff_getElem?.mp (hs ▸ he)
  obtain ⟨hmin,hmax⟩ := getElem?_zip_eq_some.mp ht
  exact (Option.some.inj (hmax.symm.trans hmin)).le
lemma succ_lt_of_mem_diagonals (hk : k ∈ layered (diagonals l r)) : k+1 < l+r := by
  rcases Nat.eq_zero_or_pos l with rfl | hl
  · simp [layered_diagonals_zero] at hk
  obtain ⟨e,he,hk⟩ := mem_flatMap.mp hk
  obtain ⟨t,ht⟩ := mem_iff_getElem?.mp he
  have hb := diagonals_getElem? hl ht
  have hlt := (mem_everySecond.mp hk).2.1
  omega

/-- The exchange of `l` places with `r` places: a content moves on from the time when the first of the others reaches it,
until the last of them has passed. -/
lemma destination_diagonals (hp : p < l+r) : destination (layered (diagonals l r)) p = if p < l then p+r else p-l := by
  rcases Nat.eq_zero_or_pos l with rfl | hl
  · simp [layered_diagonals_zero]
  have hlen := length_diagonals (r := r) hl
  by_cases hpl : p < l
  · rw [destination_layered (fun t => p + min r (t+p+1-l)) (by omega),if_pos hpl]
    · omega
    · intro t e he
      obtain ⟨-,hi,hj⟩ := diagonals_getElem? hl he
      rcases (by omega : t+p+1 < l ∨ l ≤ t+p+1 ∧ t+p+1 < l+r ∨ l+r ≤ t+p+1) with h | h | h
      · rw [across_stay (by omega)]
        omega
      · rw [across_up (by omega)]
        omega
      · rw [across_stay (by omega)]
        omega
  · rw [destination_layered (fun t => p - min l (t+l-p)) (by omega),if_neg hpl]
    · omega
    · intro t e he
      obtain ⟨ht,hi,hj⟩ := diagonals_getElem? hl he
      rcases (by omega : t+l < p ∨ p ≤ t+l ∧ t < p ∨ p ≤ t) with h | h | h
      · rw [across_stay (by omega)]
        omega
      · obtain ⟨k,hk⟩ : ∃ k, p - min l (t+l - p) = k+1 := ⟨2*p-t-l-1,by omega⟩
        rw [hk,across_down (by omega)]
        omega
      · rw [across_stay (by omega)]
        omega

/-- Every one of `l` places is exchanged with every one of `r` places. A layer has as many exchanges as it has reached places
of the first kind, less those which have passed all places of the second kind. -/
lemma length_diagonals_layered (l r) : (layered (diagonals l r)).length = l*r := by
  rcases Nat.eq_zero_or_pos l with rfl | hl
  · rw [layered_diagonals_zero,length_nil,zero_mul]
  let begun t : Nat := ∑ i ∈ Finset.range t, min (i+1) l
  have hs : ∀ t, begun (t+1) = begun t + min (t+1) l := fun t => Finset.sum_range_succ _ t
  have hc : (layered (diagonals l r)).length + begun ((diagonals l r).length-r) = begun (diagonals l r).length := by
    refine layered_run (P := fun t ks => ks.length + begun (t-r) = begun t) (by simp) fun t e ks he hks => ?_
    obtain ⟨ht,hi,hj⟩ := diagonals_getElem? hl he
    rw [length_append,length_everySecond,hs]
    rcases lt_or_ge t r with htr | htr
    · rw [Nat.sub_eq_zero_of_le htr]
      rw [Nat.sub_eq_zero_of_le htr.le] at hks
      omega
    · rw [Nat.sub_add_comm htr,hs]
      omega
  have hall : begun (l-1+r) = begun (l-1) + r*l := by
    rw [show begun (l-1+r) = _ from Finset.sum_range_add _ (l-1) r,
      Finset.sum_congr rfl fun i _ => show min (l-1+i+1) l = l by omega]
    simp [begun]
  have hlen := length_diagonals (r := r) hl
  rw [show (diagonals l r).length = l-1+r by omega,Nat.add_sub_cancel,hall,mul_comm r] at hc
  omega
def sides (l r : Nat) : List (Nat × Nat) := range l ×ˢ range' l r
lemma mem_sides : e ∈ sides l r ↔ e.1 < l ∧ l ≤ e.2 ∧ e.2 < l+r := by rw [sides,mem_product,mem_range,mem_range'_1]
lemma nodup_sides (l r) : (sides l r).Nodup := nodup_range.product nodup_range'
lemma crossings_diagonals (l r) : (crossings (layered (diagonals l r))).Perm (sides l r) := by
  refine crossings_perm (nodup_sides l r) (fun e he => ?_) ?_
  · obtain ⟨hi,hj⟩ := mem_sides.mp he
    rw [destination_diagonals (by omega),destination_diagonals (by omega)]
    split_ifs <;> omega
  · rw [length_diagonals_layered,sides,length_product,length_range,length_range']
end
section
/-- The stretches of the layers that bring one content after the other to the first place, and back. -/
def triangle (reach : Nat) : List (Nat × Nat) :=
  ((range (2*reach)).map (· % 2)).zip ((range (reach+1)).drop 1 ++ (range (reach+1)).reverse)
lemma length_triangle (reach) : (triangle reach).length = 2*reach := by
  simp [triangle]
  omega
lemma triangle_getElem? {reach} (h : (triangle reach)[t]? = some e) :
    t < 2*reach ∧ e.1 = t % 2 ∧ (t < reach ∧ e.2 = t+1 ∨ reach ≤ t ∧ e.2+t = 2*reach) := by
  have ht : t < 2*reach := length_triangle reach ▸ (List.getElem?_eq_some_iff.mp h).1
  obtain ⟨ho,hr⟩ := getElem?_zip_eq_some.mp h
  refine ⟨ht,?_,?_⟩
  · rw [getElem?_map,getElem?_range ht] at ho
    exact (Option.some.inj ho).symm
  · rw [getElem?_append] at hr
    simp only [length_drop,length_range] at hr
    split at hr
    case isTrue hlt =>
      rw [getElem?_drop,getElem?_range (by omega)] at hr
      have := Option.some.inj hr
      omega
    case isFalse hle =>
      rw [getElem?_reverse (by simp; omega),length_range,getElem?_range (by omega)] at hr
      have := Option.some.inj hr
      omega

/-- The place of a content after some layers of the triangle: it waits until it is next, goes to the first place and from
there as far back as there is room. -/
def triangleAt (reach p t : Nat) : Nat :=
  if t < p then p else if t < 2*p then 2*p-1-t else min (t-2*p) (reach-p)
lemma triangleAt_step {reach} (hp : p ≤ reach) (h : (triangle reach)[t]? = some e) :
    across e.1 e.2 (triangleAt reach p t) = triangleAt reach p (t+1) := by
  obtain ⟨-,hi,hj⟩ := triangle_getElem? h
  rcases (by omega : t+1 < p ∨ p ≤ t+1 ∧ t+1 < 2*p ∨ t+1 = 2*p ∨ 2*p ≤ t ∧ t < reach+p ∨ reach+p ≤ t)
    with h | h | h | h | h
  · have hpl : triangleAt reach p t = p := if_pos (by omega)
    rw [hpl,across_stay (by omega),triangleAt,if_pos h]
  · have hpl : triangleAt reach p t = 2*p-2-t+1 := by unfold triangleAt; split_ifs <;> omega
    rw [hpl,across_down (by omega)]
    unfold triangleAt
    split_ifs <;> omega
  · have hpl : triangleAt reach p t = 0 := by unfold triangleAt; split_ifs <;> omega
    rw [across_stay (by omega)]
    unfold triangleAt
    split_ifs <;> omega
  · have hpl : triangleAt reach p t = t-2*p := by unfold triangleAt; split_ifs <;> omega
    rw [across_up (by omega)]
    unfold triangleAt
    split_ifs <;> omega
  · have hpl : triangleAt reach p t = reach-p := by unfold triangleAt; split_ifs <;> omega
    rw [across_stay (by omega)]
    unfold triangleAt
    split_ifs <;> omega
lemma destination_triangle (reach p) : destination (layered (triangle reach)) p = if p ≤ reach then reach-p else p := by
  have hlen := length_triangle reach
  by_cases hp : p ≤ reach
  · rw [destination_layered (triangleAt reach p) (by unfold triangleAt; split_ifs <;> omega) fun t e he => triangleAt_step hp he]
    unfold triangleAt
    split_ifs <;> omega
  · rw [destination_layered (fun _ => p) rfl,if_neg hp]
    intro t e he
    obtain ⟨-,-,hj⟩ := triangle_getElem? he
    exact across_stay (by omega)
end
section
def bricks (n t : Nat) : List Nat := layered ((range t).map fun t => (t % 2,n-1))
lemma bricks_succ (n t) : bricks n (t+1) = bricks n t ++ everySecond (t % 2) (n-1) := by
  simp [bricks,layered,range_succ]
lemma succ_lt_of_mem_bricks (hk : k ∈ bricks n t) : k+1 < n := by
  simp only [bricks,layered,mem_flatMap,mem_map] at hk
  obtain ⟨_,⟨t,-,rfl⟩,hk⟩ := hk
  have hlt := (mem_everySecond.mp hk).2.1
  omega
def ascents : Nat → List (Nat × Nat)
  | 0 => []
  | n+1 => ascents n ++ (range n).map (·,n)
lemma mem_ascents : e ∈ ascents n ↔ e.1 < e.2 ∧ e.2 < n := by
  induction n with
  | zero => simp [ascents]
  | succ n ih =>
    rw [ascents,mem_append,ih,mem_map]
    constructor
    · rintro (h | ⟨i,hi,rfl⟩)
      · omega
      · exact ⟨mem_range.mp hi,n.lt_succ_self⟩
    · intro h
      rcases lt_or_ge e.2 n with hlt | hge
      · exact .inl ⟨h.1,hlt⟩
      · have hl : e.2 = n := by omega
        exact .inr ⟨e.1,mem_range.mpr (hl ▸ h.1),Prod.ext rfl hl.symm⟩
lemma nodup_ascents (n) : (ascents n).Nodup := by
  induction n with
  | zero => exact nodup_nil
  | succ n ih =>
    refine nodup_append'.mpr ⟨ih,nodup_range.map fun i j h => congrArg Prod.fst h,fun e he he' => ?_⟩
    obtain ⟨i,-,rfl⟩ := mem_map.mp he'
    exact lt_irrefl n (mem_ascents.mp he).2
lemma two_mul_length_ascents (n) : 2*(ascents n).length = n*(n-1) := by
  induction n with
  | zero => rfl
  | succ n ih =>
    cases n with
    | zero => rfl
    | succ n =>
      rw [ascents,length_append,length_map,length_range,mul_add,ih]
      simp only [Nat.add_sub_cancel]
      ring
lemma two_mul_length_bricks (n t) (hn : 0 < n) : 2*(bricks n t).length = t*(n-1) + if t % 2 = 1 ∧ n % 2 = 0 then 1 else 0 := by
  induction t with
  | zero => simp [bricks,layered]
  | succ t ih =>
    rw [bricks_succ,length_append,length_everySecond,mul_add,ih,Nat.add_one_mul t]
    split_ifs <;> omega
lemma length_bricks (n) : (bricks n n).length = (ascents n).length := by
  rcases Nat.eq_zero_or_pos n with rfl | hn
  · rfl
  · have hb := two_mul_length_bricks n n hn
    rw [if_neg (by omega),← two_mul_length_ascents] at hb
    omega

/-- The place of a content after some layers: it moves towards an end of the row, waits there for one layer and comes back.
The row is one half of a circle of `2 * n` places, the way back being the other half. -/
def brickAt (n p t : Nat) : Nat :=
  let c := (if p % 2 = 0 then p else 2*n-1-p)+t
  if c < n then c else if c < 2*n then 2*n-1-c else c-2*n
lemma brickAt_step (hp : p < n) (ht : t < n) : across (t % 2) (n-1) (brickAt n p t) = brickAt n p (t+1) := by
  obtain ⟨c,hc,hpa,hlt⟩ : ∃ c, (if p % 2 = 0 then p else 2*n - 1 - p) = c ∧ c % 2 = 0 ∧ c < 2*n :=
    ⟨_,rfl,by split_ifs <;> omega,by split_ifs <;> omega⟩
  simp only [brickAt,hc]
  rcases (by omega : c+t+1 < n ∨ c+t+1 = n ∨ n ≤ c+t ∧ c+t+1 < 2*n ∨ c+t+1 = 2*n ∨ 2*n ≤ c+t)
    with h | h | h | h | h
  · rw [if_pos (by omega),if_pos (by omega),across_up (by omega)]
    omega
  · rw [if_pos (by omega),if_neg (by omega),if_pos (by omega),across_stay (by omega)]
    omega
  · rw [if_neg (by omega),if_pos (by omega),if_neg (by omega),if_pos (by omega),
      show 2*n-1-(c+t) = 2*n-2-(c+t)+1 by omega,across_down (by omega)]
    omega
  · rw [if_neg (by omega),if_pos (by omega),if_neg (by omega),if_neg (by omega),across_stay (by omega)]
    omega
  · rw [if_neg (by omega),if_neg (by omega),if_neg (by omega),if_neg (by omega),across_up (by omega)]
    omega
lemma destination_bricks_at (hp : p < n) (ht : t ≤ n) : destination (bricks n t) p = brickAt n p t := by
  induction t with
  | zero =>
    simp only [brickAt]
    change p = _
    split_ifs <;> omega
  | succ t ih => rw [bricks_succ,destination_append,ih (by omega),destination_everySecond,brickAt_step hp (by omega)]
lemma destination_bricks (hp : p < n) : destination (bricks n n) p = n-1-p := by
  rw [destination_bricks_at hp le_rfl]
  simp only [brickAt]
  split_ifs <;> omega
lemma origin_bricks (hp : p < n) : origin (bricks n n) p = n-1-p :=
  origin_eq ((destination_bricks (by omega)).trans (by omega))
lemma crossings_bricks (n) : (crossings (bricks n n)).Perm (ascents n) := by
  refine crossings_perm (nodup_ascents n) (fun e he => ?_) (length_bricks n)
  obtain ⟨hlt,hn⟩ := mem_ascents.mp he
  rw [destination_bricks hn,destination_bricks (by omega)]
  omega
end

/-! ## Odd-even sorting

Layers of comparisons of neighbours sort a row in as many layers as it has places. The height at a place counts the
entries from there on that reach a threshold. A comparison across a place raises the height there to what its
neighbours allow.
-/
section
def compareAt (m : List Nat) (i : Nat) : List Nat :=
  let a := m.getD i 0
  let b := m.getD (i+1) 0
  if b < a then (m.set i b).set (i+1) a else m
def height (θ : Nat) (m : List Nat) (x : Nat) : Nat := (m.drop x).countP (θ ≤ ·)
lemma compareAt_neighbours (us a b vs) :
    compareAt (us ++ a :: b :: vs) us.length = us ++ min a b :: max a b :: vs := by
  rw [compareAt]
  by_cases h : b < a
  · simp [h,min_eq_right (le_of_lt h),max_eq_left (le_of_lt h)]
  · simp [h,min_eq_left (not_lt.mp h),max_eq_right (not_lt.mp h)]
variable {m : List Nat}
lemma compareAt_perm (hk : k+1 < m.length) : (compareAt m k).Perm m := by
  obtain ⟨us,a,b,vs,rfl,rfl⟩ := exists_neighbours hk
  rw [compareAt_neighbours]
  refine Perm.append_left us ?_
  rcases le_total a b with h | h
  · rw [min_eq_left h,max_eq_right h]
  · rw [min_eq_right h,max_eq_left h]
    exact Perm.swap ..
lemma height_compareAt (hk : k+1 < m.length) (θ x) : height θ (compareAt m k) x =
      if x = k+1 then min (height θ m k) (height θ m (k+2) + 1) else height θ m x := by
  obtain ⟨us,a,b,vs,rfl,rfl⟩ := exists_neighbours hk
  rw [compareAt_neighbours]
  have ht : ∀ y zs, (us ++ zs).drop (us.length+y) = zs.drop y := by
    intro y zs
    rw [← drop_drop,drop_left]
  unfold height
  rcases lt_or_ge us.length x with hx | hx
  · obtain ⟨y,rfl⟩ : ∃ y, x = us.length+(y+1) := ⟨x-us.length-1,by omega⟩
    have hz := ht 0 (a :: b :: vs)
    rw [add_zero] at hz
    rw [ht,ht,hz]
    cases y with
    | zero =>
      simp only [drop_succ_cons,drop_zero,countP_cons,decide_eq_true_eq]
      split_ifs <;> omega
    | succ y => simp
  · have hp : (min a b :: max a b :: vs).countP (θ ≤ ·) = (a :: b :: vs).countP (θ ≤ ·) := by
      simp only [countP_cons,decide_eq_true_eq]
      split_ifs <;> omega
    rw [drop_append_of_le_length hx,drop_append_of_le_length hx,countP_append,countP_append,hp,if_neg (by omega)]
def compareLayer (m : List Nat) (i j : Nat) : List Nat := (everySecond i j).foldl compareAt m
lemma foldl_compareAt_perm {ks : List Nat} (hks : ∀ k ∈ ks, k+1 < m.length) : (ks.foldl compareAt m).Perm m := by
  refine foldlRecOn (motive := (Perm · m)) ks _ (.refl m) fun l hl k hk => ?_
  exact (compareAt_perm (hl.length_eq ▸ hks k hk)).trans hl
lemma height_compareLayer {m i j} (hj : j < m.length) (θ x) : height θ (compareLayer m i j) x =
      if i < x ∧ x ≤ j ∧ (x-i) % 2 = 1 then min (height θ m (x-1)) (height θ m (x+1) + 1) else height θ m x := by
  by_cases hij : i < j
  · have hs := height_compareAt (m := m) (k := i) (by omega) θ
    have hlen : (compareAt m i).length = m.length := (compareAt_perm (by omega)).length_eq
    have hr := height_compareLayer (m := compareAt m i) (i := i+2) (j := j) (hlen ▸ hj) θ x
    rw [compareLayer,everySecond_of_lt hij]
    refine hr.trans ?_
    rw [hs x,hs (x-1),hs (x+1)]
    by_cases hx : x = i+1
    · subst hx
      rw [if_neg (by omega),if_pos rfl,if_pos (by omega)]
      rfl
    · rw [if_neg hx]
      by_cases hin : i+2 < x ∧ x ≤ j ∧ (x-(i+2)) % 2 = 1
      · rw [if_pos hin,if_neg (by omega),if_neg (by omega),if_pos (by omega)]
      · rw [if_neg hin,if_neg (by omega)]
  · rw [compareLayer,everySecond_of_le (not_lt.mp hij),foldl_nil,if_neg (by omega)]
termination_by j - i
def compareLayers (m : List Nat) (t : Nat) : List Nat := (bricks m.length t).foldl compareAt m
lemma compareLayers_succ (m t) : compareLayers m (t+1) = compareLayer (compareLayers m t) (t % 2) (m.length-1) := by
  rw [compareLayers,bricks_succ,foldl_append]
  rfl
lemma compareLayers_perm (m t) : (compareLayers m t).Perm m := foldl_compareAt_perm fun _ => succ_lt_of_mem_bricks

/-- What the height at a place has reached after `t` layers, of `large` large entries among `n`: as many as fit from there
on, or as many as can have come so far. -/
def reached (large n t x : Nat) : Nat := min (min large (n-x)) ((2*((large+1)/2)+t-x)/2)
lemma le_reached {large x} : k ≤ reached large n t x ↔ k ≤ large ∧ k ≤ n-x ∧ k ≤ (2*((large+1)/2)+t-x)/2 := by
  rw [reached,Nat.le_min,Nat.le_min,and_assoc]
lemma reached_across {large x} (hx : 0 < x) :
    reached large n (t+1) x ≤ min (reached large n t (x-1)) (reached large n t (x+1) + 1) := by
  obtain ⟨hl,hr,hc⟩ := le_reached.mp (le_refl (reached large n (t+1) x))
  generalize reached large n (t+1) x = k at hl hr hc
  have hb : k ≤ reached large n t (x-1) := le_reached.mpr ⟨hl,by omega,by omega⟩
  have hn : k-1 ≤ reached large n t (x+1) := le_reached.mpr ⟨by omega,by omega,by omega⟩
  exact Nat.le_min.mpr ⟨hb,by omega⟩
lemma reached_wait {large x} (h : n ≤ x ∨ (x+t) % 2 = 0) : reached large n (t+1) x ≤ reached large n t x := by
  obtain ⟨hl,hr,hc⟩ := le_reached.mp (le_refl (reached large n (t+1) x))
  exact le_reached.mpr ⟨hl,hr,by omega⟩
lemma reached_end (large n x) : reached large n n x = min large (n-x) := by
  unfold reached
  omega
lemma reached_le_height (θ m t x) : reached (m.countP (θ ≤ ·)) m.length t x ≤ height θ (compareLayers m t) x := by
  induction t generalizing x with
  | zero =>
    have hs : m.countP (θ ≤ ·) = (m.take x).countP (θ ≤ ·) + (m.drop x).countP (θ ≤ ·) := by
      rw [← countP_append,take_append_drop]
    have ht : (m.take x).countP (θ ≤ ·) ≤ x := le_trans countP_le_length (length_take_le x m)
    change reached _ _ _ _ ≤ (m.drop x).countP (θ ≤ ·)
    unfold reached
    omega
  | succ t ih =>
    have hlen : (compareLayers m t).length = m.length := (compareLayers_perm m t).length_eq
    rcases Nat.eq_zero_or_pos m.length with hm | hm
    · simp [reached,hm]
    · rw [compareLayers_succ,height_compareLayer (by omega)]
      split
      case isTrue h =>
        have hl := ih (x-1)
        have hr := ih (x+1)
        have hx : 0 < x := by omega
        exact le_trans (reached_across hx) (by omega)
      case isFalse h =>
        rcases Nat.eq_zero_or_pos x with rfl | hx
        · have hall : height θ (compareLayers m t) 0 = m.countP (θ ≤ ·) := (compareLayers_perm m t).countP_eq _
          rw [reached]
          omega
        · have hw : m.length ≤ x ∨ (x+t) % 2 = 0 := by omega
          exact le_trans (reached_wait hw) (ih x)
lemma countP_range {θ} (h : θ ≤ n) : (range n).countP (θ ≤ ·) = n-θ := by
  obtain ⟨k,rfl⟩ := Nat.exists_eq_add_of_le h
  have hlow : (range θ).countP (θ ≤ ·) = 0 := countP_eq_zero.mpr fun i hi => by simpa using hi
  have hh : ((range k).map (θ + ·)).countP (θ ≤ ·) = k := by
    rw [countP_map,countP_eq_length.mpr fun i _ => by simp,length_range]
  rw [range_add,countP_append]
  omega

/-- As many layers as there are places sort every arrangement of the places. -/
lemma compareLayers_sorts (hm : m.Perm (range n)) : compareLayers m n = range n := by
  have hp := (compareLayers_perm m n).trans hm
  have hlen : m.length = n := by simpa using hm.length_eq
  have hlen' : (compareLayers m n).length = n := by simpa using hp.length_eq
  have hh : ∀ θ ≤ n, n-θ ≤ height θ (compareLayers m n) θ := by
    intro θ hθ
    have hr := reached_le_height θ m n θ
    rw [hm.countP_eq,countP_range hθ,hlen,reached_end] at hr
    omega
  have ha : ∀ θ ≤ n, ∀ v ∈ (compareLayers m n).drop θ, θ ≤ v := by
    intro θ hθ
    have hf : ((compareLayers m n).drop θ).countP (θ ≤ ·) = ((compareLayers m n).drop θ).length := by
      refine le_antisymm countP_le_length ?_
      rw [length_drop,hlen']
      exact hh θ hθ
    simpa using countP_eq_length.mp hf
  have hb : ∀ θ ≤ n, ∀ v ∈ (compareLayers m n).take θ, v < θ := by
    intro θ hθ
    have hs : (compareLayers m n).countP (θ ≤ ·) = n-θ := by rw [hp.countP_eq,countP_range hθ]
    rw [← take_append_drop θ (compareLayers m n),countP_append] at hs
    have hz : ((compareLayers m n).take θ).countP (θ ≤ ·) = 0 := by
      have := hh θ hθ
      unfold height at this
      omega
    simpa using countP_eq_zero.mp hz
  refine ext_getElem (by simpa using hlen') fun i hi hi' => ?_
  rw [getElem_range]
  have hge := ha i (by omega) _ (mem_drop_iff_getElem.mpr ⟨0,by omega,rfl⟩)
  have hlt := hb (i+1) (by omega) _ (mem_take_iff_getElem.mpr ⟨i,by omega,rfl⟩)
  simp only [add_zero] at hge
  omega
section
variable {α : Type} {qs : List α} {start : List Nat}
/-- The row has been sorted at the places given, by swaps that move each entry of the first row to where it is now. -/
def Follows (qs : List α) (start js : List Nat) (s : List Nat × Steps α) : Prop :=
  s.1 = js.foldl compareAt start ∧ ∃ ks, s.2 = ks.map (swapAt qs) ∧ ks.Sublist js ∧
    ∀ p < start.length, destination ks p < start.length ∧ s.1[destination ks p]? = start[p]?
lemma getElem?_swapPlace (hi : i+1 < m.length) : ((m.set i (m.getD (i+1) 0)).set (i+1) (m.getD i 0))[swapPlace i p]? = m[p]? := by
  have hf : m[i]? = some (m.getD i 0) := by simp [getElem?_eq_getElem (lt_of_succ_lt hi)]
  have hs : m[i+1]? = some (m.getD (i+1) 0) := by simp [getElem?_eq_getElem hi]
  unfold swapPlace
  split
  case isTrue h =>
    subst h
    rw [getElem?_set_self (by simpa using hi),hf]
  case isFalse h =>
    split
    case isTrue h' =>
      subst h'
      rw [getElem?_set_ne (by omega),getElem?_set_self (by omega),hs]
    case isFalse h' => rw [getElem?_set_ne (by omega),getElem?_set_ne (by omega)]
lemma Follows.step (h : Follows qs start js s) (hjs : ∀ k ∈ js, k+1 < start.length) (hi : i+1 < start.length) :
    Follows qs start (js ++ [i]) (sortLayer qs s i) := by
  obtain ⟨hrow,ks,hs,hsub,hd⟩ := h
  have hlen : s.1.length = start.length := hrow ▸ (foldl_compareAt_perm hjs).length_eq
  have hrow' : compareAt s.1 i = (js ++ [i]).foldl compareAt start := by
    rw [hrow,foldl_append]
    rfl
  simp only [compareAt] at hrow'
  simp only [sortLayer]
  split
  case isFalse h => exact ⟨by rw [← hrow',if_neg h],ks,hs,hsub.trans (sublist_append_left js [i]),hd⟩
  case isTrue h =>
    refine ⟨by rw [← hrow',if_pos h],ks ++ [i],by simp [hs],hsub.append_right [i],fun p hp => ?_⟩
    obtain ⟨hlt,hget⟩ := hd p hp
    rw [destination_append,destination,destination_nil,getElem?_swapPlace (by omega)]
    exact ⟨swapPlace_lt hi hlt,hget⟩
lemma follows_steps (qs : List α) (hjs : ∀ k ∈ js, k+1 < start.length) :
    Follows qs start js (js.foldl (sortLayer qs) (start,[])) := by
  induction js using reverseRecOn with
  | nil => exact ⟨rfl,[],rfl,.slnil,fun p hp => ⟨hp,rfl⟩⟩
  | append_singleton js i ih =>
    obtain ⟨hjs,hi⟩ := forall_mem_append.mp hjs
    rw [foldl_append]
    exact (ih hjs).step hjs (hi i (mem_singleton_self i))

/-- The swaps for a permutation carry the content of every place to its image. -/
lemma linearSteps_spec {images} (qs : List α)
    (h : ((range qs.length).map fun i => (images.lookup i).getD i).Perm (range qs.length)) :
    ∃ ks, linearSteps images qs = ks.map (swapAt qs) ∧ ks.Sublist (bricks qs.length qs.length) ∧
      ∀ p < qs.length, destination ks p = (images.lookup p).getD p := by
  generalize hs : (range qs.length).map (fun i => (images.lookup i).getD i) = start at h
  have hlen : start.length = qs.length := by simpa using h.length_eq
  have hf : linearSteps images qs = ((bricks qs.length qs.length).foldl (sortLayer qs) (start,[])).2 := by
    rw [linearSteps,hs,bricks,layered,foldl_flatMap,foldl_map]
  have hpl : ∀ k ∈ bricks qs.length qs.length, k+1 < start.length := fun k hk => hlen ▸ succ_lt_of_mem_bricks hk
  obtain ⟨hrow,ks,hst,hsub,hd⟩ := follows_steps qs hpl
  have hso : (bricks qs.length qs.length).foldl compareAt start = range qs.length := by
    rw [← compareLayers_sorts h,compareLayers,hlen]
  refine ⟨ks,hf.trans hst,hsub,fun p hp => ?_⟩
  obtain ⟨hlt,hget⟩ := hd p (by omega)
  rw [hrow,hso,getElem?_range (by omega),← hs,getElem?_map,getElem?_range hp] at hget
  exact Option.some.inj hget
end
end
end QuantumCircuits.Exchanges
