import QuantumCircuits.Proofs.SwapNetwork

/-! # The groups that meet in networks of parts

What stands in two parts meets when they are exchanged, so the groups that meet in a network can be listed from the
pairs of parts.
-/
namespace QuantumCircuits.PartMeetings
open List hiding product swapAt
open Network Exchanges NetworkMoves Courses Course WireOrder NetworkMeetings SwapNetwork Permuter
variable [RealScalar R] (swap : Gate R) {qs : Qubits} {ks : List Nat}
section
variable {start : List (List α)}
lemma cut_map (f : α → β) (lens qs) : cut lens (qs.map f) = (cut lens qs).map (map f) := by
  induction lens generalizing qs with
  | nil => rfl
  | cons n lens ih => rw [cut,cut,← map_take,← map_drop,ih,map_cons]
lemma cut_append (lens lens') (qs : List α) : cut (lens ++ lens') qs = cut lens qs ++ cut lens' (qs.drop lens.sum) := by
  induction lens generalizing qs with
  | nil => simp [cut]
  | cons n lens ih => rw [cons_append,cut,cut,ih,drop_drop,cons_append,sum_cons]
variable [DecidableEq α] [DecidableEq β]
lemma meetings_image {f : α → β} (size pairs)
    (hf : ∀ x ∈ start.flatten, ∀ y ∈ start.flatten, f x = f y → x = y) :
    (meetings size start pairs).map (Finset.image f) = meetings size (start.map (map f)) pairs := by
  have hp : ∀ i, ∀ x ∈ start.getD i [], x ∈ start.flatten := by
    intro i x hx
    cases h : start[i]? with
    | none => simp [h] at hx
    | some part => exact mem_flatten.mpr ⟨part,mem_of_getElem? h,by simpa [h] using hx⟩
  have him : ∀ i, ((start.map (map f)).getD i []).toFinset = (start.getD i []).toFinset.image f := by
    intro i
    rw [← toFinset_map,getD_eq_getElem?_getD,getD_eq_getElem?_getD,getElem?_map]
    cases start[i]? <;> rfl
  rw [meetings,Multiset.map_bind]
  refine Multiset.bind_congr fun e _ => ?_
  have hmem : ∀ x ∈ (start.getD e.1 []).toFinset ∪ (start.getD e.2 []).toFinset, x ∈ start.flatten := fun x hx =>
    (Finset.mem_union.mp hx).elim (fun h => hp _ x (mem_toFinset.mp h)) fun h => hp _ x (mem_toFinset.mp h)
  rw [groups_image size fun x hx y hy h => hf x (hmem x hx) y (hmem y hy) h,him,him]
end
lemma index_inOrder (hqs : qs.Nodup) : qs.map (index (Acquaintance.inOrder qs)) = (range qs.length).map Nat.cast := by
  rw [← map_idxOf hqs,map_map]
  refine map_congr_left fun q hq => ?_
  rw [index,get?_inOrder hqs hq]
  rfl
lemma meetings_indices (size pairs) (hqs : qs.Nodup) (hl : qs.length = total lens) :
    (meetings size (cut lens qs) pairs).map (Finset.image (index (Acquaintance.inOrder qs))) =
      meetings size (cut lens ((range qs.length).map Nat.cast)) pairs := by
  have hf : (cut lens qs).flatten = qs := by rw [flatten_cut,← total_eq_sum,← hl,take_length]
  rw [← index_inOrder hqs,cut_map]
  refine meetings_image size pairs fun x hx y hy h => ?_
  rw [hf] at hx hy
  rw [index,index,get?_inOrder hqs hx,get?_inOrder hqs hy] at h
  exact (idxOf_inj hx).mp (Int.ofNat_inj.mp h)

/-- The groups that meet in a swap network, once for each two of its parts: both parts together or, for a given size, a part
that is one short of it with each qubit of another that is smaller than the size. -/
theorem swapNetwork_meets_exactly (size : Option Nat) (hpos : ∀ n ∈ lens, 1 ≤ n) (hqs : qs.Nodup)
    (hlength : qs.length = Permuter.total lens) :
    ∃ met, TakenApart swap (.swapNetwork lens size) qs met (fun i => qs.length - 1 - i) ∧
      (met : Multiset (Finset Int)) = meetings size (cut lens ((range qs.length).map Nat.cast)) (ascents lens.length) := by
  obtain ⟨steps, hsteps, hproper, hacts, hmeets⟩ := swapNetworkSteps_eq size hqs hlength hpos
  have hdeclares : Declares (.swapNetwork lens size) qs.length fun i => qs.length - 1 - i :=
    declares_of_graph (by rw [Permuter.permutation, hlength]) (reversed_perm _)
  obtain ⟨met, htaken, hmet⟩ := takenApart_of_steps swap (p := .swapNetwork lens size) (by simp) hqs hsteps hproper hacts hdeclares
  exact ⟨met, htaken, by rw [hmet, hmeets, meetings_indices size _ hqs hlength]⟩
theorem triples_met_on_six : (∀ n ∈ [1, 2, 3], 1 ≤ n) ∧ sixInLine.Nodup ∧ sixInLine.length = Permuter.total [1, 2, 3] ∧
    ∃ met, TakenApart (.power .swap (.num 1) 0 false : Gate Number) (.swapNetwork [1, 2, 3] (some 3)) sixInLine met
      (fun i => 5 - i) ∧ met.Perm [{0, 1, 2}] := by
  have hpos : ∀ n ∈ [1, 2, 3], 1 ≤ n := by decide
  have hqs : sixInLine.Nodup := by decide
  obtain ⟨met, htaken, hmet⟩ := swapNetwork_meets_exactly (.power .swap (.num 1) 0 false : Gate Number) (some 3) hpos hqs rfl
  exact ⟨hpos, hqs, rfl, met, htaken, Multiset.coe_eq_coe.mp (hmet.trans (by decide))⟩

/-! ## Shift networks -/
section
variable {α : Type} [DecidableEq α] {start : List (List α)} {a : List α}
def Shifting (start : List (List α)) (ks : List Nat) (s : List (List α) × Steps α) : Prop :=
  Acquainting Eq start none s.1 ks (course s.2) ∧ ∀ st ∈ s.2, Proper start.flatten none st
omit [DecidableEq α] in
lemma faithful_eq : Faithful (α := α) Eq := ⟨.of_eq,fun _ _ _ h => h ▸ rfl,Eq.trans⟩
lemma shift_proper (ha : a ≠ []) (hn : (a ++ b).Nodup) : ∀ st ∈ [.acquaint (a ++ b),shiftOf a b], Proper (a ++ b) none st :=
  forall_mem_cons.mpr ⟨.meet rfl (infix_refl _),forall_mem_singleton.mpr (.move (.shift (by simp [ha]) hn _) (Subset.refl _))⟩
lemma shift_exchanges (ha : a ≠ []) (hb : b ≠ []) (hn : (a ++ b).Nodup) :
    Exchanges Eq none a b (course [.acquaint (a ++ b),shiftOf a b]) := by
  obtain ⟨hl,hr⟩ := shift_course hb hn
  refine ⟨within_course fun st hst => (shift_proper ha hn st hst).within,hl,hr,?_⟩
  simp [course,product,ofStep,shiftOf,groups]
lemma Shifting.exchange {s} (h : Shifting start ks s) (hn : start.flatten.Nodup) {k} (hk : k+1 < start.length) :
    Shifting start (ks ++ [k]) (shiftExchange s k) := by
  obtain ⟨parts,steps⟩ := s
  obtain ⟨hm,hp⟩ := h
  have harr : Arranged Eq start parts ks _ := hm.arranged
  rw [← harr.length_eq] at hk
  obtain ⟨us,a,b,vs,rfl,rfl⟩ := exists_neighbours hk
  have hs : shiftExchange (us ++ a :: b :: vs,steps) us.length =
      (traded us vs a b,steps ++ [.acquaint (a ++ b),shiftOf a b]) := by
    simp [shiftExchange,shiftOf]
  have hrow : a ++ b <:+: start.flatten := ⟨us.flatten,vs.flatten,by rw [← harr.flatten_eq]; simp⟩
  have hsub : (a ++ b).Nodup := hrow.sublist.nodup hn
  have ha := harr.nonempty a (by simp)
  have hb := harr.nonempty b (by simp)
  rw [hs]
  refine ⟨?_,forall_mem_append.mpr ⟨hp,fun st hst => (shift_proper ha hsub st hst).mono hrow⟩⟩
  rw [course_append]
  exact hm.exchange faithful_eq hn (shift_exchanges ha hb hsub)
lemma shifting_run (hn : start.flatten.Nodup) (hne : ∀ part ∈ start, part ≠ []) (hks : ∀ k ∈ ks, k+1 < start.length) :
    Shifting start ks (ks.foldl shiftExchange (start,[])) := by
  induction ks using reverseRecOn with
  | nil => exact ⟨⟨⟨rfl,rfl,hne,fun k part hp => ⟨part,hp,map_id _⟩⟩,rfl⟩,by simp⟩
  | append_singleton ks k ih =>
    obtain ⟨hks,hk⟩ := forall_mem_append.mp hks
    rw [foldl_append]
    exact (ih hks).exchange hn (hk k (mem_singleton_self k))

/-- After the exchange of two sides the parts of the second stand before those of the first. -/
lemma Shifting.acts {s : List (List α) × Steps α}
    (h : Shifting (L ++ M) (layered (diagonals L.length M.length)) s) :
    Acts (course s.2).moves (L.flatten ++ M.flatten) (shifted L.flatten.length M.flatten.length) := by
  obtain ⟨hm,hp⟩ := h
  have harr : Arranged Eq (L ++ M) s.1 _ _ := hm.arranged
  have hf : (L ++ M).flatten = L.flatten ++ M.flatten := flatten_append
  have hpa : s.1 = (M ++ L).map (map (course s.2).moves) := by
    refine ext_getElem (by simp [harr.length_eq,Nat.add_comm]) fun k hk hk' => ?_
    obtain ⟨o,ho,hpr⟩ := harr.placed k _ (getElem?_eq_getElem hk)
    rw [length_map,length_append] at hk'
    have hlt : shifted M.length L.length k < L.length+M.length := by
      unfold shifted
      split_ifs <;> omega
    have hor := origin_eq ((destination_diagonals hlt).trans (shifted_shifted hk'))
    rw [hor,getElem?_shifted hk',getElem?_eq_getElem (by rwa [length_append])] at ho
    rw [getElem_map,← hpr,Option.some.inj ho]
  refine acts_shifted.mpr ⟨?_,fun x hx => (within_course fun st hst => (hp st hst).within).fixes x (hf ▸ hx)⟩
  rw [← hf,← harr.flatten_eq,hpa,← map_flatten,flatten_append]
end
lemma shifted_eq_mod {l r i} (hi : i < l+r) : shifted l r i = (i+r) % (l+r) := by
  unfold shifted
  split_ifs
  · rw [Nat.mod_eq_of_lt (by omega)]
  · rw [show i+r = i-l+(l+r) by omega,Nat.add_mod_right,Nat.mod_eq_of_lt (by omega)]
lemma shiftNetwork_declares (left right) : Declares (.shiftNetwork left right) (total left + total right)
    (shifted (total left) (total right)) := by
  refine declares_of_graph (map_congr_left fun i hi => ?_) (range_perm (g := shifted (total right) (total left))
    fun i hi => ⟨?_,shifted_shifted hi⟩)
  · rw [shifted_eq_mod (mem_range.mp hi)]
  · unfold shifted
    split_ifs <;> omega

/-- In a shift network every left part meets every right part once, and the two sides change places. -/
theorem shiftNetwork_meets_exactly (hpos : ∀ n ∈ left ++ right, 1 ≤ n) (hqs : qs.Nodup)
    (hlength : qs.length = Permuter.total left + Permuter.total right) :
    ∃ met, TakenApart swap (.shiftNetwork left right) qs met (shifted (Permuter.total left) (Permuter.total right)) ∧
      (met : Multiset (Finset Int)) =
        meetings none (cut (left ++ right) ((range qs.length).map Nat.cast)) (sides left.length right.length) := by
  have hsum : Permuter.total (left ++ right) = qs.length := by
    rw [total_eq_sum, sum_append, ← total_eq_sum, ← total_eq_sum, hlength]
  have hflat : (cut (left ++ right) qs).flatten = qs := by rw [flatten_cut, ← total_eq_sum, hsum, take_length]
  have hL : (cut left qs).flatten.length = Permuter.total left := by
    rw [flatten_cut, ← total_eq_sum, length_take, hlength]
    omega
  have hM : (cut right (qs.drop left.sum)).flatten.length = Permuter.total right := by
    rw [flatten_cut, ← total_eq_sum, ← total_eq_sum, length_take, length_drop, hlength]
    omega
  have hrun : Shifting (cut (left ++ right) qs) (layered (diagonals left.length right.length)) _ := shifting_run
    (hflat.symm ▸ hqs) (cut_nonempty (total_eq_sum _ ▸ hsum) hpos) fun k hk => by
      rw [length_cut, length_append]
      exact succ_lt_of_mem_diagonals hk
  have hsteps : (Permuter.shiftNetwork left right).steps qs =
      .ok ((layered (diagonals left.length right.length)).foldl shiftExchange (cut (left ++ right) qs, [])).2 := by
    rw [layered, foldl_flatMap]
    rfl
  generalize (layered (diagonals left.length right.length)).foldl shiftExchange (cut (left ++ right) qs, []) = s at hrun hsteps
  have hacts := Shifting.acts (L := cut left qs) (M := cut right (qs.drop left.sum))
    (by rwa [length_cut, length_cut, ← cut_append])
  rw [← flatten_append, ← cut_append, hflat, hL, hM] at hacts
  obtain ⟨met, htaken, hmet⟩ := takenApart_of_steps swap (by simp) hqs hsteps (hflat ▸ hrun.2) hacts
    (hlength ▸ shiftNetwork_declares left right)
  refine ⟨met, htaken, ?_⟩
  rw [hmet, hrun.1.met, meetings_perm (crossings_diagonals _ _), meetings_indices none _ hqs hsum.symm]
theorem sides_met_on_six : (∀ n ∈ [1, 2] ++ [3], 1 ≤ n) ∧ sixInLine.Nodup ∧
    sixInLine.length = Permuter.total [1, 2] + Permuter.total [3] ∧
    ∃ met, TakenApart (.power .swap (.num 1) 0 false : Gate Number) (.shiftNetwork [1, 2] [3]) sixInLine met (shifted 3 3) ∧
      met.Perm [{0, 3, 4, 5}, {1, 2, 3, 4, 5}] := by
  have hpos : ∀ n ∈ [1, 2] ++ [3], 1 ≤ n := by decide
  have hqs : sixInLine.Nodup := by decide
  obtain ⟨met, htaken, hmet⟩ := shiftNetwork_meets_exactly (.power .swap (.num 1) 0 false : Gate Number) hpos hqs rfl
  exact ⟨hpos, hqs, rfl, met, htaken, Multiset.coe_eq_coe.mp (hmet.trans (by decide))⟩
end QuantumCircuits.PartMeetings
