import QuantumCircuits.Proofs.SwapNetwork

/-! # Permutations by swaps of neighbours

A permutation of a row is carried out by a sorting network, and a circular shift by the exchange of its two ends. Both
consist of swaps of neighbours.
-/
namespace QuantumCircuits.NeighbourSwaps
open List hiding getElem?_eq_some_iff swapAt
open Network Exchanges NetworkMoves Courses SwapNetwork NetworkMeetings
variable [RealScalar R] (swap : Gate R) {n : Nat} {qs : Qubits} {m : Carrying Qubit Int} {p : Permuter} {f : Nat → Nat} {ks : List Nat}
def swapNext (qs : Qubits) (k : Nat) : Operation R := .gate (.permutation .swap swap) ((qs.drop k).take 2)
lemma decompose_swaps (hp : p ≠ .swap) (hs : p.steps qs = .ok (ks.map (swapAt qs))) :
    (Operation.gate (.permutation p swap) qs).decomposeOnce? = .ok (some (ks.map (swapNext swap qs))) := by
  have hd := decomposeOnce?_permute swap hp hs
  rwa [map_map] at hd
omit [RealScalar R] in
/-- Swaps of neighbours that move the places as a permutation declares do the same to what the qubits carry. -/
lemma swaps_update (hqs : qs.Nodup) (hks : ∀ k ∈ ks, k+1 < qs.length) (hd : ∀ i < qs.length, destination ks i = f i)
    (hp : Declares p qs.length f) (hm : (m.map Prod.fst).Nodup) (hl : Laden qs m) :
    ∃ m', Acquaintance.carriedAfter (ks.map (swapNext swap qs)) m = .ok m' ∧ p.update? qs m = some m' ∧
      ∀ i q q', qs[i]? = some q → qs[f i]? = some q' → m'.get? q' = m.get? q := by
  have ha := (swaps_act hqs hks).congr hd
  have hpr : ∀ st ∈ ks.map (swapAt qs), Proper qs none st :=
    forall_mem_map.mpr fun k hk => proper_swapAt hqs (Subset.refl qs) (hks k hk)
  obtain ⟨m',hrun,hc⟩ := carriedAfter_carries swap hpr hl
  obtain ⟨m'',hu,hc'⟩ := update?_carries ha hqs hl hp
  rw [course_swaps_moves] at hc
  obtain rfl := hc.unique hm hc'
  rw [map_map] at hrun
  refine ⟨m',hrun,hu,fun i q q' hq hq' => ?_⟩
  rw [← Option.some.inj ((ha.1 i q hq).symm.trans hq'),hc.2]
lemma shifted_turns (amount) {i} (hi : i < n) :
    shifted (turns amount n) (n - turns amount n) i = ((i-amount) % n).toNat := by
  have hlt := turns_lt amount (by omega : 0 < n)
  have ha : amount = turns amount n + n*(amount/n) := by
    have hr := Int.emod_nonneg amount (by omega : (n : Int) ≠ 0)
    have hs := Int.emod_add_mul_ediv amount n
    unfold turns
    omega
  have hp : i-amount = shifted (turns amount n) (n - turns amount n) i +
      n*((if i < turns amount n then -1 else 0)-amount/n) := by
    unfold shifted
    split_ifs
    · rw [mul_sub]
      omega
    · rw [mul_sub]
      omega
  rw [hp,Int.add_mul_emod_self_left,Int.emod_eq_of_lt (by omega) (by unfold shifted; split_ifs <;> omega),Int.toNat_natCast]
lemma pairwise_everySecond (i j) : (everySecond i j).Pairwise fun k k' => k+1 < k' := by
  refine pairwise_map.mpr (pairwise_lt_range.imp fun h => ?_)
  omega

/-- A circular shift is taken apart into layers of swaps of neighbours that do not overlap within a layer. With `s` the shift
modulo the length `n` they are `s (n - s)` swaps, and one after the other they change every mapping as the shift does: what
stands at place `i` comes to the place `i - amount` modulo `n`. -/
theorem shift_swaps_in_layers (hn : 1 ≤ n) (amount : Int) (hqs : qs.Nodup) (hlength : qs.length = n) :
    ∃ layers : List (List Nat), (Operation.gate (.permutation (.shift n amount) swap) qs).decomposeOnce? =
        .ok (some (layers.flatten.map (swapNext swap qs))) ∧
      layers = (diagonals (amount % (n : Int)).toNat (n - (amount % (n : Int)).toNat)).map (fun e => everySecond e.1 e.2) ∧
      (∀ layer ∈ layers, layer.Pairwise fun k k' => k + 1 < k') ∧ (∀ k ∈ layers.flatten, k + 1 < n) ∧
      layers.flatten.length = (amount % (n : Int)).toNat * (n - (amount % (n : Int)).toNat) ∧
      ∀ m : Carrying Qubit Int, (m.map Prod.fst).Nodup → Laden qs m →
        ∃ m', Acquaintance.carriedAfter (layers.flatten.map (swapNext swap qs)) m = .ok m' ∧
          (Permuter.shift n amount).update? qs m = some m' ∧
          ∀ (i : Nat) (q q' : Qubit), qs[i]? = some q → qs[(((i : Int) - amount) % (n : Int)).toNat]? = some q' → m'.get? q' = m.get? q := by
  subst hlength
  rw [show (amount % (qs.length : Int)).toNat = turns amount qs.length from rfl]
  have hlt := turns_lt amount hn
  have hflatten : ((diagonals (turns amount qs.length) (qs.length - turns amount qs.length)).map fun e =>
      everySecond e.1 e.2).flatten = layered (diagonals (turns amount qs.length) (qs.length - turns amount qs.length)) :=
    flatMap_def.symm
  have hsteps : shiftSteps amount qs = (layered (diagonals (turns amount qs.length) (qs.length - turns amount qs.length))).map
      (swapAt qs) := by
    rw [layered,map_flatMap]
    rfl
  have hks : ∀ k ∈ layered (diagonals (turns amount qs.length) (qs.length - turns amount qs.length)), k + 1 < qs.length := by
    intro k hk
    have hsucc := succ_lt_of_mem_diagonals hk
    omega
  refine ⟨_,?_,rfl,forall_mem_map.mpr fun e _ => pairwise_everySecond _ _,?_⟩
  · rw [hflatten]
    exact decompose_swaps swap (by simp) (congrArg Except.ok hsteps)
  rw [hflatten]
  refine ⟨hks,length_diagonals_layered _ _,fun m hm hladen => ?_⟩
  have hdestination : ∀ i < qs.length, destination (layered (diagonals (turns amount qs.length) (qs.length - turns amount qs.length))) i =
      shifted (turns amount qs.length) (qs.length - turns amount qs.length) i :=
    fun i hi => destination_diagonals (by omega)
  obtain ⟨m',hrun,hupdate,hcarries⟩ := swaps_update swap hqs hks hdestination (shift_declares amount hn) hm hladen
  refine ⟨m',hrun,hupdate,fun i q q' hq hq' => hcarries i q q' hq ?_⟩
  rw [shifted_turns amount (List.getElem?_eq_some_iff.mp hq).1]
  exact hq'
theorem backward_shift_in_layers :
    ((Acquaintance.inOrder sixInLine).map Prod.fst).Nodup ∧ Laden sixInLine (Acquaintance.inOrder sixInLine) ∧
      ∃ (layers : List (List Nat)) (m' : Carrying Qubit Int),
        (Operation.gate (.permutation (.shift 6 (-8)) (.power .swap (.num 1) 0 false)) sixInLine : Operation Number).decomposeOnce? =
          .ok (some (layers.flatten.map (swapNext (.power .swap (.num 1) 0 false) sixInLine))) ∧
        layers = [[3], [2, 4], [1, 3], [0, 2], [1]] ∧
        Acquaintance.carriedAfter (layers.flatten.map (swapNext (.power .swap (.num 1) 0 false : Gate Number) sixInLine))
          (Acquaintance.inOrder sixInLine) = .ok m' ∧
        (Permuter.shift 6 (-8)).update? sixInLine (Acquaintance.inOrder sixInLine) = some m' ∧ m'.get? (.line 1) = some 5 := by
  have hkeys : ((Acquaintance.inOrder sixInLine).map Prod.fst).Nodup := by decide
  have hqs : sixInLine.Nodup := by decide
  obtain ⟨layers, hops, hlayers, -, -, -, hfollow⟩ := shift_swaps_in_layers (.power .swap (.num 1) 0 false : Gate Number)
    (n := 6) (by decide) (-8) hqs rfl
  obtain ⟨m', hrun, hupdate, hplace⟩ := hfollow _ hkeys (laden_inOrder sixInLine)
  exact ⟨hkeys, laden_inOrder sixInLine, layers, m', hops, hlayers.trans (by decide), hrun, hupdate,
    hplace 5 (.line 5) (.line 1) (by decide) (by decide)⟩
end QuantumCircuits.NeighbourSwaps
