import Mathlib
import QuantumCircuits.Acquaintance.Permutation

/-! # Assignments to qubits

What a list of pairs assigns to each qubit, and what one or several new assignments change.
-/
namespace QuantumCircuits.Assignments
open List Carrying
variable [DecidableEq α] {m : Carrying α β}
lemma get?_put (m : Carrying α β) (q r v) : (m.put q v).get? r = if r = q then some v else m.get? r := by
  have hmap : ∀ m : Carrying α β, get? (m.map fun e => if e.1 = q then (e.1,v) else e) r =
      if r = q then (m.get? r).map fun _ => v else m.get? r := by
    intro m
    induction m with
    | nil => simp [get?]
    | cons e m ih =>
      simp only [get?] at ih ⊢
      by_cases he : e.1 = q <;> by_cases hr : r = q <;> grind
  unfold put
  split
  case isTrue h =>
    rw [hmap]
    split
    case isTrue hr =>
      subst hr
      obtain ⟨e,he⟩ := Option.isSome_iff_exists.mp (find?_isSome.mpr (any_eq_true.mp h))
      simp [get?,he]
    case isFalse => rfl
  case isFalse h =>
    by_cases hr : r = q
    · subst hr
      have hn : m.find? (fun e => e.1 = r) = none := by
        rw [find?_eq_none]
        exact fun e he hre => h (any_eq_true.mpr ⟨e,he,hre⟩)
      simp [get?,hn]
    · have hrq : q ≠ r := fun h => hr h.symm
      simp [get?,hr,hrq]
lemma isSome_get?_iff : (m.get? q).isSome ↔ q ∈ m.map Prod.fst := by simp [get?]
lemma keys_put (m : Carrying α β) (q v) :
    (m.put q v).map Prod.fst = if q ∈ m.map Prod.fst then m.map Prod.fst else m.map Prod.fst ++ [q] := by
  have hkeys : (m.map fun e => if e.1 = q then (e.1,v) else e).map Prod.fst = m.map Prod.fst := by
    rw [map_map]
    refine map_congr_left fun e _ => ?_
    simp only [Function.comp_apply]
    split <;> rfl
  rw [put,apply_ite (map Prod.fst),hkeys,map_append]
  exact if_congr (by simp) rfl rfl
lemma put_eq (m : Carrying α β) (q v) : m.put q v =
    if m.any fun e => e.1 = q then m.map fun e => if e.1 = q then (q,v) else e else m ++ [(q,v)] := by
  refine if_congr Iff.rfl (map_congr_left fun e _ => ?_) rfl
  split
  case isTrue he => rw [he]
  case isFalse => rfl
lemma eq_of_get? (hk : m.map Prod.fst = m'.map Prod.fst) (hn : (m.map Prod.fst).Nodup)
    (h : ∀ q, m.get? q = m'.get? q) : m = m' := by
  induction m generalizing m' with
  | nil => exact (map_eq_nil_iff.mp hk.symm).symm
  | cons e m ih =>
    cases m' with
    | nil => simp at hk
    | cons e' m' =>
      obtain ⟨hfst,hk⟩ := cons.inj hk
      obtain ⟨hnot,hn⟩ := nodup_cons.mp hn
      have hh := h e.1
      simp only [get?,find?_cons,← hfst] at hh
      have ht : m = m' := by
        refine ih hk hn fun q => ?_
        by_cases hq : q = e.1
        · have hno : ∀ l : Carrying α β, e.1 ∉ l.map Prod.fst → l.get? q = none := fun l hl => by
            rw [← Option.not_isSome_iff_eq_none,isSome_get?_iff,hq]
            exact hl
          rw [hno m hnot,hno m' (hk ▸ hnot)]
        · have hq' : ¬ e.1 = q := fun h => hq h.symm
          have hr := h q
          simpa [get?,← hfst,hq'] using hr
      rw [ht,Prod.ext hfst (Option.some.inj hh)]
variable {moves : List (α × β)}
lemma get?_puts (hn : (moves.map Prod.fst).Nodup) (m : Carrying α β) :
    (∀ e ∈ moves, (moves.foldl (fun m e => m.put e.1 e.2) m).get? e.1 = some e.2) ∧
      ∀ q, q ∉ moves.map Prod.fst → (moves.foldl (fun m e => m.put e.1 e.2) m).get? q = m.get? q := by
  induction moves generalizing m with
  | nil => simp
  | cons e moves ih =>
    obtain ⟨hnot,hn⟩ := nodup_cons.mp hn
    obtain ⟨hin,hout⟩ := ih hn (m.put e.1 e.2)
    refine ⟨fun e' he' => ?_,fun q hq => ?_⟩
    · rcases mem_cons.mp he' with rfl | he'
      · rw [foldl_cons,hout _ hnot,get?_put,if_pos rfl]
      · exact hin e' he'
    · rw [map_cons,mem_cons,not_or] at hq
      rw [foldl_cons,hout q hq.2,get?_put,if_neg hq.1]
lemma keys_puts (h : ∀ e ∈ moves, (m.get? e.1).isSome) :
    (moves.foldl (fun m e => m.put e.1 e.2) m).map Prod.fst = m.map Prod.fst := by
  refine foldlRecOn (motive := fun m' : Carrying α β => m'.map Prod.fst = m.map Prod.fst) moves _ rfl fun m' hm' e he => ?_
  rw [keys_put,hm',if_pos (isSome_get?_iff.mp (h e he))]
end QuantumCircuits.Assignments
