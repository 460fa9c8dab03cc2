import Mathlib
import QuantumCircuits.Operation.Placing

/-! # Searches for a moment

The moments that touch one of some qubits are searched from a place on, within a distance.
-/
namespace QuantumCircuits.MomentSearches
open List hiding getElem?_eq_some_iff
/-- A place with a property that comes before all others in an order, or no place if none has the property. -/
def Nearest (r : Int → Int → Prop) (P : Int → Prop) : Option Int → Prop
  | some i => P i ∧ ∀ j, P j → r i j
  | none => ∀ j, ¬P j
variable {r : Int → Int → Prop} {P Q : Int → Prop}
lemma Nearest.congr (h : Nearest r P a) (hpq : ∀ i, P i ↔ Q i) : Nearest r Q a := by
  rwa [← funext fun i => propext (hpq i)]
lemma nearest_find? {is : List Int} (hr : ∀ i, r i i) (his : is.Pairwise r) :
    Nearest r (fun i => i ∈ is ∧ p i) (is.find? p) := by
  induction is with
  | nil => simp [Nearest]
  | cons i is ih =>
    obtain ⟨hi,his⟩ := pairwise_cons.mp his
    by_cases h : p i
    · rw [find?_cons_of_pos h]
      exact ⟨⟨mem_cons_self,h⟩,fun j hj => (mem_cons.mp hj.1).elim (· ▸ hr i) (hi j)⟩
    · rw [find?_cons_of_neg h]
      refine (ih his).congr fun j => ⟨fun hj => ⟨mem_cons_of_mem i hj.1,hj.2⟩,fun hj => ⟨?_,hj.2⟩⟩
      exact (mem_cons.mp hj.1).resolve_left fun hji => h (hji ▸ hj.2)
variable [Located α] (c : Circuit α) (qs : Qubits) (s : Int) (limit : Option Int)
/-- There is a moment at a place, and it touches one of the qubits. -/
def Touched (i : Int) : Prop := ∃ m, c.momentAt? i = some m ∧ ∃ op ∈ m.ops, ∃ q ∈ qubits op, q ∈ qs

/-- The places from `s` on, within the distance, at which a qubit is touched. -/
def Ahead (i : Int) : Prop := Touched c qs i ∧ s ≤ i ∧ ∀ d ∈ limit, i < s+d
variable {c qs}
lemma actsAt_iff : c.actsAt qs i ↔ Touched c qs i := by
  unfold Circuit.actsAt Touched
  cases c.momentAt? i with
  | none => simp
  | some m =>
    simp only [Moment.actsOnAny,Moment.actsOn,Moment.qubits,Moment.allQubits,any_eq_true,contains_iff_mem,mem_flatMap,
      Option.some.injEq,exists_eq_left']
    exact ⟨fun ⟨q,hq,op,hop,hqo⟩ => ⟨op,hop,q,hqo,hq⟩,fun ⟨op,hop,q,hqo,hq⟩ => ⟨q,hq,op,hop,hqo⟩⟩
lemma Touched.bounds (h : Touched c qs i) : 0 ≤ i ∧ i < c.size := by
  obtain ⟨m,hm,-⟩ := h
  unfold Circuit.momentAt? at hm
  split at hm
  · simp at hm
  · have hlt := (getElem?_eq_some_iff.mp hm).1
    exact ⟨by omega,by unfold Circuit.size; omega⟩
lemma mem_places {s n i : Int} : i ∈ Circuit.places s n ↔ s ≤ i ∧ i < s+n := by
  simp only [Circuit.places,mem_map,mem_range]
  exact ⟨by rintro ⟨k,hk,rfl⟩; omega,fun h => ⟨(i-s).toNat,by omega,by omega⟩⟩
lemma next?_nearest : Nearest (· ≤ ·) (Ahead c qs s limit) (c.next? qs s limit) := by
  refine Nearest.congr (nearest_find? le_refl ?_) fun i => ?_
  · exact pairwise_map.mpr (pairwise_lt_range.imp fun h => by omega)
  · rw [mem_places,actsAt_iff,and_comm]
    refine and_congr_right fun h => ?_
    have hi := h.bounds
    cases limit <;> simp <;> omega
end QuantumCircuits.MomentSearches
