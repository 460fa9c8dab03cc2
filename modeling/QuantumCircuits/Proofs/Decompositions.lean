import QuantumCircuits.Proofs.WireOrder

/-! # Repeated decomposition, one step deep -/
namespace QuantumCircuits.Decompositions
open List
variable {d : Expander α} {a : α} {parts : List α}
lemma leaves_of_keep (h : d.keep a) (n) : d.leaves (n+1) a = .ok [a] := if_pos h
lemma expand_eq (h : ∀ a ∈ items, d.leaves nesting a = .ok (f a)) : d.expand items = .ok (items.flatMap f) := by
  have hl : items.mapM (d.leaves nesting) = .ok (items.map f) := WireOrder.mapM_eq_pure h
  rw [Expander.expand,hl,flatMap_def]
  rfl
lemma expand_kept (d : Expander α) (h : ∀ a ∈ items, d.keep a) : d.expand items = .ok items := by
  have he := expand_eq fun a ha => leaves_of_keep (h a ha) 99
  rwa [flatMap_singleton'] at he
variable (ha : d.keep a = false) (hs : d.step a = .ok (some parts)) (hp : ∀ b ∈ parts, d.keep b)
include ha hs hp
lemma leaves_of_parts (n) :
    d.leaves (n+2) a = .ok parts := by
  have hl : parts.mapM (d.leaves (n+1)) = .ok (parts.map fun b => [b]) :=
    WireOrder.mapM_eq_pure fun b hb => leaves_of_keep (hp b hb) n
  rw [Expander.leaves,ha,hs]
  change (parts.mapM (d.leaves (n+1)) >>= fun leaves => .ok leaves.flatten) = _
  rw [hl]
  exact congrArg Except.ok (flatMap_def.symm.trans (flatMap_singleton' parts))
lemma expand_once :
    d.expand [a] = .ok parts := by
  have he := expand_eq (f := fun _ => parts) (forall_mem_singleton.mpr (leaves_of_parts ha hs hp 98))
  rwa [flatMap_singleton] at he
end QuantumCircuits.Decompositions
