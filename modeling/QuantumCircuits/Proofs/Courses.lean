import QuantumCircuits.Proofs.NetworkMoves
import QuantumCircuits.Proofs.WireOrder

/-! # Courses of strategies

The course of a list of steps tells which groups of qubits, named by where they stand at first, meet on the way and how
often, and where everything goes. Courses are composed one after the other, and those on different qubits commute.
-/
namespace QuantumCircuits.Courses
open List hiding product swapAt
open Network Exchanges NetworkMoves Equiv Perm
/-- The groups that meet, by the qubits they stand on at first, and where all of it goes. -/
@[ext] structure Course (α : Type) where
  meets : Multiset (Finset α)
  moves : Equiv.Perm α
variable {α : Type} [DecidableEq α] {β : Type}
lemma toFinset_map [DecidableEq β] (f : α → β) (l : List α) : (l.map f).toFinset = l.toFinset.image f := by
  ext x
  simp
namespace Course
instance : One (Course α) := ⟨⟨0,1⟩⟩
instance : Mul (Course α) := ⟨fun a b => ⟨a.meets + b.meets.map (Finset.image ⇑a.moves⁻¹),b.moves*a.moves⟩⟩
omit [DecidableEq α] in
@[simp] lemma one_moves : (1 : Course α).moves = 1 := rfl
omit [DecidableEq α] in
@[simp] lemma one_meets : (1 : Course α).meets = 0 := rfl
@[simp] lemma mul_moves (a b : Course α) : (a*b).moves = b.moves*a.moves := rfl
@[simp] lemma mul_meets (a b : Course α) : (a*b).meets = a.meets + b.meets.map (Finset.image ⇑a.moves⁻¹) := rfl
lemma image_mul (σ τ : Perm α) (S : Finset α) : S.image (τ*σ) = (S.image σ).image τ := by
  rw [Finset.image_image,coe_mul]
lemma image_image_inv (σ : Perm α) (S : Finset α) : (S.image ⇑σ⁻¹).image σ = S := by
  rw [← image_mul,mul_inv_cancel,coe_one,Finset.image_id]
lemma mem_mul {a b : Course α} {S : Finset α} : S ∈ (a*b).meets ↔ S ∈ a.meets ∨ S.image a.moves ∈ b.meets := by
  rw [mul_meets,Multiset.mem_add,Multiset.mem_map]
  refine or_congr .rfl ⟨?_,fun h => ⟨_,h,?_⟩⟩
  · rintro ⟨T,hT,rfl⟩
    rwa [image_image_inv]
  · rw [← image_mul,inv_mul_cancel,coe_one,Finset.image_id]
instance : Monoid (Course α) where
  one_mul a := by
    refine Course.ext ?_ (mul_one a.moves)
    simp
  mul_one a := by
    refine Course.ext ?_ (one_mul a.moves)
    simp
  mul_assoc a b c := by
    refine Course.ext ?_ (mul_assoc c.moves b.moves a.moves).symm
    simp [add_assoc,Function.comp_def,Finset.image_image]
structure Within (qs : List α) (c : Course α) : Prop where
  meets : ∀ S ∈ c.meets, ∀ x ∈ S, x ∈ qs
  fixes : ∀ x, x ∉ qs → c.moves x = x
namespace Within
variable {qs qs' : List α} {a b : Course α}
omit [DecidableEq α] in
lemma one (qs) : Within qs (1 : Course α) := ⟨by simp,fun _ _ => rfl⟩
omit [DecidableEq α] in
lemma mono (h : Within qs a) (hsub : qs ⊆ qs') : Within qs' a :=
  ⟨fun S hS x hx => hsub (h.meets S hS x hx),fun x hx => h.fixes x fun hmem => hx (hsub hmem)⟩
lemma mul (ha : Within qs a) (hb : Within qs b) : Within qs (a*b) := by
  constructor
  · intro S hS x hx
    rcases mem_mul.mp hS with hS | hS
    · exact ha.meets S hS x hx
    · have him := hb.meets _ hS _ (Finset.mem_image_of_mem a.moves hx)
      by_contra hnot
      exact hnot (ha.fixes x hnot ▸ him)
  · intro x hx
    rw [mul_moves,mul_apply,ha.fixes x hx,hb.fixes x hx]
variable (ha : Within qs a) (hb : Within qs' b) (hd : qs.Disjoint qs')
include ha hb hd
lemma map_meets : b.meets.map (Finset.image ⇑a.moves⁻¹) = b.meets := by
  refine (Multiset.map_congr rfl fun S hS => ?_).trans (Multiset.map_id _)
  refine (Finset.image_congr fun x hx => ?_).trans Finset.image_id
  exact inv_eq_iff_eq.mpr (ha.fixes x fun hmem => hd hmem (hb.meets S hS x hx)).symm
lemma commute : Commute a b := by
  refine Course.ext ?_ (Disjoint.commute fun x => ?_)
  · rw [mul_meets,mul_meets,ha.map_meets hb hd,hb.map_meets ha hd.symm,add_comm]
  · by_cases hx : x ∈ qs'
    · exact .inr (ha.fixes x fun hmem => hd hmem hx)
    · exact .inl (hb.fixes x hx)
end Within
def ofStep : NetworkStep α → Course α
  | .acquaint as => ⟨{as.toFinset},1⟩
  | st => ⟨0,moved (swapsOf st)⟩
lemma ofStep_moves (st : NetworkStep α) : (ofStep st).moves = moved (swapsOf st) := by
  cases st <;> rfl
end Course
open Course WireOrder
def course (steps : Steps α) : Course α := product ofStep steps
lemma course_cons (st) (steps : Steps α) : course (st :: steps) = ofStep st * course steps := prod_cons
lemma course_append (xs ys : Steps α) : course (xs ++ ys) = course xs * course ys := product_append xs ys
lemma course_moves (steps : Steps α) : (course steps).moves = moved (steps.flatMap swapsOf) := by
  induction steps with
  | nil => rfl
  | cons st steps ih =>
    rw [course_cons,mul_moves,ih,ofStep_moves,flatMap_cons,moved_append]
lemma course_singleton (st : NetworkStep α) : course [st] = ofStep st := mul_one _
variable {xs ys : Steps α} {S : Finset α}
lemma mem_course {as} (h : S.image (course xs).moves = as.toFinset) : S ∈ (course (xs ++ .acquaint as :: ys)).meets := by
  rw [course_append]
  exact mem_mul.mpr (.inr (mem_mul.mpr (.inl (Multiset.mem_singleton.mpr h))))
variable {steps : Steps α}
lemma exists_of_mem_course (h : S ∈ (course steps).meets) :
    ∃ xs as ys, steps = xs ++ .acquaint as :: ys ∧ S.image (course xs).moves = as.toFinset := by
  induction steps generalizing S with
  | nil => exact absurd h (Multiset.notMem_zero S)
  | cons st steps ih =>
    rcases mem_mul.mp h with h | h
    · cases st with
      | acquaint as => exact ⟨[],as,steps,rfl,Finset.image_id.trans (Multiset.mem_singleton.mp h)⟩
      | permute p qs => exact absurd h (Multiset.notMem_zero S)
    · obtain ⟨xs,as,ys,rfl,him⟩ := ih h
      refine ⟨st :: xs,as,ys,rfl,?_⟩
      rwa [course_cons,mul_moves,image_mul]
lemma course_moves_opportunities (h : Opportunities steps) : (course steps).moves = 1 := by
  refine prod_induction (fun c : Course α => c.moves = 1) (fun a b ha hb => ?_) rfl (forall_mem_map.mpr fun st hst => ?_)
  · rw [mul_moves,ha,hb,one_mul]
  · obtain ⟨as,rfl⟩ := h st hst
    rfl
lemma within_course {qs} (h : ∀ st ∈ steps, Within qs (ofStep st)) : Within qs (course steps) :=
  prod_induction _ (fun _ _ ha hb => ha.mul hb) (.one qs) (forall_mem_map.mpr h)
lemma course_perm (h : xs.Perm ys) (hxs : Opportunities xs) : course xs = course ys := by
  refine prod_eq' (h.map ofStep) (pairwise_map.mpr (pairwise_of_forall_mem_list ?_))
  intro a ha b hb
  obtain ⟨as,rfl⟩ := hxs a ha
  obtain ⟨bs,rfl⟩ := hxs b hb
  refine Course.ext ?_ rfl
  simp [ofStep,add_comm]
def renamed (ρ : α → α) : NetworkStep α → NetworkStep α
  | .acquaint as => .acquaint (as.map ρ)
  | .permute p qs => .permute p (qs.map ρ)
variable {p : Permuter} {qs : List α}
/-- A permutation without opportunities that moves its qubits, and as many others, as it declares. -/
structure Moves (p : Permuter) (qs : List α) : Prop where
  nonempty : qs ≠ []
  nodup : qs.Nodup
  size : p.numQubits = qs.length
  quiet : p.acquaintedSize = 0
  sends : ∃ f, Declares p qs.length f ∧ ∀ qs' : List α, qs'.length = qs.length → Realizes qs' (swapsOf (.permute p qs')) f
section
variable (h : Moves p qs)
include h
lemma Moves.acts : ∃ f, Declares p qs.length f ∧ Acts (ofStep (.permute p qs)).moves qs f := by
  obtain ⟨f,hf,hr⟩ := h.sends
  exact ⟨f,hf,(hr qs rfl).acts h.nodup⟩
lemma Moves.within : Within qs (ofStep (.permute p qs)) := by
  obtain ⟨f,-,ha⟩ := h.acts
  exact ⟨fun S hS => absurd hS (Multiset.notMem_zero S),ha.2⟩
lemma Moves.carries {m : Carrying α β} (hm : Laden qs m) :
    ∃ m', p.update? qs m = some m' ∧ Carries m m' (ofStep (.permute p qs)).moves := by
  obtain ⟨f,hf,ha⟩ := h.acts
  exact update?_carries ha h.nodup hm hf
lemma Moves.map (ρ : Perm α) : Moves p (qs.map ρ) := by
  refine ⟨by simpa using h.nonempty,h.nodup.map ρ.injective,by rw [h.size,length_map],h.quiet,?_⟩
  rw [length_map]
  exact h.sends

/-- Other qubits in place of those of a permutation are moved in the same way. -/
lemma Moves.renamed_moves (ρ : Perm α) : (ofStep (.permute p (qs.map ρ))).moves = ρ*(ofStep (.permute p qs)).moves*ρ⁻¹ := by
  obtain ⟨f,-,hr⟩ := h.sends
  exact acts_unique ((hr _ (length_map ρ)).acts (h.map ρ).nodup) (acts_map ((hr qs rfl).acts h.nodup) ρ)
end
lemma Moves.swap {a b : α} (hab : a ≠ b) : Moves .swap [a,b] := by
  refine ⟨by simp,by simpa using hab,rfl,rfl,swapPlace 0,⟨fun i hi => ?_,by simp [Permuter.permutation],by decide⟩,fun qs hqs => ?_⟩
  · obtain rfl | rfl : i = 0 ∨ i = 1 := by
      rw [length_cons,length_singleton] at hi
      omega
    · decide
    · decide
  · refine ⟨[0],?_,by simp [hqs],fun p _ => rfl⟩
    obtain ⟨x,y,rfl⟩ := length_eq_two.mp hqs
    rfl
lemma Moves.shift (hne : qs ≠ []) (hqs : qs.Nodup) (amount) : Moves (.shift qs.length amount) qs := by
  have hpos := length_pos_iff.mpr hne
  refine ⟨hne,hqs,rfl,rfl,_,shift_declares amount hpos,fun qs' hqs' => ?_⟩
  rw [← hqs'] at hpos ⊢
  exact shift_realizes hpos amount
structure Arrangement (n : Nat) (images : List (Nat × Nat)) : Prop where
  nodup : (images.map Prod.fst).Nodup
  same : (images.map Prod.snd).Perm (images.map Prod.fst)
  bound : ∀ i ∈ images.map Prod.fst, i < n
namespace Arrangement
variable (h : Arrangement n images)
include h
lemma lookup_cases (i) :
    (∃ j, images.lookup i = some j ∧ (i,j) ∈ images) ∨ images.lookup i = none ∧ i ∉ images.map Prod.snd := by
  cases hl : images.lookup i with
  | some j =>
    obtain ⟨us,vs,rfl,-⟩ := lookup_eq_some_iff.mp hl
    exact .inl ⟨j,rfl,by simp⟩
  | none =>
    refine .inr ⟨rfl,fun hmem => ?_⟩
    obtain ⟨e,he,rfl⟩ := mem_map.mp (h.same.mem_iff.mp hmem)
    simpa using lookup_eq_none_iff.mp hl e he
lemma perm_range : ((range n).map fun i => (images.lookup i).getD i).Perm (range n) := by
  have hno : ((range n).map fun i => (images.lookup i).getD i).Nodup := by
    refine nodup_range.map_on fun i _ i' _ hs => ?_
    rcases h.lookup_cases i with ⟨j,hj,hmem⟩ | ⟨hn,hout⟩ <;>
      rcases h.lookup_cases i' with ⟨j',hj',hmem'⟩ | ⟨hn',hout'⟩
    · rw [hj,hj'] at hs
      exact congrArg Prod.fst (inj_on_of_nodup_map (h.same.nodup_iff.mpr h.nodup) hmem hmem' hs)
    · rw [hj,hn'] at hs
      exact absurd (mem_map.mpr ⟨_,hmem,hs⟩) hout'
    · rw [hn,hj'] at hs
      exact absurd (mem_map.mpr ⟨_,hmem',hs.symm⟩) hout
    · rwa [hn,hn'] at hs
  refine (hno.subperm fun j hj => ?_).perm_of_length_le (by simp)
  obtain ⟨i,hi,rfl⟩ := mem_map.mp hj
  rcases h.lookup_cases i with ⟨j,hj,hmem⟩ | ⟨hn,-⟩
  · rw [hj]
    exact mem_range.mpr (h.bound j (h.same.mem_iff.mp (mem_map_of_mem hmem)))
  · rwa [hn]
lemma declares : Declares (.linear n images) n fun i => (images.lookup i).getD i := by
  refine ⟨fun i _ => ?_,fun e he => ⟨h.bound _ (mem_map_of_mem he),h.bound _ (h.same.mem_iff.mp (mem_map_of_mem he))⟩,
    h.same.nodup_iff.mpr h.nodup⟩
  rcases h.lookup_cases i with ⟨j,hj,hmem⟩ | ⟨hn,hout⟩
  · rw [hj]
    exact .inl hmem
  · rw [hn]
    exact .inr ⟨rfl,hout⟩
end Arrangement
lemma Moves.linear {images} (hne : qs ≠ []) (hqs : qs.Nodup) (h : Arrangement qs.length images) :
    Moves (.linear qs.length images) qs := by
  refine ⟨hne,hqs,rfl,rfl,_,h.declares,fun qs' hqs' => ?_⟩
  obtain ⟨ks,hs,hsub,hd⟩ := linearSteps_spec qs' (hqs' ▸ h.perm_range)
  exact ⟨ks,hs,fun k hk => succ_lt_of_mem_bricks (hsub.subset hk),hd⟩

/-- A step of a strategy: a group of the given size, if there is one, that stands together in the order of the qubits meets,
or qubits are moved. -/
inductive Proper (order : List α) (size : Option Nat) : NetworkStep α → Prop
  | meet {as : List α} (hsize : size.getD as.length = as.length) (hrow : as <:+: order) : Proper order size (.acquaint as)
  | move {p : Permuter} {qs : List α} (hp : Moves p qs) (hsub : qs ⊆ order) : Proper order size (.permute p qs)
variable {order : List α}
lemma Proper.mono {order'} (h : Proper order size st) (hord : order <:+: order') : Proper order' size st := by
  cases h with
  | meet hs hrow => exact .meet hs (hrow.trans hord)
  | move hp hsub => exact .move hp fun x hx => hord.subset (hsub hx)
lemma Proper.within (h : Proper order size st) : Within order (ofStep st) := by
  cases h with
  | @meet as hs hrow =>
    refine ⟨fun S hS x hx => hrow.subset ?_,fun _ _ => rfl⟩
    obtain rfl := Multiset.mem_singleton.mp hS
    exact mem_toFinset.mp hx
  | move hp hsub => exact hp.within.mono hsub
lemma proper_swapAt {w} (hw : w.Nodup) (hsub : w ⊆ order) {k} (hk : k+1 < w.length) : Proper order size (swapAt w k) := by
  obtain ⟨a,b,ha,hb,hab,hs⟩ := swapAt_eq hw hk
  rw [hs]
  refine .move (.swap hab) fun x hx => hsub ?_
  rcases mem_pair.mp hx with rfl | rfl
  · exact mem_of_getElem? ha
  · exact mem_of_getElem? hb
inductive Exchanging : NetworkStep α → Prop
  | acquaint (as : List α) : Exchanging (.acquaint as)
  | swap (as : List α) : Exchanging (.permute .swap as)

/-- The swaps by which steps are carried out are steps of the same kind. -/
lemma proper_swaps (h : ∀ st ∈ steps, Proper order size st) :
    ∀ st ∈ steps.flatMap swapsOf, Proper order size st ∧ Exchanging st := by
  intro st hst
  obtain ⟨st',hst',hst⟩ := mem_flatMap.mp hst
  cases h st' hst' with
  | meet hsi hrow =>
    obtain rfl := mem_singleton.mp hst
    exact ⟨.meet hsi hrow,.acquaint _⟩
  | @move p qs hp hsub =>
    obtain ⟨f,-,hr⟩ := hp.sends
    obtain ⟨ks,hs,hks,-⟩ := hr qs rfl
    rw [hs] at hst
    obtain ⟨k,hk,rfl⟩ := mem_map.mp hst
    exact ⟨proper_swapAt hp.nodup hsub (hks k hk),.swap _⟩
end QuantumCircuits.Courses
