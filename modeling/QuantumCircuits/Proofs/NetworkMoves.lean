import QuantumCircuits.Proofs.Assignments
import QuantumCircuits.Proofs.Exchanges

/-! # What the steps of a network move

A list of steps stands for a permutation of the qubits. Swaps of neighbours move what the places of a row hold as
exchanges of the places do.
-/
namespace QuantumCircuits.NetworkMoves
open List hiding getElem?_eq_some_iff swapAt
open Network Exchanges Assignments Equiv
variable {qs : List α} {τ : Equiv.Perm α} {m : Carrying α β} {ks : List Nat} {steps : Steps α} {f : Nat → Nat}

/-- The permutation sends the qubit at each place of the list to the one at the place that the function gives, and leaves
all other qubits alone. -/
def Acts (τ : Equiv.Perm α) (qs : List α) (f : Nat → Nat) : Prop :=
  (∀ p x, qs[p]? = some x → qs[f p]? = some (τ x)) ∧ ∀ x, x ∉ qs → τ x = x
lemma Acts.one (qs : List α) : Acts 1 qs id := ⟨fun _ _ h => h,fun _ _ => rfl⟩
lemma Acts.mul {σ} (h : Acts σ qs f) (h' : Acts τ qs g) : Acts (τ*σ) qs (g ∘ f) := by
  refine ⟨fun p x hp => h'.1 _ _ (h.1 p x hp),fun x hx => ?_⟩
  rw [Perm.mul_apply,h.2 x hx,h'.2 x hx]
lemma Acts.congr (h : Acts τ qs f) (hfg : ∀ p < qs.length, f p = g p) : Acts τ qs g := by
  refine ⟨fun p x hp => ?_,h.2⟩
  rw [← hfg p (getElem?_eq_some_iff.mp hp).1]
  exact h.1 p x hp
lemma acts_unique {σ} (hσ : Acts σ qs f) (hτ : Acts τ qs f) : σ = τ := by
  ext x
  by_cases hx : x ∈ qs
  · obtain ⟨p,hp⟩ := mem_iff_getElem?.mp hx
    exact Option.some.inj ((hσ.1 p x hp).symm.trans (hτ.1 p x hp))
  · rw [hσ.2 x hx,hτ.2 x hx]
lemma acts_map (h : Acts τ qs f) (ρ : Perm α) : Acts (ρ*τ*ρ⁻¹) (qs.map ρ) f := by
  constructor
  · intro i x hx
    rw [getElem?_map,Option.map_eq_some_iff] at hx
    obtain ⟨y,hy,rfl⟩ := hx
    rw [getElem?_map,h.1 i y hy]
    simp
  · intro x hx
    have hnot : ρ⁻¹ x ∉ qs := fun hmem => hx (mem_map.mpr ⟨_,hmem,by simp⟩)
    rw [Perm.mul_apply,Perm.mul_apply,h.2 _ hnot]
    simp
variable [DecidableEq α]
def Carries (m m' : Carrying α β) (τ : Equiv.Perm α) : Prop :=
  m'.map Prod.fst = m.map Prod.fst ∧ ∀ q, m'.get? (τ q) = m.get? q
lemma Carries.refl (m : Carrying α β) : Carries m m 1 := ⟨rfl,fun _ => rfl⟩
lemma Carries.trans {m m' m'' : Carrying α β} {σ τ : Perm α} (h : Carries m m' σ) (h' : Carries m' m'' τ) :
    Carries m m'' (τ*σ) :=
  ⟨h'.1.trans h.1,fun q => (h'.2 (σ q)).trans (h.2 q)⟩
lemma Carries.unique {m' m''} (hm : (m.map Prod.fst).Nodup) (h : Carries m m' τ) (h' : Carries m m'' τ) : m' = m'' := by
  refine eq_of_get? (h.1.trans h'.1.symm) (h.1 ▸ hm) fun q => ?_
  obtain ⟨x,rfl⟩ := τ.surjective q
  rw [h.2,h'.2]
def Laden (qs : List α) (m : Carrying α β) : Prop := ∀ q ∈ qs, (m.get? q).isSome = true
lemma Carries.laden {m'} (h : Carries m m' τ) (hm : Laden qs m) : Laden qs m' := by
  intro q hq
  rw [isSome_get?_iff,h.1,← isSome_get?_iff]
  exact hm q hq
lemma exists_moves (hm : Laden qs m) {pairs : List (Nat × Nat)} (hp : ∀ e ∈ pairs, e.1 < qs.length ∧ e.2 < qs.length) :
    ∃ moves : List (α × β),
      (pairs.mapM fun (i,j) => do some ((← qs[j]?),(← m.get? (← qs[i]?)))) = some moves ∧
        (moves.map Prod.fst).map some = (pairs.map Prod.snd).map (fun j => qs[j]?) ∧
        ∀ i j x y, (i,j) ∈ pairs → qs[i]? = some x → qs[j]? = some y → ∃ v, m.get? x = some v ∧ (y,v) ∈ moves := by
  induction pairs with
  | nil => exact ⟨[],rfl,rfl,by simp⟩
  | cons e pairs ih =>
    obtain ⟨moves,hmo,hk,hall⟩ := ih (forall_mem_cons.mp hp).2
    obtain ⟨h1,h2⟩ := hp e mem_cons_self
    obtain ⟨v,hv⟩ := Option.isSome_iff_exists.mp (hm _ (getElem_mem h1))
    have hf := getElem?_eq_getElem h1
    have hto := getElem?_eq_getElem h2
    refine ⟨(qs[e.2],v) :: moves,?_,?_,?_⟩
    · rw [mapM_cons,hmo]
      simp [hf,hto,hv]
    · rw [map_cons,map_cons,hk,map_cons,map_cons,hto]
    · intro i j x y hij hx hy
      rcases mem_cons.mp hij with rfl | hij
      · obtain rfl : qs[i] = x := Option.some.inj (hf.symm.trans hx)
        obtain rfl : qs[j] = y := Option.some.inj (hto.symm.trans hy)
        exact ⟨v,hv,mem_cons_self⟩
      · obtain ⟨w,hw,hmem⟩ := hall i j x y hij hx hy
        exact ⟨w,hw,mem_cons_of_mem _ hmem⟩

/-- The permutation that is declared on the first places sends each of them as the function does; a place that it does not
mention stays. -/
structure Declares (p : Permuter) (n : Nat) (f : Nat → Nat) : Prop where
  sends : ∀ i < n, (i,f i) ∈ p.permutation ∨ f i = i ∧ i ∉ p.permutation.map Prod.snd
  bound : ∀ e ∈ p.permutation, e.1 < n ∧ e.2 < n
  targets : (p.permutation.map Prod.snd).Nodup
lemma declares_of_graph {n} (hp : p.permutation = (range n).map fun i => (i,f i))
    (hf : ((range n).map f).Perm (range n)) : Declares p n f := by
  refine ⟨fun i hi => .inl ?_,fun e he => ?_,?_⟩
  · rw [hp]
    exact mem_map.mpr ⟨i,mem_range.mpr hi,rfl⟩
  · rw [hp] at he
    obtain ⟨i,hi,rfl⟩ := mem_map.mp he
    exact ⟨mem_range.mp hi,mem_range.mp (hf.mem_iff.mp (mem_map_of_mem hi))⟩
  · rw [hp,map_map]
    exact hf.nodup_iff.mpr nodup_range
lemma update?_carries (hτ : Acts τ qs f) (hqs : qs.Nodup) (hm : Laden qs m) (hp : Declares p qs.length f) :
    ∃ m', p.update? qs m = some m' ∧ Carries m m' τ := by
  obtain ⟨moves,hmv,hk,hall⟩ := exists_moves hm hp.bound
  have ht : ∀ q ∈ moves.map Prod.fst, ∃ j ∈ p.permutation.map Prod.snd, qs[j]? = some q := by
    intro q hq
    have hq' : some q ∈ (moves.map Prod.fst).map some := mem_map_of_mem hq
    rw [hk] at hq'
    exact mem_map.mp hq'
  have hn : (moves.map Prod.fst).Nodup := by
    refine Nodup.of_map some ?_
    rw [hk]
    refine hp.targets.map_on fun i hi j _ hij => ?_
    obtain ⟨e,he,rfl⟩ := mem_map.mp hi
    exact (getElem?_inj (hp.bound e he).2 hqs).mp hij
  have hmem : ∀ q ∈ moves.map Prod.fst, q ∈ qs := fun q hq => by
    obtain ⟨j,-,hj⟩ := ht q hq
    exact mem_of_getElem? hj
  obtain ⟨hin,hout⟩ := get?_puts hn m
  refine ⟨moves.foldl (fun m e => m.put e.1 e.2) m,?_,keys_puts fun e he => hm _ (hmem _ (mem_map_of_mem he)),fun x => ?_⟩
  · rw [Permuter.update?,hmv]
    rfl
  by_cases hx : x ∈ qs
  · obtain ⟨i,hi,rfl⟩ := getElem_of_mem hx
    have hi' := getElem?_eq_getElem hi
    have him := hτ.1 i _ hi'
    rcases hp.sends i hi with hs | ⟨hst,hnot⟩
    · obtain ⟨v,hv,hmo⟩ := hall _ _ _ _ hs hi' him
      exact (hin _ hmo).trans hv.symm
    · rw [hst,hi'] at him
      rw [← Option.some.inj him]
      refine hout _ fun hmo => hnot ?_
      obtain ⟨j,hj,hpl⟩ := ht _ hmo
      rwa [(getElem?_inj hi hqs).mp (hi'.trans hpl.symm)]
  · rw [hτ.2 x hx]
    exact hout x fun hmo => hx (hmem x hmo)
def exchanged : NetworkStep α → Equiv.Perm α
  | .permute .swap [a,b] => Equiv.swap a b
  | _ => 1
def moved : Steps α → Equiv.Perm α
  | [] => 1
  | st :: steps => moved steps * exchanged st
lemma moved_append (xs ys : Steps α) : moved (xs ++ ys) = moved ys * moved xs := by
  induction xs with
  | nil => rw [nil_append,moved,mul_one]
  | cons st xs ih => rw [cons_append,moved,moved,ih,mul_assoc]
lemma swapAt_eq (hqs : qs.Nodup) {k} (hk : k+1 < qs.length) :
    ∃ a b, qs[k]? = some a ∧ qs[k+1]? = some b ∧ a ≠ b ∧ swapAt qs k = .permute .swap [a,b] := by
  have hk' : k < qs.length := by omega
  refine ⟨qs[k],qs[k+1],getElem?_eq_getElem hk',getElem?_eq_getElem hk,fun h => ?_,?_⟩
  · have hp := (hqs.getElem_inj_iff).mp h
    omega
  · rw [swapAt,drop_eq_getElem_cons hk',drop_eq_getElem_cons hk]
    rfl
lemma swapAt_acts (hqs : qs.Nodup) {k} (hk : k+1 < qs.length) : Acts (exchanged (swapAt qs k)) qs (swapPlace k) := by
  obtain ⟨a,b,ha,hb,-,hs⟩ := swapAt_eq hqs hk
  rw [hs,exchanged]
  have hinj : ∀ {p p' : Nat} {x y : α}, qs[p]? = some x → qs[p']? = some y → x = y → p = p' := by
    rintro p p' x _ hp hp' rfl
    exact (getElem?_inj (getElem?_eq_some_iff.mp hp).1 hqs).mp (hp.trans hp'.symm)
  refine ⟨fun p x hp => ?_,fun x hx => swap_apply_of_ne_of_ne (fun h => hx ?_) fun h => hx ?_⟩
  · unfold swapPlace
    split_ifs with h h'
    · obtain rfl : a = x := Option.some.inj (ha.symm.trans (h ▸ hp))
      rw [hb,swap_apply_left]
    · obtain rfl : b = x := Option.some.inj (hb.symm.trans (h' ▸ hp))
      rw [ha,swap_apply_right]
    · have hxa : x ≠ a := fun hxa => h (hinj hp ha hxa)
      have hxb : x ≠ b := fun hxb => h' (hinj hp hb hxb)
      rw [hp,swap_apply_of_ne_of_ne hxa hxb]
  · exact h ▸ mem_of_getElem? ha
  · exact h ▸ mem_of_getElem? hb
lemma swaps_act (hqs : qs.Nodup) (hks : ∀ k ∈ ks, k+1 < qs.length) : Acts (moved (ks.map (swapAt qs))) qs (destination ks) := by
  induction ks with
  | nil => exact Acts.one qs
  | cons k ks ih =>
    obtain ⟨hk,hks⟩ := forall_mem_cons.mp hks
    exact (swapAt_acts hqs hk).mul (ih hks)
def Realizes (qs : List α) (steps : Steps α) (f : Nat → Nat) : Prop :=
  ∃ ks, steps = ks.map (swapAt qs) ∧ (∀ k ∈ ks, k+1 < qs.length) ∧ ∀ p < qs.length, destination ks p = f p
lemma Realizes.acts (h : Realizes qs steps f) (hqs : qs.Nodup) : Acts (moved steps) qs f := by
  obtain ⟨ks,rfl,hks,hd⟩ := h
  exact (swaps_act hqs hks).congr hd
def swapsOf : NetworkStep α → Steps α
  | .permute (.linear _ images) qs => linearSteps images qs
  | .permute (.shift _ amount) qs => shiftSteps amount qs
  | st => [st]
def Opportunities (steps : Steps α) : Prop := ∀ st ∈ steps, ∃ as, st = .acquaint as
section
omit [DecidableEq α]
variable {n : Nat} (amount : Int)
def shifted (l r p : Nat) : Nat := if p < l then p+r else p-l
def turns (amount : Int) (n : Nat) : Nat := (amount % (n : Int)).toNat
lemma turns_lt (hn : 0 < n) : turns amount n < n := by
  have hlt := Int.emod_lt_of_pos amount (by omega : 0 < (n : Int))
  unfold turns
  omega
lemma shift_realizes (hqs : 0 < qs.length) (amount) :
    Realizes qs (shiftSteps amount qs) (shifted (turns amount qs.length) (qs.length - turns amount qs.length)) := by
  have hlt := turns_lt amount hqs
  refine ⟨layered (diagonals (turns amount qs.length) (qs.length - turns amount qs.length)),?_,fun k hk => ?_,fun p hp => ?_⟩
  · rw [layered,map_flatMap]
    rfl
  · have hs := succ_lt_of_mem_diagonals hk
    omega
  · exact destination_diagonals (by omega)
lemma shift_declares (hn : 0 < n) : Declares (.shift n amount) n (shifted (turns amount n) (n - turns amount n)) := by
  have hlt := turns_lt amount hn
  have hp : (Permuter.shift n amount).permutation = (range n).map fun i => ((i + turns amount n) % n,i) := rfl
  generalize turns amount n = s at hlt hp ⊢
  refine ⟨fun i hi => .inl ?_,fun e he => ?_,?_⟩
  · rw [hp,mem_map]
    unfold shifted
    refine ⟨_,?_,Prod.ext ?_ rfl⟩
    · rw [mem_range]
      split <;> omega
    · split
      · rw [show i+(n-s)+s = i+n by omega,Nat.add_mod_right,Nat.mod_eq_of_lt hi]
      · rw [Nat.sub_add_cancel (by omega),Nat.mod_eq_of_lt hi]
  · obtain ⟨i,hi,rfl⟩ := mem_map.mp he
    exact ⟨Nat.mod_lt _ hn,mem_range.mp hi⟩
  · rw [hp,map_map]
    exact map_id _ ▸ nodup_range
variable {left right : List α}
lemma turns_left (left) (hr : right ≠ []) : turns left.length (left ++ right).length = left.length := by
  have hpos := length_pos_iff.mpr hr
  rw [turns,length_append,Int.emod_eq_of_lt (by omega) (by omega)]
  exact Int.toNat_natCast _
lemma shifted_shifted {l r p} (hp : p < l+r) : shifted r l (shifted l r p) = p := by
  unfold shifted
  split_ifs <;> omega
lemma getElem?_shifted {p} (hp : p < left.length+right.length) :
    (right ++ left)[shifted left.length right.length p]? = (left ++ right)[p]? := by
  unfold shifted
  split_ifs with h
  · rw [getElem?_append_right (by omega),getElem?_append_left h,Nat.add_sub_cancel]
  · rw [getElem?_append_left (by omega),getElem?_append_right (by omega)]

/-- A permutation shifts two neighbouring rows when it maps the exchanged rows to the rows. -/
lemma acts_shifted : Acts τ (left ++ right) (shifted left.length right.length) ↔
    (right ++ left).map τ = left ++ right ∧ ∀ x, x ∉ left ++ right → τ x = x := by
  refine and_congr_left fun _ => ⟨fun h => ?_,fun h p x hx => ?_⟩
  · refine ext_getElem (by simp [Nat.add_comm]) fun k hk _ => ?_
    rw [length_map,length_append] at hk
    have hp := shifted_shifted hk
    have hx := (getElem?_shifted hk).trans (getElem?_eq_getElem (by rwa [length_append]))
    have him := h _ _ hx
    rw [hp] at him
    obtain ⟨_,him⟩ := getElem?_eq_some_iff.mp him
    rw [getElem_map,him]
  · have hp := (getElem?_eq_some_iff.mp hx).1
    rw [length_append] at hp
    rw [← h,getElem?_map,getElem?_shifted hp,hx]
    rfl
end
end QuantumCircuits.NetworkMoves
