import QuantumCircuits.Proofs.Courses

/-! # Meetings in a swap network

A swap network keeps, beside the steps it gives out, a record of what its qubits carry, and every exchange of two parts
adds to the record what its steps do. The steps of a layer are gathered by phases, which makes no difference since its
exchanges are about different qubits.
-/
namespace QuantumCircuits.NetworkMeetings
open List hiding getElem?_eq_some_iff swapAt
open Network Exchanges Assignments NetworkMoves Courses Course WireOrder Equiv Nat
variable {α : Type} {x : α} {p : Nat} {τ : Equiv.Perm α}

/-! ## The steps of an exchange -/
section
variable {as w v qs left right : List α} {before : Bool} {reach size : Nat} {c d : Prop} {e : Nat × Nat}
/-- Layers of swaps that bring the qubits of a list to its first place in turn, with opportunities between them. -/
def turning (as w : List α) (before : Bool) (layers : List (Nat × Nat)) : Steps α :=
  layers.flatMap fun e => (if (e.1 == 1) == before then [.acquaint as] else []) ++ (everySecond e.1 e.2).map (swapAt w)
def isMeet : NetworkStep α → Bool
  | .acquaint _ => true
  | .permute .. => false
lemma countP_swaps (w : List α) (ks : List Nat) : (ks.map (swapAt w)).countP isMeet = 0 := by simp [swapAt,isMeet]
lemma countP_turning (as w : List α) (before reach) :
    (turning as w before (triangle reach)).countP isMeet = reach := by
  have hl : ∀ layers, (turning as w before layers).countP isMeet =
      (layers.map Prod.fst).countP fun i => (i == 1) == before := by
    intro layers
    induction layers with
    | nil => rfl
    | cons e layers ih =>
      rw [turning,flatMap_cons,countP_append,countP_append,countP_swaps,map_cons,countP_cons,← ih,add_comm]
      split <;> rfl
  have ho : (triangle reach).map Prod.fst = (range (2*reach)).map (· % 2) := map_fst_zip (by simp; omega)
  rw [hl,ho]
  clear hl ho
  induction reach with
  | zero => rfl
  | succ reach ih =>
    rw [show 2*(reach+1) = 2*reach+1+1 by omega,range_succ,range_succ,map_append,map_append,countP_append,
      countP_append,ih]
    cases before <;> simp
lemma triangle_snd_le (he : e ∈ triangle reach) : e.2 ≤ reach := by
  obtain ⟨t,ht,rfl⟩ := getElem_of_mem he
  have hb := triangle_getElem? (getElem?_eq_getElem ht)
  omega
lemma image_mem_of_fixes (h : ∀ x, x ∉ v → τ x = x) (hx : x ∈ v) : τ x ∈ v := by
  by_contra hnot
  have hf : τ x = x := τ.injective (h _ hnot)
  exact hnot (hf.symm ▸ hx)
lemma map_perm_of_fixes (h : ∀ x, x ∉ v → τ x = x) (hv : v.Nodup) : (v.map τ).Perm v := by
  refine ((hv.map τ.injective).subperm fun y hy => ?_).perm_of_length_le (by simp)
  obtain ⟨x,hx,rfl⟩ := mem_map.mp hy
  exact image_mem_of_fixes h hx
lemma acts_take {reach} (hr : reach < qs.length) (hτ : Acts τ qs fun p => if p ≤ reach then reach-p else p) :
    Acts τ (qs.take (reach+1)) fun p => (qs.take (reach+1)).length-1-p := by
  have hlen : (qs.take (reach+1)).length = reach+1 := length_take_of_le hr
  refine ⟨fun p x hx => ?_,fun x hx => ?_⟩
  · have hp := (getElem?_eq_some_iff.mp hx).1
    rw [hlen] at hp
    rw [getElem?_take_of_lt hp] at hx
    have him := hτ.1 p x hx
    simp only [if_pos (Nat.le_of_lt_succ hp)] at him
    simp only [hlen,Nat.add_sub_cancel]
    rw [getElem?_take_of_lt (by omega),him]
  · by_cases hmem : x ∈ qs
    · obtain ⟨p,hp,rfl⟩ := getElem_of_mem hmem
      have hl : ¬ p ≤ reach := fun h => hx (mem_take_iff_getElem.mpr ⟨p,by omega,rfl⟩)
      have him := hτ.1 p _ (getElem?_eq_getElem hp)
      simp only [if_neg hl,getElem?_eq_getElem hp] at him
      exact (Option.some.inj him).symm
    · exact hτ.2 x hmem
abbrev reachOf (part : List α) (before : Bool) : Nat := (maxReach part.length before).toNat
lemma reachOf_lt (hne : w ≠ []) (before) : reachOf w before < w.length := by
  have hpos := length_pos_iff.mpr hne
  unfold reachOf maxReach
  split <;> omega
lemma reaches_all {w' : List α} (hlen : w'.length = w.length) : w.length ≤ reachOf w true + reachOf w' false + 2 := by
  unfold reachOf maxReach
  simp
  omega
def turned (c : Prop) [Decidable c] (as w : List α) (before : Bool) : Steps α :=
  if c then turning as w before (triangle (reachOf w before)) else []
lemma turned_after [Decidable c] (hc : 1 < w.length → c) (as) (hne : w ≠ []) :
    turned c as w false = turning as w false (triangle (reachOf w false)) := by
  by_cases h : c
  · exact if_pos h
  · have hone : w.length = 1 := by
      have hle := not_lt.mp (mt hc h)
      have hpos := length_pos_iff.mpr hne
      omega
    rw [turned,if_neg h,reachOf,hone]
    rfl
def offered (c : Prop) [Decidable c] (as : List α) : Steps α := if c then [.acquaint as] else []
lemma mem_offered [Decidable c] (hc : c) : .acquaint as ∈ offered c as := by
  rw [offered,if_pos hc]
  exact mem_singleton_self _
lemma offered_opportunities (c) [Decidable c] (as : List α) : Opportunities (offered c as) := by
  unfold offered
  split <;> simp [Opportunities]
lemma offers_opportunities {c d} [Decidable c] [Decidable d] (as bs : List α) : Opportunities (offered c as ++ offered d bs) :=
  forall_mem_append.mpr ⟨offered_opportunities c as,offered_opportunities d bs⟩
lemma offered_proper {order as : List α} (c) [Decidable c] (hs : as.length = size) (hrow : as <:+: order) :
    ∀ st ∈ offered c as, Proper order size st := by
  intro st hst
  unfold offered at hst
  split at hst
  · obtain rfl := mem_singleton.mp hst
    exact .meet hs.symm hrow
  · simp at hst
def shiftOf (left right : List α) : NetworkStep α := .permute (.shift (left ++ right).length left.length) (left ++ right)

/-- The steps by which two neighbouring parts are exchanged while one of them, or both, meet each qubit of the other. -/
def acquainting (left right : List α) (size : Nat) : Layers α :=
  let qs := left ++ right
  let first := qs.take size
  let last := qs.drop (qs.length-size)
  { prior := offered (left.length+1 = size) first ++ offered (right.length+1 = size) last
    pre := turned (left.length+1 = size) first right true ++ turned (right.length+1 = size) last left.reverse true
    intra := [shiftOf left right]
    post := turned (left.length+1 = size ∧ 1 < right.length) last (qs.take right.length).reverse false ++
      turned (right.length+1 = size ∧ 1 < left.length) first (qs.drop right.length) false
    posterior := offered (left.length+1 = size ∧ 1 < right.length) last ++
      offered (right.length+1 = size ∧ 1 < left.length) first }
def block (left right : List α) : Option Nat → Layers α
  | none => { intra := [shiftOf left right], post := [.acquaint (left ++ right)] }
  | some size =>
    if max left.length right.length + 1 ≠ size then { intra := [shiftOf left right] }
    else if size = 2 then { prior := [.acquaint (left ++ right)], intra := [shiftOf left right] }
    else acquainting left right size
lemma block_eq (hmax : max left.length right.length + 1 = size) (htwo : size ≠ 2) :
    block left right (some size) = acquainting left right size := by
  rw [block,if_neg (not_not.mpr hmax),if_neg htwo]
lemma block_spec (left right : List α) (size) : (block left right size).intra = [shiftOf left right] ∧
    Opportunities (block left right size).prior ∧ Opportunities (block left right size).posterior := by
  cases size with
  | none => simp [block,Opportunities]
  | some size =>
    unfold block
    dsimp only
    split
    · simp [Opportunities]
    split
    · simp [Opportunities]
    · exact ⟨rfl,offers_opportunities _ _,offers_opportunities _ _⟩
def extended (layers more : Layers α) : Layers α :=
  ⟨layers.prior ++ more.prior,layers.pre ++ more.pre,layers.intra ++ more.intra,layers.post ++ more.post,
    layers.posterior ++ more.posterior⟩
def phases (layers : Layers α) : Steps α :=
  layers.prior ++ (layers.pre ++ (layers.intra ++ (layers.post ++ layers.posterior)))
lemma mem_phases_extended {st : NetworkStep α} :
    st ∈ phases (extended layers more) ↔ st ∈ phases layers ∨ st ∈ phases more := by
  simp only [phases,extended,mem_append]
  tauto
lemma sortSteps_perm (size place) (steps : Steps α) : (sortSteps size place steps).Perm steps := by
  cases size with
  | none => exact .refl steps
  | some n => exact mergeSort_perm ..
lemma parts_nonempty (hleft : left ≠ []) (hright : right ≠ []) :
    ((left ++ right).take right.length).reverse ≠ [] ∧ (left ++ right).drop right.length ≠ [] := by
  refine ⟨by simp [hright],?_⟩
  simp
  omega
end
section
variable {r : List α → List α → Prop} {start parts : List (List α)} {ks : List Nat}
/-- A comparison of lists of qubits, by their members at least, that permutations of the qubits respect. -/
structure Faithful (r : List α → List α → Prop) : Prop where
  perm : ∀ {a b}, r a b → a.Perm b
  map : ∀ (τ : Equiv.Perm α) {a b}, r a b → r (a.map τ) (b.map τ)
  trans : ∀ {a b c}, r a b → r b c → r a c

/-- The parts stand where the exchanges have brought them, each with the qubits that the permutation gives. -/
structure Arranged (r : List α → List α → Prop) (start parts : List (List α)) (ks : List Nat) (μ : Equiv.Perm α) : Prop where
  flatten_eq : parts.flatten = start.flatten
  length_eq : parts.length = start.length
  nonempty : ∀ part ∈ parts, part ≠ []
  placed : ∀ k part, parts[k]? = some part → ∃ o, start[origin ks k]? = some o ∧ r (o.map μ) part
abbrev traded (us vs : List (List α)) (left right : List α) : List (List α) :=
  us ++ (left ++ right).take right.length :: (left ++ right).drop right.length :: vs
lemma Arranged.exchange {start us vs : List (List α)} {left right : List α} {μ τ : Perm α} (hr : Faithful r)
    (h : Arranged r start (us ++ left :: right :: vs) ks μ) (hn : start.flatten.Nodup)
    (hfi : ∀ x, x ∉ left ++ right → τ x = x) (hleft : r (left.map τ) ((left ++ right).drop right.length))
    (hright : r (right.map τ) ((left ++ right).take right.length)) :
    Arranged r start (traded us vs left right) (ks ++ [us.length]) (τ*μ) := by
  have hpa : (left ++ right).take right.length ++ (left ++ right).drop right.length = left ++ right := take_append_drop ..
  have hf : (us ++ left :: right :: vs).flatten = us.flatten ++ ((left ++ right) ++ vs.flatten) := by simp
  have hne := h.nonempty
  refine ⟨?_,?_,fun part hp => ?_,fun k part hp => ?_⟩
  · rw [← h.flatten_eq,hf,flatten_append,flatten_cons,flatten_cons,← append_assoc _ _ vs.flatten,hpa]
  · simpa using h.length_eq
  · obtain ⟨ht,hd⟩ := parts_nonempty (hne left (by simp)) (hne right (by simp))
    simp only [mem_append,mem_cons] at hp
    rcases hp with hp | rfl | rfl | hp
    · exact hne part (by simp [hp])
    · simpa using ht
    · exact hd
    · exact hne part (by simp [hp])
  · have hm : ∀ {o part : List α}, r (o.map μ) part → r (o.map ⇑(τ*μ)) (part.map τ) := fun ho => by
      rw [Perm.coe_mul,← map_map]
      exact hr.map τ ho
    rw [origin_concat,swapPlace]
    split_ifs with hk hk'
    · subst hk
      obtain ⟨o,ho,hpl⟩ := h.placed (us.length+1) right (by simp)
      obtain rfl : (left ++ right).take right.length = part := by simpa using hp
      exact ⟨o,ho,hr.trans (hm hpl) hright⟩
    · subst hk'
      obtain ⟨o,ho,hpl⟩ := h.placed us.length left (by simp)
      obtain rfl : (left ++ right).drop right.length = part := by simpa using hp
      exact ⟨o,ho,hr.trans (hm hpl) hleft⟩
    · obtain ⟨hin,hst⟩ := getElem?_beside_neighbours left right hk hk' hp
      obtain ⟨o,ho,hpl⟩ := h.placed k part hst
      have hot : ∀ x ∈ part, x ∉ left ++ right := by
        rw [← h.flatten_eq,hf] at hn
        obtain ⟨-,hre,hus⟩ := nodup_append'.mp hn
        obtain ⟨-,-,hvs⟩ := nodup_append'.mp hre
        intro x hx hmem
        rcases mem_append.mp hin with hin | hin
        · exact hus (mem_flatten.mpr ⟨part,hin,hx⟩) (mem_append_left _ hmem)
        · exact hvs hmem (mem_flatten.mpr ⟨part,hin,hx⟩)
      have hs : part.map τ = part := by rw [map_congr_left fun x hx => hfi x (hot x hx),map_id']
      exact ⟨o,ho,hs ▸ hm hpl⟩
lemma nodup_parts (hn : start.flatten.Nodup) (hne : ∀ part ∈ start, part ≠ []) : start.Nodup := by
  refine nodup_iff_pairwise_ne.mpr ((nodup_flatten.mp hn).2.imp_of_mem fun {o o'} ho _ hd hs => ?_)
  obtain ⟨x,hx⟩ := exists_mem_of_ne_nil _ (hne o ho)
  exact hd hx (hs ▸ hx)
end
variable [DecidableEq α]

/-! ## What the steps of an exchange do -/
section
variable {as w : List α} {before : Bool} {layers : List (Nat × Nat)} {F : Finset α} {reach : Nat} {e : Nat × Nat}
lemma course_swaps_moves (w : List α) (ks : List Nat) : (course (ks.map (swapAt w))).moves = moved (ks.map (swapAt w)) := by
  rw [course_moves,flatMap_map]
  exact congrArg moved (flatMap_pure_eq_map (swapAt w) ks)
lemma turning_acts (as before) (hw : w.Nodup) (hl : ∀ e ∈ layers, e.2 < w.length) :
    Acts (course (turning as w before layers)).moves w (destination (layered layers)) := by
  induction layers with
  | nil => exact Acts.one w
  | cons e layers ih =>
    obtain ⟨he,hl⟩ := forall_mem_cons.mp hl
    have ho : Opportunities (if (e.1 == 1) == before then [.acquaint as] else []) := offered_opportunities _ as
    have hks : ∀ k ∈ everySecond e.1 e.2, k+1 < w.length := fun k hk => by
      have := (mem_everySecond.mp hk).2.1
      omega
    rw [turning,flatMap_cons,course_append,course_append,mul_moves,mul_moves,course_moves_opportunities ho,course_swaps_moves]
    refine ((swaps_act hw hks).mul (ih hl)).congr fun p _ => ?_
    have hs : layered (e :: layers) = everySecond e.1 e.2 ++ layered layers := flatMap_cons
    rw [hs,destination_append]
    rfl
lemma image_insert_of_acts {f} (h : Acts τ w f) (hF : ∀ x ∈ F, x ∉ w) {y} (hx : w[p]? = some x) (hy : w[f p]? = some y) :
    (insert x F).image τ = insert y F := by
  have him : τ x = y := Option.some.inj ((h.1 p x hx).symm.trans hy)
  have hfix : F.image τ = F.image id := Finset.image_congr fun z hz => h.2 z (hF z hz)
  rw [Finset.image_insert,him,hfix,Finset.image_id]

/-- A qubit that is at the first place at the time of an opportunity has met the group. -/
lemma turning_meets (hw : w.Nodup) (hr : reach < w.length) (hF : ∀ x ∈ F, x ∉ w) {w₀} (hw₀ : w[0]? = some w₀)
    (has : as.toFinset = insert w₀ F) (hp : p ≤ reach) (hx : w[p]? = some x) {t} (he : (triangle reach)[t]? = some e)
    (hbe : ((e.1 == 1) == before)) (hf : triangleAt reach p t = 0) :
    insert x F ∈ (course (turning as w before (triangle reach))).meets := by
  obtain ⟨ht,rfl⟩ := getElem?_eq_some_iff.mp he
  have hb : ∀ e ∈ triangle reach, e.2 < w.length := fun e he => lt_of_le_of_lt (triangle_snd_le he) hr
  have hs : turning as w before (triangle reach) = turning as w before ((triangle reach).take t) ++ .acquaint as ::
      ((everySecond (triangle reach)[t].1 (triangle reach)[t].2).map (swapAt w) ++
        turning as w before ((triangle reach).drop (t+1))) := by
    conv_lhs => rw [← take_append_drop t (triangle reach),drop_eq_getElem_cons ht]
    rw [turning,flatMap_append,flatMap_cons,if_pos hbe]
    simp [turning]
  have hpl : destination (layered ((triangle reach).take t)) p = 0 := by
    rw [destination_layered (triangleAt reach p) (by unfold triangleAt; split_ifs <;> omega),length_take_of_le (le_of_lt ht),hf]
    intro i e hi
    refine triangleAt_step hp ?_
    rw [getElem?_take] at hi
    split at hi
    · exact hi
    · simp at hi
  have hb' : ∀ e ∈ (triangle reach).take t, e.2 < w.length := fun e he => hb e (mem_of_mem_take he)
  have ha := turning_acts as before hw hb'
  rw [hs]
  refine mem_course ?_
  rw [image_insert_of_acts ha hF hx (hpl ▸ hw₀),has]
lemma card_course (steps : Steps α) : (course steps).meets.card = steps.countP isMeet := by
  induction steps with
  | nil => rfl
  | cons st steps ih =>
    rw [course_cons,mul_meets,Multiset.card_add,Multiset.card_map,ih,countP_cons,add_comm]
    cases st with
    | acquaint as => rfl
    | permute p qs => rfl
end
section
variable {w w' as as' : List α} {F F' : Finset α} {a b c : Course α} {reach : Nat}
lemma mem_mul_of_image {S S'} (hS : S.image a.moves = S') (h : S' ∈ b.meets) : S ∈ (a*b).meets :=
  mem_mul.mpr (.inr (hS ▸ h))
lemma mem_mul_left {S} (h : S ∈ a.meets) : S ∈ (a*b).meets := mem_mul.mpr (.inl h)
structure Spares (w : List α) (F : Finset α) (c : Course α) : Prop where
  fixes : ∀ x ∈ w, c.moves x = x
  keeps : F.image c.moves = F
lemma Spares.image_insert (h : Spares w F c) (hx : x ∈ w) : (insert x F).image c.moves = insert x F := by
  rw [Finset.image_insert,h.fixes x hx,h.keeps]
def Opens (as w : List α) (F : Finset α) : Prop := ∀ w₀, w[0]? = some w₀ → as.toFinset = insert w₀ F

/-- A group meets the qubits of a list up to a place, those from the second on before the list is turned round up to this
place, or those up to the last but one after that. -/
structure Meets (w : List α) (F : Finset α) (reach : Nat) (before : Bool) (c : Course α) : Prop where
  meets : ∀ p x, before.toNat ≤ p → p+(!before).toNat ≤ reach → w[p]? = some x → insert x F ∈ c.meets
  turns : ∀ p x y, w[p]? = some x → w[if p ≤ reach then reach-p else p]? = some y →
    (insert x F).image c.moves = insert y F
namespace Meets
variable {before : Bool}
lemma turning (hw : w.Nodup) (hr : reach < w.length) (hF : ∀ x ∈ F, x ∉ w) (has : Opens as w F) :
    Meets w F reach before (course (turning as w before (triangle reach))) := by
  have hw₀ := getElem?_eq_getElem (zero_lt_of_lt hr)
  refine ⟨fun p x hpos hp hx => ?_,fun p x y hx hy => ?_⟩
  · have ht : 2*p-before.toNat < (triangle reach).length := by
      rw [length_triangle]
      cases before <;> simp at hpos hp ⊢ <;> omega
    have he := getElem?_eq_getElem ht
    refine turning_meets hw hr hF hw₀ (has _ hw₀) (by omega) hx he ?_ ?_
    · rw [(triangle_getElem? he).2.1]
      cases before <;> simp at hpos ⊢ <;> omega
    · cases before <;> simp [triangleAt] at hpos ⊢ <;> omega
  · have ha := turning_acts as before hw fun e he => lt_of_le_of_lt (triangle_snd_le he) hr
    exact image_insert_of_acts ha hF hx (destination_triangle reach p ▸ hy)
lemma mul_left (h : Meets w F reach before b) (ha : Spares w F a) : Meets w F reach before (a*b) := by
  have hs : ∀ {p x}, w[p]? = some x → (insert x F).image a.moves = insert x F :=
    fun hx => ha.image_insert (mem_of_getElem? hx)
  refine ⟨fun p x hpos hp hx => mem_mul_of_image (hs hx) (h.meets p x hpos hp hx),fun p x y hx hy => ?_⟩
  rw [mul_moves,image_mul,hs hx,h.turns p x y hx hy]
lemma mul_right (h : Meets w F reach before a) (hb : Spares w F b) : Meets w F reach before (a*b) := by
  refine ⟨fun p x hpos hp hx => mem_mul_left (h.meets p x hpos hp hx),fun p x y hx hy => ?_⟩
  rw [mul_moves,image_mul,h.turns p x y hx hy,hb.image_insert (mem_of_getElem? hy)]
end Meets
/-- One part meets every qubit of the other, half of them before the two are exchanged and half of them after. -/
lemma halves_meet {P A I O T : Course α} {n m : Nat} (hlen : w'.length = w.length) (hh : w.length ≤ n+m+2)
    (has : Opens as w F) (has' : Opens as' w' F')
    (hP : as.toFinset ∈ P.meets) (hPmoves : P.moves = 1) (hA : Meets w F n true A) (hF : F.image I.moves = F')
    (hI : ∀ p x, w[p]? = some x → w'[w.length-1-p]? = some (I.moves x)) (hO : Meets w' F' m false O)
    (hT : 1 < w.length → as'.toFinset ∈ T.meets) (hx : x ∈ w) : insert x F ∈ (P*(A*(I*(O*T)))).meets := by
  obtain ⟨p,hp,rfl⟩ := getElem_of_mem hx
  have hget := getElem?_eq_getElem hp
  rcases Nat.eq_zero_or_pos p with rfl | hpos
  · refine mem_mul_left ?_
    rw [← has _ hget]
    exact hP
  have hs : (insert w[p] F).image P.moves = insert w[p] F := by rw [hPmoves,Perm.coe_one,Finset.image_id]
  refine mem_mul_of_image hs ?_
  rcases Nat.lt_or_ge n p with hnp | hpn
  · refine mem_mul_of_image (hA.turns p _ _ hget (by rwa [if_neg (by omega)])) ?_
    have ho : (insert w[p] F).image I.moves = insert (I.moves w[p]) F' := by rw [Finset.image_insert,hF]
    refine mem_mul_of_image ho ?_
    have hget' := hI p _ hget
    rcases Nat.lt_or_ge (w.length - 1 - p) m with hlt | hge
    · exact mem_mul_left (hO.meets _ _ (Nat.zero_le _) hlt hget')
    · rw [show w.length-1-p = m by omega] at hget'
      have hw₀' := getElem?_eq_getElem (show 0 < w'.length by omega)
      refine mem_mul_of_image (hO.turns _ _ _ hget' (by rwa [if_pos le_rfl,Nat.sub_self])) ?_
      rw [← has' _ hw₀']
      exact hT (by omega)
  · exact mem_mul_left (hA.meets p _ hpos hpn hget)
variable {v : List α}
lemma Spares.of_fixes {w} (hc : ∀ x, x ∉ v → c.moves x = x) (hv : v.Nodup) (hF : v.toFinset = F) (hd : ∀ x ∈ w, x ∉ v) :
    Spares w F c := by
  refine ⟨fun x hx => hc x (hd x hx),?_⟩
  rw [← hF,← toFinset_map,toFinset_eq_of_perm _ _ (map_perm_of_fixes hc hv)]
end
section
variable {left right w qs : List α} {size k : Nat} {before : Bool} {c d : Prop} {m : Carrying α Nat} {s : Layers α × Carrying α Nat}
lemma course_phases (layers : Layers α) : course (phases layers) = course layers.prior * (course layers.pre * (course layers.intra *
      (course layers.post * course layers.posterior))) := by
  simp only [phases,course_append]
lemma insides_phases (c) [Decidable c] (as w : List α) (before s) :
    (if c then acquaintInsides (.acquaint as) w before s else s).1 = extended s.1
      (if before then { prior := offered c as, pre := turned c as w true }
      else { post := turned c as w false, posterior := offered c as }) := by
  split
  case isTrue h => cases before <;> simp [acquaintInsides,extended,turned,offered,turning,triangle,h]
  case isFalse h => cases before <;> simp [extended,turned,offered,h]

/-- The steps of an exchange do not depend on the record nor on the steps before it. -/
lemma acquaintAndShift_phases (left right size) (s : Layers α × Carrying α Nat) :
    (acquaintAndShift left right size s).1 = extended s.1 (block left right size) := by
  cases size with
  | none => simp [acquaintAndShift,block,extended,shiftOf]
  | some size =>
    unfold acquaintAndShift block
    dsimp only
    split
    · simp [extended,shiftOf]
    split
    · simp [extended,shiftOf]
    rw [insides_phases,insides_phases,insides_phases,insides_phases]
    simp [extended,acquainting,shiftOf]
lemma turned_proper {order as w : List α} (c) [Decidable c] (before) (hs : as.length = size) (hrow : as <:+: order)
    (hw : w.Nodup) (hne : w ≠ []) (hsub : w ⊆ order) : ∀ st ∈ turned c as w before, Proper order size st := by
  intro st hst
  unfold turned at hst
  split at hst
  · obtain ⟨e,he,hst⟩ := mem_flatMap.mp hst
    rcases mem_append.mp hst with hst | hst
    · exact offered_proper _ hs hrow st hst
    · obtain ⟨k,hk,rfl⟩ := mem_map.mp hst
      have hlt := (mem_everySecond.mp hk).2.1
      have hle := triangle_snd_le he
      have hr := reachOf_lt hne before
      exact proper_swapAt hw hsub (by omega)
  · simp at hst
lemma block_moves (left right : List α) (size) : (course (phases (block left right size))).moves =
    (course (block left right size).post).moves*(ofStep (shiftOf left right)).moves *
      (course (block left right size).pre).moves := by
  obtain ⟨hi,hpr,hp⟩ := block_spec left right size
  rw [course_phases,hi,course_singleton]
  simp [course_moves_opportunities hpr,course_moves_opportunities hp]
lemma turned_fixes (c) [Decidable c] (as before) (hw : w.Nodup) (hne : w ≠ []) (x) :
    x ∉ w → (course (turned c as w before)).moves x = x := by
  intro hx
  unfold turned
  split
  case isTrue =>
    refine (turning_acts as before hw fun e he => ?_).2 x hx
    exact lt_of_le_of_lt (triangle_snd_le he) (reachOf_lt hne before)
  case isFalse => rfl
lemma turned_keeps {v as bs} [Decidable c] [Decidable d] (hn : (w ++ v).Nodup) (hw : w ≠ []) (hv : v ≠ []) :
    (w.map (course (turned c as w before ++ turned d bs v before)).moves).Perm w ∧
      (v.map (course (turned c as w before ++ turned d bs v before)).moves).Perm v := by
  obtain ⟨hwn,hvn,hd⟩ := nodup_append'.mp hn
  have hwf := turned_fixes c as before hwn hw
  have hvf := turned_fixes d bs before hvn hv
  rw [course_append,mul_moves,Perm.coe_mul,← map_map,← map_map]
  constructor
  · have ho := map_congr_left fun x hx => hvf x (hd hx)
    exact ((map_perm_of_fixes hwf hwn).map _).trans (.of_eq (ho.trans (map_id' w)))
  · rw [map_congr_left fun x hx => hwf x fun hx' => hd hx' hx,map_id']
    exact map_perm_of_fixes hvf hvn

/-- Turning around what the qubits carry follows the permutation that turns the qubits around. -/
lemma reverseCarried_carries (hqs : qs.Nodup) (hm : Laden qs m) (hτ : Acts τ qs fun p => qs.length-1-p) :
    Carries m (reverseCarried qs m) τ := by
  have hk : (qs.zip (qs.map fun q => (m.get? q).getD 0).reverse).map Prod.fst = qs := map_fst_zip (by simp)
  obtain ⟨hin,hout⟩ := get?_puts (hk.symm ▸ hqs) m
  refine ⟨keys_puts fun e he => hm _ (of_mem_zip he).1,fun x => ?_⟩
  by_cases hx : x ∈ qs
  · obtain ⟨p,hp,rfl⟩ := getElem_of_mem hx
    have him := hτ.1 p _ (getElem?_eq_getElem hp)
    obtain ⟨v,hv⟩ := Option.isSome_iff_exists.mp (hm _ hx)
    have hmo : (τ qs[p],v) ∈ qs.zip (qs.map fun q => (m.get? q).getD 0).reverse := by
      refine mem_of_getElem? (getElem?_zip_eq_some.mpr ⟨him,?_⟩)
      rw [getElem?_reverse (by simp; omega),getElem?_map,length_map,
        show qs.length-1-(qs.length-1-p) = p by omega,getElem?_eq_getElem hp,Option.map_some,hv]
      rfl
    exact (hin _ hmo).trans hv.symm
  · rw [hτ.2 x hx]
    exact hout x (hk.symm ▸ hx)
lemma insides_carries (c) [Decidable c] (as before) (hw : w.Nodup) (hne : w ≠ []) (hm : Laden w m)
    (h : Carries m s.2 τ) :
    Carries m (if c then acquaintInsides (.acquaint as) w before s else s).2
      ((course (turned c as w before)).moves*τ) := by
  refine h.trans ?_
  unfold turned
  split
  · have hr := reachOf_lt hne before
    have ha := turning_acts as before hw fun e he => lt_of_le_of_lt (triangle_snd_le he) hr
    exact reverseCarried_carries (hw.sublist (take_sublist _ w)) (fun q hq => h.laden hm q (mem_of_mem_take hq))
      (acts_take hr (ha.congr fun p _ => destination_triangle _ p))
  · exact .refl _
lemma mem_course_opportunities {xs : Steps α} (hxs : Opportunities xs) (has : .acquaint as ∈ xs) :
    as.toFinset ∈ (course xs).meets := by
  obtain ⟨us,vs,rfl⟩ := append_of_mem has
  refine mem_course ?_
  rw [course_moves_opportunities fun st hst => hxs st (mem_append_left _ hst),Perm.coe_one,Finset.image_id]
lemma take_succ_toFinset (hx : (qs.drop k)[0]? = some x) : (qs.take (k+1)).toFinset = insert x (qs.take k).toFinset := by
  rw [getElem?_drop,add_zero] at hx
  rw [take_add_one,hx,toFinset_append,Finset.union_comm]
  rfl
lemma drop_pred_toFinset (hk : k ≤ qs.length) (hx : (qs.take k).reverse[0]? = some x) :
    (qs.drop (k-1)).toFinset = insert x (qs.drop k).toFinset := by
  have hpos : 0 < k := by
    have hlt := (getElem?_eq_some_iff.mp hx).1
    simp at hlt
    omega
  have hlen : (qs.take k).length = k := length_take_of_le hk
  rw [getElem?_reverse (by omega),hlen,getElem?_take_of_lt (by omega),Nat.sub_zero] at hx
  obtain ⟨hlt,rfl⟩ := getElem?_eq_some_iff.mp hx
  rw [drop_eq_getElem_cons hlt,toFinset_cons,Nat.sub_add_cancel hpos]
section
variable {v as : List α} (hn : (w ++ v).Nodup) (hw : w ≠ []) (hv : v ≠ []) (has : Opens as w v.toFinset)
include hn hw hv has
lemma meets_beside {bs} [Decidable c] [Decidable d] {a}
    (ht : turned c as w before = turning as w before (triangle (reachOf w before)))
    (ha : a = course (turned c as w before) * course (turned d bs v before) ∨
      a = course (turned d bs v before) * course (turned c as w before)) :
    Meets w v.toFinset (reachOf w before) before a := by
  obtain ⟨hwn,hvn,hd⟩ := nodup_append'.mp hn
  have hown : Meets w v.toFinset (reachOf w before) before (course (turned c as w before)) := by
    rw [ht]
    exact .turning hwn (reachOf_lt hw before) (fun y hy hyw => hd hyw (mem_toFinset.mp hy)) has
  have ho : Spares w v.toFinset (course (turned d bs v before)) :=
    .of_fixes (turned_fixes d bs before hvn hv) hvn rfl fun y hy => hd hy
  rcases ha with rfl | rfl
  · exact hown.mul_right ho
  · exact hown.mul_left ho

/-- A part meets every qubit of the other one, which is turned round before the two are exchanged and after. -/
lemma side_meets {w' v' as' bs bs' : List α} {c' d d' : Prop} [Decidable c] [Decidable c'] [Decidable d] [Decidable d']
    {P A I O T : Course α} (hw' : (w.map I.moves).reverse = w') (hv' : (v.map I.moves).reverse = v') (has' : Opens as' w' v'.toFinset) (hc : c) (hc' : 1 < w.length → c')
    (hP : as.toFinset ∈ P.meets) (hPmoves : P.moves = 1)
    (hA : A = course (turned c as w true) * course (turned d bs v true) ∨
      A = course (turned d bs v true) * course (turned c as w true))
    (hO : O = course (turned c' as' w' false) * course (turned d' bs' v' false) ∨
      O = course (turned d' bs' v' false) * course (turned c' as' w' false))
    (hT : c' → as'.toFinset ∈ T.meets) (hx : x ∈ w) : insert x v.toFinset ∈ (P*(A*(I*(O*T)))).meets := by
  have hlen : w'.length = w.length := by simp [← hw']
  have hn' : (w' ++ v').Nodup := by
    rw [← hw',← hv',← reverse_append,nodup_reverse,← map_append]
    exact (nodup_append_comm.mp hn).map I.moves.injective
  have hne : w' ≠ [] := by simpa [← hw'] using hw
  refine halves_meet hlen (reaches_all hlen) has has' hP hPmoves (meets_beside hn hw hv has (if_pos hc) hA) ?_ ?_
    (meets_beside hn' hne (by simpa [← hv'] using hv) has' (turned_after (hlen ▸ hc') as' hne) hO) (fun h => hT (hc' h)) hx
  · rw [← hv',toFinset_reverse,toFinset_map]
  · intro p y hy
    have hp := (getElem?_eq_some_iff.mp hy).1
    rw [← hw',getElem?_reverse (by simp; omega),length_map,show w.length-1-(w.length-1-p) = p by omega,getElem?_map,hy]
    rfl
end
/-- The groups of a set with one element of another, if they are of the size and the other set is smaller. -/
def extensions (n : Nat) (A B : Finset α) : Finset (Finset α) := if A.card+1 = n ∧ B.card < n then B.image (insert · A) else ∅

/-- The groups that are to meet when two parts are exchanged: both parts together, or a part that is one short of the size with
each qubit of the other one. -/
def groups : Option Nat → Finset α → Finset α → Finset (Finset α)
  | none, A, B => {A ∪ B}
  | some n, A, B => extensions n A B ∪ extensions n B A
variable {n : Nat} {A B S : Finset α}
lemma mem_extensions : S ∈ extensions n A B ↔ A.card+1 = n ∧ B.card < n ∧ ∃ b ∈ B, insert b A = S := by
  unfold extensions
  split_ifs with h
  · simp [h]
  · simp only [Finset.notMem_empty,false_iff]
    exact fun hS => h ⟨hS.1,hS.2.1⟩
lemma card_extensions (hAB : Disjoint A B) : (extensions n A B).card = if A.card+1 = n ∧ B.card < n then B.card else 0 := by
  unfold extensions
  split_ifs
  · refine Finset.card_image_of_injOn fun b hb b' hb' h => ?_
    have hmem : b ∈ insert b' A := h ▸ Finset.mem_insert_self b A
    exact (Finset.mem_insert.mp hmem).resolve_right (Finset.disjoint_right.mp hAB hb)
  · rfl
lemma disjoint_extensions (hAB : Disjoint A B) (hn : 2 < n) : Disjoint (extensions n A B) (extensions n B A) := by
  refine Finset.disjoint_left.mpr fun S hS hS' => ?_
  obtain ⟨hA,-,b,-,rfl⟩ := mem_extensions.mp hS
  obtain ⟨-,-,a,-,hs⟩ := mem_extensions.mp hS'
  have hsub : A ⊆ {a} := fun x hx => by
    have hmem : x ∈ insert a B := hs ▸ Finset.mem_insert_of_mem hx
    exact Finset.mem_singleton.mpr ((Finset.mem_insert.mp hmem).resolve_right (Finset.disjoint_left.mp hAB hx))
  have hc := Finset.card_le_card hsub
  rw [Finset.card_singleton] at hc
  omega

/-- The opportunities for the qubits of a part: at the start, in the first half, in the second half and at the end. -/
lemma reaches_count (hk : 0 < k) : 1+(maxReach k true).toNat +
    ((if 1 < k then (maxReach k false).toNat else 0) + if 1 < k then 1 else 0) = k := by
  simp only [maxReach,Bool.false_eq_true,if_false]
  split_ifs <;> omega

/-- In the course two neighbouring parts are exchanged, the qubits of each in an order that compares with the given one, and
the groups that are to meet do so, each of them once. -/
structure Exchanges (r : List α → List α → Prop) (size : Option Nat) (left right : List α) (c : Course α) : Prop where
  within : Within (left ++ right) c
  fromLeft : r (left.map c.moves) ((left ++ right).drop right.length)
  fromRight : r (right.map c.moves) ((left ++ right).take right.length)
  meets : c.meets = (groups size left.toFinset right.toFinset).val
lemma shift_course (hright : right ≠ []) (hqs : (left ++ right).Nodup) :
    left.map (ofStep (shiftOf left right)).moves = (left ++ right).drop right.length ∧
      right.map (ofStep (shiftOf left right)).moves = (left ++ right).take right.length := by
  have hpos : 0 < (left ++ right).length := by simp [length_pos_iff.mpr hright]
  have ha := (shift_realizes hpos left.length).acts hqs
  rw [turns_left left hright,length_append,Nat.add_sub_cancel_left] at ha
  have hmap := (acts_shifted.mp ha).1
  rw [map_append] at hmap
  rw [← hmap]
  exact ⟨(drop_left' (length_map _)).symm,(take_left' (length_map _)).symm⟩
variable (size : Option Nat) (hleft : left ≠ []) (hright : right ≠ []) (hqs : (left ++ right).Nodup)
include hleft hright hqs
lemma block_proper : ∀ st ∈ phases (block left right size), Proper (left ++ right) size st := by
  have hs : ∀ size, Proper (left ++ right) size (shiftOf left right) := fun _ => .move (.shift (by simp [hleft]) hqs _) (Subset.refl _)
  have hlen : (left ++ right).length = left.length+right.length := length_append
  have hw : ∀ {n : Option Nat}, n.getD (left ++ right).length = (left ++ right).length →
      Proper (left ++ right) n (.acquaint (left ++ right)) := fun h => .meet h (infix_refl _)
  cases size with
  | none => simpa [phases,block] using ⟨hs none,hw rfl⟩
  | some size =>
    unfold block
    dsimp only
    split
    · simpa [phases] using hs size
    have hl := length_pos_iff.mpr hleft
    have hr := length_pos_iff.mpr hright
    split
    case isTrue hmax htwo =>
      have hm : size = (left ++ right).length := by omega
      simpa [phases] using ⟨hw (n := some size) hm,hs size⟩
    case isFalse hmax htwo =>
      obtain ⟨hn,hno,-⟩ := nodup_append'.mp hqs
      obtain ⟨ht,hd⟩ := parts_nonempty hleft hright
      have hfi : (left ++ right).take size <:+: left ++ right :=  IsPrefix.isInfix ( take_prefix size _)
      have hls : (left ++ right).drop ((left ++ right).length-size) <:+: left ++ right := (drop_suffix _ _).isInfix
      have hf : ((left ++ right).take size).length = size := length_take_of_le (by omega)
      have hla : ((left ++ right).drop ((left ++ right).length-size)).length = size := by
        rw [length_drop]
        omega
      simp only [acquainting,phases,forall_mem_append,forall_mem_singleton]
      refine ⟨⟨offered_proper _ hf hfi,offered_proper _ hla hls⟩,⟨?_,?_⟩,hs _,⟨?_,?_⟩,
        offered_proper _ hla hls,offered_proper _ hf hfi⟩
      · exact turned_proper _ true hf hfi hno hright (subset_append_right _ _)
      · refine turned_proper _ true hla hls (nodup_reverse.mpr hn) (by simpa using hleft) fun x hx => ?_
        exact mem_append_left _ (mem_reverse.mp hx)
      · refine turned_proper _ false hla hls (nodup_reverse.mpr (hqs.sublist (take_sublist _ _))) ht fun x hx => ?_
        exact mem_of_mem_take (mem_reverse.mp hx)
      · exact turned_proper _ false hf hfi (hqs.sublist (drop_sublist _ _)) hd (drop_subset _ _)
lemma block_keeps : (∀ l ∈ [left,right], (l.map (course (block left right size).pre).moves).Perm l) ∧
      ∀ l ∈ [(left ++ right).drop right.length,(left ++ right).take right.length],
        (l.map (course (block left right size).post).moves).Perm l := by
  have hone : ∀ l : List α, (l.map (course ([])).moves).Perm l := fun l => .of_eq (map_id l)
  have hr : ∀ {l : List α} {τ : Perm α}, (l.reverse.map τ).Perm l.reverse → (l.map τ).Perm l := fun {l τ} h =>
    ((reverse_perm l).map τ).symm.trans (h.trans (reverse_perm l))
  cases size with
  | none => exact ⟨fun l _ => hone l,fun l _ => hone l⟩
  | some size =>
    unfold block
    dsimp only
    split
    · exact ⟨fun l _ => hone l,fun l _ => hone l⟩
    split
    · exact ⟨fun l _ => hone l,fun l _ => hone l⟩
    obtain ⟨ht,hd⟩ := parts_nonempty hleft hright
    have hpre : (right ++ left.reverse).Nodup := (((reverse_perm left).append_left right).trans perm_append_comm).nodup_iff.mpr hqs
    have hp : (((left ++ right).take right.length).reverse ++ (left ++ right).drop right.length).Nodup := by
      refine ((reverse_perm _).append_right _).nodup_iff.mpr ?_
      rwa [take_append_drop]
    have hrev : left.reverse ≠ [] := by simpa using hleft
    refine ⟨forall_mem_cons.mpr ⟨hr ?_,forall_mem_singleton.mpr ?_⟩,forall_mem_cons.mpr ⟨?_,forall_mem_singleton.mpr (hr ?_)⟩⟩
    · exact (turned_keeps hpre hright hrev).2
    · exact (turned_keeps hpre hright hrev).1
    · exact (turned_keeps hp ht hd).2
    · exact (turned_keeps hp ht hd).1
lemma block_perm : (left.map (course (phases (block left right size))).moves).Perm ((left ++ right).drop right.length) ∧
    (right.map (course (phases (block left right size))).moves).Perm ((left ++ right).take right.length) := by
  obtain ⟨hpre,hp⟩ := block_keeps size hleft hright hqs
  simp only [forall_mem_cons] at hpre hp
  obtain ⟨hs,hsh⟩ := shift_course hright hqs
  rw [block_moves,Perm.coe_mul,Perm.coe_mul,← map_map,← map_map,← map_map,← map_map]
  constructor
  · refine ((Perm.map _ hpre.1).map _).trans ?_
    rw [hs]
    exact hp.1
  · refine ((Perm.map _ hpre.2.1).map _).trans ?_
    rw [hsh]
    exact hp.2.1

/-- However the size asks two parts to be acquainted, the record follows the steps. -/
lemma acquaintAndShift_carries (hm : Laden (left ++ right) s.2) :
    Carries s.2 (acquaintAndShift left right size s).2 (course (phases (block left right size))).moves := by
  have hs : ∀ {m : Carrying α Nat} {σ : Perm α}, Carries s.2 m σ → Carries s.2
      (((Permuter.shift (left ++ right).length left.length).update? (left ++ right) m).getD m)
      ((ofStep (shiftOf left right)).moves*σ) := by
    intro m σ h
    obtain ⟨m',hu,hc⟩ := (Moves.shift (by simp [hleft]) hqs left.length).carries (h.laden hm)
    rw [hu]
    exact h.trans hc
  rw [block_moves,mul_assoc]
  cases size with
  | none => exact hs (.refl _)
  | some size =>
    unfold acquaintAndShift block
    dsimp only
    split
    · exact hs (.refl _)
    split
    · exact hs (.refl _)
    obtain ⟨hn,hno,-⟩ := nodup_append'.mp hqs
    obtain ⟨ht,hd⟩ := parts_nonempty hleft hright
    simp only [acquainting,course_append,mul_moves,mul_assoc]
    refine insides_carries _ _ false (hqs.sublist (drop_sublist _ _)) hd (fun q hq => hm q (mem_of_mem_drop hq)) ?_
    refine insides_carries _ _ false (nodup_reverse.mpr (hqs.sublist (take_sublist _ _))) ht
      (fun q hq => hm q (mem_of_mem_take (mem_reverse.mp hq))) (hs ?_)
    refine insides_carries _ _ true (nodup_reverse.mpr hn) (by simpa using hleft)
      (fun q hq => hm q (mem_append_left _ (mem_reverse.mp hq))) ?_
    have hf := insides_carries (left.length+1 = size) ((left ++ right).take size) true hno hright
      (fun q hq => hm q (mem_append_right _ hq)) (.refl s.2)
    rwa [mul_one] at hf

/-- A part that is one short of the size meets every qubit of the other one. -/
lemma block_meets_each (htwo : n ≠ 2) (hmax : max left.length right.length + 1 = n) :
    (left.length+1 = n → ∀ x ∈ right, insert x left.toFinset ∈ (course (phases (block left right (some n)))).meets) ∧
      (right.length+1 = n → ∀ x ∈ left, insert x right.toFinset ∈ (course (phases (block left right (some n)))).meets) := by
  obtain ⟨hs,hsh⟩ := shift_course hright hqs
  have hlen : (left ++ right).length = left.length+right.length := length_append
  have hrev : left.reverse ≠ [] := by simpa using hleft
  have ht : (left.reverse ++ right).Nodup := ((reverse_perm left).append_right right).nodup_iff.mpr hqs
  have hp := (block_spec left right (some n)).2.1
  rw [block_eq hmax htwo] at hp ⊢
  rw [course_phases]
  constructor
  · intro hl x hx
    rw [← toFinset_reverse]
    refine side_meets (nodup_append_comm.mp ht) hright hrev (fun w₀ hw₀ => ?_) (by rw [acquainting,course_singleton,hsh])
      (by rw [acquainting,course_singleton,map_reverse,reverse_reverse,hs]) (fun w₀ hw₀ => ?_) hl
      (fun h => ⟨hl,h⟩) (mem_course_opportunities hp (mem_append_left _ (mem_offered hl)))
      (course_moves_opportunities hp) (.inl (course_append ..)) (.inl (course_append ..))
      (fun h => mem_course_opportunities (offers_opportunities _ _) (mem_append_left _ (mem_offered h))) hx
    · have hst : (left ++ right).take left.length = left := take_left
      rw [toFinset_reverse,← hl,take_succ_toFinset (by rwa [drop_left]),hst]
    · rw [show (left ++ right).length-n = right.length-1 by omega]
      exact drop_pred_toFinset (by omega) hw₀
  · intro hr x hx
    refine side_meets ht hrev hright (fun w₀ hw₀ => ?_)
      (by rw [acquainting,course_singleton,map_reverse,reverse_reverse,hs]) (by rw [acquainting,course_singleton,hsh]) (fun w₀ hw₀ => ?_) hr
      (fun h => ⟨hr,by simpa using h⟩) (mem_course_opportunities hp (mem_append_right _ (mem_offered hr)))
      (course_moves_opportunities hp) (.inr (course_append ..)) (.inr (course_append ..))
      (fun h => mem_course_opportunities (offers_opportunities _ _) (mem_append_right _ (mem_offered h))) (mem_reverse.mpr hx)
    · have hend : (left ++ right).drop left.length = right := drop_left
      rw [show (left ++ right).length-n = left.length-1 by omega,
        drop_pred_toFinset (by omega) (by rwa [take_left]),hend]
    · rw [toFinset_reverse,← hr]
      exact take_succ_toFinset hw₀
lemma countP_block : (phases (block left right size)).countP isMeet = (groups size left.toFinset right.toFinset).card := by
  have hl := length_pos_iff.mpr hleft
  have hr := length_pos_iff.mpr hright
  obtain ⟨hn,hno,hd⟩ := nodup_append'.mp hqs
  have ha : Disjoint left.toFinset right.toFinset := disjoint_toFinset_iff_disjoint.mpr hd
  have hc := And.intro (toFinset_card_of_nodup hn) (toFinset_card_of_nodup hno)
  cases size with
  | none => rfl
  | some n =>
    unfold block
    dsimp only
    split
    case isTrue hmax =>
      have hnn : groups (some n) left.toFinset right.toFinset = ∅ := by
        rw [groups,extensions,extensions,if_neg (by omega),if_neg (by omega),Finset.union_self]
      rw [hnn]
      rfl
    split
    case isFalse.isTrue hmax htwo =>
      obtain ⟨y,rfl⟩ := length_eq_one_iff.mp (show left.length = 1 by omega)
      obtain ⟨z,rfl⟩ := length_eq_one_iff.mp (show right.length = 1 by omega)
      have hp : groups (some 2) ([y]).toFinset [z].toFinset = {{z, y}} := by
        simp [groups,extensions,Finset.pair_comm]
      rw [htwo,hp]
      rfl
    case isFalse.isFalse hmax htwo =>
      have ho : ∀ c [Decidable c] (as : List α), (offered c as).countP isMeet = if c then 1 else 0 := by
        intro c _ as
        unfold offered
        split <;> rfl
      have ht : ∀ c [Decidable c] (as w : List α) before,
          (turned c as w before).countP isMeet = if c then reachOf w before else 0 := by
        intro c _ as w before
        unfold turned
        split
        · exact countP_turning as w before _
        · rfl
      rw [groups,Finset.card_union_of_disjoint (disjoint_extensions ha (by omega)),card_extensions ha,
        card_extensions ha.symm,hc.1,hc.2]
      have hs : [shiftOf left right].countP isMeet = 0 := rfl
      have hre : left.reverse.length = left.length := length_reverse
      have hta : ((left ++ right).take right.length).reverse.length = right.length := by simp
      have hdr : ((left ++ right).drop right.length).length = left.length := by simp
      simp only [acquainting,phases,countP_append,ho,ht,reachOf,hre,hta,hdr]
      have hl' := reaches_count hl
      have hr' := reaches_count hr
      have hlt : left.length < n ∧ right.length < n := by omega
      by_cases hln : left.length+1 = n <;> by_cases hrn : right.length+1 = n <;>
        simp only [hln,hrn,hlt,true_and,false_and,if_true,if_false] <;> omega
lemma block_meets (hS : S ∈ groups size left.toFinset right.toFinset) : S ∈ (course (phases (block left right size))).meets := by
  obtain ⟨hn,hno,-⟩ := nodup_append'.mp hqs
  cases size with
  | none =>
    have hw : S = (left ++ right).toFinset := (Finset.mem_singleton.mp hS).trans toFinset_append.symm
    have hk : Spares [] S (course [shiftOf left right]) := by
      refine .of_fixes (fun x hx => ?_) hqs hw.symm (by simp)
      exact (Moves.shift (by simp [hleft]) hqs left.length).within.fixes x hx
    have he : phases (block left right none) = [shiftOf left right] ++ .acquaint (left ++ right) :: [] := rfl
    exact mem_course (hk.keeps.trans hw)
  | some n =>
    have hl := length_pos_iff.mpr hleft
    have hr := length_pos_iff.mpr hright
    simp only [groups,Finset.mem_union,mem_extensions,toFinset_card_of_nodup hn,toFinset_card_of_nodup hno] at hS
    by_cases htwo : n = 2
    · obtain ⟨y,rfl⟩ := length_eq_one_iff.mp (show left.length = 1 by omega)
      obtain ⟨z,rfl⟩ := length_eq_one_iff.mp (show right.length = 1 by omega)
      have hpa : S = {y, z} := by
        simp [htwo,Finset.pair_comm y z] at hS ⊢
        exact hS.symm
      rw [htwo,course_phases,hpa]
      refine mem_mul_left ?_
      have hp : .acquaint [y,z] ∈ (block [y] [z] (some 2)).prior := by simp [block]
      simpa using mem_course_opportunities (block_spec [y] [z] (some 2)).2.1 hp
    · have hm := block_meets_each (n := n) hleft hright hqs htwo (by omega)
      rcases hS with ⟨hs,-,x,hx,rfl⟩ | ⟨hs,-,x,hx,rfl⟩
      · exact hm.1 hs x (mem_toFinset.mp hx)
      · exact hm.2 hs x (mem_toFinset.mp hx)
lemma block_exchanges : Exchanges Perm size left right (course (phases (block left right size))) := by
  obtain ⟨hm,hma⟩ := block_perm size hleft hright hqs
  refine ⟨within_course fun st hst => (block_proper size hleft hright hqs st hst).within,hm,hma,?_⟩
  have hle := (Multiset.le_iff_subset (groups size left.toFinset right.toFinset).nodup).mpr fun S hS =>
    block_meets size hleft hright hqs hS
  refine (Multiset.eq_of_le_of_card_le hle ?_).symm
  rw [card_course,countP_block size hleft hright hqs]
  rfl
end

/-! ## Layers of exchanges -/
section
variable {r : List α → List α → Prop} {start parts : List (List α)} {size : Option Nat} {ks : List Nat} {b c : Course α} {S : Finset α}
lemma subset_of_mem_groups {A B S : Finset α} (hS : S ∈ groups size A B) : S ⊆ A ∪ B := by
  cases size with
  | none => exact (Finset.mem_singleton.mp hS).subset
  | some n =>
    simp only [groups,Finset.mem_union,mem_extensions] at hS
    rcases hS with ⟨-,-,b,hb,rfl⟩ | ⟨-,-,a,ha,rfl⟩
    · exact Finset.insert_subset (Finset.mem_union_right A hb) Finset.subset_union_left
    · exact Finset.insert_subset (Finset.mem_union_left B ha) Finset.subset_union_right

/-- Other names for the qubits give the groups in these names. -/
lemma groups_image {β : Type} [DecidableEq β] (size) {f : α → β} {A B : Finset α} (hf : Set.InjOn f (A ∪ B : Finset α)) :
    (groups size A B).val.map (Finset.image f) = (groups size (A.image f) (B.image f)).val := by
  rw [Finset.coe_union] at hf
  have he : ∀ n (A B : Finset α), Set.InjOn f A → Set.InjOn f B →
      extensions n (A.image f) (B.image f) = (extensions n A B).image (Finset.image f) := by
    intro n A B hA hB
    unfold extensions
    rw [Finset.card_image_of_injOn hA,Finset.card_image_of_injOn hB]
    split_ifs
    · rw [Finset.image_image,Finset.image_image]
      exact Finset.image_congr fun b _ => (Finset.image_insert f b A).symm
    · rfl
  have hA := hf.mono Set.subset_union_left
  have hB := hf.mono Set.subset_union_right
  have him : groups size (A.image f) (B.image f) = (groups size A B).image (Finset.image f) := by
    cases size with
    | none => simp [groups,Finset.image_union]
    | some n => rw [groups,groups,he n A B hA hB,he n B A hB hA,Finset.image_union]
  rw [← Finset.coe_union] at hf
  rw [him,Finset.image_val_of_injOn ((Finset.image_injOn_powerset_of_injOn hf).mono fun S hS =>
    Finset.mem_powerset.mpr (subset_of_mem_groups hS))]

/-- The groups that are to meet when all the given pairs of parts are exchanged. -/
def meetings (size : Option Nat) (start : List (List α)) (pairs : List (Nat × Nat)) : Multiset (Finset α) :=
  (pairs : Multiset (Nat × Nat)).bind fun e => (groups size (start.getD e.1 []).toFinset (start.getD e.2 []).toFinset).val
lemma meetings_perm {pairs pairs'} (h : pairs.Perm pairs') :
    meetings size start pairs = meetings size start pairs' := by rw [meetings,meetings,Multiset.coe_eq_coe.mpr h]
lemma mem_meetings {pairs} : S ∈ meetings size start pairs ↔
    ∃ e ∈ pairs, S ∈ groups size (start.getD e.1 []).toFinset (start.getD e.2 []).toFinset := by
  simp [meetings]
lemma groups_comm (size) (A B : Finset α) : groups size A B = groups size B A := by
  cases size with
  | none => rw [groups,groups,Finset.union_comm]
  | some n => exact Finset.union_comm ..
lemma mem_meetings_ascents (hs : start.Nodup) : S ∈ meetings size start (ascents start.length) ↔
    ∃ o ∈ start, ∃ o' ∈ start, o ≠ o' ∧ S ∈ groups size o.toFinset o'.toFinset := by
  rw [mem_meetings]
  constructor
  · rintro ⟨e,he,hS⟩
    obtain ⟨hlt,hj⟩ := mem_ascents.mp he
    have hi : e.1 < start.length := by omega
    rw [getD_eq_getElem _ _ hi,getD_eq_getElem _ _ hj] at hS
    refine ⟨_,getElem_mem hi,_,getElem_mem hj,fun h => ?_,hS⟩
    exact Nat.ne_of_lt hlt (hs.getElem_inj_iff.mp h)
  · rintro ⟨o,ho,o',ho',hne,hS⟩
    obtain ⟨i,hi,rfl⟩ := getElem_of_mem ho
    obtain ⟨j,hj,rfl⟩ := getElem_of_mem ho'
    rcases Nat.lt_trichotomy i j with hij | rfl | hji
    · exact ⟨(i,j),mem_ascents.mpr ⟨hij,hj⟩,by simpa [hi,hj] using hS⟩
    · exact absurd rfl hne
    · rw [groups_comm] at hS
      exact ⟨(j,i),mem_ascents.mpr ⟨hji,hi⟩,by simpa [hi,hj] using hS⟩

/-- The parts stand where the exchanges have brought them, and exactly those that have been exchanged have met. -/
structure Acquainting (r : List α → List α → Prop) (start : List (List α)) (size : Option Nat) (parts : List (List α))
    (ks : List Nat) (c : Course α) : Prop where
  arranged : Arranged r start parts ks c.moves
  met : c.meets = meetings size start (crossings ks)
lemma toFinset_of_placed {o part : List α} (hr : Faithful r) (h : r (o.map τ) part) : part.toFinset.image ⇑τ⁻¹ = o.toFinset := by
  rw [← toFinset_eq_of_perm _ _ (hr.perm h),toFinset_map,← image_mul,inv_mul_cancel,Perm.coe_one,Finset.image_id]
lemma Acquainting.exchange {left right : List α} (hr : Faithful r) (hn : start.flatten.Nodup)
    (h : Acquainting r start size (us ++ left :: right :: vs) ks c) (hb : Exchanges r size left right b) :
    Acquainting r start size (traded us vs left right) (ks ++ [us.length]) (c*b) := by
  refine ⟨h.arranged.exchange hr hn hb.within.fixes hb.fromLeft hb.fromRight,?_⟩
  obtain ⟨o,ho,hp⟩ := h.arranged.placed us.length left (by simp)
  obtain ⟨o',ho',hp'⟩ := h.arranged.placed (us.length+1) right (by simp)
  have hnew : (groups size left.toFinset right.toFinset).val.map (Finset.image ⇑c.moves⁻¹) =
      (groups size o.toFinset o'.toFinset).val := by
    rw [← toFinset_of_placed hr hp,← toFinset_of_placed hr hp',groups_image size c.moves⁻¹.injective.injOn]
  rw [mul_meets,h.met,hb.meets,hnew,crossings_concat,meetings,meetings,← Multiset.coe_add]
  simp [ho,ho']
def layerStep (size : Option Nat) (s : List (List α) × Layers α × Carrying α Nat) (i : Nat) :
    List (List α) × Layers α × Carrying α Nat :=
  let left := s.1.getD i []
  let right := s.1.getD (i+1) []
  ((s.1.set i ((left ++ right).take right.length)).set (i+1) ((left ++ right).drop right.length),
    acquaintAndShift left right size s.2)
lemma layerStep_neighbours (size us vs left right) (s : Layers α × Carrying α Nat) :
    layerStep size (us ++ left :: right :: vs,s) us.length =
      (traded us vs left right,acquaintAndShift left right size s) := by
  simp [layerStep]
def LaterWithin (qs : List α) (layers : Layers α) : Prop :=
  ∀ st ∈ layers.pre ++ (layers.intra ++ (layers.post ++ layers.posterior)), Within qs (ofStep st)
variable {qs qs' : List α}
section
variable {layers more : Layers α} (hl : LaterWithin qs layers) (hm : ∀ st ∈ phases more, Within qs' (ofStep st))
include hl hm
lemma course_extended (hd : qs.Disjoint qs') :
    course (phases (extended layers more)) = course (phases layers) * course (phases more) := by
  simp only [LaterWithin,phases,forall_mem_append] at hl hm
  obtain ⟨hpre,hin,hpo,hp⟩ := hl
  obtain ⟨hpr',hpre',hin',hpo',-⟩ := hm
  have hc : ∀ {xs ys : Steps α}, (∀ st ∈ xs, Within qs' (ofStep st)) → (∀ st ∈ ys, Within qs (ofStep st)) →
      Commute (course xs) (course ys) :=
    fun hxs hys => (within_course hxs).commute (within_course hys) hd.symm
  simp only [phases,extended,course_append]
  rw [(hc hpo' hp).mul_mul_mul_comm,((hc hin' hpo).mul_right (hc hin' hp)).mul_mul_mul_comm,
    ((hc hpre' hin).mul_right ((hc hpre' hpo).mul_right (hc hpre' hp))).mul_mul_mul_comm,
    ((hc hpr' hpre).mul_right ((hc hpr' hin).mul_right ((hc hpr' hpo).mul_right (hc hpr' hp)))).mul_mul_mul_comm]
lemma LaterWithin.extended : LaterWithin (qs ++ qs') (extended layers more) := by
  have hs : ∀ {us vs : Steps α}, (∀ st ∈ us, Within qs (ofStep st)) → (∀ st ∈ vs, Within qs' (ofStep st)) →
      ∀ st ∈ us ++ vs, Within (qs ++ qs') (ofStep st) := by
    intro us vs hus hvs
    refine forall_mem_append.mpr ⟨fun st hst => ?_,fun st hst => ?_⟩
    · exact (hus st hst).mono (subset_append_left qs qs')
    · exact (hvs st hst).mono (subset_append_right qs qs')
  simp only [LaterWithin,phases,forall_mem_append] at hl hm
  obtain ⟨hpre,hin,hpo,hp⟩ := hl
  obtain ⟨-,hpre',hin',hpo',hp'⟩ := hm
  refine forall_mem_append.mpr ⟨hs hpre hpre',forall_mem_append.mpr ⟨hs hin hin',?_⟩⟩
  exact forall_mem_append.mpr ⟨hs hpo hpo',hs hp hp'⟩
end
/-- A network within a layer: parts that have changed their order have met, and the record of what the qubits carry has
followed. -/
structure Underway (start : List (List α)) (size : Option Nat) (m₀ : Carrying α Nat) (ks : List Nat) (parts : List (List α))
    (m : Carrying α Nat) (steps : Steps α) (layers : Layers α) : Prop where
  acquainting : Acquainting List.Perm start size parts ks (course (steps ++ phases layers))
  carried : Carries m₀ m (course (steps ++ phases layers)).moves
  proper : ∀ st ∈ steps ++ phases layers, Proper start.flatten size st
  prior : Opportunities layers.prior
  posterior : Opportunities layers.posterior
namespace Underway
variable {m₀ m : Carrying α Nat} {steps : Steps α} {layers : Layers α}
lemma exchange {left right : List α} (hn : start.flatten.Nodup) (hm : Laden start.flatten m₀)
    (h : Underway start size m₀ ks (us ++ left :: right :: vs) m steps layers) (hl : LaterWithin us.flatten layers) :
    Underway start size m₀ (ks ++ [us.length]) (traded us vs left right)
      (acquaintAndShift left right size (layers,m)).2 steps (extended layers (block left right size)) ∧
    LaterWithin (us.flatten ++ (left ++ right)) (extended layers (block left right size)) := by
  have hf : start.flatten = us.flatten ++ (left ++ right) ++ vs.flatten := by
    rw [← h.acquainting.arranged.flatten_eq]
    simp
  have hleft := h.acquainting.arranged.nonempty left (by simp)
  have hright := h.acquainting.arranged.nonempty right (by simp)
  obtain ⟨hfr,-,-⟩ := nodup_append'.mp (hf ▸ hn)
  obtain ⟨-,hqs,hd⟩ := nodup_append'.mp hfr
  have hb := block_proper size hleft hright hqs
  have hw := fun st hst => (hb st hst).within
  have hpe : Faithful (Perm (α := α)) := ⟨fun h => h,fun τ _ _ h => h.map τ,fun h h' => h.trans h'⟩
  have hc : course (steps ++ phases (extended layers (block left right size))) =
      course (steps ++ phases layers) * course (phases (block left right size)) := by
    rw [course_append,course_append,course_extended hl hw hd,mul_assoc]
  have hla : Laden (left ++ right) m := fun q hq => h.carried.laden hm q (by simp only [hf,mem_append,hq,or_true,true_or])
  obtain ⟨hs,hph⟩ := forall_mem_append.mp h.proper
  obtain ⟨-,hpr,hp⟩ := block_spec left right size
  refine ⟨⟨?_,?_,forall_mem_append.mpr ⟨hs,fun st hst => ?_⟩,forall_mem_append.mpr ⟨h.prior,hpr⟩,
    forall_mem_append.mpr ⟨h.posterior,hp⟩⟩,hl.extended hw⟩
  · rw [hc]
    exact h.acquainting.exchange hpe hn (block_exchanges size hleft hright hqs)
  · rw [hc]
    exact h.carried.trans (acquaintAndShift_carries size hleft hright hqs hla)
  · rcases mem_phases_extended.mp hst with hst | hst
    · exact hph st hst
    · exact (hb st hst).mono ⟨us.flatten,vs.flatten,hf.symm⟩

/-- The exchanges of a layer from a place on, when those before it are about the parts before that place. -/
lemma exchanges (hn : start.flatten.Nodup) (hm : Laden start.flatten m₀) (i j) {parts : List (List α)} {ks : List Nat}
    {layers : Layers α} {m : Carrying α Nat} (hj : j < parts.length) (h : Underway start size m₀ ks parts m steps layers)
    (hl : LaterWithin (parts.take i).flatten layers) :
    ∃ parts' layers' m', (everySecond i j).foldl (layerStep size) (parts,layers,m) = (parts',layers',m') ∧
      Underway start size m₀ (ks ++ everySecond i j) parts' m' steps layers' := by
  by_cases hij : i < j
  · obtain ⟨us,left,right,vs,rfl,rfl⟩ := exists_neighbours (Nat.lt_of_le_of_lt hij hj)
    rw [take_left] at hl
    obtain ⟨hne,hl'⟩ := h.exchange hn hm hl
    have ht : ((traded us vs left right).take (us.length+2)).flatten = us.flatten ++ (left ++ right) := by
      rw [take_length_add_append,flatten_append]
      exact congrArg (us.flatten ++ ·) (by simp)
    obtain ⟨parts',layers',m',hrun,hr⟩ := exchanges hn hm (us.length+2) j (by simpa using hj) hne (ht ▸ hl')
    have hp : acquaintAndShift left right size (layers,m) =
        (extended layers (block left right size),(acquaintAndShift left right size (layers,m)).2) :=
      Prod.ext (acquaintAndShift_phases left right size (layers,m)) rfl
    refine ⟨parts',layers',m',?_,?_⟩
    · rw [everySecond_of_lt hij,foldl_cons,layerStep_neighbours,hp]
      exact hrun
    · rwa [everySecond_of_lt hij,← singleton_append,← append_assoc]
  · refine ⟨parts,layers,m,?_,?_⟩
    · rw [everySecond_of_le (Nat.le_of_not_lt hij)]
      rfl
    · rwa [everySecond_of_le (Nat.le_of_not_lt hij),append_nil]
termination_by j - i
end Underway
def Running (start : List (List α)) (size : Option Nat) (m : Carrying α Nat) (t : Nat) (s : Progress α) : Prop :=
  Underway start size m (bricks start.length t) s.parts s.carried s.steps { prior := s.layers.posterior }
variable {m : Carrying α Nat} (place : α → Nat) (hno : start.flatten.Nodup) (hm : Laden start.flatten m)
include hno hm
lemma Running.layer {t s} (h : Running start size m t s) (hpa : start ≠ []) :
    Running start size m (t+1) (networkLayer size place s t) := by
  have hpos := length_pos_iff.mpr hpa
  have hlen := h.acquainting.arranged.length_eq
  obtain ⟨parts,layers,m',hrun,hn⟩ := h.exchanges hno hm (t % 2) (s.parts.length-1) (by omega) (by simp [LaterWithin])
  have heq : networkLayer size place s t = ⟨parts,m',layers,
      s.steps ++ sortSteps size place layers.prior ++ layers.pre ++ layers.intra ++ layers.post⟩ := by
    exact congrArg (fun r : List (List α) × Layers α × Carrying α Nat => Progress.mk r.1 r.2.2 r.2.1
      (s.steps ++ sortSteps size place r.2.1.prior ++ r.2.1.pre ++ r.2.1.intra ++ r.2.1.post)) hrun
  have hs := sortSteps_perm size place layers.prior
  have hp : phases ({ prior := layers.posterior }) = layers.posterior := append_nil _
  have hco : course (s.steps ++ phases layers) = course
      (s.steps ++ sortSteps size place layers.prior ++ layers.pre ++ layers.intra ++ layers.post ++ layers.posterior) := by
    simp [phases,course_append,course_perm hs.symm hn.prior]
  have ha := hn.acquainting
  have hc := hn.carried
  rw [hco] at ha hc
  rw [hlen] at ha
  rw [heq,Running,bricks_succ]
  refine ⟨by rwa [hp],by rwa [hp],fun st hst => hn.proper st ?_,hn.posterior,by simp [Opportunities]⟩
  have hmem := hs.mem_iff (a := st)
  simp only [phases,mem_append] at hst ⊢
  tauto
lemma running_layers (hn : ∀ part ∈ start, part ≠ []) (t) (ht : t ≤ start.length) :
    Running start size m t ((range t).foldl (networkLayer size place) ⟨start,m,{},[]⟩) := by
  induction t with
  | zero =>
    refine ⟨⟨⟨rfl,rfl,hn,fun k o ho => ⟨o,ho,?_⟩⟩,rfl⟩,.refl m,by simp [phases],by simp [Opportunities],by simp [Opportunities]⟩
    exact .of_eq (map_id o)
  | succ t ih =>
    rw [range_succ,foldl_append]
    exact (ih (by omega)).layer place hno hm (length_pos_iff.mp (by omega))
end
end QuantumCircuits.NetworkMeetings
