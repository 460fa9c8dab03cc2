import QuantumCircuits.Proofs.WireOrder
import QuantumCircuits.Circuit.Insert

/-! # The order of inserted operations

While operations are inserted, the circuit is split at the place of insertion. One step puts an item before the place
and may take the moment right after the place with it; such a moment has been passed, and operations inserted later
come after it.
-/
namespace QuantumCircuits.Insertion
open WireOrder Circuit List OpTree SameOrder Turn
variable {s : Strategy} {k : Nat} {items : List (OpTree.Item α)} {op : α} {c : Circuit α} {ls : Moments α} {x : OpTree.Item α} {m : Moment α}
variable {rs old : Moments α}
abbrev Split (α : Type) := List (Moment α) × List (Moment α)
def itemOps : OpTree.Item α → List α
  | .inl op => [op]
  | .inr m => m.ops
def nextStrategy (s : Strategy) : OpTree.Item α → Strategy
  | .inl _ => s.afterFirst
  | .inr _ => s
def Known (s : Strategy) : Prop := ∀ shown, s ≠ .unknown shown
lemma Known.next (h : Known s) (x : Item α) : Known (nextStrategy s x) := by
  cases x with
  | inl op => cases s <;> simp_all [Known,nextStrategy,Strategy.afterFirst]
  | inr m => exact h
lemma nextStrategy_ne_earliest (h : s ≠ .earliest) (x : Item α) : nextStrategy s x ≠ .earliest := by
  cases x with
  | inl op => cases s <;> simp_all [nextStrategy,Strategy.afterFirst]
  | inr m => exact h
lemma insertIdx_length {β : Type} (ls rs) (m : β) : (ls ++ rs).insertIdx ls.length m = ls ++ m :: rs := by
  induction ls with
  | nil => simp
  | cons l ls ih => simp [ih]
lemma stretch_succ {ms p} (hp : p ≤ k) (hm : ms[k]? = some m) : stretch ms p (k+1) = stretch ms p k ++ m.ops := by
  rw [← stretch_append ms hp (Nat.le_succ k)]
  obtain ⟨hk,hget⟩ := List.getElem?_eq_some_iff.mp hm
  have hone : (ms.take (k+1)).drop k = [m] := by
    rw [take_succ_eq_append_getElem hk,drop_left' (length_take_of_le hk.le),hget]
  rw [stretch.eq_def ms k (k+1),hone]
  simp
lemma itemsAll_leaves (xs : List α) : itemsAll (xs.map .leaf) = .ok (xs.map .inl) := by
  induction xs with
  | nil => rfl
  | cons x xs ih => simp [itemsAll,items,ih,bind,Except.bind]
lemma itemsAll_cons_eq_ok {t ts} {xs : List (Item α)} (h : itemsAll (t :: ts) = .ok xs) :
    ∃ ys zs, t.items = .ok ys ∧ itemsAll ts = .ok zs ∧ xs = ys ++ zs := by
  obtain ⟨ys,hy,h⟩ := of_bind_eq_ok h
  obtain ⟨zs,hz,h⟩ := of_bind_eq_ok h
  exact ⟨ys,zs,hy,hz,(Except.ok.inj h).symm⟩
mutual
lemma flatten_of_items {t : OpTree α} {xs} (h : t.items = .ok xs) : t.flatten = .ok (xs.flatMap itemOps) := by
  cases t with
  | leaf op | moment m =>
    obtain rfl := Except.ok.inj h
    simp [OpTree.flatten,itemOps]
  | node parts => exact flattenAll_of_itemsAll h
  | endless | other kind shown => cases h
lemma flattenAll_of_itemsAll {ts} {xs : List (Item α)} (h : itemsAll ts = .ok xs) :
    flattenAll ts = .ok (xs.flatMap itemOps) := by
  cases ts with
  | nil =>
    obtain rfl := Except.ok.inj h
    rfl
  | cons t ts =>
    obtain ⟨ys,zs,hy,hz,rfl⟩ := itemsAll_cons_eq_ok h
    simp [flattenAll,flatten_of_items hy,flattenAll_of_itemsAll hz,bind,Except.bind]
end
mutual
lemma transform_of_items {t : OpTree α} {xs} (h : t.items = .ok xs) : t.transform true (fun op => .ok (.leaf op)) = .ok t := by
  cases t with
  | leaf op | moment m => rfl
  | node parts =>
    have hp := transformAll_of_itemsAll h
    simp [transform,hp,bind,Except.bind]
  | endless | other kind shown => cases h
lemma transformAll_of_itemsAll {ts} {xs : List (Item α)} (h : itemsAll ts = .ok xs) :
    transformAll true (fun op => .ok (.leaf op)) ts = .ok ts := by
  cases ts with
  | nil => rfl
  | cons t ts =>
    obtain ⟨ys,zs,hy,hz,rfl⟩ := itemsAll_cons_eq_ok h
    simp [transformAll,transform_of_items hy,transformAll_of_itemsAll hz,bind,Except.bind]
end
lemma clamp_le_size (c : Circuit α) (index) : c.clamp index ≤ c.size := by
  unfold clamp
  omega
lemma weave_nil (place p) (ts : List (Turn α)) : weave [] place p ts = ts.flatMap ops := by
  induction ts generalizing p with
  | nil => simp [weave]
  | cons t ts ih => simp [weave,stretch,ih]
variable [Located α] {n asked : Nat}
/-- What inserting one item does to the two sides of the place. -/
inductive Step : OpTree.Item α → Split α → Split α → Prop
  | whole (m : Moment α) (ls rs : Moments α) : Step (.inr m) (ls,rs) (ls ++ [m],rs)
  | opened (op : α) (ls rs : Moments α) : Step (.inl op) (ls,rs) (ls ++ [⟨[op]⟩],rs)
  | back (op : α) (m : Moment α) (ks ls rs : Moments α) (h : Apart [op] (opsOf (m :: ls))) :
      Step (.inl op) (ks ++ m :: ls,rs) (ks ++ ⟨m.ops ++ [op]⟩ :: ls,rs)
  | passed (op : α) (m : Moment α) (ls rs : Moments α) (h : Apart [op] m.ops) :
      Step (.inl op) (ls,m :: rs) (ls ++ [⟨m.ops ++ [op]⟩],rs)
lemma canAddAt_none (c : Circuit α) (i op) :
    c.canAddAt .none i op = .ok ((c.moments[i]?).all fun m => !m.actsOnAny (qubits op)) := by
  unfold canAddAt
  cases c.moments[i]? <;> rfl
lemma earliestFrom_none (c : Circuit α) (op) (hk : k ≤ c.size) :
    ∃ p, c.earliestFrom .none op k k = .ok p ∧ p ≤ k ∧ Apart [op] (stretch c.moments p k) := by
  induction k with
  | zero => exact ⟨0,rfl,le_rfl,by simpa using (apart_nil_left [op]).symm⟩
  | succ k ih =>
    have hget : c.moments[k]? = some c.moments[k] := getElem?_eq_getElem hk
    have ha : c.actsAt (qubits op) k = c.moments[k].actsOnAny (qubits op) := by rw [actsAt_nat,hget,Option.any_some]
    cases hf : c.moments[k].actsOnAny (qubits op) with
    | true =>
      refine ⟨k+1,?_,le_rfl,by simpa using (apart_nil_left [op]).symm⟩
      simp [earliestFrom,ha,hf]
    | false =>
      obtain ⟨p,hp,hle,hap⟩ := ih (Nat.le_of_succ_le hk)
      refine ⟨p,?_,hle.trans (Nat.le_succ k),?_⟩
      · simp only [earliestFrom,ha,canAddAt_none,hget]
        simpa [bind,Except.bind,hf] using hp
      · rw [stretch_succ hle hget]
        intro o ho x hx
        rcases mem_append.mp hx with hx | hx
        · exact hap o ho x hx
        · exact actsOnAny_eq_false.mp hf o ho x hx
lemma putAt_existing (ls rs) (hm : OverlapFree m) (hop : (qubits op).Nodup) (hf : Apart [op] m.ops) :
    putAt .none ⟨ls ++ m :: rs⟩ ls.length op = (⟨ls ++ ⟨m.ops ++ [op]⟩ :: rs⟩,.ok ()) := by
  have hpad : (⟨ls ++ m :: rs⟩ : Circuit α).padTo (ls.length+1) = ⟨ls ++ m :: rs⟩ := by simp [padTo,size]
  have hw : m.withOp op = .ok ⟨m.ops ++ [op]⟩ := ofList_eq_ok (overlapFree_concat hm hop hf)
  simp [putAt,hpad,hw,setMoment,DeviceRules.none]
lemma putAt_end (ls) (hop : (qubits op).Nodup) : putAt .none ⟨ls⟩ ls.length op = (⟨ls ++ [⟨[op]⟩]⟩,.ok ()) := by
  have hpad : (⟨ls⟩ : Circuit α).padTo (ls.length+1) = ⟨ls ++ [Moment.empty]⟩ := by simp [padTo,size]
  have hw : Moment.empty.withOp op = .ok ⟨[op]⟩ :=
    ofList_eq_ok (overlapFree_concat overlapFree_empty hop (apart_nil_left [op]).symm)
  simp [putAt,hpad,hw,setMoment,DeviceRules.none]

/-- The outcome `o` of a search for a moment leads, once the operation is put there, from one split to another. -/
def Settles (op : α) (a : Split α) (o : Outcome (Circuit α × Nat)) (b : Split α) : Prop :=
  Step (.inl op) a b ∧ ∃ c p, o = .ok (c,p) ∧ putAt .none c p op = (⟨b.1 ++ b.2⟩,.ok ()) ∧
    max a.1.length (p+1) = b.1.length
section
variable (hop : (qubits op).Nodup)
include hop
lemma settles_opened (ls rs) :
    Settles op (ls,rs) (.ok ((⟨ls ++ rs⟩ : Circuit α).insertMoment ls.length .empty,ls.length)) (ls ++ [⟨[op]⟩],rs) := by
  refine ⟨.opened op ls rs,_,_,rfl,?_,by simp⟩
  rw [insertMoment,insertIdx_length]
  simpa [Moment.empty] using putAt_existing ls rs overlapFree_empty hop (apart_nil_left [op]).symm
lemma settles_back (hm : OverlapFree m) (ks ls rs : Moments α) (hf : Apart [op] (opsOf (m :: ls))) :
    Settles op (ks ++ m :: ls,rs) (.ok (⟨(ks ++ m :: ls) ++ rs⟩,ks.length)) (ks ++ ⟨m.ops ++ [op]⟩ :: ls,rs) := by
  have hf' : Apart [op] m.ops := fun o ho x hx => hf o ho x (mem_append_left _ hx)
  refine ⟨.back op m ks ls rs hf,_,_,rfl,?_,by simp⟩
  simpa using putAt_existing ks (ls ++ rs) hm hop hf'
lemma settles_inline (hf : ∀ m ∈ ls, OverlapFree m) (rs) :
    ∃ ls', Settles op (ls,rs) (pickMoment.inlineMoment .none ⟨ls ++ rs⟩ ls.length op) (ls',rs) := by
  rcases eq_nil_or_concat ls with rfl | ⟨ks,m,rfl⟩
  · exact ⟨_,settles_opened hop [] rs⟩
  · have hl : (⟨ks.concat m ++ rs⟩ : Circuit α).moments[(ks.concat m).length-1]? = some m := by simp
    have hs : (0 < (ks.concat m).length && (ks.concat m).length-1 < (⟨ks.concat m ++ rs⟩ : Circuit α).size) := by
      simp [size]
    cases ha : m.actsOnAny (qubits op) with
    | true =>
      refine ⟨ks.concat m ++ [⟨[op]⟩],?_⟩
      rw [pickMoment.inlineMoment,if_pos hs,canAddAt_none,hl]
      simp only [Option.all_some,ha]
      exact settles_opened hop _ rs
    | false =>
      refine ⟨ks ++ [⟨m.ops ++ [op]⟩],?_⟩
      rw [pickMoment.inlineMoment,if_pos hs,canAddAt_none,hl]
      simp only [bind,Except.bind,Option.all_some,ha]
      have hm : OverlapFree m := hf m (by simp)
      have h := settles_back hop hm ks [] rs (by simpa using actsOnAny_eq_false.mp ha)
      simpa using h
variable (hf : ∀ m ∈ ls ++ rs, OverlapFree m)
include hf
lemma settles_earliestFrom (hn : ∀ m ∈ rs.head?, Apart [op] m.ops) : ∃ p b, earliestFrom .none ⟨ls ++ rs⟩ op ls.length ls.length = .ok p ∧
      Settles op (ls,rs) (.ok (⟨ls ++ rs⟩,p)) b := by
  obtain ⟨p,hp,hle,hap⟩ := earliestFrom_none ⟨ls ++ rs⟩ op (k := ls.length) (by simp [size])
  refine ⟨p,?_⟩
  rcases hle.lt_or_eq with hlt | rfl
  · have hs : ls = ls.take p ++ ls[p] :: ls.drop (p+1) := by rw [getElem_cons_drop hlt,take_append_drop]
    have ha : Apart [op] (opsOf (ls[p] :: ls.drop (p+1))) := by simpa [stretch] using hap
    have h := settles_back hop (hf ls[p] (by simp)) (ls.take p) (ls.drop (p+1)) rs ha
    rw [← hs,length_take_of_le hle] at h
    exact ⟨_,hp,h⟩
  · cases rs with
    | nil =>
      refine ⟨(ls ++ [⟨[op]⟩],[]),hp,.opened op ls [],_,_,rfl,?_,by simp⟩
      simpa using putAt_end ls hop
    | cons m rs =>
      have hm : Apart [op] m.ops := hn m rfl
      refine ⟨(ls ++ [⟨m.ops ++ [op]⟩],rs),hp,.passed op m ls rs hm,_,_,rfl,?_,by simp⟩
      simpa using putAt_existing ls rs (hf m (by simp)) hop hm
lemma settles_earliest : ∃ b, Settles op (ls,rs) (pickMoment .none ⟨ls ++ rs⟩ ls.length op .earliest) b := by
  have hh : (⟨ls ++ rs⟩ : Circuit α).moments[ls.length]? = rs.head? := by
    rw [getElem?_append_right le_rfl,Nat.sub_self,head?_eq_getElem?]
  cases hadd : rs.head?.all fun m => !m.actsOnAny (qubits op) with
  | true =>
    have hn : ∀ m ∈ rs.head?, Apart [op] m.ops := by
      intro m hm
      rw [Option.mem_def.mp hm,Option.all_some,Bool.not_eq_true'] at hadd
      exact actsOnAny_eq_false.mp hadd
    obtain ⟨p,b,hp,hb⟩ := settles_earliestFrom hop hf hn
    refine ⟨b,?_⟩
    simpa [pickMoment,canAddAt_none,hh,hadd,hp,bind,Except.bind] using hb
  | false =>
    obtain ⟨ls',h⟩ := settles_inline hop (fun m hm => hf m (mem_append_left _ hm)) rs
    refine ⟨(ls',rs),?_⟩
    simpa [pickMoment,canAddAt_none,hh,hadd,bind,Except.bind] using h

/-- Every known strategy settles every operation; only the earliest moment can be one after the place. -/
lemma settles_pickMoment (hs : Known s) :
    ∃ b, Settles op (ls,rs) (pickMoment .none ⟨ls ++ rs⟩ ls.length op s) b ∧ (s ≠ .earliest → b.2 = rs) := by
  cases s with
  | new | newThenInline => exact ⟨_,settles_opened hop ls rs,fun _ => rfl⟩
  | inline =>
    obtain ⟨ls',h⟩ := settles_inline hop (fun m hm => hf m (mem_append_left _ hm)) rs
    exact ⟨_,h,fun _ => rfl⟩
  | earliest =>
    obtain ⟨b,h⟩ := settles_earliest hop hf
    exact ⟨b,h,fun hne => absurd rfl hne⟩
  | unknown shown => exact absurd rfl (hs shown)
omit hop
lemma insertItems_step (hs : Known s) (hx : OverlapFree ⟨itemOps x⟩) :
    ∃ b, Step x (ls,rs) b ∧ (s ≠ .earliest → b.2 = rs) ∧
      ∀ rest, insertItems .none (x :: rest) s ⟨ls ++ rs⟩ ls.length =
        insertItems .none rest (nextStrategy s x) ⟨b.1 ++ b.2⟩ b.1.length := by
  cases x with
  | inr m =>
    refine ⟨_,.whole m ls rs,fun _ => rfl,fun rest => ?_⟩
    simp [insertItems,insertMoment,insertIdx_length,nextStrategy]
  | inl op =>
    have hop : (qubits op).Nodup := overlapFree_singleton.mp hx
    obtain ⟨b,⟨hst,c,p,hpi,hput,hp⟩,hk⟩ := settles_pickMoment hop hf hs
    refine ⟨b,hst,hk,fun rest => ?_⟩
    simp only [insertItems,hpi,hput,hp,nextStrategy]
end
namespace Step
variable {a b : Split α} (h : Step x a b)
include h
lemma overlapFree (hx : OverlapFree ⟨itemOps x⟩) (ha : ∀ m ∈ a.1 ++ a.2, OverlapFree m) :
    ∀ m ∈ b.1 ++ b.2, OverlapFree m := by
  cases h with
  | whole | opened =>
    simp only [forall_mem_append,forall_mem_singleton] at ha ⊢
    exact ⟨⟨ha.1,hx⟩,ha.2⟩
  | back op m ks ls rs hap =>
    simp only [forall_mem_append,forall_mem_cons] at ha ⊢
    obtain ⟨⟨hks,hm,hls⟩,hrs⟩ := ha
    have hf : Apart [op] m.ops := fun o ho y hy => hap o ho y (mem_append_left _ hy)
    exact ⟨⟨hks,overlapFree_concat hm (overlapFree_singleton.mp hx) hf,hls⟩,hrs⟩
  | passed op m ls rs hap =>
    simp only [forall_mem_append,forall_mem_cons] at ha
    simp only [forall_mem_append,forall_mem_singleton]
    obtain ⟨hls,hm,hrs⟩ := ha
    exact ⟨⟨hls,overlapFree_concat hm (overlapFree_singleton.mp hx) hap⟩,hrs⟩

/-- One step passes moments that have no qubit in common with the item, and puts the item after all that stood before
the place. -/
lemma order :
    ∃ passed, a.2 = passed ++ b.2 ∧ SameOrder (opsOf b.1) (opsOf a.1 ++ (itemOps x ++ opsOf passed)) := by
  cases h with
  | whole | opened => exact ⟨[],rfl,by simp; rfl⟩
  | back op m ks ls rs ha =>
    have hls : Apart [op] (opsOf ls) := fun o ho y hy => ha o ho y (mem_append_right _ hy)
    simpa [itemOps] using (swap hls).append_left (opsOf ks ++ m.ops)
  | passed op m ls rs ha =>
    refine ⟨[m],rfl,?_⟩
    simpa [itemOps] using (swap ha.symm).append_left (opsOf ls)
lemma kept (hh : ∀ m ∈ a.2.head?, ¬ Apart (itemOps x) m.ops) : b.2 = a.2 := by
  cases h with
  | whole | opened | back => rfl
  | passed op m ls rs ha => exact absurd ha (hh m rfl)
lemma length_le : a.1.length ≤ b.1.length := by
  cases h <;> simp
end Step
/-- How many of the `n` moments of a circuit stand before the place once items have been inserted. -/
def placeAfter (n : Nat) (s : Strategy) (c : Circuit α) (k : Nat) (items : List (OpTree.Item α)) : Nat :=
  match insertItems .none items s c k with
  | (d,.ok k') => n-(d.size-k')
  | (_,.error _) => 0

/-- Every item with the place that was asked for and the one at which its turn comes. -/
def turns (n asked : Nat) (s : Strategy) (c : Circuit α) (k : Nat) (items : List (OpTree.Item α)) : List (Turn α) :=
  (items.inits.zip items).map fun (before,x) => ⟨asked,placeAfter n s c k before,itemOps x⟩
lemma mem_zip_inits {β : Type} {xs pre} {x : β} : (pre,x) ∈ xs.inits.zip xs ↔ ∃ post, xs = pre ++ x :: post := by
  rw [mem_iff_getElem?]
  simp only [getElem?_zip_eq_some]
  constructor
  · rintro ⟨i,hpre,hx⟩
    obtain ⟨hi,rfl⟩ := List.getElem?_eq_some_iff.mp hx
    obtain ⟨-,rfl⟩ := List.getElem?_eq_some_iff.mp hpre
    exact ⟨xs.drop (i+1),by simp [getElem_inits]⟩
  · rintro ⟨post,rfl⟩
    exact ⟨pre.length,List.getElem?_eq_some_iff.mpr ⟨by simp; omega,by simp [getElem_inits]⟩,by simp⟩
lemma mem_turns {t} : t ∈ turns n asked s c k items ↔
      ∃ pre x post, items = pre ++ x :: post ∧ t = ⟨asked,placeAfter n s c k pre,itemOps x⟩ := by
  simp only [turns,mem_map,Prod.exists,mem_zip_inits]
  constructor
  · rintro ⟨pre,x,⟨post,h⟩,rfl⟩
    exact ⟨pre,x,post,h,rfl⟩
  · rintro ⟨pre,x,post,h,rfl⟩
    exact ⟨pre,x,⟨post,h⟩,rfl⟩
lemma forall_mem_turns {P : Turn α → Prop} : (∀ t ∈ turns n asked s c k items, P t) ↔
      ∀ before x after, items = before ++ x :: after → P ⟨asked,placeAfter n s c k before,itemOps x⟩ := by
  constructor
  · intro h before x after heq
    exact h _ (mem_turns.mpr ⟨before,x,after,heq,rfl⟩)
  · intro h t ht
    obtain ⟨before,x,after,heq,rfl⟩ := mem_turns.mp ht
    exact h before x after heq
lemma asked_of_mem_turns {t} (ht : t ∈ turns n asked s c k items) : t.asked = asked := by
  obtain ⟨before,x,after,-,rfl⟩ := mem_turns.mp ht
  rfl
lemma placeAfter_of_run {j} (hj : j ≤ old.length) (h : insertItems .none items s c k = (⟨ls ++ old.drop j⟩,.ok ls.length)) :
    placeAfter old.length s c k items = j := by
  simp only [placeAfter,h,size,length_append,length_drop]
  omega
lemma placeAfter_nil (ls) {j} (hj : j ≤ old.length) (s) :
    placeAfter old.length s ⟨ls ++ old.drop j⟩ ls.length [] = j := placeAfter_of_run hj rfl
lemma turns_cons {s' c' k'} (h : ∀ rest, insertItems .none (x :: rest) s c k = insertItems .none rest s' c' k')
    (rest) :
    turns n asked s c k (x :: rest) = ⟨asked,placeAfter n s c k [],itemOps x⟩ :: turns n asked s' c' k' rest := by
  have hp : ∀ pre, placeAfter n s c k (x :: pre) = placeAfter n s' c' k' pre := fun pre => by
    rw [placeAfter,h,placeAfter]
  rw [turns,inits_cons,zip_cons_cons,zip_map_left,turns]
  simp [hp]

/-- Inserting items one after the other: the state that is reached, and the order in which everything then stands, also
with further turns `ts` to come. -/
lemma insertItems_run (asked) (hit : ∀ x ∈ items, OverlapFree ⟨itemOps x⟩) (hs : Known s) {j} (hj : j ≤ old.length)
    (ha : asked ≤ j) (hf : ∀ m ∈ ls ++ old.drop j, OverlapFree m) :
    ∃ ls' j', insertItems .none items s ⟨ls ++ old.drop j⟩ ls.length = (⟨ls' ++ old.drop j'⟩,.ok ls'.length) ∧
      ls.length ≤ ls'.length ∧ j ≤ j' ∧ j' ≤ old.length ∧
      ((s ≠ .earliest ∨ ∀ x ∈ items, ∀ m ∈ (old.drop j).head?, ¬ Apart (itemOps x) m.ops) →
        j' = j ∧ ∀ t ∈ turns old.length asked s ⟨ls ++ old.drop j⟩ ls.length items, t.reached = j) ∧
      (∀ m ∈ ls' ++ old.drop j', OverlapFree m) ∧ ∀ ts, Advancing asked j' ts →
        Advancing asked j (turns old.length asked s ⟨ls ++ old.drop j⟩ ls.length items ++ ts) ∧
        SameOrder (opsOf ls' ++ weave old reached j' ts)
          (opsOf ls ++ weave old reached j (turns old.length asked s ⟨ls ++ old.drop j⟩ ls.length items ++ ts)) := by
  induction items generalizing s ls j with
  | nil => exact ⟨ls,j,rfl,le_rfl,le_rfl,hj,fun _ => ⟨rfl,by simp [turns]⟩,hf,fun ts hts => ⟨hts,refl _⟩⟩
  | cons x rest ih =>
    have hx := hit x mem_cons_self
    obtain ⟨⟨ls₁,rs₁⟩,hst,hk,heq⟩ := insertItems_step hf hs hx
    obtain ⟨passed,hp,hord⟩ := hst.order
    have hfree₁ := hst.overlapFree hx hf
    obtain ⟨j₁,hj₁,hle₁,rfl,hsr⟩ := exists_place_of_drop hj hp
    obtain ⟨ls',j',hrun,hlen,hle,hj',hk',hf',hts⟩ :=
      ih (forall_mem_cons.mp hit).2 (hs.next x) hj₁ (ha.trans hle₁) hfree₁
    refine ⟨ls',j',(heq rest).trans hrun,hst.length_le.trans hlen,hle₁.trans hle,hj',?_,hf',fun ts hadv => ?_⟩
    · intro hsy
      have hsa : old.drop j₁ = old.drop j := hsy.elim hk fun hh => hst.kept (hh x mem_cons_self)
      have hlen := congrArg length hsa
      simp only [length_drop] at hlen
      obtain rfl : j = j₁ := by omega
      obtain ⟨hj'₁,hr⟩ := hk' (hsy.imp (nextStrategy_ne_earliest · x) fun hh y hy => hh y (mem_cons_of_mem _ hy))
      rw [turns_cons heq,placeAfter_nil ls hj s]
      exact ⟨hj'₁,forall_mem_cons.mpr ⟨rfl,hr⟩⟩
    · obtain ⟨hadv₁,horder₁⟩ := hts ts hadv
      have hsk := weave_skip old reached hle₁ hadv₁.head_reached
      rw [turns_cons heq,placeAfter_nil ls hj s]
      refine ⟨⟨le_rfl,le_rfl,ha,hadv₁.mono le_rfl hle₁⟩,horder₁.trans ?_⟩
      refine (hord.append_right _).trans (of_eq ?_)
      simp [weave,hsr,hsk]
lemma forM_checkItem_none (items : List (Item α)) : items.forM (checkItem .none) = .ok () := by
  induction items with
  | nil => rfl
  | cons x rest ih => cases x <;> simpa [checkItem,DeviceRules.none,bind,Except.bind] using ih
lemma insert_eq_insertItems {t} (ht : t.items = .ok items) (c index s) :
    c.insert .none index t s = insertItems .none items s c (c.clamp index) := by
  have hd : (DeviceRules.none : DeviceRules α).decompose = fun op => .ok (.leaf op) := rfl
  simp [Circuit.insert,hd,transform_of_items ht,ht,forM_checkItem_none,bind,Except.bind]

/-- When the turn of an item comes, no moment that was passed since the place asked for acts on its qubits. -/
def KeepsPlace (s : Strategy) (c : Circuit α) (k : Nat) (items : List (OpTree.Item α)) : Prop :=
  ∀ before x after, items = before ++ x :: after →
    Apart (stretch c.moments k (placeAfter c.size s c k before)) (itemOps x)

/-- On every qubit the operations stand between those of the first `k` moments and those of the others. -/
def AskedOrder (c d : Circuit α) (k : Nat) (ops : List α) : Prop :=
  ∀ q, d.onQubit q =
    (⟨c.moments.take k⟩ : Circuit α).onQubit q ++ onWire q ops ++ (⟨c.moments.drop k⟩ : Circuit α).onQubit q
lemma keepsPlace_iff_turns : KeepsPlace s c k items ↔
      ∀ t ∈ turns c.size k s c k items, Apart (stretch c.moments t.asked t.reached) t.ops := by
  rw [forall_mem_turns]
  rfl
lemma turns_ops (n asked s c k) (items : List (Item α)) :
    (turns n asked s c k items).flatMap ops = items.flatMap itemOps := by
  have hzip : (items.inits.zip items).map Prod.snd = items := map_snd_zip (by simp)
  conv_rhs => rw [← hzip]
  simp [turns,flatMap_map]
lemma askedOrder_iff_weave {d} : AskedOrder c d k (items.flatMap itemOps) ↔
      ∀ q, d.onQubit q = onWire q (weave c.moments Turn.asked 0 (turns c.size k s c k items)) := by
  have hn : ∀ u ∈ ([] : List (Turn α)).head?, k ≤ u.asked := by simp
  have hp : ∀ t ∈ turns c.size k s c k items, t.asked = k := fun _ => asked_of_mem_turns
  have hw := weave_const c.moments Turn.asked (Nat.zero_le k) hp hn
  rw [turns_ops,append_nil] at hw
  simp only [AskedOrder,hw,onWire_append,append_assoc]
  rfl
lemma insertItems_at (hc : Legal c) (hk : k ≤ c.size) (hit : ∀ x ∈ items, OverlapFree ⟨itemOps x⟩)
    (hs : Known s) : ∃ ls j, insertItems .none items s c k = (⟨ls ++ c.moments.drop j⟩,.ok ls.length) ∧
      placeAfter c.size s c k items = j ∧ (s ≠ .earliest → j = k) ∧
      (∀ m ∈ ls ++ c.moments.drop j, OverlapFree m) ∧ Advancing k k (turns c.size k s c k items) ∧
      SameOrder (opsOf (ls ++ c.moments.drop j)) (weave c.moments reached 0 (turns c.size k s c k items)) := by
  have hsp : c.moments.take k ++ c.moments.drop k = c.moments := take_append_drop k c.moments
  have hlen : (c.moments.take k).length = k := length_take_of_le hk
  obtain ⟨ls,j,hrun,-,-,hj,hke,hf,hts⟩ := insertItems_run k hit hs hk le_rfl (by rwa [hsp])
  obtain ⟨hadv,hord⟩ := hts [] trivial
  simp only [hsp,hlen,append_nil] at hrun hadv hord
  have hst : opsOf (c.moments.take k) = stretch c.moments 0 k := rfl
  refine ⟨ls,j,hrun,placeAfter_of_run hj hrun,fun hne => (hke (.inl hne)).1,hf,hadv,?_⟩
  rw [hst,← weave_skip _ _ (Nat.zero_le k) hadv.head_reached] at hord
  rw [opsOf_append]
  exact hord
lemma ofOps_of_insertItems {ops} (h : insertItems .none (ops.map .inl) .earliest .empty 0 = (c,.ok k)) : ofOps ops = .ok c := by
  have hit : (node (ops.map .leaf)).items = .ok (ops.map .inl) := itemsAll_leaves ops
  have hin : empty.append .none (.node (ops.map .leaf)) .earliest = (c,.ok k) :=
    (insert_eq_insertItems hit _ _ _).trans h
  simp only [ofOps,ofTree,hin]
  rfl
lemma ofOps_order {ops : List α} (hops : ∀ op ∈ ops, (qubits op).Nodup) :
    ∃ d, ofOps ops = .ok d ∧ Legal d ∧ SameOrder d.operations ops := by
  have hit : ∀ x ∈ ops.map .inl, OverlapFree ⟨itemOps x⟩ := by simpa [itemOps,overlapFree_singleton] using hops
  have hs : Known .earliest := by simp [Known]
  obtain ⟨ls,j,hrun,-,-,hf,-,ho⟩ := insertItems_at (c := empty) (by simp [Legal,empty]) le_rfl hit hs
  refine ⟨_,ofOps_of_insertItems hrun,hf,ho.trans (of_eq ?_)⟩
  rw [show empty.moments = [] from rfl,weave_nil,turns_ops]
  simp [flatMap_map,itemOps]

/-- Inserting a tree always succeeds, keeps every operation and leaves no overlap. The operations stand where they were asked
for if every item keeps its place, and, where they can be told from the old ones, only then. All strategies but the earliest
keep the place of every item. -/
theorem insert_asked_order_iff {c : Circuit α} (hc : ∀ m ∈ c.moments, OverlapFree m) (index : Int) {t : OpTree α}
    {items : List (OpTree.Item α)} (ht : t.items = .ok items) (hitems : ∀ x ∈ items, OverlapFree ⟨itemOps x⟩)
    {s : Strategy} (hs : Known s) :
    ∃ ops d k', t.flatten = .ok ops ∧ c.insert .none index t s = (d, .ok k') ∧ (∀ m ∈ d.moments, OverlapFree m) ∧
      d.operations.Perm (c.operations ++ ops) ∧
      (KeepsPlace s c (c.clamp index) items → AskedOrder c d (c.clamp index) ops) ∧
      ((∀ op ∈ ops, op ∉ c.operations) → AskedOrder c d (c.clamp index) ops → KeepsPlace s c (c.clamp index) items) ∧
      (s ≠ .earliest → KeepsPlace s c (c.clamp index) items) := by
  have hk := clamp_le_size c index
  obtain ⟨ls, j, hrun, -, -, hfree, hadv, horder⟩ := insertItems_at hc hk hitems hs
  have hadv₀ := hadv.mono (Nat.zero_le _) (Nat.zero_le _)
  have hreached : ∀ q, onWire q (opsOf (ls ++ c.moments.drop j)) = _ := horder.wire
  refine ⟨items.flatMap itemOps, _, _, flatten_of_items ht, (insert_eq_insertItems ht c index s).trans hrun, hfree, ?_,
    fun hkeeps => (askedOrder_iff_weave (s := s)).mpr fun q => ?_, fun hfresh hasked => keepsPlace_iff_turns.mpr ?_,
    fun hne before x after heq => ?_⟩
  · have hperm := horder.perm.trans (weave_perm c.moments hadv₀)
    rwa [turns_ops] at hperm
  · have hsame := weave_sameOrder le_rfl hadv₀ (keepsPlace_iff_turns.mp hkeeps)
    rw [stretch_self, List.nil_append] at hsame
    exact (hreached q).trans (hsame.wire q).symm
  · refine apart_of_weave_eq hadv₀ ?_ fun q => ?_
    · intro u hu x hx
      obtain ⟨before, y, after, rfl, rfl⟩ := mem_turns.mp hu
      exact hfresh x (List.mem_flatMap.mpr ⟨y, by simp, hx⟩)
    · exact (askedOrder_iff_weave.mp hasked q).symm.trans (hreached q)
  · have hbefore : ∀ y ∈ before, OverlapFree ⟨itemOps y⟩ := fun y hy => hitems y (heq ▸ List.mem_append_left _ hy)
    obtain ⟨-, j', -, hplace, hkeep, -⟩ := insertItems_at hc hk hbefore hs
    rw [hplace, hkeep hne, stretch_self]
    exact apart_nil_left _

/-- The first operation inserted at the start goes into the first moment, and the second one after that moment though
it was to stand before it. -/
theorem insert_at_start_passes_moment :
    ∃ d k', (⟨[⟨[lineGate .x 0]⟩]⟩ : Circuit (Operation Number)).insert .none 0
        (.node [.leaf (lineGate .z 1), .leaf (lineGate .y 0)]) .earliest = (d, .ok k') ∧
      ¬ AskedOrder ⟨[⟨[lineGate .x 0]⟩]⟩ d 0 [lineGate .z 1, lineGate .y 0] := by
  have hc : ∀ m ∈ (⟨[⟨[lineGate .x 0]⟩]⟩ : Circuit (Operation Number)).moments, OverlapFree m := by
    simp [overlapFree_singleton]
  have ht : (OpTree.node [.leaf (lineGate .z 1), .leaf (lineGate .y 0)]).items =
    .ok [.inl (lineGate .z 1), .inl (lineGate .y 0)] := rfl
  have hitems : ∀ x ∈ [.inl (lineGate .z 1), .inl (lineGate .y 0)], OverlapFree ⟨itemOps x⟩ := by
    simp [itemOps, overlapFree_singleton]
  have hs : Known .earliest := by simp [Known]
  obtain ⟨ops, d, k', hops, hrun, -, -, -, honly, -⟩ := insert_asked_order_iff hc 0 ht hitems hs
  obtain rfl : [lineGate .z 1, lineGate .y 0] = ops := Except.ok.inj hops
  refine ⟨d, k', hrun, fun hasked => ?_⟩
  have hfresh : ∀ op ∈ [lineGate .z 1, lineGate .y 0],
      op ∉ (⟨[⟨[lineGate .x 0]⟩]⟩ : Circuit (Operation Number)).operations := by
    simp [operations, lineGate]
  have hkeeps := honly hfresh hasked [.inl (lineGate .z 1)] (.inl (lineGate .y 0)) [] rfl
  have hmem : lineGate .x 0 ∈ stretch [⟨[lineGate .x 0]⟩] 0
    (placeAfter 1 .earliest ⟨[⟨[lineGate .x 0]⟩]⟩ 0 [.inl (lineGate .z 1)]) := List.mem_singleton_self _
  exact hkeeps _ hmem _ (List.mem_singleton_self _) (List.mem_singleton_self (Qubit.line 0)) (List.mem_singleton_self _)
end QuantumCircuits.Insertion
